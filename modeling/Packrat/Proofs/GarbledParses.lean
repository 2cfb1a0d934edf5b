import Packrat.Proofs.Foreseen
import Packrat.Proofs.GarbledRows

/-!
# Parses of a garbled input

The two phases of a parse whose top rule is a sequence of one-character literals. Plain matching leaves a
result for the sequence at the start of the input that does not answer the second phase: it is a
mismatch, or a match that stops before the end.

* `restored`, `rowOutcome` — the match of the repaired row, and what matching a row gives in a phase.
* `foreseen_garbled` — the outcome of both phases is known.
* `Job.matchPhases_garbled` — what the phases give.
* **`parse_restores_row`** — the errors of the parse.
-/

namespace Packrat

/-- The match of a repaired row at the start of the input. -/
def restored (top : ClauseId) (ids : List ClauseId) (gaps : List (List Char)) : Node :=
  .wrap top (restoredRow ids gaps 0) true

/-- What matching a row gives in a phase. -/
def rowOutcome (phase : Phase) (top : ClauseId) (ids : List ClauseId) (gaps : List (List Char)) :
    Outcome :=
  if phase = .recovery ∨ Intact ids gaps then .matched (restored top ids gaps) else .mismatch

section parses

variable {ctx : Context} {top : ClauseId} {ids : List ClauseId} {chars : List Char}
  {gaps : List (List Char)} {tail : List Char}

/-- The match of a row starts at the start of the input. -/
theorem pos_restored (top : ClauseId) (hne : ids ≠ []) (hle : gaps.length ≤ ids.length) :
    (restored top ids gaps).pos = 0 :=
  Node.pos_wrap (tiles_restoredRow hle 0) (restoredRow_ne_nil hne gaps 0)

/-- The match of a row ends where the row does. -/
theorem stop_restored (top : ClauseId) (hne : ids ≠ []) (hle : gaps.length ≤ ids.length) :
    (restored top ids gaps).stop = pastGaps 0 gaps :=
  Node.stop_wrap (tiles_restoredRow hle 0) (restoredRow_ne_nil hne gaps 0)

/-- The sequence. -/
theorem evaluateSequence_garbled {I : Session → Prop} (hI : Literate ctx I) (hne : ids ≠ [])
    (h : Garbled ctx ids chars gaps tail 0) (depth : Nat) (phase : Phase) (bound : Option ClauseId) :
    Ensures False I (evaluateSequence ctx (matchClause ctx (depth + 1)) phase top ids 0 bound)
      (· = rowOutcome phase top ids gaps) := by
  unfold evaluateSequence
  refine .bind (evaluateElements_garbled hI depth phase top bound h) fun row hrow => ?_
  rw [hrow, rowOutcome]
  by_cases hgives : phase = .recovery ∨ Intact ids gaps
  · have hcomplete := isComplete_restoredRow ids gaps 0
    have hnodes := restoredRow_ne_nil hne gaps 0
    rw [if_pos hgives, if_pos hgives, restored]
    generalize restoredRow ids gaps 0 = nodes at hcomplete hnodes ⊢
    cases nodes with
    | nil => exact absurd rfl hnodes
    | cons node nodes =>
      simp only [hcomplete]
      exact .pure rfl
  · rw [if_neg hgives, if_neg hgives]
    exact .pure rfl

/-- **The outcome of the row is known** in both phases. -/
theorem foreseen_garbled (hseq : ctx.grammar.clause? top = some (.seq ids)) (hne : ids ≠ [])
    (h : Garbled ctx ids chars gaps tail 0) :
    Foreseen ctx top fun phase => rowOutcome phase top ids gaps :=
  ⟨.seq ids, hseq, rfl, rfl, fun hI depth phase => evaluateSequence_garbled hI hne h depth phase none⟩

variable {job : Job} (hseq : job.grammar.clause? job.top = some (.seq ids)) (hne : ids ≠ [])
  (h : Garbled job.context ids chars gaps tail 0)
include hseq hne h

omit hseq in
/-- What plain matching gives stops before the end of an input that needs repair. -/
theorem Job.stop_lt_of_broken (hbroken : ¬(Intact ids gaps ∧ tail = [])) {node : Node}
    (hnode : rowOutcome .discovery job.top ids gaps = .matched node) : node.stop < job.input.size := by
  have hsize : job.input.size = pastGaps 0 gaps + tail.length := h.size_eq
  unfold rowOutcome at hnode
  split at hnode
  · rename_i hintact
    cases hnode
    have htail : tail ≠ [] := fun htail => hbroken ⟨hintact.resolve_left nofun, htail⟩
    have hpositive : 0 < tail.length := List.length_pos_iff.2 htail
    rw [stop_restored job.top hne h.le_length]
    omega
  · cases hnode

/-- **The phases of the parse**: the repaired row is matched, and errors are reported unless the row is
intact and all that the input has. -/
theorem Job.matchPhases_garbled (hrecovery : job.config.recovery = true) :
    ∃ t, job.matchPhases.run job.start =
      .ok ((.matched (restored job.top ids gaps), !decide (Intact ids gaps ∧ tail = [])), t) := by
  have hforeseen := foreseen_garbled (show job.context.grammar.clause? job.top = _ from hseq) hne h
  by_cases hclean : Intact ids gaps ∧ tail = []
  · have hplain : rowOutcome .discovery job.top ids gaps = .matched (restored job.top ids gaps) :=
      if_pos (.inr hclean.1)
    have hsize : job.input.size = pastGaps 0 gaps + tail.length := h.size_eq
    have hcovers : job.covers (rowOutcome .discovery job.top ids gaps) = true := by
      rw [hplain, Job.covers_matched (pos_restored job.top hne h.le_length),
        stop_restored job.top hne h.le_length, hsize, hclean.2]
      exact decide_eq_true rfl
    rw [decide_eq_true hclean, ← hplain]
    exact Job.matchPhases_of_covers hforeseen hcovers
  · have hrepaired : rowOutcome .recovery job.top ids gaps = .matched (restored job.top ids gaps) :=
      if_pos (.inl rfl)
    obtain ⟨final, t, hrun, hfinal⟩ := Job.matchPhases_of_short hforeseen
      (fun node => Job.stop_lt_of_broken hne h hclean) hrecovery
    rw [decide_eq_false hclean, ← hrepaired]
    refine ⟨t, hrun.trans ?_⟩
    -- Plain matching has stored the row itself or a mismatch, which the repaired row outgrows.
    rcases hfinal with rfl | ⟨rfl, hshorter⟩
    · rfl
    · rw [hrepaired] at hshorter ⊢
      unfold rowOutcome at hshorter ⊢
      split at hshorter
      · rename_i hgives
        rw [if_pos hgives]
        rfl
      · cases hshorter

omit hseq in
/-- What is left after the match of a row. -/
theorem Job.rest?_restored :
    job.rest? (restored job.top ids gaps) (!decide (Intact ids gaps ∧ tail = [])) =
      tailError job.input.size tail := by
  have hsize : job.input.size = pastGaps 0 gaps + tail.length := h.size_eq
  rw [rest?, tailError, stop_restored job.top hne h.le_length, hsize]
  by_cases htail : tail = []
  · simp [htail]
  · have hpositive : 0 < tail.length := List.length_pos_iff.2 htail
    simp [htail, hpositive]

omit hseq in
/-- **The errors of the parse**, in order. -/
theorem Job.syntaxErrors_garbled (work : Option Work) :
    (job.assemble (.matched (restored job.top ids gaps)) (!decide (Intact ids gaps ∧ tail = []))
        work).syntaxErrors =
      gapErrors 0 gaps ++ missingErrors job.input.size (ids.drop gaps.length)
        ++ (tailError job.input.size tail).toList := by
  show (if (!decide (Intact ids gaps ∧ tail = [])) = true then
    Node.syntaxErrorsOf (restoredRow ids gaps 0) ++ (job.rest? _ _).toList else []) = _
  by_cases hclean : Intact ids gaps ∧ tail = []
  · rw [decide_eq_true hclean, hclean.1.gapErrors_eq, hclean.1.drop_eq, hclean.2]
    rfl
  · have hmissing : missingErrors (pastGaps 0 gaps) (ids.drop gaps.length) =
        missingErrors job.input.size (ids.drop gaps.length) := h.missingErrors_eq
    rw [Job.rest?_restored hne h, decide_eq_false hclean, syntaxErrorsOf_restoredRow h.le_length,
      hmissing]
    rfl

end parses

/-- **Inserted and cut-off characters are repaired exactly.** Let the body of the top rule be a sequence
of one or more literals of one character each. Let an input have the first of these characters, each
after a gap of characters that are not among them, and let it end there or, if it has all of them, go on
with any tail. With repairs the parse matches. Its errors are one for each gap that is not empty, then
one for each element that is missing, at the end of the input, then the tail, if there is one; and what
they pass over are the gaps and the tail. -/
theorem parse_restores_row {g : Grammar} {rule : String} {top : ClauseId}
    (hr : g.rule? rule = some top) {ids : List ClauseId} (hseq : g.clause? top = some (.seq ids))
    {chars : List Char}
    (hids : List.Forall₂ (fun id c => g.clause? id = some (.literal [c])) ids chars)
    (hne : chars ≠ []) {gaps : List (List Char)} {tail : List Char}
    (hle : gaps.length ≤ chars.length) (hends : gaps.length < chars.length → tail = [])
    (hforeign : ∀ gap ∈ gaps, ∀ c ∈ gap, c ∉ chars) {input : String}
    (hinput : input.toList = garble chars gaps ++ tail) (stats : Bool) :
    ∃ p, parse g rule input ⟨true, stats⟩ = .ok p ∧ p.isMatch = true ∧
      p.unmatched = tailError input.length tail ∧
      p.syntaxErrors = gapErrors 0 gaps ++ missingErrors input.length (ids.drop gaps.length)
        ++ (tailError input.length tail).toList ∧
      (p.syntaxErrors.filter (!·.isDeletion)).map (·.skippedText p.input) =
        ((gaps ++ [tail]).filter (!·.isEmpty)).map String.ofList := by
  let job := g.job rule top input ⟨true, stats⟩
  have hsize : job.input.size = input.length := size_toArray_toList input
  have h : Garbled job.context ids chars gaps tail 0 :=
    ⟨hids, ⟨Nat.zero_le _, hinput⟩, hle, hends, hforeign⟩
  have hids_ne : ids ≠ [] := by
    rintro rfl
    cases hids
    exact hne rfl
  obtain ⟨t, hrun⟩ :=
    Job.matchPhases_garbled (show job.grammar.clause? job.top = some (.seq ids) from hseq) hids_ne h rfl
  obtain ⟨events, hexecute⟩ := Job.execute_of_run hrun
  have herrors := Job.syntaxErrors_garbled hids_ne h t.work
  refine ⟨_, parse_eq_ok (Job.make_eq_ok hr) hexecute, rfl, ?_, ?_, ?_⟩
  · rw [← hsize]
    exact Job.rest?_restored hids_ne h
  · rw [← hsize]
    exact herrors
  · rw [herrors]
    exact h.skippedText_errors

/-- Three letters in a row, one of them twice. -/
def letterRowDefinitions : List Definition := [⟨"S", .seq [.lit "a", .lit "b", .lit "a"]⟩]

/-- The grammar of the letters. -/
def letterRowGrammar : Grammar where
  clauses := #[.literal ['a'], .literal ['b'], .literal ['a'], .seq [0, 1, 2]]
  rules := [⟨"S", false, 3⟩]

/-- The letters with two gaps and without the last one, and with one gap and a tail. -/
theorem parse_restores_row_letters :
    Grammar.build letterRowDefinitions = .ok letterRowGrammar ∧
      (∃ p, parse letterRowGrammar "S" "??a!b" {} = .ok p ∧ p.isMatch = true ∧ p.unmatched = none ∧
        p.syntaxErrors = [⟨0, 2, none⟩, ⟨3, 1, none⟩, ⟨5, 0, some 2⟩]) ∧
      ∃ p, parse letterRowGrammar "S" "a.ba--" {} = .ok p ∧ p.isMatch = true ∧
        p.unmatched = some ⟨4, 2, none⟩ ∧ p.syntaxErrors = [⟨1, 1, none⟩, ⟨4, 2, none⟩] := by
  have hb : Grammar.build letterRowDefinitions = .ok letterRowGrammar := rfl
  have hr : letterRowGrammar.rule? "S" = some 3 := rfl
  have hseq : letterRowGrammar.clause? 3 = some (.seq [0, 1, 2]) := rfl
  have hids : List.Forall₂ (fun id c => letterRowGrammar.clause? id = some (.literal [c])) [0, 1, 2]
      ['a', 'b', 'a'] := .cons rfl (.cons rfl (.cons rfl .nil))
  have hcut : "??a!b".toList = garble ['a', 'b', 'a'] [['?', '?'], ['!']] ++ [] := rfl
  have hlong : "a.ba--".toList = garble ['a', 'b', 'a'] [[], ['.'], []] ++ ['-', '-'] := rfl
  obtain ⟨p, hp, hmatch, hrest, herrors, -⟩ := parse_restores_row hr hseq hids (List.cons_ne_nil _ _)
    (by decide) (fun _ => rfl) (by simp) hcut false
  obtain ⟨q, hq, hmatch', hrest', herrors', -⟩ := parse_restores_row hr hseq hids
    (List.cons_ne_nil _ _) (by decide) (by decide) (by simp) hlong false
  exact ⟨hb, ⟨p, hp, hmatch, hrest, herrors⟩, q, hq, hmatch', hrest', herrors'⟩

end Packrat

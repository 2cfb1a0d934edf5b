import Mathlib.Algebra.Order.Field.Basic
import Mathlib.Algebra.Order.Field.Rat
import Mathlib.Data.Prod.Lex
import Packrat.Proofs.Parsing

/-!
# The most plausible alternative

During recovery a choice whose first alternative holds errors looks at the alternatives after it and
keeps the most plausible one.

* `Node.plausibility` — **the order of plausibility**: a match in which fewer than every second
  character stands for an error comes before one where that is not so; among matches that do not differ
  in this, the longer one; among matches of one length, the one with fewer errors. It is a linear order
  on these three things together.
* `Node.Overruns` — where `preferred` departs from the order: a later match that is heavy with errors
  takes the place of a shorter one that is not.
* `preferred_iff_plausibility_lt` — everywhere else it follows the order.
* `keepPreferred`, `plausibility_le_foldl` — so a search that meets no overrun keeps a maximum.
* `Searches` — the matches that the search of a choice comes to, in the sessions in which it does.
* **`choice_takes_most_plausible`** — what a choice takes.
* `choice_takes_overrun` — an overrun can win.
-/

namespace Packrat

/-! ## The order -/

namespace Node

/-- The number of errors to a character of a match. An empty match has a rate of zero. -/
def errorRate (node : Node) : ℚ := node.errors / node.len

/-- **How plausible a match is.** -/
def plausibility (node : Node) : Bool ×ₗ ℕ ×ₗ ℕᵒᵈ :=
  toLex (decide (node.errorRate < 1 / 2), toLex (node.len, OrderDual.toDual node.errors))

/-- Whether a match that is heavy with errors is longer than an earlier one that is not. -/
def Overruns (earlier later : Node) : Prop :=
  earlier.errorRate < 1 / 2 ∧ 1 / 2 ≤ later.errorRate ∧ earlier.len < later.len

end Node

/-- A match is heavy with errors if its error rate is at least one half. -/
theorem errorHeavy_iff (node : Node) : errorHeavy node = true ↔ 1 / 2 ≤ node.errorRate := by
  rw [errorHeavy, Bool.and_eq_true, decide_eq_true_eq, decide_eq_true_eq, Node.errorRate]
  rcases Nat.eq_zero_or_pos node.len with hzero | hpos
  · norm_num [hzero]
  · have hlen : (0 : ℚ) < node.len := Nat.cast_pos.2 hpos
    rw [le_div_iff₀ hlen, one_div_mul_eq_div, div_le_iff₀ two_pos]
    norm_cast
    rw [Nat.mul_comm]
    exact ⟨fun h => h.2, fun h => ⟨hpos, h⟩⟩

/-- A match is not heavy with errors if its error rate is below one half. -/
theorem errorHeavy_eq_false_iff (node : Node) :
    errorHeavy node = false ↔ node.errorRate < 1 / 2 := by
  rw [← Bool.not_eq_true, errorHeavy_iff, not_le]

/-- The order, criterion by criterion. -/
theorem plausibility_lt_iff (a b : Node) :
    a.plausibility < b.plausibility ↔
      errorHeavy a = true ∧ errorHeavy b = false ∨
        errorHeavy a = errorHeavy b ∧
          (a.len < b.len ∨ a.len = b.len ∧ b.errors < a.errors) := by
  have hlight : ∀ node : Node, decide (node.errorRate < 1 / 2) = !errorHeavy node := by
    intro node
    rw [Bool.eq_iff_iff, decide_eq_true_eq, Bool.not_eq_true', errorHeavy_eq_false_iff]
  rw [Node.plausibility, Node.plausibility, Prod.Lex.toLex_lt_toLex, Prod.Lex.toLex_lt_toLex, hlight,
    hlight, OrderDual.toDual_lt_toDual]
  cases errorHeavy a <;> cases errorHeavy b <;> simp

/-- **Unless there is an overrun, a candidate is preferred exactly if it is more plausible.** -/
theorem preferred_iff_plausibility_lt {candidate best : Node} (h : ¬best.Overruns candidate) :
    preferred candidate best = true ↔ best.plausibility < candidate.plausibility := by
  rw [plausibility_lt_iff]
  simp only [Node.Overruns, ← errorHeavy_iff, ← errorHeavy_eq_false_iff] at h
  simp only [preferred, Bool.or_eq_true, Bool.and_eq_true, Bool.not_eq_true', decide_eq_true_eq,
    beq_iff_eq]
  cases hbest : errorHeavy best with
  | true => cases hcandidate : errorHeavy candidate <;> simp [eq_comm]
  | false =>
    cases hcandidate : errorHeavy candidate with
    | false => simp [eq_comm]
    | true =>
      -- A candidate that is heavy is at most as long here, and if it is as long it has more errors.
      have hle : candidate.len ≤ best.len := by simpa [hbest, hcandidate] using h
      simp only [errorHeavy, Bool.and_eq_true, decide_eq_true_eq, Bool.and_eq_false_iff,
        decide_eq_false_iff_not] at hbest hcandidate
      simp only [Bool.false_eq_true, false_and, false_or, reduceCtorEq, iff_false, or_false]
      omega

/-! ## Keeping the best -/

/-- The better of the best match so far and a candidate. -/
def keepPreferred (best candidate : Node) : Node :=
  if preferred candidate best then candidate else best

/-- What is kept is one of the matches. -/
theorem foldl_keepPreferred_mem (best : Node) (found : List Node) :
    found.foldl keepPreferred best ∈ best :: found := by
  induction found generalizing best with
  | nil => exact List.mem_singleton.2 rfl
  | cons candidate rest ih =>
    rcases List.mem_cons.1 (ih (keepPreferred best candidate)) with hkept | hrest
    · rw [List.foldl_cons, hkept, keepPreferred]
      split <;> simp
    · exact List.mem_cons_of_mem _ (List.mem_cons_of_mem _ hrest)

/-- One comparison keeps a maximum of the two. -/
theorem plausibility_le_keepPreferred {best candidate : Node} (h : ¬best.Overruns candidate) :
    best.plausibility ≤ (keepPreferred best candidate).plausibility ∧
      candidate.plausibility ≤ (keepPreferred best candidate).plausibility := by
  unfold keepPreferred
  split
  · rename_i hpreferred
    exact ⟨((preferred_iff_plausibility_lt h).1 hpreferred).le, le_rfl⟩
  · rename_i hkept
    exact ⟨le_rfl, not_lt.1 fun hlt => hkept ((preferred_iff_plausibility_lt h).2 hlt)⟩

/-- **A search without an overrun keeps a maximum.** -/
theorem plausibility_le_foldl (best : Node) (found : List Node)
    (h : (best :: found).Pairwise fun earlier later => ¬earlier.Overruns later) :
    ∀ other ∈ best :: found,
      other.plausibility ≤ (found.foldl keepPreferred best).plausibility := by
  induction found generalizing best with
  | nil =>
    intro other hother
    rw [List.mem_singleton.1 hother]
    exact le_rfl
  | cons candidate rest ih =>
    have hfirst : ¬best.Overruns candidate := List.rel_of_pairwise_cons h List.mem_cons_self
    obtain ⟨hbest, hcandidate⟩ := plausibility_le_keepPreferred hfirst
    -- Whichever of the two is kept stands before the rest without an overrun.
    have hkept : (keepPreferred best candidate :: rest).Pairwise
        fun earlier later => ¬earlier.Overruns later := by
      unfold keepPreferred
      split
      · exact h.of_cons
      · exact h.sublist ((List.sublist_cons_self candidate rest).cons_cons best)
    have hmax := ih (keepPreferred best candidate) hkept
    have hself := hmax _ List.mem_cons_self
    intro other hother
    rcases List.mem_cons.1 hother with rfl | hother
    · exact hbest.trans hself
    · rcases List.mem_cons.1 hother with rfl | hother
      · exact hcandidate.trans hself
      · exact hmax other (List.mem_cons_of_mem _ hother)

/-! ## The search -/

section search

variable {matcher : Matcher} {pos : Nat} {bound : Option ClauseId} {s t u : Session}

/-- Whether alternatives, matched one after the other, have these outcomes. -/
def Consults (matcher : Matcher) (pos : Nat) (bound : Option ClauseId) (alternatives : List ClauseId)
    (s : Session) (outcomes : List Outcome) (t : Session) : Prop :=
  (alternatives.mapM (matcher .recovery · pos bound)).run s = .ok (outcomes, t)

/-- No alternatives. -/
theorem Consults.nil : Consults matcher pos bound [] s [] s := rfl

/-- One alternative more. -/
theorem Consults.cons {alternative : ClauseId} {rest : List ClauseId} {outcome : Outcome}
    {outcomes : List Outcome}
    (hfirst : (matcher .recovery alternative pos bound).run s = .ok (outcome, u))
    (hrest : Consults matcher pos bound rest u outcomes t) :
    Consults matcher pos bound (alternative :: rest) s (outcome :: outcomes) t := by
  rw [Consults, List.mapM_cons, Session.run_bind_of_ok hfirst, Session.run_bind_of_ok hrest]
  rfl

/-- **What the search of a choice comes to**: after alternatives that do not match, one that matches
with `first`; then, one by one, those that are evaluated after it and match with `found`, as far as they
match. -/
def Searches (matcher : Matcher) (pos : Nat) (bound : Option ClauseId) (missed : List ClauseId)
    (alternative : ClauseId) (evaluated : List ClauseId) (s : Session) (first : Node)
    (found : List Node) (t : Session) : Prop :=
  ∃ misses outcomes u v, Consults matcher pos bound missed s misses u ∧
    (∀ miss ∈ misses, miss.isMatch = false) ∧
    (matcher .recovery alternative pos bound).run u = .ok (.matched first, v) ∧
    Consults matcher pos bound evaluated v outcomes t ∧ found = outcomes.filterMap Outcome.node?

/-- The very first alternative matches. -/
theorem Searches.start {alternative : ClauseId} {evaluated : List ClauseId} {first : Node}
    {outcomes : List Outcome}
    (hfirst : (matcher .recovery alternative pos bound).run s = .ok (.matched first, u))
    (hlater : Consults matcher pos bound evaluated u outcomes t) :
    Searches matcher pos bound [] alternative evaluated s first (outcomes.filterMap Outcome.node?) t :=
  ⟨[], outcomes, s, u, .nil, nofun, hfirst, hlater, rfl⟩

/-- Another alternative that does not match comes before. -/
theorem Searches.miss {alternative hit : ClauseId} {missed evaluated : List ClauseId}
    {outcome : Outcome} {first : Node} {found : List Node} (hmiss : outcome.isMatch = false)
    (hrun : (matcher .recovery alternative pos bound).run s = .ok (outcome, u))
    (h : Searches matcher pos bound missed hit evaluated u first found t) :
    Searches matcher pos bound (alternative :: missed) hit evaluated s first found t := by
  obtain ⟨misses, outcomes, v, w, hmissed, hmisses, htail⟩ := h
  exact ⟨outcome :: misses, outcomes, v, w, .cons hrun hmissed,
    List.forall_mem_cons.2 ⟨hmiss, hmisses⟩, htail⟩

/-- Whether a search may end before the last alternative: it has just found a match without errors that
is no shorter than the one it keeps. -/
def EndsSearch (found : List Node) (chosen : Node) : Prop :=
  ∃ last ∈ found.getLast?, last.errors = 0 ∧ chosen.len ≤ last.len

/-- The end of a search does not depend on what was found at its start. -/
theorem EndsSearch.cons {found : List Node} {chosen : Node} (h : EndsSearch found chosen)
    (earlier : Node) : EndsSearch (earlier :: found) chosen := by
  obtain ⟨last, hlast, hends⟩ := h
  refine ⟨last, ?_, hends⟩
  rw [List.getLast?_cons, Option.mem_def.1 hlast]
  rfl

/-- The search for the most plausible alternative matches the alternatives one by one, to the last or to
one at which it may end, and keeps the best of what it finds. -/
theorem bestAlternative_consults : ∀ {rest : List ClauseId} {best chosen : Node} {s t : Session},
    (bestAlternative matcher .recovery pos bound rest best).run s = .ok (chosen, t) →
    ∃ evaluated outcomes untried, rest = evaluated ++ untried ∧
      Consults matcher pos bound evaluated s outcomes t ∧
      chosen = (outcomes.filterMap Outcome.node?).foldl keepPreferred best ∧
      (untried = [] ∨ EndsSearch (outcomes.filterMap Outcome.node?) chosen)
  | [], best, chosen, s, t, h => by
    cases h
    exact ⟨[], [], [], rfl, .nil, rfl, .inl rfl⟩
  | alternative :: rest, best, chosen, s, t, h => by
    rw [bestAlternative] at h
    obtain ⟨outcome, u, hfirst, h⟩ := Session.run_bind_eq_ok.1 h
    cases outcome with
    | matched candidate =>
      change (if candidate.errors = 0 && (keepPreferred best candidate).len ≤ candidate.len then
          pure (keepPreferred best candidate)
        else bestAlternative matcher .recovery pos bound rest (keepPreferred best candidate)).run u = _
        at h
      split at h
      · rename_i hends
        rw [Bool.and_eq_true, decide_eq_true_eq, decide_eq_true_eq] at hends
        cases h
        exact ⟨[alternative], [.matched candidate], rest, rfl, .cons hfirst .nil, rfl,
          .inr ⟨candidate, rfl, hends⟩⟩
      · obtain ⟨evaluated, outcomes, untried, rfl, hconsults, rfl, hends⟩ := bestAlternative_consults h
        exact ⟨alternative :: evaluated, .matched candidate :: outcomes, untried, rfl,
          .cons hfirst hconsults, rfl, hends.imp_right fun h => h.cons candidate⟩
    | mismatch | pending =>
      obtain ⟨evaluated, outcomes, untried, rfl, hconsults, hends⟩ := bestAlternative_consults h
      exact ⟨alternative :: evaluated, _ :: outcomes, untried, rfl, .cons hfirst hconsults, hends⟩

/-- The first alternative that matches ends the search for it. -/
theorem firstAlternative_searches : ∀ {alternatives : List ClauseId} {node : Node} {s t : Session},
    (firstAlternative matcher .recovery pos bound alternatives).run s = .ok (some node, t) →
    ∃ missed alternative untried, alternatives = missed ++ alternative :: untried ∧
      Searches matcher pos bound missed alternative [] s node [] t
  | [], _, _, _, h => by cases h
  | alternative :: rest, node, s, t, h => by
    rw [firstAlternative] at h
    obtain ⟨outcome, u, hfirst, h⟩ := Session.run_bind_eq_ok.1 h
    cases outcome with
    | matched first =>
      cases h
      exact ⟨[], alternative, rest, rfl, .start hfirst .nil⟩
    | mismatch | pending =>
      obtain ⟨missed, hit, untried, rfl, hsearches⟩ := firstAlternative_searches h
      exact ⟨alternative :: missed, hit, untried, rfl, hsearches.miss rfl hfirst⟩

/-- A choice takes the best of what its search finds. Only the very first alternative is compared with
others, and only if it holds errors; but then with all of them, as long as the search does not end. -/
theorem chooseAlternative_searches {alternatives : List ClauseId} {node : Node}
    (h : (chooseAlternative matcher .recovery pos bound alternatives).run s = .ok (some node, t)) :
    ∃ missed alternative evaluated untried first found,
      alternatives = missed ++ alternative :: (evaluated ++ untried) ∧
      Searches matcher pos bound missed alternative evaluated s first found t ∧
      node = found.foldl keepPreferred first ∧
      (missed = [] → 0 < first.errors → untried = [] ∨ EndsSearch found node) := by
  cases alternatives with
  | nil => cases h
  | cons alternative rest =>
    rw [chooseAlternative] at h
    obtain ⟨outcome, u, hfirst, h⟩ := Session.run_bind_eq_ok.1 h
    cases outcome with
    | matched first =>
      change (if Phase.recovery = .recovery && 0 < first.errors then _ else _ : MatchM _).run u = _ at h
      split at h
      · obtain ⟨chosen, v, hbest, h⟩ := Session.run_bind_eq_ok.1 h
        cases h
        obtain ⟨evaluated, outcomes, untried, rfl, hconsults, hchosen, hends⟩ :=
          bestAlternative_consults hbest
        exact ⟨[], alternative, evaluated, untried, first, _, rfl, .start hfirst hconsults, hchosen,
          fun _ _ => hends⟩
      · rename_i hclean
        cases h
        exact ⟨[], alternative, [], rest, node, [], rfl, .start hfirst .nil, rfl,
          fun _ herrors => absurd (decide_eq_true herrors) hclean⟩
    | mismatch | pending =>
      obtain ⟨missed, hit, untried, rfl, hsearches⟩ := firstAlternative_searches h
      exact ⟨alternative :: missed, hit, [], untried, node, [], rfl, hsearches.miss rfl hfirst, rfl,
        fun hnil => absurd hnil (List.cons_ne_nil alternative missed)⟩

end search

/-! ## Choices -/

/-- **A choice takes the most plausible of the matches that it compares, unless there is an overrun.**
Whatever the matcher and the session, a choice that is evaluated during recovery and matches takes one
of the matches that its search comes to: the first one and those found after it. If the very first
alternative matches with errors, the search goes on to the last one or to one at which it may end. If
none of the matches is heavy with errors and longer than an earlier one that is not, then none is more
plausible than the one taken. -/
theorem choice_takes_most_plausible {matcher : Matcher} {id : ClauseId} {alternatives : List ClauseId}
    {pos : Nat} {bound : Option ClauseId} {s t : Session} {outcome : Outcome}
    (hrun : (evaluateChoice matcher .recovery id alternatives pos bound).run s = .ok (outcome, t))
    (hmatch : outcome.isMatch = true) :
    ∃ missed alternative evaluated untried first found chosen,
      alternatives = missed ++ alternative :: (evaluated ++ untried) ∧
      Searches matcher pos bound missed alternative evaluated s first found t ∧
      outcome = .matched (.wrapOne id chosen chosen.isComplete) ∧ chosen ∈ first :: found ∧
      (missed = [] → 0 < first.errors → untried = [] ∨ EndsSearch found chosen) ∧
      ((first :: found).Pairwise (fun earlier later => ¬earlier.Overruns later) →
        ∀ other ∈ first :: found, other.plausibility ≤ chosen.plausibility) := by
  rw [evaluateChoice] at hrun
  obtain ⟨result, u, hchoose, hrun⟩ := Session.run_bind_eq_ok.1 hrun
  cases result with
  | none =>
    cases hrun
    cases hmatch
  | some chosen =>
    cases hrun
    obtain ⟨missed, alternative, evaluated, untried, first, found, halternatives, hsearches, rfl,
      hends⟩ :=
      chooseAlternative_searches hchoose
    exact ⟨missed, alternative, evaluated, untried, first, found, _, halternatives, hsearches, rfl,
      foldl_keepPreferred_mem first found, hends, plausibility_le_foldl first found⟩

/-- Four letters in a row, or the first three of them. -/
def rowsDefinitions : List Definition :=
  [⟨"S", .choice [.seq [.lit "a", .lit "b", .lit "c", .lit "d"], .seq [.lit "a", .lit "b", .lit "c"]]⟩]

/-- The grammar of the two rows. -/
def rowsGrammar : Grammar where
  clauses := #[.literal ['a'], .literal ['b'], .literal ['c'], .literal ['d'], .seq [0, 1, 2, 3],
    .literal ['a'], .literal ['b'], .literal ['c'], .seq [5, 6, 7], .choice [4, 8]]
  rules := [⟨"S", false, 9⟩]

/-- A row with a letter too many. -/
def rowsContext : Context := ⟨rowsGrammar, "aXbc".toList.toArray⟩

/-- The long row over it: a letter is passed over and one is missing. -/
def longRow : Node :=
  .wrap 4 [.terminal 0 0 1, .skipped 1 1, .terminal 1 2 1, .terminal 2 3 1, .deleted 4 3] true

/-- The short row over it: a letter is passed over. -/
def shortRow : Node :=
  .wrap 8 [.terminal 5 0 1, .skipped 1 1, .terminal 6 2 1, .terminal 7 3 1] true

/-- The long row comes first and is heavy with errors; the short row takes its place. -/
theorem choice_takes_most_plausible_rows :
    Grammar.build rowsDefinitions = .ok rowsGrammar ∧
      [longRow, shortRow].Pairwise (fun earlier later => ¬earlier.Overruns later) ∧
      longRow.plausibility < shortRow.plausibility ∧
      ∃ outcome t, (evaluateChoice (matchClause rowsContext rowsContext.depth) .recovery 9 [4, 8] 0
          none).run (.start 4) = .ok (outcome, t) ∧
        outcome = .matched (.wrapOne 9 shortRow true) ∧
        ∃ missed alternative evaluated untried first found chosen,
          [4, 8] = missed ++ alternative :: (evaluated ++ untried) ∧
          Searches (matchClause rowsContext rowsContext.depth) 0 none missed alternative evaluated
            (.start 4) first found t ∧
          outcome = .matched (.wrapOne 9 chosen chosen.isComplete) ∧ chosen ∈ first :: found ∧
          (missed = [] → 0 < first.errors → untried = [] ∨ EndsSearch found chosen) ∧
          ((first :: found).Pairwise (fun earlier later => ¬earlier.Overruns later) →
            ∀ other ∈ first :: found, other.plausibility ≤ chosen.plausibility) := by
  have hshort : shortRow.errorRate < 1 / 2 := by decide +kernel
  have hovertakes : ¬longRow.Overruns shortRow := fun h => absurd h.2.1 (not_le.2 hshort)
  have hlt : longRow.plausibility < shortRow.plausibility := by
    rw [plausibility_lt_iff]
    decide +kernel
  have hcomputed : ((evaluateChoice (matchClause rowsContext rowsContext.depth) .recovery 9 [4, 8] 0
      none).run (.start 4)).toOption.map Prod.fst = some (.matched (.wrapOne 9 shortRow true)) := by
    decide +kernel
  cases hrun : (evaluateChoice (matchClause rowsContext rowsContext.depth) .recovery 9 [4, 8] 0
      none).run (.start 4) with
  | error e =>
    rw [hrun] at hcomputed
    cases hcomputed
  | ok result =>
    obtain ⟨outcome, t⟩ := result
    rw [hrun] at hcomputed
    have houtcome : outcome = .matched (.wrapOne 9 shortRow true) := Option.some.inj hcomputed
    have hmatch : outcome.isMatch = true := by rw [houtcome]; rfl
    exact ⟨rfl, by simpa using hovertakes, hlt, outcome, t, rfl, houtcome,
      choice_takes_most_plausible hrun hmatch⟩

/-- Two letters, or four characters and two letters. -/
def overrunDefinitions : List Definition :=
  [⟨"S", .choice [.seq [.lit "a", .lit "b"],
    .seq [.anyChar, .anyChar, .anyChar, .anyChar, .lit "x", .lit "y"]]⟩]

/-- The grammar in which the second alternative takes everything. -/
def overrunGrammar : Grammar where
  clauses := #[.literal ['a'], .literal ['b'], .seq [0, 1], .anyChar, .anyChar, .anyChar, .anyChar,
    .literal ['x'], .literal ['y'], .seq [3, 4, 5, 6, 7, 8], .choice [2, 9]]
  rules := [⟨"S", false, 10⟩]

/-- Two letters with one in between, and one more. -/
def overrunContext : Context := ⟨overrunGrammar, "aXbc".toList.toArray⟩

/-- The two letters with one passed over: one error to three characters. -/
def lightMatch : Node := .wrap 2 [.terminal 0 0 1, .skipped 1 1, .terminal 1 2 1] true

/-- Four characters and two missing letters: one error to two characters. -/
def heavyMatch : Node :=
  .wrap 9 [.terminal 3 0 1, .terminal 4 1 1, .terminal 5 2 1, .terminal 6 3 1, .deleted 4 7,
    .deleted 4 8] true

/-- **An overrun can win.** The first alternative matches with an error rate of a third, the second one
with a rate of one half. The second is longer and is taken, although the first is more plausible. -/
theorem choice_takes_overrun :
    Grammar.build overrunDefinitions = .ok overrunGrammar ∧
      lightMatch.errorRate = 1 / 3 ∧ heavyMatch.errorRate = 1 / 2 ∧
      heavyMatch.plausibility < lightMatch.plausibility ∧
      ((([2, 9] : List ClauseId).mapM
        (matchClause overrunContext overrunContext.depth .recovery · 0 none)).run
          (.start 4)).toOption.map Prod.fst = some [.matched lightMatch, .matched heavyMatch] ∧
      ((evaluateChoice (matchClause overrunContext overrunContext.depth) .recovery 10 [2, 9] 0
        none).run (.start 4)).toOption.map Prod.fst = some (.matched (.wrapOne 10 heavyMatch true)) ∧
      (parse overrunGrammar "S" "aXbc" {}).toOption.map Parse.root =
        some (.wrapOne 10 heavyMatch true) := by
  have hlt : heavyMatch.plausibility < lightMatch.plausibility := by
    rw [plausibility_lt_iff]
    decide +kernel
  refine ⟨rfl, ?_, ?_, hlt, ?_, ?_, ?_⟩ <;> decide +kernel

end Packrat

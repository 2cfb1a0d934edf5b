import Mathlib.Data.List.TakeWhile
import Packrat.Proofs.Foreseen

/-!
# Copies of a literal in foreign characters

A repetition of one literal is read from an input that has copies of the literal with runs of foreign
characters before, between and after them. Its repair is known exactly. A run before a copy is passed
over when the copy is taken up again. The run after the last copy is passed over if another one was,
and else left over.

* `scatter` — the input: each copy of the text after its gap.
* `runErrors`, `scatterErrors` — one error for each run that is not empty.
* `scatteredCopies`, `scatteredRow` — the iterations, and the children of the repaired match.
* `Scattered` — what is left of the copies and of the input from a position on. Each copy leads from one
  such place to the next.
* `iterate_scattered`, `iterate_leading` — the loop, in recovery and in plain matching.
* `copiesOutcome`, `foreseen_scattered` — what matching the repetition gives in a phase.
* `forall_empty_of_retained` — plain matching is retained only if a tail is all that is foreign.
* **`parse_recovers_copies`** — the errors of the parse and its iterations.
-/

namespace Packrat

/-! ## Copies and runs -/

/-- Copies of a text, each after its gap. -/
def scatter (text : List Char) (gaps : List (List Char)) : List Char := gaps.flatMap (· ++ text)

/-- The error of a run of foreign characters at a position, unless the run is empty. -/
def runErrors (pos : Nat) (run : List Char) : List SyntaxError :=
  if run = [] then [] else [⟨pos, run.length, none⟩]

/-- The errors of all runs, from a position on: those of the gaps, and that of the tail. -/
def scatterErrors (width : Nat) : Nat → List (List Char) → List Char → List SyntaxError
  | pos, [], tail => runErrors pos tail
  | pos, gap :: gaps, tail =>
    runErrors pos gap ++ scatterErrors width (pos + gap.length + width) gaps tail

/-- The iterations of a repetition, from a position on: one for each copy. -/
def scatteredCopies (item : ClauseId) (width : Nat) : Nat → List (List Char) → List Node
  | _, [] => []
  | pos, gap :: gaps =>
    .terminal item (pos + gap.length) width :: scatteredCopies item width (pos + gap.length + width) gaps

/-- The node of a run that is passed over, unless the run is empty. -/
def passedOver (pos : Nat) (run : List Char) : List Node :=
  if run = [] then [] else [.skipped pos run.length]

/-- The children of a repaired repetition, from a position on: the copies with their gaps, and the tail,
if there was a repair before it. -/
def scatteredRow (item : ClauseId) (width : Nat) : Bool → Nat → List (List Char) → List Char → List Node
  | repaired, pos, [], tail => if repaired then passedOver pos tail else []
  | repaired, pos, gap :: gaps, tail =>
    passedOver pos gap ++ .terminal item (pos + gap.length) width
      :: scatteredRow item width (repaired || !gap.isEmpty) (pos + gap.length + width) gaps tail

/-- Where the children of a repaired repetition end. -/
def scatteredStop (width : Nat) : Bool → Nat → List (List Char) → List Char → Nat
  | repaired, pos, [], tail => if repaired then pos + tail.length else pos
  | repaired, pos, gap :: gaps, tail =>
    scatteredStop width (repaired || !gap.isEmpty) (pos + gap.length + width) gaps tail

/-- Copies with nothing foreign. -/
def Unscathed (gaps : List (List Char)) (tail : List Char) : Prop := (∀ gap ∈ gaps, gap = []) ∧ tail = []

instance (gaps : List (List Char)) (tail : List Char) : Decidable (Unscathed gaps tail) :=
  inferInstanceAs (Decidable (_ ∧ _))

section rows

variable {item : ClauseId} {text : List Char} {width pos : Nat} {repaired : Bool}
  {gap : List Char} {gaps : List (List Char)} {tail : List Char}

/-- The copies after the first one. -/
theorem scatter_cons : scatter text (gap :: gaps) = gap ++ (text ++ scatter text gaps) := by
  rw [scatter, List.flatMap_cons, List.append_assoc]
  rfl

/-- The error of a run is that of its node. -/
theorem syntaxErrorsOf_passedOver_append (pos : Nat) (run : List Char) (nodes : List Node) :
    Node.syntaxErrorsOf (passedOver pos run ++ nodes) =
      runErrors pos run ++ Node.syntaxErrorsOf nodes := by
  unfold passedOver runErrors
  split <;> rfl

/-- A run that is passed over leads to its end. -/
theorem Tiles.passedOver {run : List Char} {nodes : List Node} {stop : Nat}
    (h : Tiles (pos + run.length) nodes stop) : Tiles pos (passedOver pos run ++ nodes) stop := by
  unfold Packrat.passedOver
  split
  · rename_i hempty
    rwa [hempty] at h
  · exact ⟨rfl, h⟩

/-- The children of a repaired repetition stand one after the other. -/
theorem tiles_scatteredRow : Tiles pos (scatteredRow item width repaired pos gaps tail)
    (scatteredStop width repaired pos gaps tail) := by
  induction gaps generalizing pos repaired with
  | nil =>
    rw [scatteredRow, scatteredStop]
    split
    · have htail : Tiles pos (passedOver pos tail ++ []) (pos + tail.length) := .passedOver rfl
      rwa [List.append_nil] at htail
    · rfl
  | cons gap gaps ih => exact Tiles.passedOver ⟨rfl, ih⟩

/-- The children of a repaired repetition are complete. -/
theorem isComplete_scatteredRow :
    (scatteredRow item width repaired pos gaps tail).all Node.isComplete = true := by
  have hrun : ∀ pos run, (passedOver pos run).all Node.isComplete = true := by
    intro pos run
    unfold passedOver
    split <;> rfl
  induction gaps generalizing pos repaired with
  | nil =>
    rw [scatteredRow]
    split
    · exact hrun pos tail
    · rfl
  | cons gap gaps ih =>
    rw [scatteredRow, List.all_append, hrun, List.all_cons, ih]
    rfl

/-- **The matches among the children of a repaired repetition** are its iterations. -/
theorem filter_scatteredRow :
    (scatteredRow item width repaired pos gaps tail).filter (·.error?.isNone) =
      scatteredCopies item width pos gaps := by
  have hrun : ∀ pos run, (passedOver pos run).filter (·.error?.isNone) = [] := by
    intro pos run
    unfold passedOver
    split <;> rfl
  induction gaps generalizing pos repaired with
  | nil =>
    rw [scatteredRow]
    split
    · exact hrun pos tail
    · rfl
  | cons gap gaps ih =>
    rw [scatteredRow, List.filter_append, hrun, List.nil_append, List.filter_cons_of_pos rfl, ih]
    rfl

/-- A repetition of one copy or more has a child. -/
theorem scatteredRow_ne_nil (h : gaps ≠ []) : scatteredRow item width repaired pos gaps tail ≠ [] := by
  cases gaps with
  | nil => exact absurd rfl h
  | cons gap gaps =>
    rw [scatteredRow]
    exact List.append_ne_nil_of_right_ne_nil _ (List.cons_ne_nil _ _)

/-- Without gaps there is no repair, and a tail is left over. -/
theorem scatteredRow_of_empty (h : ∀ gap ∈ gaps, gap = []) :
    scatteredRow item width false pos gaps tail = scatteredRow item width false pos gaps [] := by
  induction gaps generalizing pos with
  | nil => rfl
  | cons gap gaps ih =>
    obtain ⟨rfl, hgaps⟩ := List.forall_mem_cons.1 h
    exact congrArg (_ ++ _ :: ·) (ih hgaps)

/-- A repaired repetition takes all copies. -/
theorem le_scatteredStop :
    pos + (scatter text gaps).length ≤ scatteredStop text.length repaired pos gaps tail := by
  induction gaps generalizing pos repaired with
  | nil =>
    rw [scatteredStop]
    split
    · exact Nat.le_add_right pos _
    · exact Nat.le_refl pos
  | cons gap gaps ih =>
    rw [scatteredStop, scatter_cons, List.length_append, List.length_append, ← Nat.add_assoc,
      ← Nat.add_assoc]
    exact ih

/-- Without gaps all copies are before the first gap. -/
theorem leading_of_empty (h : ∀ gap ∈ gaps, gap = []) : gaps.takeWhile (·.isEmpty) = gaps :=
  List.takeWhile_eq_self_iff.2 fun gap hgap => List.isEmpty_iff.2 (h gap hgap)

/-- With gaps the copies before the first one are not all. -/
theorem scatter_leading_lt (hne : text ≠ []) (h : ¬∀ gap ∈ gaps, gap = []) :
    (scatter text (gaps.takeWhile (·.isEmpty))).length < (scatter text gaps).length := by
  have hlength : 0 < text.length := List.length_pos_iff.2 hne
  induction gaps with
  | nil => exact absurd nofun h
  | cons gap gaps ih =>
    cases gap with
    | nil =>
      have hrest : ¬∀ gap ∈ gaps, gap = [] := by simpa using h
      have hlt := ih hrest
      rw [List.takeWhile_cons_of_pos rfl, scatter_cons, scatter_cons]
      simpa using hlt
    | cons c gap =>
      rw [List.takeWhile_cons_of_neg Bool.false_ne_true, scatter_cons]
      simp [scatter]

/-- Without a tail, a repaired repetition ends after the last copy. -/
theorem scatteredStop_nil :
    scatteredStop text.length repaired pos gaps [] = pos + (scatter text gaps).length := by
  induction gaps generalizing pos repaired with
  | nil =>
    rw [scatteredStop]
    split <;> rfl
  | cons gap gaps ih =>
    rw [scatteredStop, ih, scatter_cons, List.length_append, List.length_append]
    omega

/-- **The errors of a repaired repetition and of what is left after it** are those of the runs. -/
theorem syntaxErrorsOf_scatteredRow {size : Nat}
    (hsize : size = pos + (scatter text gaps).length + tail.length) :
    Node.syntaxErrorsOf (scatteredRow item text.length repaired pos gaps tail) ++
        (if scatteredStop text.length repaired pos gaps tail < size then
          some (⟨scatteredStop text.length repaired pos gaps tail,
            size - scatteredStop text.length repaired pos gaps tail, none⟩ : SyntaxError)
          else none).toList =
      scatterErrors text.length pos gaps tail := by
  induction gaps generalizing pos repaired with
  | nil =>
    obtain rfl : size = pos + tail.length := hsize
    cases repaired with
    | true =>
      have herrors := syntaxErrorsOf_passedOver_append pos tail []
      rw [List.append_nil] at herrors
      simp [scatteredRow, scatteredStop, scatterErrors, herrors, Node.syntaxErrorsOf]
    | false =>
      cases tail with
      | nil => simp [scatteredRow, scatteredStop, scatterErrors, runErrors, Node.syntaxErrorsOf]
      | cons c tail => simp [scatteredRow, scatteredStop, scatterErrors, runErrors, Node.syntaxErrorsOf]
  | cons gap gaps ih =>
    rw [scatter_cons, List.length_append, List.length_append] at hsize
    rw [scatteredRow, scatterErrors, syntaxErrorsOf_passedOver_append, List.append_assoc]
    refine congrArg (runErrors pos gap ++ ·) (ih ?_)
    omega

/-- Without copies only the tail matters. -/
@[simp] theorem unscathed_nil : Unscathed [] tail ↔ tail = [] := by simp [Unscathed]

/-- A gap has to be empty. -/
@[simp] theorem unscathed_cons : Unscathed (gap :: gaps) tail ↔ gap = [] ∧ Unscathed gaps tail := by
  rw [Unscathed, Unscathed, List.forall_mem_cons, and_assoc]

/-- Where there is nothing foreign, there are no errors. -/
theorem Unscathed.scatterErrors_eq (h : Unscathed gaps tail) : scatterErrors width pos gaps tail = [] := by
  obtain ⟨hgaps, rfl⟩ := h
  induction gaps generalizing pos with
  | nil => rfl
  | cons gap gaps ih =>
    obtain ⟨rfl, hrest⟩ := List.forall_mem_cons.1 hgaps
    exact ih hrest

end rows

/-! ## Places in the input -/

/-- **What is left of the copies and of the input from a position on.** The item is a literal; each copy
of its text comes after a gap, and after the last one there is a tail. Gaps and tail have none of the
characters of the text. -/
structure Scattered (ctx : Context) (item : ClauseId) (text : List Char) (gaps : List (List Char))
    (tail : List Char) (pos : Nat) : Prop where
  /-- The item is a literal. -/
  literal : ctx.grammar.clause? item = some (.literal text)
  /-- The text is not empty. -/
  nonempty : text ≠ []
  /-- The rest of the input. -/
  left : ctx.At pos (scatter text gaps ++ tail)
  /-- The gaps have none of the characters. -/
  foreign : ∀ gap ∈ gaps, ∀ c ∈ gap, c ∉ text
  /-- Nor has the tail. -/
  foreign_tail : ∀ c ∈ tail, c ∉ text

/-- A text does not stand where it has not the character. -/
theorem Context.At.startsAt_eq_false {ctx : Context} {pos k : Nat} {left text : List Char}
    (h : ctx.At pos left) (hne : text ≠ []) (hforeign : ∀ c ∈ left[k]?, c ∉ text) :
    Packrat.startsAt ctx.input text (pos + k) = false := by
  cases text with
  | nil => exact absurd rfl hne
  | cons d text =>
    rw [Packrat.startsAt, h.getElem?_add, Bool.and_eq_false_iff, beq_eq_false_iff_ne]
    exact .inl fun heq => hforeign d heq List.mem_cons_self

namespace Scattered

variable {ctx : Context} {item : ClauseId} {text gap : List Char} {gaps : List (List Char)}
  {tail : List Char} {pos : Nat}

/-- A gap, the copy after it and what comes then. -/
theorem first (h : Scattered ctx item text (gap :: gaps) tail pos) :
    ctx.At pos (gap ++ (text ++ (scatter text gaps ++ tail))) := by
  have hleft := h.left
  rwa [scatter_cons, List.append_assoc, List.append_assoc] at hleft

/-- The place after a copy. -/
theorem next (h : Scattered ctx item text (gap :: gaps) tail pos) :
    Scattered ctx item text gaps tail (pos + gap.length + text.length) where
  literal := h.literal
  nonempty := h.nonempty
  left := h.first.skip.skip
  foreign other hother := h.foreign other (List.mem_cons_of_mem gap hother)
  foreign_tail := h.foreign_tail

/-- The input ends after the copies and the tail. -/
theorem size_eq (h : Scattered ctx item text gaps tail pos) :
    ctx.input.size = pos + (scatter text gaps).length + tail.length := by
  rw [h.left.size_eq, List.length_append, Nat.add_assoc]

/-- A copy takes some input. -/
theorem length_pos (h : Scattered ctx item text gaps tail pos) : 0 < text.length :=
  List.length_pos_iff.2 h.nonempty

/-- A copy and its gap take some input. -/
theorem lt_size (h : Scattered ctx item text (gap :: gaps) tail pos) : pos < ctx.input.size := by
  have hnext := h.next.left.le
  have hlength := h.length_pos
  omega

/-- A copy leaves less to go through. -/
theorem exists_fuel (h : Scattered ctx item text (gap :: gaps) tail pos) {fuel : Nat}
    (hfuel : ctx.input.size ≤ fuel + pos) :
    ∃ rest, fuel = rest + 1 ∧ ctx.input.size ≤ rest + (pos + gap.length + text.length) := by
  have hlt := h.lt_size
  have hlength := h.length_pos
  exact ⟨fuel - 1, by omega, by omega⟩

/-- A copy stands after its gap and nowhere before. -/
theorem textOutcome_eq (h : Scattered ctx item text (gap :: gaps) tail pos) {skip : Nat}
    (hskip : skip ≤ gap.length) :
    textOutcome ctx text item (pos + skip) =
      if skip = gap.length then .matched (.terminal item (pos + skip) text.length) else .mismatch := by
  rw [textOutcome]
  by_cases hlast : skip = gap.length
  · subst hlast
    rw [h.first.skip.startsAt, if_pos rfl, if_pos rfl]
  · have hlt : skip < gap.length := by omega
    rw [h.first.startsAt_eq_false h.nonempty, if_neg Bool.false_ne_true, if_neg hlast]
    intro c hc
    rw [List.getElem?_append_left hlt] at hc
    exact h.foreign gap List.mem_cons_self c (List.mem_of_getElem? hc)

/-- There is no copy at the start of a gap. -/
theorem textOutcome_gap (h : Scattered ctx item text (gap :: gaps) tail pos) (hgap : gap ≠ []) :
    textOutcome ctx text item pos = .mismatch := by
  have heq := h.textOutcome_eq (Nat.zero_le gap.length)
  rw [if_neg fun hlen => hgap (List.length_eq_zero_iff.1 hlen.symm)] at heq
  exact heq

/-- There is no copy in the tail, nor at the end. -/
theorem textOutcome_tail (h : Scattered ctx item text [] tail pos) (skip : Nat) :
    textOutcome ctx text item (pos + skip) = .mismatch := by
  have hleft : ctx.At pos tail := h.left
  rw [textOutcome, hleft.startsAt_eq_false h.nonempty, if_neg Bool.false_ne_true]
  exact fun c hc => h.foreign_tail c (List.mem_of_getElem? hc)

/-- The error of a run has its text. -/
theorem skippedText_runErrors {run rest : List Char} (h : ctx.At pos (run ++ rest)) :
    (runErrors pos run).map (·.skippedText ctx.input) =
      ([run].filter (!·.isEmpty)).map String.ofList := by
  cases run with
  | nil => rfl
  | cons c run => exact congrArg ([·]) h.slice_eq

/-- **The errors have the texts of the runs.** -/
theorem skippedText_scatterErrors (h : Scattered ctx item text gaps tail pos) :
    (scatterErrors text.length pos gaps tail).map (·.skippedText ctx.input) =
      ((gaps ++ [tail]).filter (!·.isEmpty)).map String.ofList := by
  induction gaps generalizing pos with
  | nil =>
    have hleft : ctx.At pos (tail ++ []) := by
      rw [List.append_nil]
      exact h.left
    exact skippedText_runErrors hleft
  | cons gap gaps ih =>
    rw [scatterErrors, List.map_append, skippedText_runErrors h.first, ih h.next, ← List.map_append,
      ← List.filter_append]
    rfl

end Scattered

/-! ## The loop -/

/-- The match of all copies at the start of the input. -/
def recovered (top item : ClauseId) (text : List Char) (gaps : List (List Char)) (tail : List Char)
    (complete : Bool) : Node :=
  .wrap top (scatteredRow item text.length false 0 gaps tail) complete

/-- What a repetition at the start of the input gives after its loop, if the iterations are complete. -/
def repetitionOutcome (top : ClauseId) (atLeastOne : Bool) (nodes : List Node) (short : Bool) : Outcome :=
  if nodes = [] then if atLeastOne then .mismatch else .matched (.emptyAt top 0 !short)
  else .matched (.wrap top nodes !short)

/-- What matching the repetition gives in a phase: all copies in recovery, and those before the first gap
in plain matching. -/
def copiesOutcome (top item : ClauseId) (atLeastOne : Bool) (text : List Char) (gaps : List (List Char))
    (tail : List Char) : Phase → Outcome
  | .discovery => repetitionOutcome top atLeastOne
      (scatteredRow item text.length false 0 (gaps.takeWhile (·.isEmpty)) []) !decide (Unscathed gaps tail)
  | .recovery => repetitionOutcome top atLeastOne (scatteredRow item text.length false 0 gaps tail) false

/-- Without a bound a repetition does not stop before its item fails. -/
theorem boundReached_none (matcher : Matcher) (phase : Phase) (pos : Nat) :
    boundReached matcher phase none pos = pure false := by
  cases phase <;> rfl

section loop

variable {ctx : Context} {I : Session → Prop} (hI : Literate ctx I) {top item : ClauseId}
  {text gap : List Char} {gaps : List (List Char)} {tail : List Char} {pos : Nat}

include hI

/-- Looking for a copy somewhere ahead. -/
theorem probe_scattered (h : Scattered ctx item text gaps tail pos) (depth : Nat) {skip : Nat}
    (hskip : pos + skip ≤ ctx.input.size) :
    Ensures False I
      (do
        return (← matchClause ctx (depth + 1) .discovery item (pos + skip) none).node?.map
          fun node => (⟨skip, some node⟩ : RepetitionRepair))
      (· = (textOutcome ctx text item (pos + skip)).node?.map fun node => ⟨skip, some node⟩) := by
  refine .bind (hI.matchClause h.literal hskip depth .discovery none) fun outcome houtcome => ?_
  rw [houtcome]
  exact .pure rfl

/-- **The repair before a copy** passes over the gap. -/
theorem repairRepetition_gap (h : Scattered ctx item text (gap :: gaps) tail pos) (hgap : gap ≠ [])
    (depth : Nat) (repaired : Bool) :
    Ensures False I
      (repairRepetition ctx (matchClause ctx (depth + 1) .discovery · · none) item pos repaired)
      (· = some ⟨gap.length, some (.terminal item (pos + gap.length) text.length)⟩) := by
  have hsize := h.first.size_eq
  rw [List.length_append] at hsize
  have hpositive : 0 < gap.length := List.length_pos_iff.2 hgap
  unfold repairRepetition
  refine .bind (Q := (· = some ⟨gap.length, some (.terminal item (pos + gap.length) text.length)⟩))
    (.findSomeM?_range' hpositive (by omega) (fun skip hskip => ?_) ?_) fun found hfound => ?_
  · have hprobe := probe_scattered hI h depth (show pos + skip ≤ ctx.input.size by omega)
    rw [h.textOutcome_eq (Nat.le_of_lt hskip), if_neg (Nat.ne_of_lt hskip)] at hprobe
    exact hprobe
  · have hprobe := probe_scattered hI h depth (show pos + gap.length ≤ ctx.input.size by omega)
    rw [h.textOutcome_eq (Nat.le_refl _), if_pos rfl] at hprobe
    exact hprobe
  · rw [hfound]
    exact .pure rfl

/-- **The repair after the last copy** passes over the tail, if there was a repair before. -/
theorem repairRepetition_tail (h : Scattered ctx item text [] tail pos) (depth : Nat) (repaired : Bool) :
    Ensures False I
      (repairRepetition ctx (matchClause ctx (depth + 1) .discovery · · none) item pos repaired)
      (· = if repaired = true ∧ tail ≠ [] then some ⟨tail.length, none⟩ else none) := by
  have hsize : ctx.input.size = pos + tail.length := h.left.size_eq
  unfold repairRepetition
  refine .bind (.findSomeM?_none fun skip hskip => ?_) fun found hfound => ?_
  · have hin := List.mem_range'_1.1 hskip
    have hprobe := probe_scattered hI h depth (show pos + skip ≤ ctx.input.size by omega)
    rw [h.textOutcome_tail] at hprobe
    exact hprobe
  · have hguard : (repaired && decide (pos < ctx.input.size)) = true ↔ repaired = true ∧ tail ≠ [] := by
      simp [hsize, List.length_pos_iff]
    rw [hfound]
    show Ensures False I (if (repaired && decide (pos < ctx.input.size)) = true then
      pure (some (⟨ctx.input.size - pos, none⟩ : RepetitionRepair)) else pure none) _
    by_cases hrest : repaired = true ∧ tail ≠ []
    · rw [if_pos (hguard.2 hrest), if_pos hrest, hsize, Nat.add_sub_cancel_left]
      exact .pure rfl
    · rw [if_neg (mt hguard.1 hrest), if_neg hrest]
      exact .pure rfl

/-- A copy without a gap is an iteration, in both phases. -/
theorem iterate_copy (h : Scattered ctx item text ([] :: gaps) tail pos) (depth : Nat) (phase : Phase)
    {fuel : Nat} {repaired : Bool} {rest : List Node × Bool}
    (hrest : Ensures False I (iterate ctx (matchClause ctx (depth + 1)) phase top item none fuel
      (pos + text.length) repaired) (· = rest)) :
    Ensures False I (iterate ctx (matchClause ctx (depth + 1)) phase top item none (fuel + 1) pos repaired)
      (· = (.terminal item pos text.length :: rest.1, rest.2)) := by
  have hfirst : textOutcome ctx text item pos = .matched (.terminal item pos text.length) :=
    h.textOutcome_eq (Nat.le_refl 0)
  have hlength := h.length_pos
  rw [iterate, if_neg (Nat.not_lt.2 h.left.le), boundReached_none, pure_bind, if_neg Bool.false_ne_true]
  refine .bind (hI.matchClause h.literal h.left.le depth phase none) fun outcome houtcome => ?_
  rw [houtcome, hfirst]
  show Ensures False I (if text.length = 0 then _ else _) _
  rw [if_neg (Nat.ne_of_gt hlength)]
  refine .bind hrest fun result hresult => .pure ?_
  rw [hresult]

/-- A copy after a gap is taken up again, in recovery. -/
theorem iterate_gap (h : Scattered ctx item text (gap :: gaps) tail pos) (hgap : gap ≠ []) (depth : Nat)
    {fuel : Nat} {repaired : Bool} {rest : List Node × Bool}
    (hrest : Ensures False I (iterate ctx (matchClause ctx (depth + 1)) .recovery top item none fuel
      (pos + gap.length + text.length) true) (· = rest)) :
    Ensures False I
      (iterate ctx (matchClause ctx (depth + 1)) .recovery top item none (fuel + 1) pos repaired)
      (· = (.skipped pos gap.length :: .terminal item (pos + gap.length) text.length :: rest.1,
        rest.2)) := by
  rw [iterate, if_neg (Nat.not_lt.2 h.left.le), boundReached_none, pure_bind, if_neg Bool.false_ne_true]
  refine .bind (hI.matchClause h.literal h.left.le depth .recovery none) fun outcome houtcome => ?_
  rw [houtcome, h.textOutcome_gap hgap]
  refine .bind (repairRepetition_gap hI h hgap depth repaired) fun repair hrepair => ?_
  subst hrepair
  refine .bind (hI.stable.recordRepair h.left.le) fun _ _ => .bind (hI.stable.note _) fun _ _ => ?_
  refine .bind hrest fun result hresult => .pure ?_
  rw [hresult]

/-- After the last copy the loop of recovery ends, over the tail if there was a repair before. -/
theorem iterate_tail (h : Scattered ctx item text [] tail pos) (depth fuel : Nat) (repaired : Bool) :
    Ensures False I
      (iterate ctx (matchClause ctx (depth + 1)) .recovery top item none (fuel + 1) pos repaired)
      (· = (scatteredRow item text.length repaired pos [] tail, false)) := by
  have hfails : textOutcome ctx text item pos = .mismatch := h.textOutcome_tail 0
  rw [iterate, if_neg (Nat.not_lt.2 h.left.le), boundReached_none, pure_bind, if_neg Bool.false_ne_true]
  refine .bind (hI.matchClause h.literal h.left.le depth .recovery none) fun outcome houtcome => ?_
  rw [houtcome, hfails]
  refine .bind (repairRepetition_tail hI h depth repaired) fun repair hrepair => ?_
  rw [hrepair]
  by_cases hrest : repaired = true ∧ tail ≠ []
  · rw [if_pos hrest]
    refine .bind (hI.stable.recordRepair h.left.le) fun _ _ => .bind (hI.stable.note _) fun _ _ => ?_
    exact .pure (by simp [scatteredRow, passedOver, hrest])
  · rw [if_neg hrest]
    refine .pure ?_
    cases repaired <;> simp_all [scatteredRow, passedOver]

/-- Where no copy stands plain matching ends its loop. -/
theorem iterate_halts (hid : ctx.grammar.clause? item = some (.literal text)) (hle : pos ≤ ctx.input.size)
    (hfails : textOutcome ctx text item pos = .mismatch) (depth fuel : Nat) :
    Ensures False I
      (iterate ctx (matchClause ctx (depth + 1)) .discovery top item none (fuel + 1) pos false)
      (· = ([], decide (pos < ctx.input.size))) := by
  rw [iterate, if_neg (Nat.not_lt.2 hle), boundReached_none, pure_bind, if_neg Bool.false_ne_true]
  refine .bind (hI.matchClause hid hle depth .discovery none) fun outcome houtcome => ?_
  rw [houtcome, hfails]
  exact .pure rfl

/-- **The loop in recovery** takes every copy. The induction is on the gaps, and each step follows one
copy. -/
theorem iterate_scattered (h : Scattered ctx item text gaps tail pos) (depth : Nat) {fuel : Nat}
    (hfuel : ctx.input.size ≤ fuel + pos) (repaired : Bool) :
    Ensures False I
      (iterate ctx (matchClause ctx (depth + 1)) .recovery top item none (fuel + 1) pos repaired)
      (· = (scatteredRow item text.length repaired pos gaps tail, false)) := by
  induction gaps generalizing fuel pos repaired with
  | nil => exact iterate_tail hI h depth fuel repaired
  | cons gap gaps ih =>
    obtain ⟨fuel, rfl, hleft⟩ := h.exists_fuel hfuel
    have hrest := fun repaired => ih h.next hleft repaired
    cases gap with
    | nil => simpa [scatteredRow, passedOver] using iterate_copy hI h depth .recovery (hrest repaired)
    | cons c gap =>
      simpa [scatteredRow, passedOver] using iterate_gap hI h (List.cons_ne_nil c gap) depth (hrest true)

/-- **The loop in plain matching** takes the copies before the first gap. -/
theorem iterate_leading (h : Scattered ctx item text gaps tail pos) (depth : Nat) {fuel : Nat}
    (hfuel : ctx.input.size ≤ fuel + pos) :
    Ensures False I
      (iterate ctx (matchClause ctx (depth + 1)) .discovery top item none (fuel + 1) pos false)
      (· = (scatteredRow item text.length false pos (gaps.takeWhile (·.isEmpty)) [],
        !decide (Unscathed gaps tail))) := by
  induction gaps generalizing fuel pos with
  | nil =>
    have hsize : ctx.input.size = pos + tail.length := h.left.size_eq
    simpa [scatteredRow, hsize, List.length_pos_iff] using
      iterate_halts hI h.literal h.left.le (h.textOutcome_tail 0) depth fuel
  | cons gap gaps ih =>
    obtain ⟨fuel, rfl, hleft⟩ := h.exists_fuel hfuel
    cases gap with
    | nil =>
      simpa [scatteredRow, passedOver] using
        iterate_copy hI h depth .discovery (ih h.next hleft)
    | cons c gap =>
      simpa [scatteredRow, h.lt_size] using
        iterate_halts hI h.literal h.left.le (h.textOutcome_gap (List.cons_ne_nil c gap)) depth (fuel + 1)

omit hI in
/-- A repetition after its loop, if the iterations are complete. -/
theorem evaluateRepetition_of_iterate {matcher : Matcher} {phase : Phase} {nodes : List Node}
    {short : Bool} (atLeastOne : Bool) (hcomplete : nodes.all Node.isComplete = true)
    (hloop : Ensures False I (iterate ctx matcher phase top item none (ctx.input.size + 2) 0 false)
      (· = (nodes, short))) :
    Ensures False I (evaluateRepetition ctx matcher phase top item atLeastOne 0 none)
      (· = repetitionOutcome top atLeastOne nodes short) := by
  unfold evaluateRepetition
  refine .bind hloop fun result hresult => ?_
  rw [hresult]
  cases nodes with
  | nil => exact .pure rfl
  | cons node nodes =>
    simp only [hcomplete, Bool.and_true]
    exact .pure rfl

/-- The repetition in both phases. -/
theorem evaluateRepetition_scattered (h : Scattered ctx item text gaps tail 0) (atLeastOne : Bool)
    (depth : Nat) (phase : Phase) :
    Ensures False I (evaluateRepetition ctx (matchClause ctx (depth + 1)) phase top item atLeastOne 0 none)
      (· = copiesOutcome top item atLeastOne text gaps tail phase) := by
  cases phase with
  | discovery =>
    exact evaluateRepetition_of_iterate atLeastOne isComplete_scatteredRow
      (iterate_leading hI h depth (Nat.le_succ _))
  | recovery =>
    exact evaluateRepetition_of_iterate atLeastOne isComplete_scatteredRow
      (iterate_scattered hI h depth (Nat.le_succ _) false)

end loop

/-! ## Parses -/

section parses

variable {top item : ClauseId} {atLeastOne complete : Bool} {text : List Char}
  {gaps : List (List Char)} {tail : List Char}

/-- **The outcome of the repetition is known** in both phases. -/
theorem foreseen_scattered {ctx : Context}
    (hrepeated : ctx.grammar.clause? top = some (.repeated item atLeastOne))
    (h : Scattered ctx item text gaps tail 0) :
    Foreseen ctx top (copiesOutcome top item atLeastOne text gaps tail) :=
  ⟨.repeated item atLeastOne, hrepeated, rfl, rfl, fun hI depth phase =>
    evaluateRepetition_scattered hI h atLeastOne depth phase⟩

/-- The repaired match starts at the start of the input. -/
theorem pos_recovered (hne : gaps ≠ []) : (recovered top item text gaps tail complete).pos = 0 :=
  Node.pos_wrap tiles_scatteredRow (scatteredRow_ne_nil hne)

/-- The repaired match ends where its children do. -/
theorem stop_recovered (hne : gaps ≠ []) : (recovered top item text gaps tail complete).stop =
    scatteredStop text.length false 0 gaps tail :=
  Node.stop_wrap tiles_scatteredRow (scatteredRow_ne_nil hne)

/-- What plain matching gives reaches over the copies before the first gap. -/
theorem stop_of_discovered {node : Node}
    (h : copiesOutcome top item atLeastOne text gaps tail .discovery = .matched node) :
    node.pos = 0 ∧ node.stop = (scatter text (gaps.takeWhile (·.isEmpty))).length := by
  rw [copiesOutcome, repetitionOutcome] at h
  generalize gaps.takeWhile (·.isEmpty) = leading at h ⊢
  cases leading with
  | nil =>
    rw [if_pos (show scatteredRow item text.length false 0 [] [] = [] from rfl)] at h
    split at h
    · cases h
    · cases h
      exact ⟨rfl, rfl⟩
  | cons gap leading =>
    have hne := List.cons_ne_nil gap leading
    rw [if_neg (scatteredRow_ne_nil hne)] at h
    cases h
    refine ⟨pos_recovered hne, ?_⟩
    rw [← Nat.zero_add (scatter text (gap :: leading)).length, ← scatteredStop_nil]
    exact stop_recovered hne

/-- Without gaps plain matching takes all copies, and leaves the tail. -/
theorem copiesOutcome_of_empty (hne : gaps ≠ []) (hempty : ∀ gap ∈ gaps, gap = []) :
    copiesOutcome top item atLeastOne text gaps tail .discovery =
      .matched (recovered top item text gaps tail (decide (Unscathed gaps tail))) := by
  have hrow : scatteredRow item text.length false 0 gaps tail = _ := scatteredRow_of_empty hempty
  rw [copiesOutcome, repetitionOutcome, leading_of_empty hempty, if_neg (scatteredRow_ne_nil hne),
    Bool.not_not, recovered, hrow]

/-- **The match of plain matching is retained** only if there are no gaps: otherwise that of all copies is
longer. -/
theorem forall_empty_of_retained (htext : text ≠ []) (hne : gaps ≠ [])
    (h : (Outcome.matched (recovered top item text gaps tail complete)).longerThan
      (copiesOutcome top item atLeastOne text gaps tail .discovery) = false) :
    ∀ gap ∈ gaps, gap = [] := by
  cases houtcome : copiesOutcome top item atLeastOne text gaps tail .discovery with
  | matched node =>
    rw [houtcome, Outcome.longerThan_matched, decide_eq_false_iff_not] at h
    by_contra hgap
    have hlt := scatter_leading_lt htext hgap
    have hle : 0 + (scatter text gaps).length ≤ scatteredStop text.length false 0 gaps tail :=
      le_scatteredStop
    have hpos : (recovered top item text gaps tail complete).pos = 0 := pos_recovered hne
    have hstop : (recovered top item text gaps tail complete).stop = _ := stop_recovered hne
    obtain ⟨hpos', hstop'⟩ := stop_of_discovered houtcome
    rw [Node.stop] at hstop hstop'
    omega
  | mismatch | pending =>
    rw [houtcome] at h
    cases h

variable {job : Job} (hne : gaps ≠ []) (h : Scattered job.context item text gaps tail 0)
include hne h

omit hne in
/-- What plain matching gives stops before the end, if there is something foreign. -/
theorem Job.stop_lt_of_scathed (hscathed : ¬Unscathed gaps tail) {node : Node}
    (hnode : copiesOutcome job.top item atLeastOne text gaps tail .discovery = .matched node) :
    node.stop < job.input.size := by
  have hsize : job.input.size = 0 + (scatter text gaps).length + tail.length := h.size_eq
  rw [(stop_of_discovered hnode).2]
  by_cases hempty : ∀ gap ∈ gaps, gap = []
  · have htail : 0 < tail.length := List.length_pos_iff.2 fun htail => hscathed ⟨hempty, htail⟩
    rw [leading_of_empty hempty]
    omega
  · have hlt := scatter_leading_lt h.nonempty hempty
    omega

/-- **The phases of the parse**: all copies are matched, and errors are reported unless there is nothing
foreign. -/
theorem Job.matchPhases_scattered
    (hrepeated : job.grammar.clause? job.top = some (.repeated item atLeastOne))
    (hrecovery : job.config.recovery = true) :
    ∃ complete t, job.matchPhases.run job.start =
      .ok ((.matched (recovered job.top item text gaps tail complete), !decide (Unscathed gaps tail)),
        t) := by
  have hforeseen := foreseen_scattered (show job.context.grammar.clause? job.top = _ from hrepeated) h
  by_cases hclean : Unscathed gaps tail
  · have hsize : job.input.size = 0 + (scatter text gaps).length + tail.length := h.size_eq
    have hcovers : job.covers (copiesOutcome job.top item atLeastOne text gaps tail .discovery) = true := by
      rw [copiesOutcome_of_empty hne hclean.1, Job.covers_matched (pos_recovered hne), stop_recovered hne,
        hsize, hclean.2, scatteredStop_nil]
      exact decide_eq_true rfl
    obtain ⟨t, hrun⟩ := Job.matchPhases_of_covers hforeseen hcovers
    rw [copiesOutcome_of_empty hne hclean.1] at hrun
    rw [decide_eq_true hclean] at hrun ⊢
    exact ⟨true, t, hrun⟩
  · have hrecovered : copiesOutcome job.top item atLeastOne text gaps tail .recovery =
        .matched (recovered job.top item text gaps tail true) := if_neg (scatteredRow_ne_nil hne)
    obtain ⟨final, t, hrun, hfinal⟩ := Job.matchPhases_of_short hforeseen
      (fun node => Job.stop_lt_of_scathed h hclean) hrecovery
    rw [decide_eq_false hclean]
    rcases hfinal with rfl | ⟨rfl, hshorter⟩
    · rw [hrecovered] at hrun
      exact ⟨true, t, hrun⟩
    · rw [hrecovered] at hshorter
      rw [copiesOutcome_of_empty hne (forall_empty_of_retained h.nonempty hne hshorter)] at hrun
      exact ⟨_, t, hrun⟩

/-- **The errors of the parse**, in order. -/
theorem Job.syntaxErrors_scattered (complete : Bool) (work : Option Work) :
    (job.assemble (.matched (recovered job.top item text gaps tail complete))
        (!decide (Unscathed gaps tail)) work).syntaxErrors =
      scatterErrors text.length 0 gaps tail := by
  show (if (!decide (Unscathed gaps tail)) = true then
    Node.syntaxErrorsOf (scatteredRow item text.length false 0 gaps tail) ++
      (job.rest? (recovered job.top item text gaps tail complete) _).toList else []) = _
  by_cases hclean : Unscathed gaps tail
  · rw [decide_eq_true hclean, hclean.scatterErrors_eq]
    rfl
  · have hsize : job.input.size = 0 + (scatter text gaps).length + tail.length := h.size_eq
    rw [decide_eq_false hclean, Bool.not_false, if_pos rfl, rest?, stop_recovered hne]
    simp only [Bool.and_true, decide_eq_true_eq]
    exact syntaxErrorsOf_scatteredRow hsize

end parses

/-- **Foreign characters around a repeated literal are passed over exactly.** Let the body of the top rule
be a repetition, of none or more or of one or more, whose item is a literal that is not empty. Let an
input have one or more copies of the literal, with characters that it has not before, between and after
them. With repairs the parse matches. Its errors are one for each run of such characters, in order, and
what they pass over are the runs; and the matches under its root are the copies. -/
theorem parse_recovers_copies {g : Grammar} {rule : String} {top : ClauseId}
    (hr : g.rule? rule = some top) {item : ClauseId} {atLeastOne : Bool}
    (hrepeated : g.clause? top = some (.repeated item atLeastOne)) {text : List Char}
    (hitem : g.clause? item = some (.literal text)) (htext : text ≠ []) {gaps : List (List Char)}
    (hgaps : gaps ≠ []) {tail : List Char} (hforeign : ∀ run ∈ gaps ++ [tail], ∀ c ∈ run, c ∉ text)
    {input : String} (hinput : input.toList = scatter text gaps ++ tail) (stats : Bool) :
    ∃ p, parse g rule input ⟨true, stats⟩ = .ok p ∧ p.isMatch = true ∧
      p.syntaxErrors = scatterErrors text.length 0 gaps tail ∧
      p.syntaxErrors.map (·.skippedText p.input) =
        ((gaps ++ [tail]).filter (!·.isEmpty)).map String.ofList ∧
      p.root.children.filter (·.error?.isNone) = scatteredCopies item text.length 0 gaps := by
  let job := g.job rule top input ⟨true, stats⟩
  have h : Scattered job.context item text gaps tail 0 :=
    ⟨hitem, htext, ⟨Nat.zero_le _, hinput⟩, fun gap hgap => hforeign gap (List.mem_append_left _ hgap),
      hforeign tail (List.mem_append_right _ (List.mem_singleton_self tail))⟩
  obtain ⟨complete, t, hrun⟩ := Job.matchPhases_scattered hgaps h
    (show job.grammar.clause? job.top = some (.repeated item atLeastOne) from hrepeated) rfl
  obtain ⟨events, hexecute⟩ := Job.execute_of_run hrun
  have herrors := Job.syntaxErrors_scattered hgaps h complete t.work
  refine ⟨_, parse_eq_ok (Job.make_eq_ok hr) hexecute, rfl, herrors, ?_, filter_scatteredRow⟩
  rw [herrors]
  exact h.skippedText_scatterErrors

/-- Pairs of letters, one or more. -/
def pairsDefinitions : List Definition := [⟨"S", .plus (.lit "ab")⟩]

/-- The grammar of the pairs. -/
def pairsGrammar : Grammar where
  clauses := #[.literal ['a', 'b'], .repeated 0 true]
  rules := [⟨"S", false, 1⟩]

/-- Pairs with runs before, between and after them, and with one after them only. -/
theorem parse_recovers_copies_pairs :
    Grammar.build pairsDefinitions = .ok pairsGrammar ∧
      (∃ p, parse pairsGrammar "S" "??ababX-ab!" {} = .ok p ∧ p.isMatch = true ∧
        p.syntaxErrors = [⟨0, 2, none⟩, ⟨6, 2, none⟩, ⟨10, 1, none⟩] ∧
        p.root.children.filter (·.error?.isNone) =
          [.terminal 0 2 2, .terminal 0 4 2, .terminal 0 8 2]) ∧
      ∃ p, parse pairsGrammar "S" "abab.." {} = .ok p ∧ p.isMatch = true ∧
        p.syntaxErrors = [⟨4, 2, none⟩] ∧
        p.root.children.filter (·.error?.isNone) = [.terminal 0 0 2, .terminal 0 2 2] := by
  have hb : Grammar.build pairsDefinitions = .ok pairsGrammar := rfl
  have hr : pairsGrammar.rule? "S" = some 1 := rfl
  have hrepeated : pairsGrammar.clause? 1 = some (.repeated 0 true) := rfl
  have hitem : pairsGrammar.clause? 0 = some (.literal ['a', 'b']) := rfl
  have hmany : "??ababX-ab!".toList =
      scatter ['a', 'b'] [['?', '?'], [], ['X', '-']] ++ ['!'] := rfl
  have hafter : "abab..".toList = scatter ['a', 'b'] [[], []] ++ ['.', '.'] := rfl
  obtain ⟨p, hp, hmatch, herrors, -, hcopies⟩ := parse_recovers_copies hr hrepeated hitem
    (List.cons_ne_nil _ _) (List.cons_ne_nil _ _) (by simp) hmany false
  obtain ⟨q, hq, hmatch', herrors', -, hcopies'⟩ := parse_recovers_copies hr hrepeated hitem
    (List.cons_ne_nil _ _) (List.cons_ne_nil _ _) (by simp) hafter false
  exact ⟨hb, ⟨p, hp, hmatch, herrors, hcopies⟩, q, hq, hmatch', herrors', hcopies'⟩

end Packrat

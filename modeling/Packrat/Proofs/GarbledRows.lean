import Packrat.Proofs.Literals

/-!
# Rows of characters in a garbled input

A sequence of one-character literals is read from an input that has foreign characters between them and
may break off early. Its repair is known exactly.

* `garble` — the input: each character of the row after its gap.
* `restoredRow`, `gapErrors` — the children of the repaired match, and the errors of its gaps.
* `Garbled` — what is left of the row and of the input from a position on. Each element leads from one
  such place to the next.
* `repairSequence_gap` — the search for a repair passes over the gap and nothing else.
* **`evaluateElements_garbled`** — the row, in both phases.
-/

namespace Packrat

/-! ## Rows and gaps -/

/-- A row of characters, each after its gap; characters without a gap are left out. -/
def garble (chars : List Char) (gaps : List (List Char)) : List Char :=
  (List.zipWith (fun c gap => gap ++ [c]) chars gaps).flatten

/-- Where a row ends that starts at a position, each character after its gap. -/
def pastGaps : Nat → List (List Char) → Nat
  | pos, [] => pos
  | pos, gap :: gaps => pastGaps (pos + gap.length + 1) gaps

/-- The errors of the gaps of a row that starts at a position: one for each gap that is not empty. -/
def gapErrors : Nat → List (List Char) → List SyntaxError
  | _, [] => []
  | pos, [] :: gaps => gapErrors (pos + 1) gaps
  | pos, (c :: gap) :: gaps =>
    ⟨pos, (c :: gap).length, none⟩ :: gapErrors (pos + (c :: gap).length + 1) gaps

/-- The errors of elements that are missing at a position. -/
def missingErrors (pos : Nat) (ids : List ClauseId) : List SyntaxError :=
  ids.map fun id => ⟨pos, 0, some id⟩

/-- The error of what an input has after a row. -/
def tailError (inputLen : Nat) (tail : List Char) : Option SyntaxError :=
  if tail = [] then none else some ⟨inputLen - tail.length, tail.length, none⟩

/-- The nodes of a repaired row that starts at a position: the gaps are passed over, and the elements
without one are missing. -/
def restoredRow : List ClauseId → List (List Char) → Nat → List Node
  | ids, [], pos => ids.map (Node.deleted pos)
  | [], _ :: _, _ => []
  | id :: ids, [] :: gaps, pos => .terminal id pos 1 :: restoredRow ids gaps (pos + 1)
  | id :: ids, (c :: gap) :: gaps, pos =>
    .skipped pos (c :: gap).length :: .terminal id (pos + (c :: gap).length) 1
      :: restoredRow ids gaps (pos + (c :: gap).length + 1)

/-- A row that needs no repair: it has all its elements, and no gaps. -/
def Intact (ids : List ClauseId) (gaps : List (List Char)) : Prop := gaps = ids.map fun _ => []

instance (ids : List ClauseId) (gaps : List (List Char)) : Decidable (Intact ids gaps) :=
  inferInstanceAs (Decidable (gaps = _))

/-- A row in which a gap comes first. -/
theorem intact_cons {id : ClauseId} {ids : List ClauseId} {gap : List Char} {gaps : List (List Char)} :
    Intact (id :: ids) (gap :: gaps) ↔ gap = [] ∧ Intact ids gaps := by
  simp [Intact]

/-- A row breaks off. -/
theorem not_intact_nil {id : ClauseId} {ids : List ClauseId} : ¬Intact (id :: ids) [] := by
  simp [Intact]

/-- The length of a garbled row. -/
theorem pastGaps_eq {chars : List Char} {gaps : List (List Char)} (hle : gaps.length ≤ chars.length)
    (pos : Nat) : pastGaps pos gaps = pos + (garble chars gaps).length := by
  induction gaps generalizing chars pos with
  | nil => simp [pastGaps, garble]
  | cons gap gaps ih =>
    cases chars with
    | nil => simp at hle
    | cons c chars =>
      have hrest := ih (Nat.le_of_succ_le_succ hle) (pos + gap.length + 1)
      unfold garble at hrest ⊢
      rw [pastGaps, hrest, List.zipWith_cons_cons, List.flatten_cons, List.length_append,
        List.length_append, List.length_singleton]
      omega

/-- A row of one element or more has a node. -/
theorem restoredRow_ne_nil {ids : List ClauseId} (h : ids ≠ []) (gaps : List (List Char)) (pos : Nat) :
    restoredRow ids gaps pos ≠ [] := by
  unfold restoredRow
  split
  · simpa using h
  · exact absurd rfl h
  · exact List.cons_ne_nil _ _
  · exact List.cons_ne_nil _ _

/-- The nodes of a row are complete. -/
theorem isComplete_restoredRow (ids : List ClauseId) (gaps : List (List Char)) (pos : Nat) :
    (restoredRow ids gaps pos).all Node.isComplete = true := by
  fun_induction restoredRow ids gaps pos with
  | case1 => simp [Node.isComplete]
  | case2 => rfl
  | case3 id ids gaps pos ih =>
    rw [List.all_cons, ih]
    rfl
  | case4 id ids c gap gaps pos ih =>
    rw [List.all_cons, List.all_cons, ih]
    rfl

/-- The nodes of a row stand one after the other. -/
theorem tiles_restoredRow {ids : List ClauseId} {gaps : List (List Char)}
    (hle : gaps.length ≤ ids.length) (pos : Nat) :
    Tiles pos (restoredRow ids gaps pos) (pastGaps pos gaps) := by
  fun_induction restoredRow ids gaps pos with
  | case1 ids pos => exact .deleted
  | case2 => simp at hle
  | case3 id ids gaps pos ih => exact ⟨rfl, ih (Nat.le_of_succ_le_succ hle)⟩
  | case4 id ids c gap gaps pos ih => exact ⟨rfl, rfl, ih (Nat.le_of_succ_le_succ hle)⟩

/-- The errors of a row: those of its gaps, and the elements that are missing. -/
theorem syntaxErrorsOf_restoredRow {ids : List ClauseId} {gaps : List (List Char)}
    (hle : gaps.length ≤ ids.length) (pos : Nat) :
    Node.syntaxErrorsOf (restoredRow ids gaps pos) =
      gapErrors pos gaps ++ missingErrors (pastGaps pos gaps) (ids.drop gaps.length) := by
  fun_induction restoredRow ids gaps pos with
  | case1 ids pos =>
    induction ids with
    | nil => rfl
    | cons id ids ih =>
      rw [List.map_cons, Node.syntaxErrorsOf, ih (Nat.zero_le _)]
      rfl
  | case2 => simp at hle
  | case3 id ids gaps pos ih =>
    rw [Node.syntaxErrorsOf, ih (Nat.le_of_succ_le_succ hle)]
    rfl
  | case4 id ids c gap gaps pos ih =>
    rw [Node.syntaxErrorsOf, Node.syntaxErrorsOf, ih (Nat.le_of_succ_le_succ hle)]
    rfl

/-- An intact row misses no element. -/
theorem Intact.drop_eq {ids : List ClauseId} {gaps : List (List Char)} (h : Intact ids gaps) :
    ids.drop gaps.length = [] := by
  unfold Intact at h
  simp [h]

/-- Without gaps there are no errors of gaps. -/
theorem Intact.gapErrors_eq {ids : List ClauseId} {gaps : List (List Char)} (h : Intact ids gaps)
    (pos : Nat) : gapErrors pos gaps = [] := by
  induction ids generalizing gaps pos with
  | nil =>
    obtain rfl : gaps = [] := h
    rfl
  | cons id ids ih =>
    obtain rfl : gaps = [] :: ids.map fun _ => [] := h
    exact ih rfl (pos + 1)

/-- A gap is no missing element. -/
theorem isDeletion_gapErrors (gaps : List (List Char)) (pos : Nat) :
    ∀ e ∈ gapErrors pos gaps, e.isDeletion = false := by
  fun_induction gapErrors pos gaps with
  | case1 => exact nofun
  | case2 pos gaps ih => exact ih
  | case3 pos c gap gaps ih =>
    intro e he
    rcases List.mem_cons.1 he with rfl | he
    · rfl
    · exact ih e he

/-- The errors of a row that are no missing elements are those of its gaps. -/
theorem filter_rowErrors (gaps : List (List Char)) (pos stop : Nat) (ids : List ClauseId) :
    (gapErrors pos gaps ++ missingErrors stop ids).filter (fun e => !e.isDeletion) =
      gapErrors pos gaps := by
  have hgaps : (gapErrors pos gaps).filter (fun e => !e.isDeletion) = gapErrors pos gaps :=
    List.filter_eq_self.2 fun e he => by rw [isDeletion_gapErrors gaps pos e he]; rfl
  have hmissing : (missingErrors stop ids).filter (fun e => !e.isDeletion) = [] := by
    simp [missingErrors, SyntaxError.isDeletion]
  rw [List.filter_append, hgaps, hmissing, List.append_nil]

/-! ## Places in a garbled input -/

/-- **What is left of a row and of the input from a position on.** The elements of the row are literals
of one character each; the input has the first of them, each after a gap of foreign characters, and goes
on after the last one only if none is missing. -/
structure Garbled (ctx : Context) (ids : List ClauseId) (chars : List Char)
    (gaps : List (List Char)) (tail : List Char) (pos : Nat) : Prop where
  /-- The elements are literals of one character. -/
  literals : List.Forall₂ (fun id c => ctx.grammar.clause? id = some (.literal [c])) ids chars
  /-- The rest of the input. -/
  left : ctx.At pos (garble chars gaps ++ tail)
  /-- Each gap is followed by an element. -/
  le : gaps.length ≤ chars.length
  /-- Nothing follows a row that breaks off. -/
  ends : gaps.length < chars.length → tail = []
  /-- The gaps have none of the characters. -/
  foreign : ∀ gap ∈ gaps, ∀ c ∈ gap, c ∉ chars

namespace Garbled

variable {ctx : Context} {id : ClauseId} {ids : List ClauseId} {c : Char} {chars gap : List Char}
  {gaps : List (List Char)} {tail : List Char} {pos : Nat}

/-- There are as many elements as characters. -/
theorem le_length (h : Garbled ctx ids chars gaps tail pos) : gaps.length ≤ ids.length := by
  rw [h.literals.length_eq]
  exact h.le

/-- A gap, its character and what comes after them. -/
theorem first (h : Garbled ctx (id :: ids) (c :: chars) (gap :: gaps) tail pos) :
    ctx.At pos (gap ++ c :: (garble chars gaps ++ tail)) := by
  have hleft := h.left
  unfold garble at hleft
  rw [List.zipWith_cons_cons, List.flatten_cons, List.append_assoc, List.append_assoc] at hleft
  exact hleft

/-- The place after an element. -/
theorem next (h : Garbled ctx (id :: ids) (c :: chars) (gap :: gaps) tail pos) :
    Garbled ctx ids chars gaps tail (pos + gap.length + 1) where
  literals := (List.forall₂_cons.1 h.literals).2
  left := h.first.skip.next
  le := Nat.le_of_succ_le_succ h.le
  ends hlt := h.ends (Nat.succ_lt_succ hlt)
  foreign other hother d hd hmem :=
    h.foreign other (List.mem_cons_of_mem gap hother) d hd (List.mem_cons_of_mem c hmem)

/-- The characters of the row do not stand in the first gap. -/
theorem not_mem_gap (h : Garbled ctx ids chars (gap :: gaps) tail pos) {d : Char} (hd : d ∈ chars) :
    d ∉ gap := fun hmem => h.foreign gap List.mem_cons_self d hmem hd

/-- The input ends after the row and the tail. -/
theorem size_eq (h : Garbled ctx ids chars gaps tail pos) :
    ctx.input.size = pastGaps pos gaps + tail.length := by
  rw [h.left.size_eq, pastGaps_eq h.le, List.length_append, Nat.add_assoc]

/-- A row that breaks off does so at the end of the input. -/
theorem size_eq_of_missing (h : Garbled ctx (id :: ids) (c :: chars) [] tail pos) :
    ctx.input.size = pos := by
  have hsize := h.left.size_eq
  rw [h.ends (Nat.zero_lt_succ _)] at hsize
  exact hsize

/-- An element that is missing does not match. -/
theorem textOutcome_missing (h : Garbled ctx (id :: ids) (c :: chars) [] tail pos) :
    textOutcome ctx [c] id pos = .mismatch := by
  have hstarts := h.left.startsAt_singleton c 0
  rw [h.ends (Nat.zero_lt_succ _)] at hstarts
  exact if_neg (by rw [show startsAt ctx.input [c] pos = false from hstarts]; exact Bool.false_ne_true)

/-- An element matches after its gap and nowhere before. -/
theorem textOutcome_eq (h : Garbled ctx (id :: ids) (c :: chars) (gap :: gaps) tail pos) {skip : Nat}
    (hskip : skip ≤ gap.length) :
    textOutcome ctx [c] id (pos + skip) =
      if skip = gap.length then .matched (.terminal id (pos + skip) 1) else .mismatch := by
  rw [textOutcome, h.first.startsAt_singleton]
  by_cases hlast : skip = gap.length
  · subst hlast
    simp
  · have hlt : skip < gap.length := by omega
    have hne : gap[skip] ≠ c := by
      rintro rfl
      exact h.not_mem_gap List.mem_cons_self (List.getElem_mem hlt)
    rw [List.getElem?_append_left hlt, List.getElem?_eq_getElem hlt, if_neg hlast]
    exact if_neg (by simpa using hne)

/-- The missing elements stand at the end of the input. -/
theorem missingErrors_eq (h : Garbled ctx ids chars gaps tail pos) :
    missingErrors (pastGaps pos gaps) (ids.drop gaps.length) =
      missingErrors ctx.input.size (ids.drop gaps.length) := by
  by_cases hlt : gaps.length < chars.length
  · rw [h.size_eq, h.ends hlt, List.length_nil, Nat.add_zero]
  · have hall : ids.drop gaps.length = [] := by
      rw [List.drop_eq_nil_iff, h.literals.length_eq]
      omega
    rw [hall]
    rfl

/-- The errors of the gaps have their texts. -/
theorem skippedText_gapErrors (h : Garbled ctx ids chars gaps tail pos) :
    (gapErrors pos gaps).map (·.skippedText ctx.input) =
      (gaps.filter (!·.isEmpty)).map String.ofList := by
  induction gaps generalizing ids chars pos with
  | nil => rfl
  | cons gap gaps ih =>
    cases h.literals with
    | nil => exact absurd h.le (by simp)
    | cons hid hrest =>
      have hothers := ih h.next
      cases gap with
      | nil => exact hothers
      | cons c gap =>
        rw [gapErrors, List.map_cons, hothers, SyntaxError.skippedText, h.first.slice_eq]
        rfl

/-- The error of the tail has its text. -/
theorem skippedText_tailError (h : Garbled ctx ids chars gaps tail pos) :
    (tailError ctx.input.size tail).toList.map (·.skippedText ctx.input) =
      ([tail].filter (!·.isEmpty)).map String.ofList := by
  cases tail with
  | nil => rfl
  | cons c tail =>
    have hlast : ctx.At (ctx.input.size - (c :: tail).length) (c :: tail ++ []) := by
      have hskip := h.left.skip
      rw [h.size_eq, pastGaps_eq h.le, Nat.add_sub_cancel, List.append_nil]
      exact hskip
    exact congrArg ([·]) hlast.slice_eq

/-- Every error of a garbled input that is no missing element has the text of a gap or of the tail. -/
theorem skippedText_errors (h : Garbled ctx ids chars gaps tail pos) :
    ((gapErrors pos gaps ++ missingErrors ctx.input.size (ids.drop gaps.length)
        ++ (tailError ctx.input.size tail).toList).filter (!·.isDeletion)).map
        (·.skippedText ctx.input) =
      ((gaps ++ [tail]).filter (!·.isEmpty)).map String.ofList := by
  have htail : (tailError ctx.input.size tail).toList.filter (!·.isDeletion) =
      (tailError ctx.input.size tail).toList := by
    cases tail with
    | nil => rfl
    | cons c tail => rfl
  rw [List.filter_append, filter_rowErrors, htail, List.map_append, h.skippedText_gapErrors,
    h.skippedText_tailError, List.filter_append, List.map_append]

end Garbled

/-! ## Repairs -/

section repairs

variable {ctx : Context} {I : Session → Prop} (hI : Literate ctx I) {id : ClauseId}
  {ids : List ClauseId} {c : Char} {chars gap : List Char} {gaps : List (List Char)} {tail : List Char}
  {pos : Nat}

/-- The clause after the first one. -/
theorem Garbled.mapM_clause (h : Garbled ctx ids chars gaps tail pos) :
    ids.head?.mapM ctx.clause = pure (chars.head?.map fun d => .literal [d]) := by
  have hliterals := h.literals
  cases hliterals with
  | nil => rfl
  | cons hid _ =>
    show some <$> ctx.clause _ = _
    rw [Context.clause_eq_pure hid, map_pure]
    rfl

/-- Passing over a gap passes over no literal. -/
theorem Garbled.not_leaps (h : Garbled ctx (id :: ids) (c :: chars) (gap :: gaps) tail pos) {skip : Nat}
    (hskip : skip ≤ gap.length) :
    leapsNext ctx.input (.literal [c]) (chars.head?.map fun d => .literal [d]) pos skip = false ∧
      leapsSelf ctx.input (.literal [c]) pos skip = false := by
  have hclear : ∀ d ∈ c :: chars, occursWithin ctx.input [d] pos (pos + skip) = false :=
    fun d hd => h.first.occursWithin_eq_false (h.not_mem_gap hd) hskip
  constructor
  · cases chars with
    | nil => rfl
    | cons d chars => simp [leapsNext, hclear d]
  · simp [leapsSelf, hclear c]

include hI

/-- Taking up an element again inside its gap, or after it. -/
theorem resumeAfter_gap (depth : Nat)
    (h : Garbled ctx (id :: ids) (c :: chars) (gap :: gaps) tail pos) {skip : Nat}
    (hskip : skip ≤ gap.length) :
    Ensures False I
      (resumeAfter ctx (matchClause ctx (depth + 1) .discovery · · none) id (.literal [c])
        (chars.head?.map fun d => .literal [d]) pos skip)
      (· = if skip = gap.length then some (.skip skip (.terminal id (pos + skip) 1)) else none) := by
  obtain ⟨hnext, hself⟩ := h.not_leaps hskip
  have hid : ctx.grammar.clause? id = some (.literal [c]) := (List.forall₂_cons.1 h.literals).1
  have hpos : pos + skip ≤ ctx.input.size := by
    rw [h.first.size_eq, List.length_append]
    omega
  unfold resumeAfter
  rw [hnext, hself]
  simp only [Bool.false_eq_true, if_false]
  refine .bind (hI.matchClause hid hpos depth .discovery none) fun outcome houtcome => ?_
  rw [houtcome, h.textOutcome_eq hskip]
  by_cases hlast : skip = gap.length
  · simp only [hlast, if_true]
    exact .pure rfl
  · simp only [hlast, if_false]
    exact .pure rfl

/-- **The repair of a row before the end of the input** passes over the gap. -/
theorem repairSequence_gap (depth : Nat)
    (h : Garbled ctx (id :: ids) (c :: chars) (gap :: gaps) tail pos) (hgap : gap ≠ []) :
    Ensures False I
      (repairSequence ctx (matchClause ctx (depth + 1) .discovery · · none) id ids pos)
      (· = some (.skip gap.length (.terminal id (pos + gap.length) 1))) := by
  have hid : ctx.grammar.clause? id = some (.literal [c]) := (List.forall₂_cons.1 h.literals).1
  have hpositive : 0 < gap.length := List.length_pos_iff.2 hgap
  have hsize : ctx.input.size = pos + (gap.length + ((garble chars gaps ++ tail).length + 1)) := by
    rw [h.first.size_eq, List.length_append, List.length_cons]
  unfold repairSequence
  rw [if_neg (by omega), Context.clause_eq_pure hid, pure_bind, h.next.mapM_clause, pure_bind]
  refine .findSomeM?_range' hpositive (by omega) (fun skip hskip => ?_) ?_
  · have hnone := resumeAfter_gap hI depth h (Nat.le_of_lt hskip)
    rw [if_neg (by omega)] at hnone
    exact hnone
  · have hsome := resumeAfter_gap hI depth h (Nat.le_refl gap.length)
    rw [if_pos rfl] at hsome
    exact hsome

/-- An element that is missing: plain matching fails, and recovery takes it and all after it as
missing. -/
theorem evaluateElements_missing (depth : Nat) (phase : Phase) (top : ClauseId)
    (bound : Option ClauseId) (h : Garbled ctx (id :: ids) (c :: chars) [] tail pos) :
    Ensures False I (evaluateElements ctx (matchClause ctx (depth + 1)) phase top bound (id :: ids) pos)
      (· = if phase = .recovery then some ((id :: ids).map (Node.deleted pos)) else none) := by
  have hid : ctx.grammar.clause? id = some (.literal [c]) := (List.forall₂_cons.1 h.literals).1
  unfold evaluateElements
  refine .bind (hI.matchClause hid h.left.le depth phase _) fun outcome houtcome => ?_
  rw [houtcome, h.textOutcome_missing]
  cases phase with
  | discovery => exact .pure rfl
  | recovery =>
    rw [repairSequence, if_pos h.size_eq_of_missing.le]
    refine .bind (Q := (· = some .deleteRest)) (.pure rfl) fun repair hrepair => ?_
    subst hrepair
    refine .bind (hI.stable.recordRepair h.left.le) fun _ _ => ?_
    exact .bind (hI.stable.note _) fun _ _ => .pure rfl

/-- An element after a gap: plain matching fails, and recovery passes over the gap. -/
theorem evaluateElements_gap (depth : Nat) (phase : Phase) (top : ClauseId) (bound : Option ClauseId)
    (h : Garbled ctx (id :: ids) (c :: chars) (gap :: gaps) tail pos) (hgap : gap ≠ [])
    {rest : Option (List Node)}
    (hrest : Ensures False I (evaluateElements ctx (matchClause ctx (depth + 1)) phase top bound ids
      (pos + gap.length + 1)) (· = rest)) :
    Ensures False I (evaluateElements ctx (matchClause ctx (depth + 1)) phase top bound (id :: ids) pos)
      (· = if phase = .recovery then
        rest.map fun nodes =>
          .skipped pos gap.length :: .terminal id (pos + gap.length) 1 :: nodes
        else none) := by
  have hid : ctx.grammar.clause? id = some (.literal [c]) := (List.forall₂_cons.1 h.literals).1
  have hfails : textOutcome ctx [c] id pos = .mismatch := by
    have heq := h.textOutcome_eq (Nat.zero_le gap.length)
    rw [if_neg fun hlen => hgap (List.length_eq_zero_iff.1 hlen.symm)] at heq
    exact heq
  unfold evaluateElements
  refine .bind (hI.matchClause hid h.left.le depth phase _) fun outcome houtcome => ?_
  rw [houtcome, hfails]
  cases phase with
  | discovery => exact .pure rfl
  | recovery =>
    refine .bind (repairSequence_gap hI depth h hgap) fun repair hrepair => ?_
    subst hrepair
    refine .bind (hI.stable.recordRepair h.left.le) fun _ _ => .bind (hI.stable.note _) fun _ _ => ?_
    refine .bind hrest fun others hothers => .pure ?_
    rw [hothers]
    rfl

/-- **The row in both phases**: plain matching gives it only where it needs no repair. The induction is
on the gaps, and each step follows one element. -/
theorem evaluateElements_garbled (depth : Nat) (phase : Phase) (top : ClauseId)
    (bound : Option ClauseId) (h : Garbled ctx ids chars gaps tail pos) :
    Ensures False I (evaluateElements ctx (matchClause ctx (depth + 1)) phase top bound ids pos)
      (· = if phase = .recovery ∨ Intact ids gaps then some (restoredRow ids gaps pos) else none) := by
  induction gaps generalizing ids chars pos with
  | nil =>
    cases h.literals with
    | nil => exact .pure (by simp [Intact, restoredRow])
    | cons hid hrest =>
      simpa [not_intact_nil, restoredRow] using evaluateElements_missing hI depth phase top bound h
  | cons gap gaps ih =>
    cases h.literals with
    | nil => exact absurd h.le (by simp)
    | @cons id c ids chars hid hrest =>
      cases gap with
      | nil =>
        have hfirst : textOutcome ctx [c] id pos = .matched (.terminal id pos 1) :=
          h.textOutcome_eq (Nat.le_refl 0)
        unfold evaluateElements
        refine .bind (hI.matchClause hid h.left.le depth phase _) fun outcome houtcome => ?_
        rw [houtcome, hfirst]
        refine .bind (ih h.next) fun others hothers => .pure ?_
        rw [hothers]
        simp only [intact_cons, true_and]
        split <;> rfl
      | cons d gap =>
        refine (evaluateElements_gap hI depth phase top bound h (List.cons_ne_nil d gap)
          (ih h.next)).mono fun row hrow => ?_
        rw [hrow]
        simp only [intact_cons, reduceCtorEq, false_and, or_false]
        split <;> simp_all [restoredRow]

end repairs

end Packrat

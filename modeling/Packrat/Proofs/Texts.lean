import Packrat.Match.Session

/-!
# Texts in an input

* `startsAt_of_drop` — a text that the input goes on with stands there.
* `toList_slice` — the characters of a stretch of input; `exists_startsAt_of_slice`,
  `occursWithin_of_slice` — a text inside the stretch stands somewhere in it.
* **`Context.At`** — the text that is left from a position on. What stands at a position, or nowhere in
  a stretch, is read off that text.
-/

namespace Packrat

/-! ## Stretches of input -/

section stretches

variable {input : Array Char}

/-- A text that the input goes on with stands there. -/
theorem startsAt_of_drop : ∀ {text : List Char} {pos : Nat}, text <+: input.toList.drop pos →
    startsAt input text pos = true
  | [], _, _ => rfl
  | c :: text, pos, h => by
    have hlt : pos < input.toList.length := by
      have hlen := h.length_le
      rw [List.length_cons, List.length_drop] at hlen
      omega
    rw [List.drop_eq_getElem_cons hlt] at h
    obtain ⟨rfl, htext⟩ := List.cons_prefix_cons.1 h
    rw [startsAt, ← Array.getElem?_toList, List.getElem?_eq_getElem hlt, startsAt_of_drop htext,
      beq_self_eq_true]
    rfl

/-- The characters of a stretch of input. -/
theorem toList_slice (pos len : Nat) :
    (slice input pos len).toList = (input.toList.drop pos).take len := by
  rw [slice, String.toList_ofList, Array.toList_extract, List.extract_eq_take_drop,
    Nat.add_sub_cancel_left]

/-- A text inside a stretch of input stands somewhere in it. -/
theorem exists_startsAt_of_slice {text : List Char} {pos len : Nat}
    (h : text <:+: (slice input pos len).toList) :
    ∃ k, k + text.length ≤ len ∧ startsAt input text (pos + k) = true := by
  rw [toList_slice] at h
  obtain ⟨before, after, heq⟩ := h
  refine ⟨before.length, ?_, startsAt_of_drop ?_⟩
  · have hlen := congrArg List.length heq
    simp only [List.length_append, List.length_take] at hlen
    omega
  · have hinput : input.toList.drop pos =
        before ++ (text ++ (after ++ (input.toList.drop pos).drop len)) := by
      conv => lhs; rw [← List.take_append_drop len (input.toList.drop pos), ← heq]
      simp only [List.append_assoc]
    rw [← List.drop_drop, hinput, List.drop_left]
    exact List.prefix_append _ _

/-- A text inside a stretch of input is found there. -/
theorem occursWithin_of_slice {text : List Char} {pos len : Nat}
    (h : text <:+: (slice input pos len).toList) :
    occursWithin input text pos (pos + len) = true := by
  obtain ⟨k, hk, hstarts⟩ := exists_startsAt_of_slice h
  have hany : (List.range (pos + len + 1 - text.length - pos)).any
      (fun k => startsAt input text (pos + k)) = true :=
    List.any_eq_true.2 ⟨k, List.mem_range.2 (by omega), hstarts⟩
  rw [occursWithin, hany, Bool.or_true]

end stretches

/-! ## The text that is left -/

/-- Whether a text is left from a position on. -/
structure Context.At (ctx : Context) (pos : Nat) (text : List Char) : Prop where
  /-- The input reaches as far as the position. -/
  le : pos ≤ ctx.input.size
  /-- The rest of the input is the text. -/
  drop : ctx.input.toList.drop pos = text

namespace Context.At

variable {ctx : Context} {pos : Nat} {text rest : List Char} {c : Char}

/-- How much is left. -/
theorem size_eq (h : ctx.At pos text) : ctx.input.size = pos + text.length := by
  have hlength := congrArg List.length h.drop
  have hle := h.le
  rw [List.length_drop, Array.length_toList] at hlength
  omega

/-- After the first part of a text the second is left. -/
theorem skip (h : ctx.At pos (text ++ rest)) : ctx.At (pos + text.length) rest := by
  have hsize := h.size_eq
  rw [List.length_append] at hsize
  refine ⟨by omega, ?_⟩
  rw [← List.drop_drop, h.drop, List.drop_left]

/-- After the first character the others are left. -/
theorem next (h : ctx.At pos (c :: rest)) : ctx.At (pos + 1) rest :=
  (show ctx.At pos ([c] ++ rest) from h).skip

/-- The characters from a position on. -/
theorem getElem?_add (h : ctx.At pos text) (k : Nat) : ctx.input[pos + k]? = text[k]? := by
  rw [← h.drop, List.getElem?_drop, Array.getElem?_toList]

/-- The character at a position. -/
theorem getElem?_eq (h : ctx.At pos text) : ctx.input[pos]? = text.head? := by
  rw [← h.drop, List.head?_drop, Array.getElem?_toList]

/-- Whether a text stands at a position. -/
theorem startsAt (h : ctx.At pos (text ++ rest)) : startsAt ctx.input text pos = true := by
  refine startsAt_of_drop ?_
  rw [h.drop]
  exact List.prefix_append text rest

/-- Whether a character stands somewhere from a position on. -/
theorem startsAt_singleton (h : ctx.At pos text) (c : Char) (k : Nat) :
    Packrat.startsAt ctx.input [c] (pos + k) = (text[k]? == some c) := by
  rw [Packrat.startsAt, h.getElem?_add, Packrat.startsAt, Bool.and_true]

/-- The text between two positions. -/
theorem extract_eq (h : ctx.At pos (text ++ rest)) :
    (ctx.input.extract pos (pos + text.length)).toList = text := by
  rw [Array.toList_extract, List.extract_eq_take_drop, h.drop, Nat.add_sub_cancel_left, List.take_left]

/-- The text of a stretch of input. -/
theorem slice_eq (h : ctx.At pos (text ++ rest)) :
    slice ctx.input pos text.length = String.ofList text := by
  rw [slice, h.extract_eq]

/-- A character that a text does not have does not stand in it. -/
theorem occursWithin_eq_false (h : ctx.At pos (text ++ rest)) (hc : c ∉ text) {len : Nat}
    (hlen : len ≤ text.length) : occursWithin ctx.input [c] pos (pos + len) = false := by
  rw [occursWithin, List.isEmpty_cons, Bool.false_or, List.any_eq_false]
  intro k hk
  have hlt : k < text.length := by
    rw [List.mem_range, List.length_singleton] at hk
    omega
  rw [h.startsAt_singleton, List.getElem?_append_left hlt, List.getElem?_eq_getElem hlt, beq_iff_eq]
  intro heq
  exact hc (Option.some.inj heq ▸ List.getElem_mem hlt)

end Context.At
end Packrat

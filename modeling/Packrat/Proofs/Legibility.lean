import Packrat.Proofs.Operands

/-!
# Which texts survive being escaped and read back

Written forms are read back one by one, so that a text is damaged where one of its characters is. No
character disappears, and a character that is damaged either comes back as another one or as several, so
that its neighbours cannot make up for it.

* `Escape.reread` — what comes back of one character.
* `Escape.decode_encode` — a text comes back as its characters do.
* `Escape.reread_eq_singleton_iff` — exactly the legible characters come back as they were.
* `eq_singleton_of_flatMap_eq` — if each character of a text is replaced with at least one and the text
  stays the same, then each of them stays the same.
* **`Escape.decode_encode_eq_iff`** — the texts that survive, and the single characters.
-/

namespace Packrat
namespace Escape

/-! ## Numeric escapes -/

/-- A hexadecimal digit is no backslash. -/
theorem digitChar_ne_backslash : ∀ n < 16, Nat.digitChar n ≠ '\\' := by decide

/-- There is no backslash among hexadecimal digits. -/
theorem backslash_notMem_hexDigits (n : Nat) : '\\' ∉ hexDigits n := by
  unfold hexDigits
  induction n using Nat.strongRecOn with
  | ind n ih =>
    by_cases hsmall : n < 16
    · rw [Nat.toDigits_of_lt_base hsmall, List.mem_singleton]
      exact (digitChar_ne_backslash n hsmall).symm
    · rw [Nat.toDigits_of_base_le (by decide) (Nat.le_of_not_lt hsmall), List.mem_append,
        List.mem_singleton]
      rintro (hmem | hlast)
      · exact ih (n / 16) (by omega) hmem
      · exact digitChar_ne_backslash _ (Nat.mod_lt n (by decide)) hlast.symm

/-- There is no backslash among filled digits. -/
theorem backslash_notMem_padZeros (width n : Nat) : '\\' ∉ padZeros width (hexDigits n) := by
  intro hmem
  rcases List.mem_append.1 hmem with hzero | hdigit
  · exact absurd (List.eq_of_mem_replicate hzero) (by decide)
  · exact backslash_notMem_hexDigits n hdigit

/-- Filled digits are digits. -/
theorem padZeros_ne_nil (width n : Nat) : padZeros width (hexDigits n) ≠ [] := by
  intro hnil
  exact Nat.toDigits_ne_nil (List.append_eq_nil_iff.1 hnil).2

/-- **An illegible character is written** with a backslash before another character, or before a `u` and
digits. -/
theorem encodeChar_of_not_isLegible {c : Char} (h : isLegible c = false) :
    c = '\x08' ∧ encodeChar c = ['\\', 'b'] ∨
      ∃ digits, digits ≠ [] ∧ '\\' ∉ digits ∧ encodeChar c = '\\' :: 'u' :: digits := by
  have hne : ∀ {d : Char}, isLegible d = true → c ≠ d := by
    rintro d hd rfl
    rw [h] at hd
    cases hd
  have hrange : ¬(0x20 ≤ c.toNat ∧ c.toNat ≤ 0x7e) := by
    intro hin
    simp [isLegible, hin] at h
  rw [encodeChar, if_neg (hne rfl), if_neg (hne rfl), if_neg (hne rfl), if_neg (hne rfl),
    if_neg (hne rfl), if_neg (hne rfl)]
  split
  · rename_i hback
    exact .inl ⟨hback, rfl⟩
  split
  · exact .inr ⟨_, padZeros_ne_nil 4 c.toNat, backslash_notMem_padZeros 4 c.toNat, rfl⟩
  · refine .inr ⟨_, List.cons_ne_nil _ _, ?_, if_pos (by omega)⟩
    simp [backslash_notMem_hexDigits]

/-! ## One character -/

/-- What comes back of a character. -/
def reread (c : Char) : List Char := decode (encodeChar c)

/-- Where no escape starts, characters stand for themselves. -/
theorem decode_append_of_notMem : ∀ {text : List Char} (rest : List Char), '\\' ∉ text →
    decode (text ++ rest) = text ++ decode rest
  | [], _, _ => rfl
  | c :: text, rest, h => by
    obtain ⟨hc, htext⟩ := not_or.1 (mt List.mem_cons.2 h)
    have hrest := decode_append_of_notMem rest htext
    rw [List.cons_append, List.cons_append, ← hrest]
    cases text ++ rest with
    | nil => rfl
    | cons d more => rw [decode, if_neg (Ne.symm hc)]

/-- An escape before a text in which no other starts. -/
theorem decode_escape_append (code : Char) {text : List Char} (rest : List Char) (h : '\\' ∉ text) :
    decode ('\\' :: code :: text ++ rest) = resolve code :: text ++ decode rest := by
  rw [List.cons_append, List.cons_append, decode, if_pos rfl, decode_append_of_notMem rest h]
  rfl

/-- **A written form is read back apart from what follows it.** -/
theorem decode_encodeChar_append (c : Char) (rest : List Char) :
    decode (encodeChar c ++ rest) = reread c ++ decode rest := by
  unfold reread
  cases hc : isLegible c with
  | true =>
    have hstands := stands_encodeChar hc
    have halone := hstands.decode_append []
    rw [List.append_nil] at halone
    rw [hstands.decode_append, halone]
    rfl
  | false =>
    rcases encodeChar_of_not_isLegible hc with ⟨-, hform⟩ | ⟨digits, -, hdigits, hform⟩
    · rw [hform]
      rfl
    · have halone := decode_escape_append 'u' [] hdigits
      rw [List.append_nil] at halone
      rw [hform, decode_escape_append 'u' rest hdigits, halone, decode, List.append_nil]

/-- **Exactly the legible characters come back as they were.** -/
theorem reread_eq_singleton_iff (c : Char) : reread c = [c] ↔ isLegible c = true := by
  unfold reread
  constructor
  · intro hback
    by_contra hc
    rcases encodeChar_of_not_isLegible (Bool.eq_false_iff.2 hc) with
      ⟨rfl, -⟩ | ⟨digits, hne, hdigits, hform⟩
    · exact absurd hback (by decide)
    · -- More than one character comes back.
      have halone := decode_escape_append 'u' [] hdigits
      rw [List.append_nil, ← hform, hback, decode, List.append_nil] at halone
      injection halone with _ hnil
      exact hne hnil.symm
  · intro hc
    have halone := (stands_encodeChar hc).decode_append []
    rwa [List.append_nil] at halone

/-- No character disappears. -/
theorem reread_ne_nil (c : Char) : reread c ≠ [] := by
  cases hc : isLegible c with
  | true =>
    rw [(reread_eq_singleton_iff c).2 hc]
    exact List.cons_ne_nil _ _
  | false =>
    unfold reread
    rcases encodeChar_of_not_isLegible hc with ⟨-, hform⟩ | ⟨digits, -, -, hform⟩ <;>
    · rw [hform, decode]
      exact List.cons_ne_nil _ _

/-- A single character is read back if and only if it comes back. -/
theorem decodeChar?_encodeChar_eq_iff (c : Char) :
    decodeChar? (encodeChar c) = some c ↔ reread c = [c] := by
  rw [reread_eq_singleton_iff]
  constructor
  · intro hback
    by_contra hc
    rcases encodeChar_of_not_isLegible (Bool.eq_false_iff.2 hc) with
      ⟨rfl, -⟩ | ⟨digits, hne, -, hform⟩
    · exact absurd hback (by decide)
    · -- One escape does not take digits after it.
      obtain ⟨digit, more, rfl⟩ := List.exists_cons_of_ne_nil hne
      rw [hform] at hback
      cases hback
  · exact fun hc => (stands_encodeChar hc).decodeChar?_eq

/-! ## Texts -/

/-- A text comes back as its characters do. -/
theorem decode_encode : ∀ text : List Char, decode (encode text) = text.flatMap reread
  | [] => rfl
  | c :: text => by
    show decode (encodeChar c ++ encode text) = _
    rw [decode_encodeChar_append, decode_encode text, List.flatMap_cons]

end Escape

/-- Replacing each item of a list with at least one makes it no shorter. -/
theorem length_le_flatMap {α β : Type} {f : α → List β} (hf : ∀ a, f a ≠ []) :
    ∀ items : List α, items.length ≤ (items.flatMap f).length
  | [] => Nat.le_refl 0
  | a :: items => by
    have hfirst := List.length_pos_iff.2 (hf a)
    have hrest := length_le_flatMap hf items
    rw [List.flatMap_cons, List.length_append, List.length_cons]
    omega

/-- **If each item of a list is replaced with at least one and the list stays the same, each item does.**
The first item is replaced with itself and what else the rest has no room for. -/
theorem eq_singleton_of_flatMap_eq {α : Type} {f : α → List α} (hf : ∀ a, f a ≠ []) :
    ∀ {items : List α}, items.flatMap f = items → ∀ a ∈ items, f a = [a]
  | [], _ => nofun
  | a :: items, h => by
    obtain ⟨first, more, hfirst⟩ := List.exists_cons_of_ne_nil (hf a)
    rw [List.flatMap_cons, hfirst, List.cons_append] at h
    injection h with hhead htail
    have hlength := congrArg List.length htail
    have hle := length_le_flatMap hf items
    rw [List.length_append] at hlength
    obtain rfl : more = [] := List.length_eq_zero_iff.1 (by omega)
    rw [hhead] at hfirst
    exact List.forall_mem_cons.2 ⟨hfirst, eq_singleton_of_flatMap_eq hf htail⟩

/-- **Exactly the legible texts survive.** A text that is escaped and read back is the same if and only
if each of its characters is a line feed, a carriage return, a tab or printable ASCII, and a single
character is read back from its written form under the same condition. -/
theorem Escape.decode_encode_eq_iff :
    (∀ text : List Char,
      decode (encode text) = text ↔ ∀ c ∈ text, isLegible c = true) ∧
    ∀ c : Char, decodeChar? (encodeChar c) = some c ↔ isLegible c = true := by
  refine ⟨fun text => ?_, fun c => ?_⟩
  · rw [decode_encode]
    constructor
    · intro hsame c hc
      exact (reread_eq_singleton_iff c).1 (eq_singleton_of_flatMap_eq reread_ne_nil hsame c hc)
    · intro hlegible
      have hback : text.flatMap reread = text.flatMap fun c => [c] :=
        List.flatMap_congr fun c hc => (reread_eq_singleton_iff c).2 (hlegible c hc)
      rw [hback, List.flatMap_singleton']
  · rw [decodeChar?_encodeChar_eq_iff, reread_eq_singleton_iff]

/-- A backspace comes back as the letter of its escape, and the letter that follows does not help. -/
example : Escape.decode (Escape.encode ['\x08', 'b']) = ['b', 'b'] := by decide

end Packrat

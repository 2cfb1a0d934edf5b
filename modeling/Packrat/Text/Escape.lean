/-!
# Escapes inside quoted literals

Grammar notation writes literals between quotes, and this file holds the two directions of that
notation, both over `List Char`.

* `Escape.encode` — the escaped form of a text; `Escape.encodeChar` is its one-character case.
* `Escape.decode` — resolves backslash escapes; a backslash with nothing after it stands for
  itself.
* `Escape.decodeChar?` — reads exactly one character, escaped or not.

**The two directions are not inverse on all texts**: characters outside printable ASCII are written
with a numeric escape, which reading does not resolve (a `u` after a backslash stands for `u`).
-/

namespace Packrat
namespace Escape

/-! ## Writing -/

/-- The hexadecimal digits of `n`, lower case, most significant first. -/
def hexDigits (n : Nat) : List Char := Nat.toDigits 16 n

/-- Fills `digits` with leading zeros up to `width`. -/
def padZeros (width : Nat) (digits : List Char) : List Char :=
  List.replicate (width - digits.length) '0' ++ digits

/-- The escaped form of one character. Backslash, both quotes and the named control characters get
a two-character escape; other control characters and everything from U+007F on get a numeric one;
the rest stands for itself. -/
def encodeChar (c : Char) : List Char :=
  if c = '\\' then ['\\', '\\']
  else if c = '\x22' then ['\\', '\x22']
  else if c = '\x27' then ['\\', '\x27']
  else if c = '\n' then ['\\', 'n']
  else if c = '\r' then ['\\', 'r']
  else if c = '\t' then ['\\', 't']
  else if c = '\x08' then ['\\', 'b']
  else if c.toNat ≤ 0x1f ∨ (0x7f ≤ c.toNat ∧ c.toNat ≤ 0xffff) then
    '\\' :: 'u' :: padZeros 4 (hexDigits c.toNat)
  else if 0xffff < c.toNat then
    '\\' :: 'u' :: '\x7b' :: (hexDigits c.toNat ++ ['\x7d'])
  else [c]

/-- The escaped form of a text, character by character. -/
def encode (text : List Char) : List Char := text.flatMap encodeChar

/-! ## Reading -/

/-- The character that a backslash followed by `code` stands for. -/
def resolve (code : Char) : Char :=
  if code = 'n' then '\n'
  else if code = 'r' then '\r'
  else if code = 't' then '\t'
  else code

/-- Resolves every backslash escape of a text. -/
def decode : List Char → List Char
  | [] => []
  | [c] => [c]
  | c :: d :: rest =>
    if c = '\\' then resolve d :: decode rest else c :: decode (d :: rest)

/-- Reads a text that is exactly one character or one escape. -/
def decodeChar? : List Char → Option Char
  | [c] => some c
  | [c, d] => if c = '\\' then some (resolve d) else none
  | _ => none

end Escape
end Packrat

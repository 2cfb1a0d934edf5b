import Packrat.Text.Escape
import Packrat.Text.Hidden

/-!
# Quoted names

Names shown in summaries stand between double quotes.

* `Quoted.quote` — the quoted form: quotes, backslashes and line control characters get a
  two-character escape, what cannot be shown gets its code point in braces, and the rest stands for
  itself.
-/

namespace Packrat
namespace Quoted

/-- The form of one character between double quotes. -/
def quoteChar (c : Char) : List Char :=
  if c = '\x22' then ['\\', '\x22']
  else if c = '\\' then ['\\', '\\']
  else if c = '\x00' then ['\\', '0']
  else if c = '\n' then ['\\', 'n']
  else if c = '\r' then ['\\', 'r']
  else if c = '\t' then ['\\', 't']
  else if isHidden c then '\\' :: 'u' :: '\x7b' :: (Escape.hexDigits c.toNat ++ ['\x7d'])
  else [c]

/-- A name between double quotes. -/
def quote (name : String) : String :=
  String.ofList ('\x22' :: (name.toList.flatMap quoteChar ++ ['\x22']))

end Quoted
end Packrat

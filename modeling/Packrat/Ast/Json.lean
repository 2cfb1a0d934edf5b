import Packrat.Ast.Basic

/-!
# Syntax trees as JSON

* `Ast.toJson` — the members `label`, `pos`, `len`, then `syntax_error` and `children` where there
  are any.
* `Ast.ofJson?` — reads a tree back. Members may come in any order, unknown ones are ignored, and a
  tree may also be given as the array of its members' values.

The clause that a syntax error misses is not part of the JSON form.
-/

namespace Packrat

/-! ## Syntax errors -/

/-- A syntax error as JSON. -/
def SyntaxError.toJson (e : SyntaxError) : Json := .obj [("pos", .nat e.pos), ("len", .nat e.len)]

/-- Reads a syntax error. -/
def SyntaxError.ofJson? : Json → Option SyntaxError
  | .obj members => do
    let pos ← (Json.member? members "pos").bind Json.word?
    let len ← (Json.member? members "len").bind Json.word?
    return ⟨pos, len, none⟩
  | .arr [pos, len] => return ⟨← pos.word?, ← len.word?, none⟩
  | _ => none

/-- Reads a syntax error that may be absent. -/
def SyntaxError.optionOfJson? : Json → Option (Option SyntaxError)
  | .null => some none
  | value => (SyntaxError.ofJson? value).map some

namespace Ast

/-! ## Writing -/

mutual

/-- A syntax tree as JSON. -/
def toJson : Ast → Json
  | ⟨label, pos, len, error, children⟩ =>
    .obj ([("label", .str label), ("pos", .nat pos), ("len", .nat len)]
      ++ error.toList.map (fun e => ("syntax_error", e.toJson))
      ++ (if children.isEmpty then [] else [("children", .arr (toJsonAll children))]))

/-- Several syntax trees as JSON. -/
def toJsonAll : List Ast → List Json
  | [] => []
  | ast :: rest => toJson ast :: toJsonAll rest

end

/-! ## Reading -/

/-- Reads the members of a node other than its children. -/
def headOfJson? (label pos len : Json) (error : Option Json) (children : List Ast) :
    Option Ast := do
  let label ← label.str?
  let pos ← pos.word?
  let len ← len.word?
  let error ← SyntaxError.optionOfJson? (error.getD .null)
  return ⟨label, pos, len, error, children⟩

mutual

/-- Reads a syntax tree. -/
def ofJson? : Json → Option Ast
  | .obj members => do
    let children ← childrenAmong? members
    headOfJson? (← Json.member? members "label") (← Json.member? members "pos")
      (← Json.member? members "len") (Json.member? members "syntax_error") children
  | .arr [label, pos, len] => headOfJson? label pos len none []
  | .arr [label, pos, len, error] => headOfJson? label pos len (some error) []
  | .arr [label, pos, len, error, children] => do
    headOfJson? label pos len (some error) (← childrenOfJson? children)
  | _ => none

/-- Reads the member `children`, which may be absent. -/
def childrenAmong? : List (String × Json) → Option (List Ast)
  | [] => some []
  | (key, value) :: rest =>
    if key = "children" then childrenOfJson? value else childrenAmong? rest

/-- Reads the value of the member `children`. -/
def childrenOfJson? : Json → Option (List Ast)
  | .arr items => ofJsonAll? items
  | _ => none

/-- Reads several syntax trees. -/
def ofJsonAll? : List Json → Option (List Ast)
  | [] => some []
  | item :: rest => do return (← ofJson? item) :: (← ofJsonAll? rest)

end

end Ast
end Packrat

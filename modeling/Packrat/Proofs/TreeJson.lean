import Packrat.Ast.Json

/-!
# Syntax trees survive being written

A syntax tree is written as a JSON value and read back. Positions and lengths have to fit a machine
word, as those of every input do. What is lost is which clause a syntax error misses: it is no part of
the written form.

* `Ast.fits` — whether all numbers of a tree fit a machine word.
* `Ast.anonymous` — the tree with the missing clauses of its syntax errors forgotten.
* `Json.field?` — a member of the JSON form of a tree, by name in an object and by place in an array.
* `Ast.FillsIn` — whether a tree has no error and no children wherever the value that it was read from
  leaves these members out.
* `Ast.ofJson?_toJson` — reading what was written; `Ast.fillsIn_of_ofJson?` — reading any value.
* **`tree_survives_json`** — both, with what the written form leaves out.
-/

namespace Packrat

/-! ## What is kept -/

/-- A syntax error, with the clause that it misses forgotten. -/
def SyntaxError.anonymous (e : SyntaxError) : SyntaxError := { e with missing := none }

/-- Whether the numbers of a syntax error fit a machine word. -/
def SyntaxError.fits (e : SyntaxError) : Bool := e.pos < Json.wordBound && e.len < Json.wordBound

namespace Ast

mutual

/-- The tree, with the clauses that its syntax errors miss forgotten. -/
def anonymous : Ast → Ast
  | ⟨label, pos, len, error, children⟩ =>
    ⟨label, pos, len, error.map SyntaxError.anonymous, anonymousAll children⟩

/-- Several trees, with the clauses that their syntax errors miss forgotten. -/
def anonymousAll : List Ast → List Ast
  | [] => []
  | ast :: rest => anonymous ast :: anonymousAll rest

end

mutual

/-- Whether all numbers of a tree fit a machine word. -/
def fits : Ast → Bool
  | ⟨_, pos, len, error, children⟩ =>
    pos < Json.wordBound && len < Json.wordBound && error.all SyntaxError.fits && fitsAll children

/-- Whether all numbers of several trees fit a machine word. -/
def fitsAll : List Ast → Bool
  | [] => true
  | ast :: rest => fits ast && fitsAll rest

end

end Ast

/-! ## What is left out -/

namespace Json

/-- A member of the JSON form of a tree: by its name in an object, by its place in an array. -/
def field? (json : Json) (place : Nat) (name : String) : Option Json :=
  match json with
  | .obj members => member? members name
  | .arr items => items[place]?
  | _ => none

/-- The syntax error in the JSON form of a tree. -/
def errorField? (json : Json) : Option Json := json.field? 3 "syntax_error"

/-- The children in the JSON form of a tree. -/
def childrenField? (json : Json) : Option Json := json.field? 4 "children"

end Json

namespace Ast

mutual

/-- **Whether a tree fills in what a value leaves out**, at every depth: without a member for the
syntax error it has none, and without a member for the children it has no children. -/
def FillsIn : Ast → Json → Prop
  | ⟨_, _, _, error, children⟩, json =>
    (json.errorField? = none → error = none) ∧
      (json.childrenField? = none → children = []) ∧
      ∀ items, json.childrenField? = some (.arr items) → FillInAll children items

/-- The same for several trees and as many values. -/
def FillInAll : List Ast → List Json → Prop
  | [], [] => True
  | ast :: rest, item :: items => FillsIn ast item ∧ FillInAll rest items
  | _, _ => False

end

/-! ## Reading what was written -/

/-- A number that is written is read if it fits a machine word. -/
theorem word?_nat (n : Nat) :
    (Json.nat n).word? = if n < Json.wordBound then some n else none := rfl

/-- A syntax error is read without the clause that it misses. -/
theorem ofJson?_toJson_error (e : SyntaxError) :
    SyntaxError.ofJson? e.toJson = if e.fits then some e.anonymous else none := by
  obtain ⟨pos, len, missing⟩ := e
  by_cases hpos : pos < Json.wordBound <;> by_cases hlen : len < Json.wordBound <;>
    simp [SyntaxError.toJson, SyntaxError.ofJson?, Json.member?, List.lookup_cons, word?_nat,
      SyntaxError.fits, SyntaxError.anonymous, hpos, hlen]

/-- The members of a tree that may be left out. -/
def optionalMembers (error : Option SyntaxError) (children : List Ast) : List (String × Json) :=
  error.toList.map (fun e => ("syntax_error", e.toJson))
    ++ (if children.isEmpty then [] else [("children", .arr (toJsonAll children))])

/-- The written form of a tree. -/
theorem toJson_eq (label : String) (pos len : Nat) (error : Option SyntaxError)
    (children : List Ast) :
    toJson ⟨label, pos, len, error, children⟩ =
      .obj (("label", .str label) :: ("pos", .nat pos) :: ("len", .nat len)
        :: optionalMembers error children) := by
  rw [toJson, optionalMembers, List.append_assoc]
  rfl

/-- The syntax error is left out if there is none. -/
theorem member?_error (error : Option SyntaxError) (children : List Ast) :
    Json.member? (optionalMembers error children) "syntax_error" =
      error.map SyntaxError.toJson := by
  cases error <;> cases children <;> simp [optionalMembers, Json.member?, List.lookup_cons]

/-- The children are left out if there are none. -/
theorem member?_children (error : Option SyntaxError) (children : List Ast) :
    Json.member? (optionalMembers error children) "children" =
      if children.isEmpty then none else some (.arr (toJsonAll children)) := by
  cases error <;> cases children <;> simp [optionalMembers, Json.member?, List.lookup_cons]

/-- The syntax error in the written form of a tree. -/
theorem errorField?_toJson (ast : Ast) :
    ast.toJson.errorField? = ast.error.map SyntaxError.toJson := by
  obtain ⟨label, pos, len, error, children⟩ := ast
  rw [toJson_eq, ← member?_error error children]
  simp [Json.errorField?, Json.field?, Json.member?, List.lookup_cons]

/-- The children in the written form of a tree. -/
theorem childrenField?_toJson (ast : Ast) :
    ast.toJson.childrenField? =
      if ast.children.isEmpty then none else some (.arr (toJsonAll ast.children)) := by
  obtain ⟨label, pos, len, error, children⟩ := ast
  rw [toJson_eq, ← member?_children error children]
  simp [Json.childrenField?, Json.field?, Json.member?, List.lookup_cons]

/-- The children that are read are those of the first member of that name. -/
theorem childrenAmong?_eq (members : List (String × Json)) :
    childrenAmong? members =
      (Json.member? members "children").elim (some []) childrenOfJson? := by
  induction members with
  | nil => rfl
  | cons member rest ih =>
    obtain ⟨key, value⟩ := member
    by_cases hkey : key = "children"
    · subst hkey
      simp [childrenAmong?, Json.member?]
    · have hne : ("children" == key) = false := beq_eq_false_iff_ne.2 (Ne.symm hkey)
      simp only [childrenAmong?, if_neg hkey, ih, Json.member?, List.lookup_cons, hne]

/-- A syntax error that is absent or was written is read. -/
theorem optionOfJson?_error (error : Option SyntaxError) :
    SyntaxError.optionOfJson? ((error.map SyntaxError.toJson).getD .null) =
      if error.all SyntaxError.fits then some (error.map SyntaxError.anonymous) else none := by
  cases error with
  | none => rfl
  | some e =>
    have hread : SyntaxError.optionOfJson? e.toJson = (SyntaxError.ofJson? e.toJson).map some := rfl
    simp only [Option.map_some, Option.getD_some, hread, ofJson?_toJson_error, Option.all_some]
    split <;> rfl

/-- The members of a written tree other than its children are read. -/
theorem headOfJson?_written (label : String) (pos len : Nat) (error : Option SyntaxError)
    (children : List Ast) :
    headOfJson? (.str label) (.nat pos) (.nat len) (error.map SyntaxError.toJson) children =
      if pos < Json.wordBound && len < Json.wordBound && error.all SyntaxError.fits then
        some ⟨label, pos, len, error.map SyntaxError.anonymous, children⟩
      else none := by
  have hlabel : (Json.str label).str? = some label := rfl
  simp only [headOfJson?, hlabel, word?_nat, optionOfJson?_error]
  by_cases hpos : pos < Json.wordBound <;> by_cases hlen : len < Json.wordBound <;>
    by_cases herror : error.all SyntaxError.fits <;> simp [hpos, hlen, herror]

mutual

/-- **Reading a written tree** gives it back without the clauses that its errors miss. -/
theorem ofJson?_toJson : ∀ ast : Ast,
    ofJson? ast.toJson = if ast.fits then some ast.anonymous else none
  | ⟨label, pos, len, error, children⟩ => by
    have hchildren : childrenAmong? (optionalMembers error children) =
        if fitsAll children then some (anonymousAll children) else none := by
      rw [childrenAmong?_eq, member?_children, ← ofJsonAll?_toJsonAll children]
      cases children <;> rfl
    have hhead : ofJson? (.obj (("label", .str label) :: ("pos", .nat pos) :: ("len", .nat len)
          :: optionalMembers error children)) =
        (childrenAmong? (optionalMembers error children)).bind
          (headOfJson? (.str label) (.nat pos) (.nat len)
            (Json.member? (optionalMembers error children) "syntax_error")) := by
      simp [ofJson?, childrenAmong?, Json.member?, List.lookup_cons]
    rw [toJson_eq, hhead, hchildren, member?_error]
    by_cases hall : fitsAll children <;>
      simp [fits, anonymous, hall, headOfJson?_written]

/-- Reading several written trees. -/
theorem ofJsonAll?_toJsonAll : ∀ asts : List Ast,
    ofJsonAll? (toJsonAll asts) = if fitsAll asts then some (anonymousAll asts) else none
  | [] => rfl
  | ast :: rest => by
    rw [toJsonAll, ofJsonAll?, ofJson?_toJson ast, ofJsonAll?_toJsonAll rest]
    by_cases hast : ast.fits <;> by_cases hrest : fitsAll rest <;>
      simp [fitsAll, anonymousAll, hast, hrest]

end

/-! ## Reading any value -/

/-- The members other than the children leave these as they are, and a syntax error that is left out is
absent. -/
theorem headOfJson?_inv {label pos len : Json} {error : Option Json} {children : List Ast} {ast : Ast}
    (h : headOfJson? label pos len error children = some ast) :
    ast.children = children ∧ (error = none → ast.error = none) := by
  obtain ⟨name, -, h⟩ := Option.bind_eq_some_iff.1 h
  obtain ⟨start, -, h⟩ := Option.bind_eq_some_iff.1 h
  obtain ⟨size, -, h⟩ := Option.bind_eq_some_iff.1 h
  obtain ⟨found, hfound, h⟩ := Option.bind_eq_some_iff.1 h
  cases h
  refine ⟨rfl, fun hnone => ?_⟩
  subst hnone
  cases hfound
  rfl

/-- What has to be shown of a tree and the value that it was read from. -/
theorem fillsIn_intro {ast : Ast} {json : Json} (herror : json.errorField? = none → ast.error = none)
    (hnone : json.childrenField? = none → ast.children = [])
    (hsome : ∀ items, json.childrenField? = some (.arr items) → FillInAll ast.children items) :
    ast.FillsIn json := by
  obtain ⟨label, pos, len, error, children⟩ := ast
  exact ⟨herror, hnone, hsome⟩

mutual

/-- **What a value leaves out is filled in** wherever a tree is read from it. -/
theorem fillsIn_of_ofJson? : ∀ (json : Json) {ast : Ast}, ofJson? json = some ast → ast.FillsIn json
  | .obj members, ast, h => by
    obtain ⟨children, hchildren, h⟩ := Option.bind_eq_some_iff.1 h
    obtain ⟨label, -, h⟩ := Option.bind_eq_some_iff.1 h
    obtain ⟨pos, -, h⟩ := Option.bind_eq_some_iff.1 h
    obtain ⟨len, -, h⟩ := Option.bind_eq_some_iff.1 h
    obtain ⟨rfl, herror⟩ := headOfJson?_inv h
    obtain ⟨hnone, hsome⟩ := fillInAll_of_childrenAmong? members hchildren
    exact fillsIn_intro herror hnone hsome
  | .arr [_, _, _], _, h => by
    obtain ⟨hchildren, herror⟩ := headOfJson?_inv h
    exact fillsIn_intro (fun _ => herror rfl) (fun _ => hchildren) nofun
  | .arr [_, _, _, _], _, h => by
    obtain ⟨hchildren, -⟩ := headOfJson?_inv h
    exact fillsIn_intro nofun (fun _ => hchildren) nofun
  | .arr [_, _, _, _, value], _, h => by
    obtain ⟨children, hchildren, h⟩ := Option.bind_eq_some_iff.1 h
    obtain ⟨rfl, -⟩ := headOfJson?_inv h
    refine fillsIn_intro nofun nofun fun items hitems => ?_
    cases hitems
    exact fillInAll_of_childrenOfJson? (.arr items) hchildren items rfl
  | .arr [], _, h | .arr [_], _, h | .arr [_, _], _, h
  | .arr (_ :: _ :: _ :: _ :: _ :: _ :: _), _, h => by cases h
  | .null, _, h | .bool _, _, h | .int _, _, h | .fraction _, _, h | .str _, _, h => by cases h

/-- The member `children` of an object. -/
theorem fillInAll_of_childrenAmong? : ∀ (members : List (String × Json)) {children : List Ast},
    childrenAmong? members = some children →
    (Json.member? members "children" = none → children = []) ∧
      ∀ items, Json.member? members "children" = some (.arr items) → FillInAll children items
  | [], children, h => by
    cases h
    exact ⟨fun _ => rfl, nofun⟩
  | (key, value) :: rest, children, h => by
    rw [childrenAmong?] at h
    by_cases hkey : key = "children"
    · subst hkey
      rw [if_pos rfl] at h
      have hmember : Json.member? (("children", value) :: rest) "children" = some value := by
        simp [Json.member?]
      rw [hmember]
      refine ⟨nofun, fun items hitems => ?_⟩
      cases hitems
      exact fillInAll_of_childrenOfJson? (.arr items) h items rfl
    · rw [if_neg hkey] at h
      have hne : ("children" == key) = false := beq_eq_false_iff_ne.2 (Ne.symm hkey)
      rw [Json.member?, List.lookup_cons, hne]
      exact fillInAll_of_childrenAmong? rest h

/-- The value of the member `children`. -/
theorem fillInAll_of_childrenOfJson? : ∀ (value : Json) {children : List Ast},
    childrenOfJson? value = some children → ∀ items, value = .arr items → FillInAll children items
  | .arr items, children, h, _, rfl => fillInAll_of_ofJsonAll? items h

/-- Several values. -/
theorem fillInAll_of_ofJsonAll? : ∀ (items : List Json) {asts : List Ast},
    ofJsonAll? items = some asts → FillInAll asts items
  | [], asts, h => by
    cases h
    trivial
  | item :: rest, asts, h => by
    obtain ⟨ast, hast, h⟩ := Option.bind_eq_some_iff.1 h
    obtain ⟨others, hothers, h⟩ := Option.bind_eq_some_iff.1 h
    cases h
    exact ⟨fillsIn_of_ofJson? item hast, fillInAll_of_ofJsonAll? rest hothers⟩

end

end Ast

/-! ## Both ways -/

/-- **Syntax trees survive being written.** A tree all of whose numbers fit a machine word is read back
from its JSON form with nothing lost but the clauses that its syntax errors miss, and a tree with a
larger number is not read. Its JSON form leaves out the syntax error exactly if there is none and the
children exactly if there are none; and from whatever value a tree is read, at every depth, a syntax
error that is left out is absent and children that are left out are none. -/
theorem tree_survives_json (ast : Ast) :
    Ast.ofJson? ast.toJson = (if ast.fits then some ast.anonymous else none) ∧
      (ast.toJson.errorField? = none ↔ ast.error = none) ∧
      (ast.toJson.childrenField? = none ↔ ast.children = []) ∧
      ∀ json other, Ast.ofJson? json = some other → other.FillsIn json := by
  refine ⟨ast.ofJson?_toJson, ?_, ?_, fun json other h => Ast.fillsIn_of_ofJson? json h⟩
  · rw [Ast.errorField?_toJson, Option.map_eq_none_iff]
  · rw [Ast.childrenField?_toJson]
    simp

/-- A tree with two leaves, of which one is a missing clause. -/
def gapTree : Ast := ⟨"S", 0, 1, none, [.terminal 0 1, .ofError ⟨1, 0, some 4⟩]⟩

/-- The tree with the missing clause is read back without it. From a value that gives the children of
the same node alone, nested and without any other member that can be left out, a tree is read in which
there are no errors and no children below. -/
theorem tree_survives_json_gap :
    gapTree.fits = true ∧
      Ast.ofJson? gapTree.toJson =
        some ⟨"S", 0, 1, none, [.terminal 0 1, ⟨"<SyntaxError>", 1, 0, some ⟨1, 0, none⟩, []⟩]⟩ ∧
      ∃ json inner, Ast.ofJson? json = some ⟨"S", 0, 1, none, [inner]⟩ ∧
        inner.error = none ∧ inner.children = [] := by
  have hfits : gapTree.fits = true := by decide
  have hread : Ast.ofJson? gapTree.toJson = some gapTree.anonymous := by
    rw [(tree_survives_json gapTree).1, if_pos hfits]
  let below : Json := .obj [("label", .str "T"), ("pos", .nat 0), ("len", .nat 1)]
  let json : Json := .obj [("label", .str "S"), ("pos", .nat 0), ("len", .nat 1),
    ("children", .arr [below])]
  let inner : Ast := ⟨"T", 0, 1, none, []⟩
  have hjson : Ast.ofJson? json = some ⟨"S", 0, 1, none, [inner]⟩ := by decide
  have hfills := (tree_survives_json gapTree).2.2.2 json _ hjson
  have hbelow : inner.FillsIn below := (hfills.2.2 [below] rfl).1
  exact ⟨hfits, hread, json, inner, hjson, hbelow.1 rfl, hbelow.2.1 rfl⟩

end Packrat

import Packrat.Proofs.CleanTrees
import Packrat.Proofs.Refusals
import Packrat.Proofs.Rereading

/-!
# Specifications without errors are understood

Every syntax tree that a specification without syntax errors has is one that the reader can take
apart: each rule of the notation gives nodes of one shape, whichever of its alternatives was taken.

* `Spec.Gathers` — what is read from several nodes, one after the other.
* `Spec.Understood` — a node that stands for an expression in which no construct is empty.
* **`Spec.Shape`** — what each rule of the notation gives; `Spec.upholds_shape` goes through the rules.
* **`Spec.read_accounts`** — a specification has syntax errors, or it is read up to a grammar or an error
  about names, and all texts that are taken from it lie within it.
-/

namespace Packrat
namespace Spec

/-! ## Reading nodes one after the other -/

/-- Whether a function reads nodes one after the other. -/
structure Piecewise {α : Type} (f : List Ast → Except GrammarError (List α)) : Prop where
  /-- Nothing is read from no nodes. -/
  nil : f [] = .ok []
  /-- What is read from later nodes comes later. -/
  append : ∀ {asts others : List Ast} {found more : List α}, f asts = .ok found → f others = .ok more →
    f (asts ++ others) = .ok (found ++ more)

/-- Expressions with a label are read one after the other. -/
theorem piecewise_toExprs (input : Array Char) (label : String) : Piecewise (toExprs input label) where
  nil := rfl
  append := by
    intro asts
    induction asts with
    | nil =>
      intro others found more h hmore
      cases h
      exact hmore
    | cons ast rest ih =>
      intro others found more h hmore
      rw [toExprs] at h
      rw [List.cons_append, toExprs]
      split at h
      · rename_i hlabel
        obtain ⟨item, hitem, h⟩ := except_bind_eq_ok.1 h
        obtain ⟨items, hitems, h⟩ := except_bind_eq_ok.1 h
        cases h
        rw [if_pos hlabel, hitem, ih hitems hmore]
        rfl
      · rename_i hlabel
        rw [if_neg hlabel]
        exact ih h hmore

/-- The ranges of a class are read one after the other. -/
theorem piecewise_classRanges (input : Array Char) : Piecewise (classRanges input) where
  nil := rfl
  append := by
    intro asts
    induction asts with
    | nil =>
      intro others found more h hmore
      cases h
      exact hmore
    | cons ast rest ih =>
      intro others found more h hmore
      rw [classRanges] at h
      rw [List.cons_append, classRanges]
      split at h
      · rename_i hlabel
        rw [if_pos hlabel]
        split at h
        · obtain ⟨lo, hlo, h⟩ := except_bind_eq_ok.1 h
          obtain ⟨hi, hhi, h⟩ := except_bind_eq_ok.1 h
          obtain ⟨ranges, hranges, h⟩ := except_bind_eq_ok.1 h
          cases h
          rw [hlo, hhi, ih hranges hmore]
          rfl
        · cases h
      · rename_i hlabel
        rw [if_neg hlabel]
        split at h
        · rename_i hmember
          obtain ⟨c, hc, h⟩ := except_bind_eq_ok.1 h
          obtain ⟨ranges, hranges, h⟩ := except_bind_eq_ok.1 h
          cases h
          rw [if_pos hmember, hc, ih hranges hmore]
          rfl
        · rename_i hmember
          rw [if_neg hmember]
          exact ih h hmore

/-- Definitions are read one after the other. -/
theorem piecewise_toDefinition (input : Array Char) :
    Piecewise fun asts => asts.mapM (toDefinition input) where
  nil := rfl
  append := by
    intro asts others found more h hmore
    rw [List.mapM_append, h, hmore]
    rfl

/-- **Whether a function reads at least so many elements from nodes**, all of them with a property. -/
def Gathers {α : Type} (f : List Ast → Except GrammarError (List α)) (Q : α → Prop) (least : Nat)
    (asts : List Ast) : Prop :=
  ∃ found, f asts = .ok found ∧ least ≤ found.length ∧ ∀ x ∈ found, Q x

namespace Gathers

variable {α : Type} {f : List Ast → Except GrammarError (List α)} {Q : α → Prop} {least more : Nat}
  {asts others : List Ast}

/-- Fewer elements. -/
theorem mono (h : Gathers f Q least asts) (hle : more ≤ least) : Gathers f Q more asts := by
  obtain ⟨found, hfound, hleast, hall⟩ := h
  exact ⟨found, hfound, hle.trans hleast, hall⟩

/-- Nothing is read from no nodes. -/
theorem nil (hf : Piecewise f) : Gathers f Q 0 [] := ⟨[], hf.nil, Nat.le_refl 0, List.forall_mem_nil _⟩

/-- Nodes after others. -/
theorem append (hf : Piecewise f) (h : Gathers f Q least asts) (h' : Gathers f Q more others) :
    Gathers f Q (least + more) (asts ++ others) := by
  obtain ⟨found, hfound, hleast, hall⟩ := h
  obtain ⟨found', hfound', hleast', hall'⟩ := h'
  refine ⟨found ++ found', hf.append hfound hfound', ?_, List.forall_mem_append.2 ⟨hall, hall'⟩⟩
  rw [List.length_append]
  exact Nat.add_le_add hleast hleast'

/-- Nodes of a repetition, with one element in each turn. -/
theorem chain (hf : Piecewise f) {R : Nat → Nat → List Ast → Prop}
    (h : ∀ {pos stop asts}, R pos stop asts → Gathers f Q 1 asts) {pos stop : Nat}
    {parts : List (List Ast)} (hchain : Chain R pos stop parts) :
    Gathers f Q parts.length parts.flatten := by
  induction hchain with
  | nil => exact nil hf
  | cons hfirst _ ih =>
    rw [List.flatten_cons, List.length_cons, Nat.add_comm]
    exact (h hfirst).append hf ih

end Gathers

/-! ## Nodes that are understood -/

/-- **Whether a node stands for an expression** in which no construct is empty. -/
def Understood (input : Array Char) (ast : Ast) : Prop :=
  ∃ e, toExpr input ast = .ok e ∧ e.Each Expr.Populated

/-- Whether one character, escaped or not, stands between two positions. -/
def Spelt (input : Array Char) (pos stop : Nat) : Prop :=
  ∃ c text, startsAt input text pos = true ∧ stop = pos + text.length ∧
    Escape.decodeChar? text = some c

/-- Whether there is one node, over one character. -/
def SpeltNode (input : Array Char) (pos stop : Nat) (asts : List Ast) : Prop :=
  Spelt input pos stop ∧ ∃ ast, asts = [ast] ∧ ast.pos = pos ∧ ast.stop = stop

/-- The rules of the notation that stand for expressions. -/
def expressionNames : List String :=
  ["Expression", "Choice", "Sequence", "Prefix", "Suffix", "Primary", "Parens", "Identifier",
    "StringLiteral", "CharLiteral", "CharClass", "AnyChar"]

/-- What the rules for parts of expressions, for definitions and for blanks give. -/
def PartShape (input : Array Char) (pos stop : Nat) (asts : List Ast) : String → Prop
  | "WS" => asts = []
  | "EscapeSequence" => SpeltNode input pos stop asts
  | "CharClassChar" =>
    ∃ ast c, asts = [ast] ∧ ast.label = "CharClassChar" ∧ classMember input ast = .ok c
  | "CharRange" => Gathers (classRanges input) (fun _ => True) 1 asts
  | "Rule" =>
    Gathers (fun nodes => nodes.mapM (toDefinition input)) (fun d => d.body.Each Expr.Populated) 1 asts
  | _ => True

/-- **What the rules of the notation give.** Those that stand for expressions give a node that is
understood. -/
def Shape (input : Array Char) (name : String) (pos stop : Nat) (asts : List Ast) : Prop :=
  if name ∈ expressionNames then ∃ ast, asts = [ast] ∧ ast.label = name ∧ Understood input ast
  else PartShape input pos stop asts name

section rules

variable {input : Array Char} {name label : String} {pos stop start len : Nat} {asts : List Ast}

/-- Blanks give no nodes. -/
theorem shape_blank (h : Produces input (Shape input) ws pos stop asts) : asts = [] := h

/-- The rule of an expression gives a node that is understood. -/
theorem shape_expression (hname : name ∈ expressionNames)
    (h : Produces input (Shape input) (.reference name) pos stop asts) :
    ∃ ast, asts = [ast] ∧ ast.label = name ∧ Understood input ast := by
  have hunmarked : unmarked name = name :=
    (by decide : ∀ name ∈ expressionNames, unmarked name = name) name hname
  have hshape : Shape input (unmarked name) pos stop asts := h
  rwa [hunmarked, Shape, if_pos hname] at hshape

/-- What it takes for the rule of an expression to give nodes of its shape. -/
theorem upholds_expression {body : Expr} (hname : name ∈ expressionNames)
    (h : ∀ pos stop asts, Produces input (Shape input) body pos stop asts →
      Understood input (.covering name pos stop asts)) :
    Definition.Upholds input (Shape input) ⟨name, body⟩ := by
  intro pos stop asts hbody
  obtain ⟨hunmarked, hmark⟩ := (by decide : ∀ name ∈ expressionNames,
    unmarked name = name ∧ isMarked name = false) name hname
  have hlabel : (Ast.covering name pos stop asts).label = name := by
    obtain ⟨start, len, hcovering⟩ := Ast.exists_covering name pos stop asts
    rw [hcovering]
  simp only [hunmarked, hmark]
  rw [Shape, if_pos hname]
  exact ⟨_, rfl, hlabel, h pos stop asts hbody⟩

/-- What it takes for another rule to give nodes of its shape. -/
theorem upholds_part {body : Expr} (hname : name ∉ expressionNames) (hunmarked : unmarked name = name)
    (hmark : isMarked name = false)
    (h : ∀ pos stop asts, Produces input (Shape input) body pos stop asts →
      PartShape input pos stop [.covering name pos stop asts] name) :
    Definition.Upholds input (Shape input) ⟨name, body⟩ := by
  intro pos stop asts hbody
  simp only [hunmarked, hmark]
  rw [Shape, if_neg hname]
  exact h pos stop asts hbody

/-- The node of a rule is understood, whatever input it covers. -/
theorem understood_covering (h : ∀ start len, Understood input ⟨label, start, len, none, asts⟩) :
    Understood input (.covering label pos stop asts) := by
  obtain ⟨start, len, hcovering⟩ := Ast.exists_covering label pos stop asts
  rw [hcovering]
  exact h start len

/-! ### Operands and operators -/

/-- A node around one that is understood. -/
theorem Understood.wrap {ast : Ast} (h : Understood input ast)
    (hlabel : label ∈ ["Expression", "Primary", "Prefix", "Suffix"]) :
    Understood input (.covering label pos stop [ast]) := by
  refine understood_covering fun start len => ?_
  simp only [List.mem_cons, List.not_mem_nil, or_false] at hlabel
  obtain rfl | rfl | rfl | rfl := hlabel
  all_goals exact h

/-- An operator before an operand. -/
theorem exists_applyBefore {operator : List Char} (hoperator : operator ∈ [['&'], ['!'], ['~']])
    {operand : Expr} (h : operand.Each Expr.Populated) :
    ∃ e, applyBefore operator operand = .ok e ∧ e.Each Expr.Populated := by
  simp only [List.mem_cons, List.not_mem_nil, or_false] at hoperator
  obtain rfl | rfl | rfl := hoperator
  · exact ⟨.ahead operand, rfl, trivial, h⟩
  · exact ⟨.notAhead operand, rfl, trivial, h⟩
  · exact ⟨operand, rfl, h⟩

/-- An operator after an operand. -/
theorem exists_applyAfter {operator : List Char} (hoperator : operator ∈ [['*'], ['+'], ['?']])
    {operand : Expr} (h : operand.Each Expr.Populated) :
    ∃ e, applyAfter operator operand = .ok e ∧ e.Each Expr.Populated := by
  simp only [List.mem_cons, List.not_mem_nil, or_false] at hoperator
  obtain rfl | rfl | rfl := hoperator
  · exact ⟨.star operand, rfl, trivial, h⟩
  · exact ⟨.plus operand, rfl, trivial, h⟩
  · exact ⟨.optional operand, rfl, trivial, h⟩

/-- An expression that is made of another. -/
theorem Understood.bind {ast operand : Ast} {f : Expr → Except GrammarError Expr}
    (h : Understood input operand) (hexpr : toExpr input ast = toExpr input operand >>= f)
    (hf : ∀ e, e.Each Expr.Populated → ∃ e', f e = .ok e' ∧ e'.Each Expr.Populated) :
    Understood input ast := by
  obtain ⟨e, he, hpopulated⟩ := h
  obtain ⟨e', he', hpopulated'⟩ := hf e hpopulated
  exact ⟨e', by rw [hexpr, he]; exact he', hpopulated'⟩

/-- An operand with an operator before it. -/
theorem understood_before {operator : String} (hoperator : operator.toList ∈ [['&'], ['!'], ['~']])
    (h : Produces input (Shape input) (prefixed operator) pos stop asts) :
    Understood input (.covering "Prefix" pos stop asts) := by
  obtain ⟨_, _, _, ⟨htext, -, rfl⟩, ⟨_, _, _, hblank, hrow, rfl⟩, rfl⟩ := h
  obtain rfl := shape_blank hblank
  obtain ⟨operand, rfl, -, hoperand⟩ := shape_expression (by decide) hrow.of_single
  refine understood_covering fun start len => hoperand.bind rfl fun e he => ?_
  have hchars : chars input (.terminal pos operator.toList.length) = operator.toList :=
    extract_of_startsAt htext
  rw [hchars]
  exact exists_applyBefore hoperator he

/-- An operand with an operator after it. -/
theorem understood_after {operator : String} (hoperator : operator.toList ∈ [['*'], ['+'], ['?']])
    (h : Produces input (Shape input) (suffixed operator) pos stop asts) :
    Understood input (.covering "Suffix" pos stop asts) := by
  obtain ⟨_, _, _, hfirst, ⟨place, _, _, hblank, hrow, rfl⟩, rfl⟩ := h
  obtain rfl := shape_blank hblank
  obtain ⟨operand, rfl, -, hoperand⟩ := shape_expression (by decide) hfirst
  obtain ⟨htext, -, rfl⟩ := hrow.of_single
  refine understood_covering fun start len => hoperand.bind rfl fun e he => ?_
  have hchars : chars input (.terminal place operator.toList.length) = operator.toList :=
    extract_of_startsAt htext
  rw [hchars]
  exact exists_applyAfter hoperator he

/-- An operand that stands for itself under another label. -/
theorem understood_reference (hname : name ∈ expressionNames)
    (hlabel : label ∈ ["Expression", "Primary", "Prefix", "Suffix"])
    (h : Produces input (Shape input) (.reference name) pos stop asts) :
    Understood input (.covering label pos stop asts) := by
  obtain ⟨ast, rfl, -, hast⟩ := shape_expression hname h
  exact hast.wrap hlabel

/-- An item of a sequence. -/
theorem upholds_item : Definition.Upholds input (Shape input) ⟨"Prefix",
    .choice [prefixed "&", prefixed "!", prefixed "~", .reference "Suffix"]⟩ := by
  refine upholds_expression (by decide) fun pos stop asts h => ?_
  rcases h with hahead | hnotAhead | hmark | hsuffix | hnone
  · exact understood_before (by decide) hahead
  · exact understood_before (by decide) hnotAhead
  · exact understood_before (by decide) hmark
  · exact understood_reference (by decide) (by decide) hsuffix
  · exact False.elim hnone

/-- An operand with the operators after it. -/
theorem upholds_suffix : Definition.Upholds input (Shape input) ⟨"Suffix",
    .choice [suffixed "*", suffixed "+", suffixed "?", .reference "Primary"]⟩ := by
  refine upholds_expression (by decide) fun pos stop asts h => ?_
  rcases h with hstar | hplus | hoptional | hprimary | hnone
  · exact understood_after (by decide) hstar
  · exact understood_after (by decide) hplus
  · exact understood_after (by decide) hoptional
  · exact understood_reference (by decide) (by decide) hprimary
  · exact False.elim hnone

/-- An operand of any kind. -/
theorem upholds_primary {names : List String} (hnames : ∀ name ∈ names, name ∈ expressionNames) :
    Definition.Upholds input (Shape input) ⟨"Primary", .choice (names.map .reference)⟩ := by
  refine upholds_expression (by decide) fun pos stop asts h => ?_
  obtain ⟨item, hmem, hitem⟩ := ProducesAny.exists_mem h
  obtain ⟨name, hname, rfl⟩ := List.mem_map.1 hmem
  exact understood_reference (hnames name hname) (by decide) hitem

/-! ### Sequences, choices and parentheses -/

/-- A node that is understood is read as an expression. -/
theorem Understood.gathers {ast : Ast} (h : Understood input ast) (hlabel : ast.label = label) :
    Gathers (toExprs input label) (Expr.Each Expr.Populated) 1 [ast] := by
  obtain ⟨e, he, hpopulated⟩ := h
  refine ⟨[e], ?_, Nat.le_refl 1, List.forall_mem_singleton.2 hpopulated⟩
  rw [toExprs, if_pos hlabel, he]
  rfl

/-- A terminal is not read as an expression. -/
theorem gathers_terminal (hlabel : label ≠ Ast.terminalLabel) :
    Gathers (toExprs input label) (Expr.Each Expr.Populated) 0 [.terminal pos len] :=
  ⟨[], toExprs_terminal hlabel input pos len [], Nat.le_refl 0, List.forall_mem_nil _⟩

/-- Items with separators between them. -/
theorem gathers_list (hname : name ∈ expressionNames) {separator : List Expr}
    (hseparator : ∀ {pos stop asts}, ProducesRow input (Shape input) separator pos stop asts →
      Gathers (toExprs input name) (Expr.Each Expr.Populated) 0 asts)
    (h : Produces input (Shape input)
      (.seq [.reference name, .star (.seq (separator ++ [.reference name]))]) pos stop asts) :
    Gathers (toExprs input name) (Expr.Each Expr.Populated) 1 asts := by
  have hpiecewise := piecewise_toExprs input name
  obtain ⟨_, _, _, hfirst, hrow, rfl⟩ := h
  obtain ⟨parts, hparts, -, rfl⟩ := hrow.of_single
  obtain ⟨ast, rfl, hlabel, hast⟩ := shape_expression hname hfirst
  have hrest : Gathers (toExprs input name) (Expr.Each Expr.Populated) parts.length parts.flatten := by
    refine .chain hpiecewise (fun hturn => ?_) hparts
    obtain ⟨_, _, _, hbetween, hitem, rfl⟩ := ProducesRow.of_append hturn
    obtain ⟨other, rfl, hlabel', hother⟩ := shape_expression hname hitem.of_single
    exact (hseparator hbetween).append hpiecewise (hother.gathers hlabel')
  exact ((hast.gathers hlabel).append hpiecewise hrest).mono (Nat.le_add_right 1 _)

/-- What is read of at least one item stands for an expression. -/
theorem exists_collapse {combine : List Expr → Expr}
    (hcombine : ∀ items, (combine items).Each Expr.Populated ↔
      items ≠ [] ∧ Expr.EachItem Expr.Populated items) :
    ∀ {es : List Expr}, 1 ≤ es.length → (∀ e ∈ es, e.Each Expr.Populated) →
    ∃ e, collapse label combine es = .ok e ∧ e.Each Expr.Populated
  | [e], _, hall => ⟨e, rfl, hall e List.mem_cons_self⟩
  | _ :: _ :: _, _, hall =>
    ⟨_, rfl, (hcombine _).2 ⟨List.cons_ne_nil _ _, Expr.eachItem_iff.2 hall⟩⟩

/-- The node of a sequence or a choice. -/
theorem understood_list {combine : List Expr → Expr}
    (hcombine : ∀ items, (combine items).Each Expr.Populated ↔
      items ≠ [] ∧ Expr.EachItem Expr.Populated items)
    (hexpr : ∀ start len, toExpr input ⟨label, start, len, none, asts⟩ =
      toExprs input name asts >>= collapse label combine)
    (h : Gathers (toExprs input name) (Expr.Each Expr.Populated) 1 asts) :
    Understood input (.covering label pos stop asts) := by
  obtain ⟨es, hes, hleast, hall⟩ := h
  obtain ⟨e, he, hpopulated⟩ := exists_collapse hcombine hleast hall
  refine understood_covering fun start len => ⟨e, ?_, hpopulated⟩
  rw [hexpr, hes]
  exact he

/-- A sequence. -/
theorem upholds_sequence : Definition.Upholds input (Shape input) ⟨"Sequence",
    .seq [.reference "Prefix", .star (.seq [ws, .reference "Prefix"])]⟩ := by
  refine upholds_expression (by decide) fun pos stop asts h => ?_
  have hseparator : ∀ {pos stop asts}, ProducesRow input (Shape input) [ws] pos stop asts →
      Gathers (toExprs input "Prefix") (Expr.Each Expr.Populated) 0 asts := by
    intro pos stop asts hrow
    obtain rfl := shape_blank hrow.of_single
    exact .nil (piecewise_toExprs _ _)
  exact understood_list (fun _ => .rfl) (fun _ _ => rfl) (gathers_list (by decide) hseparator h)

/-- A choice. -/
theorem upholds_choice : Definition.Upholds input (Shape input) ⟨"Choice",
    .seq [.reference "Sequence", .star (.seq [ws, .lit "/", ws, .reference "Sequence"])]⟩ := by
  refine upholds_expression (by decide) fun pos stop asts h => ?_
  have hseparator : ∀ {pos stop asts},
      ProducesRow input (Shape input) [ws, .lit "/", ws] pos stop asts →
      Gathers (toExprs input "Sequence") (Expr.Each Expr.Populated) 0 asts := by
    rintro pos stop asts ⟨_, _, _, hblank, ⟨_, _, _, ⟨-, -, rfl⟩, hrow, rfl⟩, rfl⟩
    obtain rfl := shape_blank hblank
    obtain rfl := shape_blank hrow.of_single
    exact gathers_terminal (by decide)
  exact understood_list (fun _ => .rfl) (fun _ _ => rfl) (gathers_list (by decide) hseparator h)

/-- Parentheses. -/
theorem upholds_parens : Definition.Upholds input (Shape input) ⟨"Parens",
    .seq [.lit "(", ws, .optional (.reference "Expression"), ws, .lit ")"]⟩ := by
  refine upholds_expression (by decide) fun pos stop asts h => ?_
  obtain ⟨_, _, _, ⟨-, -, rfl⟩, ⟨_, _, _, hblank, ⟨_, inner, _, hinner, ⟨place, _, _, hblank', hrow,
    rfl⟩, rfl⟩, rfl⟩, rfl⟩ := h
  obtain rfl := shape_blank hblank
  obtain rfl := shape_blank hblank'
  obtain ⟨-, -, rfl⟩ := hrow.of_single
  refine understood_covering fun start len => ?_
  rw [Understood, toExpr_parens _ rfl]
  rcases hinner with ⟨-, rfl⟩ | hinner
  · exact ⟨.empty, rfl, trivial⟩
  · obtain ⟨ast, rfl, hlabel, e, he, hpopulated⟩ := shape_expression (by decide) hinner
    have hchild : Ast.child? ⟨"Parens", start, len, none, [.terminal pos 1, ast, .terminal place 1]⟩
        "Expression" = some ast := by
      simp [Ast.child?, Ast.terminal, Ast.terminalLabel, hlabel]
    exact ⟨e, hchild ▸ he, hpopulated⟩

/-! ### Names, literals and classes -/

/-- An operand of which any text will do. -/
theorem upholds_leaf (hname : name ∈ ["Identifier", "StringLiteral", "AnyChar"]) (body : Expr) :
    Definition.Upholds input (Shape input) ⟨name, body⟩ := by
  have hnames : ["Identifier", "StringLiteral", "AnyChar"] ⊆ expressionNames := by decide
  refine upholds_expression (hnames hname) fun pos stop asts _ => ?_
  refine understood_covering fun start len => ?_
  simp only [List.mem_cons, List.not_mem_nil, or_false] at hname
  obtain rfl | rfl | rfl := hname
  all_goals exact ⟨_, rfl, trivial⟩

/-- The text of a character that stands in the input. -/
theorem Spelt.decode (h : Spelt input pos stop) :
    pos < stop ∧ ∃ c, Escape.decodeChar? (input.extract pos stop).toList = some c := by
  obtain ⟨c, text, htext, rfl, hc⟩ := h
  refine ⟨?_, c, by rw [extract_of_startsAt htext, hc]⟩
  cases text with
  | nil => cases hc
  | cons => exact Nat.lt_add_of_pos_right (Nat.succ_pos _)

/-- A choice between single characters. -/
theorem produces_oneOf {codes : List Char}
    (h : Produces input (Shape input) (.oneOf codes) pos stop asts) :
    (∃ c, input[pos]? = some c) ∧ stop = pos + 1 ∧ asts = [.terminal pos 1] := by
  obtain ⟨item, hmem, hitem⟩ := ProducesAny.exists_mem h
  obtain ⟨c, -, rfl⟩ := List.mem_map.1 hmem
  exact ⟨⟨c, hitem.1⟩, hitem.2⟩

/-- One character stands at a position. -/
theorem startsAt_cons {c : Char} {text : List Char} (hc : input[pos]? = some c)
    (h : startsAt input text (pos + 1) = true) : startsAt input (c :: text) pos = true := by
  rw [startsAt, hc, beq_self_eq_true, h]
  rfl

/-- An escape. -/
theorem upholds_escape {codes : List Char} : Definition.Upholds input (Shape input)
    ⟨"EscapeSequence", .seq [.lit "\\", .oneOf codes]⟩ := by
  refine upholds_part (by decide) rfl rfl fun pos stop asts h => ?_
  obtain ⟨_, _, _, ⟨htext, rfl, rfl⟩, hrow, rfl⟩ := h
  obtain ⟨⟨d, hd⟩, rfl, rfl⟩ := produces_oneOf hrow.of_single
  have hbackslash : input[pos]? = some '\\' := by simpa [startsAt] using htext
  refine ⟨⟨Escape.resolve d, ['\\', d], ?_, rfl, rfl⟩, _, rfl, ?_⟩
  · exact startsAt_cons hbackslash (startsAt_cons hd rfl)
  · rw [Ast.covering_eq rfl rfl]
    exact ⟨rfl, Nat.add_sub_cancel' (Nat.le_add_right pos 2)⟩

/-- A quoted character. -/
theorem spelt_character {texts : List String} (h : Produces input (Shape input)
      (.choice [.reference "EscapeSequence", anyExcept texts]) pos stop asts) :
    SpeltNode input pos stop asts := by
  rcases h with hescape | ⟨_, _, _, ⟨rfl, rfl⟩, hrow, rfl⟩ | hnone
  · exact hescape
  · obtain ⟨⟨c, hc⟩, rfl, rfl⟩ := hrow.of_single
    exact ⟨⟨c, [c], startsAt_cons hc rfl, rfl, rfl⟩, _, rfl, rfl, rfl⟩
  · exact False.elim hnone

/-- A character between single quotes. -/
theorem upholds_char {texts : List String} : Definition.Upholds input (Shape input) ⟨"CharLiteral",
    .seq [.lit "'", .choice [.reference "EscapeSequence", anyExcept texts], .lit "'"]⟩ := by
  refine upholds_expression (by decide) fun pos stop asts h => ?_
  obtain ⟨_, _, _, ⟨-, rfl, rfl⟩, ⟨place, _, _, hcharacter, hrow, rfl⟩, rfl⟩ := h
  obtain ⟨-, rfl, rfl⟩ := hrow.of_single
  obtain ⟨hspelt, ast, rfl, -, -⟩ := spelt_character hcharacter
  obtain ⟨hlt, c, hc⟩ := hspelt.decode
  have hlt' : pos + 1 < place := hlt
  -- The quotes are the first and the last child, so the text between them is that of the character.
  have hbody : quotedBody input ⟨"CharLiteral", pos, place + 1 - pos, none,
      [.terminal pos 1, ast, .terminal place 1]⟩ = (input.extract (pos + 1) place).toList := by
    have hstop : pos + (place + 1 - pos) - 1 = place := by omega
    rw [quotedBody, if_neg (by simp only; omega), hstop]
  refine ⟨.char c, ?_, trivial⟩
  refine (congrArg (toExpr input) (Ast.covering_eq rfl rfl)).trans (toExpr_char ?_)
  exact (congrArg Escape.decodeChar? hbody).trans hc

/-- A member of a class. -/
theorem upholds_member {texts : List String} : Definition.Upholds input (Shape input)
    ⟨"CharClassChar", .choice [.reference "EscapeSequence", anyExcept texts]⟩ := by
  refine upholds_part (by decide) rfl rfl fun pos stop asts h => ?_
  obtain ⟨hspelt, ast, rfl, rfl, rfl⟩ := spelt_character h
  obtain ⟨hlt, c, hc⟩ := hspelt.decode
  have hcovering : Ast.covering "CharClassChar" ast.pos ast.stop [ast] =
      ⟨"CharClassChar", ast.pos, ast.stop - ast.pos, none, [ast]⟩ := Ast.covering_eq rfl rfl
  refine ⟨_, c, by rw [hcovering], rfl, ?_⟩
  have hchars : chars input ⟨"CharClassChar", ast.pos, ast.stop - ast.pos, none, [ast]⟩ =
      (input.extract ast.pos ast.stop).toList := by
    rw [chars, Nat.add_sub_cancel' (Nat.le_of_lt hlt)]
  rw [classMember, hchars, hc]
  rfl

/-- A range of a class. -/
theorem upholds_range : Definition.Upholds input (Shape input) ⟨"CharRange",
    .seq [.reference "CharClassChar", .lit "-", .reference "CharClassChar"]⟩ := by
  refine upholds_part (by decide) rfl rfl fun pos stop asts h => ?_
  obtain ⟨place, _, _, hlo, ⟨_, _, _, ⟨-, -, rfl⟩, hrow, rfl⟩, rfl⟩ := h
  obtain ⟨lo, c, rfl, hlabel, hc⟩ := hlo
  obtain ⟨hi, d, rfl, hlabel', hd⟩ := hrow.of_single
  obtain ⟨start, len, hcovering⟩ := Ast.exists_covering "CharRange" pos stop
    [lo, .terminal place 1, hi]
  have hlabeled : (Ast.mk "CharRange" start len none [lo, .terminal place 1, hi]).labeled
      "CharClassChar" = [lo, hi] := by
    simp [Ast.labeled, hlabel, hlabel', Ast.terminal, Ast.terminalLabel]
  refine ⟨[⟨c, d⟩], ?_, Nat.le_refl 1, fun _ _ => trivial⟩
  show classRanges input [.covering "CharRange" pos stop [lo, .terminal place 1, hi]] = _
  rw [hcovering, classRanges, if_pos rfl, hlabeled]
  show (do
    let range := ⟨← classMember input lo, ← classMember input hi⟩
    return range :: (← classRanges input []) : Except GrammarError (List CharRange)) = _
  rw [hc, hd]
  rfl

/-- A range or a member of a class. -/
theorem gathers_range (h : Produces input (Shape input)
      (.choice [.reference "CharRange", .reference "CharClassChar"]) pos stop asts) :
    Gathers (classRanges input) (fun _ => True) 1 asts := by
  rcases h with hrange | ⟨ast, c, rfl, hlabel, hc⟩ | hnone
  · exact hrange
  · refine ⟨[.single c], ?_, Nat.le_refl 1, fun _ _ => trivial⟩
    rw [classRanges, if_neg (by rw [hlabel]; decide), if_pos hlabel, hc]
    rfl
  · exact False.elim hnone

/-- A class. -/
theorem upholds_class : Definition.Upholds input (Shape input) ⟨"CharClass",
    .seq [.lit "[", .optional (.lit "^"),
      .plus (.choice [.reference "CharRange", .reference "CharClassChar"]), .lit "]"]⟩ := by
  refine upholds_expression (by decide) fun pos stop asts h => ?_
  have hpiecewise := piecewise_classRanges input
  have hterminal : ∀ place len,
      Gathers (classRanges input) (fun _ => True) 0 [.terminal place len] :=
    fun place len => ⟨[], classRanges_terminal input place len [], Nat.le_refl 0, List.forall_mem_nil _⟩
  obtain ⟨_, _, _, ⟨-, -, rfl⟩, ⟨_, marks, _, hmarks, ⟨_, _, _, ⟨parts, hparts, hne, rfl⟩, hrow, rfl⟩,
    rfl⟩, rfl⟩ := h
  obtain ⟨-, -, rfl⟩ := hrow.of_single
  have hcaret : Gathers (classRanges input) (fun _ => True) 0 marks := by
    rcases hmarks with ⟨-, rfl⟩ | ⟨-, -, rfl⟩
    · exact .nil hpiecewise
    · exact hterminal _ _
  have hmembers := Gathers.chain hpiecewise gathers_range hparts
  obtain ⟨ranges, hranges, hleast, -⟩ := (hterminal _ _).append hpiecewise
    (hcaret.append hpiecewise (hmembers.append hpiecewise (hterminal _ _)))
  refine understood_covering fun start len => ⟨_, toExpr_class hranges rfl, ?_⟩
  rintro rfl
  exact hne rfl (List.length_eq_zero_iff.1 (by simpa using hleast))

/-! ### Rules -/

/-- A rule. -/
theorem upholds_rule : Definition.Upholds input (Shape input) ⟨"Rule",
    .seq [.optional (.lit "~"), .reference "Identifier", ws, .lit "<-", ws, .reference "Expression", ws,
      .lit ";", ws]⟩ := by
  refine upholds_part (by decide) rfl rfl fun pos stop asts h => ?_
  -- The elements of the rule in order; what is left of them is a mark, the name, the arrow, the body
  -- and the semicolon.
  obtain ⟨_, marks, _, hmarks, ⟨_, _, _, hname, ⟨arrow, _, _, hblank, ⟨_, _, _, ⟨-, -, rfl⟩, ⟨_, _, _,
    hblank', ⟨_, _, _, hbody, ⟨semicolon, _, _, hblank'', ⟨_, _, _, ⟨-, -, rfl⟩, hlast, rfl⟩, rfl⟩,
    rfl⟩, rfl⟩, rfl⟩, rfl⟩, rfl⟩, rfl⟩ := h
  obtain rfl := shape_blank hblank
  obtain rfl := shape_blank hblank'
  obtain rfl := shape_blank hblank''
  obtain rfl := shape_blank hlast.of_single
  obtain ⟨name, rfl, hidentifier, -⟩ := shape_expression (by decide) hname
  obtain ⟨body, rfl, hexpression, e, he, hpopulated⟩ := shape_expression (by decide) hbody
  obtain ⟨start, len, hcovering⟩ := Ast.exists_covering "Rule" pos stop
    (marks ++ [name, .terminal arrow 2, body, .terminal semicolon 1])
  have hlabels : ∀ ast ∈ marks, ast.label = Ast.terminalLabel := by
    rcases hmarks with ⟨-, rfl⟩ | ⟨-, -, rfl⟩
    · exact nofun
    · exact List.forall_mem_singleton.2 rfl
  obtain ⟨marked, hmarked⟩ : ∃ marked, ∀ more,
      (marks ++ name :: more).head?.any (isToken input · "~") = marked := by
    rcases hmarks with ⟨-, rfl⟩ | ⟨-, -, rfl⟩
    · exact ⟨_, fun _ => rfl⟩
    · exact ⟨_, fun _ => rfl⟩
  obtain ⟨definition, hdefinition, hpopulated'⟩ : ∃ definition, toDefinition input ⟨"Rule", start, len,
      none, marks ++ [name, .terminal arrow 2, body, .terminal semicolon 1]⟩ = .ok definition ∧
        definition.body.Each Expr.Populated :=
    ⟨_, toDefinition_rule hlabels hmarked hidentifier hexpression he, hpopulated⟩
  refine ⟨[definition], ?_, Nat.le_refl 1, List.forall_mem_singleton.2 hpopulated'⟩
  show [Ast.covering "Rule" pos stop
    (marks ++ [name, .terminal arrow 2, body, .terminal semicolon 1])].mapM (toDefinition input) = _
  rw [List.mapM_cons, List.mapM_nil, hcovering, hdefinition]
  rfl

/-- The body of a rule. -/
theorem upholds_body : Definition.Upholds input (Shape input) ⟨"Expression", .reference "Choice"⟩ :=
  upholds_expression (by decide) fun _ _ _ => understood_reference (by decide) (by decide)

/-- Blanks, which are transparent. -/
theorem upholds_blank (body : Expr) : Definition.Upholds input (Shape input) ⟨"~WS", body⟩ := by
  intro pos stop asts _
  have hname : unmarked "~WS" = "WS" := rfl
  have hmark : isMarked "~WS" = true := rfl
  simp only [hname, hmark]
  rw [Shape, if_neg (by decide)]
  rfl

/-- Rules of which no shape is asked. -/
theorem upholds_other (hname : name ∈ ["Grammar", "Comment"]) (body : Expr) :
    Definition.Upholds input (Shape input) ⟨name, body⟩ := by
  simp only [List.mem_cons, List.not_mem_nil, or_false] at hname
  obtain rfl | rfl := hname
  all_goals exact upholds_part (by decide) rfl rfl fun _ _ _ _ => trivial

/-- **All rules of the notation give nodes of their shapes.** -/
theorem upholds_shape (input : Array Char) :
    ∀ definition ∈ definitions, definition.Upholds input (Shape input) := by
  have hoperands : ∀ name ∈ ["Identifier", "StringLiteral", "CharLiteral", "CharClass", "AnyChar",
      "Parens"], name ∈ expressionNames := by decide
  simp only [definitions, List.forall_mem_cons]
  exact ⟨upholds_other (by simp) _, upholds_rule, upholds_body, upholds_choice, upholds_sequence,
    upholds_item, upholds_suffix, upholds_primary hoperands, upholds_parens,
    upholds_leaf (by simp) _, upholds_leaf (by simp) _, upholds_char, upholds_escape, upholds_class,
    upholds_range, upholds_member, upholds_leaf (by simp) _, upholds_blank _,
    upholds_other (by simp) _, List.forall_mem_nil _⟩

end rules

/-! ## Texts -/

/-- The rules of a text. -/
theorem gathers_definitions {input : Array Char} {pos stop : Nat} {asts : List Ast}
    (h : Produces input (Shape input) (.seq [ws, .plus (.seq [.reference "Rule", ws])])
      pos stop asts) :
    Gathers (fun nodes => nodes.mapM (toDefinition input)) (fun d => d.body.Each Expr.Populated) 1
      asts := by
  have hpiecewise := piecewise_toDefinition input
  obtain ⟨_, _, _, hblank, hrow, rfl⟩ := h
  obtain rfl := shape_blank hblank
  obtain ⟨parts, hparts, hne, rfl⟩ := hrow.of_single
  have hrules : Gathers (fun nodes => nodes.mapM (toDefinition input))
      (fun d => d.body.Each Expr.Populated) parts.length parts.flatten := by
    refine .chain hpiecewise (fun hline => ?_) hparts
    obtain ⟨_, _, _, hrule, hrow, rfl⟩ := hline
    obtain rfl := shape_blank hrow.of_single
    rw [List.append_nil]
    exact hrule
  exact hrules.mono (List.length_pos_of_ne_nil (hne rfl))

/-- Whether the texts that are taken from a node lie within the input, so that nothing is cut off. -/
structure WithinReach (input : Array Char) (ast : Ast) : Prop where
  /-- The node ends inside the input. -/
  stop_le : ast.stop ≤ input.size
  /-- Its text is as long as it is. -/
  chars_length : (chars input ast).length = ast.len
  /-- The text between its quotes is shorter by the quotes. -/
  body_length : (quotedBody input ast).length = ast.len - 2

/-- A node that ends inside the input. -/
theorem withinReach_of_stop_le {input : Array Char} {ast : Ast} (h : ast.stop ≤ input.size) :
    WithinReach input ast := by
  have hstop : ast.pos + ast.len ≤ input.size := h
  refine ⟨h, ?_, ?_⟩
  · rw [chars, Array.length_toList, Array.size_extract]
    omega
  · rw [quotedBody]
    split
    · simp only [List.length_nil]
      omega
    · rw [Array.length_toList, Array.size_extract]
      omega

/-- **Whether a syntax tree is understood as rules**: the texts that are taken from it lie within the
specification, its nodes stand for the rules, there are some, and no construct in them is empty. -/
structure UnderstoodAs (spec : String) (ast : Ast) (rules : List Definition) : Prop where
  /-- Nothing that is taken from the specification is cut off. -/
  within : ∀ item ∈ ast.outline 0, WithinReach spec.toList.toArray item.2
  /-- The nodes stand for the rules. -/
  rules_eq : ast.children.mapM (toDefinition spec.toList.toArray) = .ok rules
  /-- There is a rule. -/
  ne_nil : rules ≠ []
  /-- Every construct has elements. -/
  populated : ∀ rule ∈ rules, rule.body.Each Expr.Populated

/-- A specification without errors is understood. -/
theorem exists_understoodAs {g : Grammar} (hg : notationGrammar = .ok g) {top : ClauseId}
    (hr : g.rule? "Grammar" = some top)
    (hdenotes : g.Denotes (.seq [ws, .plus (.seq [.reference "Rule", ws])]) top) {spec : String}
    {p : Parse} (hparse : parse g "Grammar" spec {} = .ok p) (hflag : p.hasErrors = false) :
    p.input = spec.toList.toArray ∧ ∃ rules, UnderstoodAs spec (Ast.ofParse p) rules := by
  have hshapes : Context.Upholds ⟨g, spec.toList.toArray⟩ (Shape spec.toList.toArray) :=
    ⟨definitions, hg, upholds_shape _⟩
  obtain ⟨hinput, hchildren⟩ := children_produces hshapes hr hdenotes hparse hflag
  obtain ⟨rules, hrules, hleast, hpopulated⟩ := gathers_definitions hchildren
  have hprojects := projectsTo_of_parse (build_wellFormed hg) hparse
  refine ⟨hinput, rules, fun item hitem => withinReach_of_stop_le ?_, hrules, List.length_pos_iff.1 hleast,
    hpopulated⟩
  rw [size_toArray_toList]
  exact (hprojects.spanned item hitem).within

/-- **Every specification is accounted for.** It is parsed with the grammar of the notation. Either it has
syntax errors, and is rejected with them; or all texts that are taken from it lie within it, and it is
understood as rules, which make the grammar that is read unless there is something wrong with their
names. -/
theorem read_accounts (spec : String) :
    ∃ p events, parseNotation spec = .ok (p, events) ∧
      (p.hasErrors = true ∧ read spec = .error (.rejected p.descriptions) ∨
        p.hasErrors = false ∧ ∃ rules, UnderstoodAs spec (Ast.ofParse p) rules ∧
          read spec = Grammar.build rules ∧
          ∀ e, Grammar.build rules = .error e → e.concernsNames = true) := by
  obtain ⟨g, top, p, events, hg, hr, hdenotes, hnotation, hparse⟩ := parseNotation_eq_ok spec
  refine ⟨p, events, hnotation, ?_⟩
  cases hflag : p.hasErrors with
  | true =>
    exact .inl ⟨rfl, by rw [read_of_parse hnotation, if_pos hflag]⟩
  | false =>
    obtain ⟨hinput, rules, hrules⟩ := exists_understoodAs hg hr hdenotes hparse hflag
    refine .inr ⟨rfl, rules, hrules, ?_, fun e he => ?_⟩
    · rw [read_of_parse hnotation, hflag, if_neg Bool.false_ne_true, hinput, hrules.rules_eq]
      rfl
    · exact build_concernsNames hrules.ne_nil hrules.populated he

end Spec
end Packrat

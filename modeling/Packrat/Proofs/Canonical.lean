import Packrat.Proofs.Spelling
import Packrat.Proofs.Totality

/-!
# What is read is canonical

Every rule of the notation takes or misses wherever it is tried, so what it reads of a text is settled.
The nodes that it gives stand for expressions that can be told from their written forms, but for
characters that cannot be written and lookaheads under an operator.

* `Spec.Canonical` — what holds of every expression that is read.
* `Spec.Proper`, `Spec.Declares` — the nodes that stand for canonical expressions, and for definitions of
  them.
* `Spec.Notation.settles_class` — a class without a caret to invert it does not start with one.
* **`Spec.Notation.settles_item`** — operands, operators and what is between them, further and further on
  in the text.
* **`Spec.Notation.settles_rule`**, `Spec.Notation.settles_grammar` — rules, and a text as a whole.
-/

namespace Packrat
namespace Spec

/-! ## Expressions -/

/-- **What holds of every expression that is read**: sequences and choices have several items, names are
identifiers, and a class that is not inverted does not start with a caret. -/
def Canonical : Expr → Prop
  | .seq items | .choice items => 2 ≤ items.length
  | .reference name => isIdentifier name.toList = true
  | .charClass ranges inverted =>
    inverted = false → ∀ range, ranges.head? = some range → range.lo ≠ '^'
  | _ => True

/-- Whether a node stands for a canonical expression, if it stands for any. -/
def Proper (input : Array Char) (ast : Ast) : Prop :=
  ∀ e, toExpr input ast = .ok e → e.Each Canonical

/-- Whether a node stands for a definition with an identifier as its name, perhaps with a mark, and a
canonical body, if it stands for any. -/
def Declares (input : Array Char) (ast : Ast) : Prop :=
  ∀ definition, toDefinition input ast = .ok definition →
    isIdentifier (unmarked definition.name).toList = true ∧ definition.body.Each Canonical

section expressions

variable {input : Array Char} {label : String} {e operand : Expr} {es : List Expr}

/-- A sequence or choice has several items. -/
theorem collapse_canonical {combine : List Expr → Expr}
    (hcombine : ∀ items, (combine items).Each Canonical ↔
      2 ≤ items.length ∧ Expr.EachItem Canonical items)
    (hes : Expr.EachItem Canonical es) (h : collapse label combine es = .ok e) : e.Each Canonical := by
  match es, h with
  | [item], h =>
    cases h
    exact hes.1
  | first :: second :: others, h =>
    cases h
    exact (hcombine _).2 ⟨by simp, hes⟩

/-- An operator before an operand. -/
theorem applyBefore_canonical {operator : List Char} (hoperand : operand.Each Canonical)
    (h : applyBefore operator operand = .ok e) : e.Each Canonical := by
  unfold applyBefore at h
  split at h
  · cases h
    exact ⟨trivial, hoperand⟩
  split at h
  · cases h
    exact ⟨trivial, hoperand⟩
  split at h
  · cases h
    exact hoperand
  · cases h

/-- An operator after an operand. -/
theorem applyAfter_canonical {operator : List Char} (hoperand : operand.Each Canonical)
    (h : applyAfter operator operand = .ok e) : e.Each Canonical := by
  unfold applyAfter at h
  split at h
  · cases h
    exact ⟨trivial, hoperand⟩
  split at h
  · cases h
    exact ⟨trivial, hoperand⟩
  split at h
  · cases h
    exact ⟨trivial, hoperand⟩
  · cases h

/-- An expression without others in it. -/
theorem leafExpr_canonical {ast : Ast}
    (hname : ast.label = "Identifier" → isIdentifier (chars input ast) = true)
    (hclass : ast.label = "CharClass" → ∀ ranges, classRanges input ast.children = .ok ranges →
      Canonical (.charClass ranges (ast.children[1]?.any (isToken input · "^"))))
    (h : leafExpr input ast = .ok e) : e.Each Canonical := by
  unfold leafExpr at h
  split at h
  · rename_i hlabel
    cases h
    show isIdentifier (String.ofList (chars input ast)).toList = true
    rw [String.toList_ofList]
    exact hname hlabel
  · cases h
    trivial
  · split at h
    · cases h
      trivial
    · cases h
  · rename_i hlabel
    obtain ⟨ranges, hranges, h⟩ := except_bind_eq_ok.1 h
    cases h
    exact hclass hlabel ranges hranges
  · cases h
    trivial
  · cases h

/-- The expressions of several nodes. -/
theorem toExprs_canonical : ∀ {asts : List Ast} {es : List Expr},
    (∀ ast ∈ asts, Proper input ast) →
    toExprs input label asts = .ok es → Expr.EachItem Canonical es
  | [], es, _, h => by
    cases h
    trivial
  | ast :: rest, es, hall, h => by
    obtain ⟨hfirst, hothers⟩ := List.forall_mem_cons.1 hall
    rw [toExprs] at h
    split at h
    · obtain ⟨item, hitem, h⟩ := except_bind_eq_ok.1 h
      obtain ⟨items, hitems, h⟩ := except_bind_eq_ok.1 h
      cases h
      exact ⟨hfirst _ hitem, toExprs_canonical hothers hitems⟩
    · exact toExprs_canonical hothers h

/-- **A node over proper ones is proper**, if it is not that of a name or a class. -/
theorem Proper.node {ast : Ast} (hall : ∀ child ∈ ast.children, Proper input child)
    (hname : ast.label = "Identifier" → isIdentifier (chars input ast) = true)
    (hclass : ast.label = "CharClass" → ∀ ranges, classRanges input ast.children = .ok ranges →
      Canonical (.charClass ranges (ast.children[1]?.any (isToken input · "^")))) :
    Proper input ast := by
  intro e h
  obtain ⟨label, pos, len, error, children⟩ := ast
  rw [toExpr.eq_def] at h
  simp only at h
  split at h
  -- The one child of an expression or an operand.
  iterate 2
    · split at h
      · exact hall _ List.mem_cons_self _ h
      · cases h
  -- The items of a choice or a sequence.
  iterate 2
    · obtain ⟨items, hitems, h⟩ := except_bind_eq_ok.1 h
      exact collapse_canonical (fun _ => .rfl) (toExprs_canonical hall hitems) h
  · split at h
    · rename_i operator operand
      split at h
      · obtain ⟨item, hitem, h⟩ := except_bind_eq_ok.1 h
        exact applyBefore_canonical (hall operand (by simp) _ hitem) h
      · cases h
    · exact hall _ List.mem_cons_self _ h
    · cases h
  · split at h
    · rename_i operand operator
      split at h
      · obtain ⟨item, hitem, h⟩ := except_bind_eq_ok.1 h
        exact applyAfter_canonical (hall operand (by simp) _ hitem) h
      · cases h
    · exact hall _ List.mem_cons_self _ h
    · cases h
  -- Parentheses.
  · rw [toChildExpr?_children input "Expression" ⟨"Parens", pos, len, error, children⟩] at h
    cases hchild : Ast.child? ⟨"Parens", pos, len, error, children⟩ "Expression" with
    | none =>
      rw [hchild] at h
      cases h
      trivial
    | some inner =>
      rw [hchild] at h
      exact hall inner (List.mem_of_find?_eq_some hchild) _ h
  · exact leafExpr_canonical hname hclass h

/-- A terminal stands for no expression. -/
theorem proper_terminal (input : Array Char) (pos len : Nat) :
    Proper input (.terminal pos len) := by
  refine .node nofun (fun hlabel => ?_) fun hlabel => ?_
  · exact absurd hlabel (show Ast.terminalLabel ≠ "Identifier" by decide)
  · exact absurd hlabel (show Ast.terminalLabel ≠ "CharClass" by decide)

/-- The node of another rule. -/
theorem proper_covering {pos : Nat} (hlabel : label ∉ ["Identifier", "CharClass"]) (stop : Nat)
    (asts : List Ast) (hall : ∀ ast ∈ asts, Proper input ast) :
    Proper input (.covering label pos stop asts) := by
  obtain ⟨start, len, hcovering⟩ := Ast.exists_covering label pos stop asts
  simp only [List.mem_cons, List.not_mem_nil, or_false, not_or] at hlabel
  rw [hcovering]
  exact .node hall (fun h => absurd h hlabel.1) fun h => absurd h hlabel.2

end expressions

/-! ## Definitions -/

/-- A name with a mark, without it. -/
theorem unmarked_ofList {mark : Bool} {text : List Char} (h : isIdentifier text = true) :
    (unmarked (String.ofList ((if mark then ['~'] else []) ++ text))).toList = text := by
  obtain ⟨c, more, rfl, hc⟩ := exists_of_isIdentifier h
  cases mark <;> simp [unmarked, ne_mark_of_isNameStart hc]

/-- What a rule is read from. -/
theorem exists_of_toDefinition {input : Array Char} {ast : Ast} {definition : Definition}
    (h : toDefinition input ast = .ok definition) :
    ∃ name body e, ast.child? "Identifier" = some name ∧ ast.child? "Expression" = some body ∧
      toExpr input body = .ok e ∧ definition = ⟨String.ofList
        ((if ast.children.head?.any (isToken input · "~") then ['~'] else []) ++ chars input name),
        e⟩ := by
  cases hname : ast.child? "Identifier" with
  | none =>
    simp only [toDefinition, hname] at h
    split at h <;> cases h
  | some name =>
    cases hbody : ast.child? "Expression" with
    | none =>
      simp only [toDefinition, hname, hbody] at h
      split at h <;> cases h
    | some body =>
      simp only [toDefinition, hname, hbody] at h
      split at h
      · cases h
      · obtain ⟨e, he, h⟩ := except_bind_eq_ok.1 h
        cases h
        exact ⟨name, body, e, rfl, rfl, he, rfl⟩

/-- **The node of a rule over proper ones** stands for a definition of a canonical body. -/
theorem declares_covering {input : Array Char} {label : String} {pos : Nat} (stop : Nat)
    (asts : List Ast) (hall : ∀ ast ∈ asts, Proper input ast) :
    Declares input (.covering label pos stop asts) := by
  intro definition h
  obtain ⟨start, len, hcovering⟩ := Ast.exists_covering label pos stop asts
  rw [hcovering] at h
  obtain ⟨name, body, e, hname, hbody, he, rfl⟩ := exists_of_toDefinition h
  have hidentifier : isIdentifier (chars input name) = true := by
    have hlabel : name.label = "Identifier" := by simpa using List.find?_some hname
    have hreference : toExpr input name = .ok (.reference (String.ofList (chars input name))) := by
      obtain ⟨_, pos, len, error, children⟩ := name
      obtain rfl := hlabel
      rfl
    have hcanonical := hall name (List.mem_of_find?_eq_some hname) _ hreference
    rwa [Expr.Each, Canonical, String.toList_ofList] at hcanonical
  refine ⟨?_, hall body (List.mem_of_find?_eq_some hbody) e he⟩
  rwa [unmarked_ofList hidentifier]

/-! ## The rules of the notation -/

section rules

variable {ctx : Context} {rule : LeftRule} (hn : Notation ctx rule) {pos : Nat}
  (hpos : pos ≤ ctx.input.size)
include hn hpos

/-- Blanks. -/
theorem Notation.settles_blank {P : Ast → Prop} : Settled ctx rule P ws 0 pos := by
  have hrule := hn.suffix
  -- Blanks are transparent, so the nodes of the comments in them do not matter.
  have hbody : ∀ {place}, place ≤ ctx.input.size →
      Settled ctx rule (fun _ => True) (.seq [.notAhead (.char '\n'), .anyChar]) 1 place := by
    intro place hplace
    have hbreak : Settled ctx rule (fun _ => True) (.char '\n') 1 place :=
      .one hrule rfl hplace fun _ => trivial
    exact .seq hrule hplace rfl (by decide) (.cons (.notAhead hrule hplace hbreak) fun _ hnext =>
      .last (.one hrule rfl hnext fun _ => trivial))
  have hcomment : ∀ {place}, place ≤ ctx.input.size →
      Settled ctx rule (fun _ => True) (.reference "Comment") 1 place := by
    intro place hplace
    refine .reference (P := fun _ => True) hrule (visible_names hn.built 18 rfl rfl rfl) ?_
      fun _ _ _ => trivial
    exact .seq hrule hplace rfl (by decide) (.cons (.one hrule rfl hplace fun _ => trivial)
      fun _ hnext => .cons (.star hrule hnext fun _ hlater => hbody hlater) fun _ hend =>
        .last (.optional hrule hend (.one hrule rfl hend fun _ => trivial)))
  refine .hidden (P := fun _ => True) hrule hn.blanks (.star hrule hpos fun _ hplace => ?_)
  refine .choice hrule hplace rfl (List.forall_mem_cons.2 ⟨?_, List.forall_mem_singleton.2 ?_⟩)
  · exact .anyOf hrule rfl hplace fun _ => trivial
  · exact hcomment hplace

/-- One character. -/
theorem Notation.settles_one {e : Expr} (he : e.isOne = true) :
    Settled ctx rule (Proper ctx.input) e 1 pos :=
  .one hn.suffix he hpos (proper_terminal _ _)

omit hpos in
/-- A rule of the notation, if it is not that of a name or a class. -/
theorem Notation.settles_node (i : Nat) {name : String} {body : Expr}
    (hi : definitions[i]? = some ⟨name, body⟩) (hname : unmarked name = name)
    (hmark : isMarked name = false) (hlabel : name ∉ ["Identifier", "CharClass"])
    (h : Settled ctx rule (Proper ctx.input) body 1 pos) :
    Settled ctx rule (Proper ctx.input) (.reference name) 1 pos :=
  .reference hn.suffix (visible_names hn.built i hi hname hmark) h (proper_covering hlabel)

/-- A name. -/
theorem Notation.settles_identifier :
    Settled ctx rule (Proper ctx.input) (.reference "Identifier") 1 pos := by
  have hat : ctx.At pos (ctx.input.toList.drop pos) := ⟨hpos, rfl⟩
  cases hstarts : (ctx.input.toList.drop pos).head?.any isNameStart with
  | false => exact .inr (hn.misses_identifier hat hstarts)
  | true =>
    obtain ⟨c, more, htext, hc⟩ := exists_of_head?_any hstarts
    have hidentifier : isIdentifier (c :: more.takeWhile isNamePart) = true := by
      rw [isIdentifier, hc, Bool.true_and]
      exact List.all_takeWhile
    rw [htext, ← List.takeWhile_append_dropWhile (p := isNamePart) (l := more), ← List.cons_append]
      at hat
    have hrest : (more.dropWhile isNamePart).head?.any isNamePart = false := by
      have hnot := List.head?_dropWhile_not isNamePart more
      cases hhead : (more.dropWhile isNamePart).head? with
      | none => rfl
      | some d => simpa [hhead] using hnot
    obtain ⟨asts, htakes⟩ := hn.takes_identifier hidentifier hat hrest
    refine .inl ⟨_, _, htakes, ?_, hat.skip.le, List.forall_mem_singleton.2 fun e h => ?_⟩
    · simp
    · refine leafExpr_canonical (fun _ => ?_) (fun hlabel => ?_) h
      · rwa [chars_eq hat]
      · exact absurd hlabel (show "Identifier" ≠ "CharClass" by decide)

/-- A quoted character. -/
theorem Notation.settles_character {texts : List String}
    (hone : (texts.map Expr.lit).all Expr.isOne = true) :
    Settled ctx rule (Proper ctx.input) (.choice [.reference "EscapeSequence", anyExcept texts]) 1
      pos := by
  have hrule := hn.suffix
  refine .choice hrule hpos rfl (List.forall_mem_cons.2 ⟨?_, List.forall_mem_singleton.2 ?_⟩)
  · refine hn.settles_node 12 rfl rfl rfl (by decide) ?_
    exact .seq hrule hpos rfl (by decide) (.cons (hn.settles_one hpos rfl) fun _ hnext =>
      .last (.anyOf hrule rfl hnext (proper_terminal _ _)))
  · have hstop : Settled ctx rule (Proper ctx.input) (.choice (texts.map .lit)) 1 pos :=
      .anyOf hrule hone hpos (proper_terminal _ _)
    exact .seq hrule hpos rfl (by decide) (.cons (.notAhead hrule hpos hstop) fun _ hnext =>
      .last (hn.settles_one hnext rfl))

/-- A text between double quotes. -/
theorem Notation.settles_string :
    Settled ctx rule (Proper ctx.input) (.reference "StringLiteral") 1 pos := by
  have hrule := hn.suffix
  refine hn.settles_node 10 rfl rfl rfl (by decide) ?_
  exact .seq hrule hpos rfl (by decide) (.cons (hn.settles_one hpos rfl) fun _ hnext =>
    .cons (.star hrule hnext fun _ hlater => hn.settles_character hlater rfl) fun _ hend =>
      .last (hn.settles_one hend rfl))

/-- A character between single quotes. -/
theorem Notation.settles_char :
    Settled ctx rule (Proper ctx.input) (.reference "CharLiteral") 1 pos := by
  refine hn.settles_node 11 rfl rfl rfl (by decide) ?_
  exact .seq hn.suffix hpos rfl (by decide) (.cons (hn.settles_one hpos rfl) fun _ hnext =>
    .cons (hn.settles_character hnext rfl) fun _ hend => .last (hn.settles_one hend rfl))

/-! ### Classes -/

omit hn hpos in
/-- Whether a node is that of a member of a class, and is read as a caret only if there is one at a
position. -/
def IsMember (input : Array Char) (pos : Nat) (ast : Ast) : Prop :=
  ast.label = "CharClassChar" ∧ (classMember input ast = .ok '^' → input[pos]? = some '^')

omit hn hpos in
/-- Whether a node of a class is that of a range or a member, and the range that it stands for starts
with a caret only if there is one at a position. -/
def Leads (input : Array Char) (pos : Nat) (ast : Ast) : Prop :=
  ast.isTerminal = false ∧ ∀ more ranges, classRanges input (ast :: more) = .ok ranges →
    ∀ range, ranges.head? = some range → range.lo = '^' → input[pos]? = some '^'

omit hn hpos in
/-- A member leads. -/
theorem IsMember.leads {input : Array Char} {ast : Ast} (h : IsMember input pos ast) :
    Leads input pos ast := by
  refine ⟨by rw [Ast.isTerminal, h.1]; rfl, fun more ranges hranges range hrange hcaret => ?_⟩
  rw [classRanges, h.1, if_neg (by decide), if_pos rfl] at hranges
  obtain ⟨c, hc, hranges⟩ := except_bind_eq_ok.1 hranges
  obtain ⟨rest, -, hranges⟩ := except_bind_eq_ok.1 hranges
  cases hranges
  obtain rfl := Option.some.inj hrange
  obtain rfl : c = '^' := hcaret
  exact h.2 hc

omit hn hpos in
/-- A range leads as its first member does. -/
theorem IsMember.range_leads {input : Array Char} {lo : Ast} {others : List Ast} {start len : Nat}
    (h : IsMember input pos lo) : Leads input pos ⟨"CharRange", start, len, none, lo :: others⟩ := by
  refine ⟨rfl, fun more ranges hranges range hrange hcaret => ?_⟩
  have hlabeled : (Ast.mk "CharRange" start len none (lo :: others)).labeled "CharClassChar" =
      lo :: others.filter (·.label == "CharClassChar") := by
    simp [Ast.labeled, h.1]
  rw [classRanges, if_pos rfl, hlabeled] at hranges
  split at hranges
  · rename_i first hi tail hsplit
    obtain ⟨rfl, -⟩ := List.cons.inj hsplit
    obtain ⟨c, hc, hranges⟩ := except_bind_eq_ok.1 hranges
    obtain ⟨d, -, hranges⟩ := except_bind_eq_ok.1 hranges
    obtain ⟨rest, -, hranges⟩ := except_bind_eq_ok.1 hranges
    cases hranges
    obtain rfl := Option.some.inj hrange
    obtain rfl : c = '^' := hcaret
    exact h.2 hc
  · cases hranges

/-- A member of a class. -/
theorem Notation.settles_member :
    SettledNode ctx rule (IsMember ctx.input pos) (.reference "CharClassChar") pos := by
  have hat : ctx.At pos (ctx.input.toList.drop pos) := ⟨hpos, rfl⟩
  rcases Escape.exists_stands_or_bars [']', '-'] (ctx.input.toList.drop pos) with
    ⟨c, written, rest, htext, hstands⟩ | hbars
  · rw [htext] at hat
    obtain ⟨ast, htakes, hlabel, hmember⟩ := hn.takes_member hstands hat
    have hlength : 0 < written.length := List.length_pos_of_ne_nil hstands.ne_nil
    refine .inl ⟨_, ast, htakes, by omega, hat.skip.le, List.forall_mem_singleton.2 ⟨hlabel, ?_⟩⟩
    intro hcaret
    obtain rfl : c = '^' := Except.ok.inj (hmember.symm.trans hcaret)
    rw [hat.getElem?_eq]
    cases hstands with
    | plain => rfl
    | escaped hcode hresolve =>
      have hnone : ∀ code ∈ Escape.codes, Escape.resolve code ≠ '^' :=
        List.all_iff_forall_prop.1 (by decide)
      exact absurd hresolve (hnone _ hcode)
  · exact .inr (Misses.reference hn.suffix (visible_names hn.built 15 rfl rfl rfl)
      (hn.misses_character rfl any_accepts_memberStop hbars hat))

/-- A range or a member of a class. -/
theorem Notation.settles_range : SettledNode ctx rule (Leads ctx.input pos)
    (.choice [.reference "CharRange", .reference "CharClassChar"]) pos := by
  have hrule := hn.suffix
  have hnames := visible_names hn.built 14 rfl rfl rfl
  rcases hn.settles_member hpos with ⟨stop, lo, htakes, hfar, hinside, hlo⟩ | hmiss
  · have hmember := List.forall_mem_singleton.1 hlo
    have hhyphen : Settled ctx rule (fun _ => True) (.lit "-") 1 stop :=
      .one hrule rfl hinside fun _ => trivial
    have hrest : SettledRow ctx rule (fun _ => True) [.lit "-", .reference "CharClassChar"] 2 stop :=
      .cons hhyphen fun _ hnext =>
        .last ((hn.settles_member hnext).settled.mono (fun _ _ => trivial) (Nat.le_refl 1))
    rcases hrest with ⟨last, others, hrow, hlands⟩ | hmiss
    · obtain ⟨start, len, hnode⟩ := Takes.node hrule hnames
        (Takes.seq hrule hpos rfl (TakesRow.cons htakes hrow))
      have hfar' := hlands.far
      exact .inl ⟨last, _, Takes.choice hrule hpos rfl (.here hnode), by omega, hlands.inside,
        List.forall_mem_singleton.2 hmember.range_leads⟩
    · have hrange := Misses.reference hrule hnames (Misses.seq hrule rfl (MissesRow.later htakes hmiss))
      exact .inl ⟨stop, lo, Takes.choice hrule hpos rfl (.later hrange (.here htakes)), hfar, hinside,
        List.forall_mem_singleton.2 hmember.leads⟩
  · have hrange := Misses.reference hrule hnames (Misses.seq hrule rfl (MissesRow.here hmiss))
    exact .inr (Misses.choice hrule rfl
      (List.forall_mem_cons.2 ⟨hrange, List.forall_mem_singleton.2 hmiss⟩))

/-- The ranges and members of a class. -/
theorem Notation.settles_ranges :
    (∃ stop ast others, Takes ctx rule (.plus (.choice [.reference "CharRange",
        .reference "CharClassChar"])) pos stop (ast :: others) ∧
      Lands ctx (fun _ => True) (pos + 1) stop (ast :: others) ∧ Leads ctx.input pos ast) ∨
    Misses ctx rule (.plus (.choice [.reference "CharRange", .reference "CharClassChar"])) pos := by
  rcases hn.settles_range hpos with ⟨middle, ast, htakes, hfar, hinside, hast⟩ | hmiss
  · obtain ⟨stop, others, hmany, hlands⟩ := exists_takesMany (P := fun _ => True) hinside
      fun _ hplace => (hn.settles_range hplace).settled.mono (fun _ _ => trivial) (Nat.le_refl 1)
    have hfar' := hlands.far
    refine .inl ⟨stop, ast, others, Takes.repeated hn.suffix hpos
      (TakesMany.cons htakes hfar hmany) fun _ => by omega, ⟨by omega, hlands.inside, ?_⟩, ?_⟩
    · exact fun _ _ => trivial
    · exact List.forall_mem_singleton.1 hast
  · exact .inr (Misses.plus hn.suffix hmiss)

omit hn hpos in
/-- A text with its caret, if it starts with one. -/
theorem exists_caret (text : List Char) : ∃ inverted rest,
    text = (if inverted then ['^'] else []) ++ rest ∧ (inverted = false → rest.head? ≠ some '^') := by
  by_cases hcaret : text.head? = some '^'
  · cases text with
    | nil => cases hcaret
    | cons c rest =>
      obtain rfl := Option.some.inj hcaret
      exact ⟨true, rest, rfl, nofun⟩
  · exact ⟨false, text, rfl, fun _ => hcaret⟩

/-- **A class.** Without a caret to invert it, it does not start with one. -/
theorem Notation.settles_class :
    Settled ctx rule (Proper ctx.input) (.reference "CharClass") 1 pos := by
  have hrule := hn.suffix
  have hnames := visible_names hn.built 13 rfl rfl rfl
  have hat : ctx.At pos (ctx.input.toList.drop pos) := ⟨hpos, rfl⟩
  cases hopens : (ctx.input.toList.drop pos).head?.any (Expr.lit "[").accepts with
  | false =>
    exact .inr (Misses.reference hrule hnames (Misses.seq hrule rfl
      (MissesRow.here (Misses.one hrule rfl hat hopens))))
  | true =>
    obtain ⟨c, text, htext, hc⟩ := exists_of_head?_any hopens
    obtain ⟨inverted, rest, hrest, hcaret⟩ := exists_caret text
    rw [htext, hrest] at hat
    have hopen := Takes.one hrule (e := .lit "[") rfl hat hc
    obtain ⟨marks, hmarks, hskip, hinverted⟩ := hn.takes_caret hat.next hcaret
    have hmembers := hat.next.skip
    rcases hn.settles_ranges hmembers.le with ⟨stop, ast, others, htakes, hlands, hast⟩ | hmiss
    · rcases hn.settles_one hlands.inside (e := .lit "]") rfl with
        ⟨last, closing, hclose, hlands'⟩ | hmiss
      · obtain ⟨start, len, hnode⟩ := Takes.node hrule hnames (Takes.seq hrule hpos rfl
          (TakesRow.cons hopen (TakesRow.cons hmarks (TakesRow.cons htakes
            (TakesRow.cons hclose TakesRow.nil)))))
        have hfar := hlands.far
        have hfar' := hlands'.far
        refine .inl ⟨last, _, hnode, by omega, hlands'.inside, List.forall_mem_singleton.2 ?_⟩
        intro e he
        refine leafExpr_canonical (fun hlabel => ?_) (fun _ ranges hranges => ?_) he
        · exact absurd hlabel (show "CharClass" ≠ "Identifier" by decide)
        · intro hplain range hrange hlo
          have hplain' : inverted = false := (hinverted ast _ hast.1).symm.trans hplain
          have hranges' : classRanges ctx.input (ast :: (others ++ (closing ++ []))) = .ok ranges := by
            rw [← hskip, ← classRanges_terminal ctx.input pos 1]
            exact hranges
          have hhead := hast.2 _ _ hranges' range hrange hlo
          rw [hmembers.getElem?_eq] at hhead
          exact hcaret hplain' hhead
      · exact .inr (Misses.reference hrule hnames (Misses.seq hrule rfl (MissesRow.later hopen
          (MissesRow.later hmarks (MissesRow.later htakes (MissesRow.here hmiss))))))
    · exact .inr (Misses.reference hrule hnames (Misses.seq hrule rfl (MissesRow.later hopen
        (MissesRow.later hmarks (MissesRow.here hmiss)))))

/-! ### Operands and operators -/

/-- Parentheses, if expressions take or miss further on. -/
theorem Notation.settles_parens (h : ∀ {place}, pos + 1 ≤ place → place ≤ ctx.input.size →
      Settled ctx rule (Proper ctx.input) (.reference "Expression") 1 place) :
    Settled ctx rule (Proper ctx.input) (.reference "Parens") 1 pos := by
  have hrule := hn.suffix
  refine hn.settles_node 8 rfl rfl rfl (by decide) ?_
  exact .seq hrule hpos rfl (by decide) (.cons (hn.settles_one hpos rfl) fun hfar hnext =>
    .cons (hn.settles_blank hnext) fun hfar' hblank =>
      .cons (.optional hrule hblank (h (Nat.le_trans hfar hfar') hblank)) fun _ hlater =>
        .cons (hn.settles_blank hlater) fun _ hend => .last (hn.settles_one hend rfl))

/-- An operand. -/
theorem Notation.settles_operand (h : ∀ {place}, pos + 1 ≤ place → place ≤ ctx.input.size →
      Settled ctx rule (Proper ctx.input) (.reference "Expression") 1 place) :
    Settled ctx rule (Proper ctx.input) (.reference "Primary") 1 pos := by
  have hany : Settled ctx rule (Proper ctx.input) (.reference "AnyChar") 1 pos :=
    hn.settles_node 16 rfl rfl rfl (by decide) (hn.settles_one hpos rfl)
  refine hn.settles_node 7 rfl rfl rfl (by decide) (.choice hn.suffix hpos rfl ?_)
  simp only [List.forall_mem_cons]
  exact ⟨hn.settles_identifier hpos, hn.settles_string hpos, hn.settles_char hpos,
    hn.settles_class hpos, hany, hn.settles_parens hpos h, List.forall_mem_nil _⟩

/-- Operators after an operand. -/
theorem Notation.settles_suffix (h : ∀ {place}, pos + 1 ≤ place → place ≤ ctx.input.size →
      Settled ctx rule (Proper ctx.input) (.reference "Expression") 1 place) :
    Settled ctx rule (Proper ctx.input) (.reference "Suffix") 1 pos := by
  refine .grown hn.follows hpos (List.forall_mem_singleton.2 (hn.settles_operand hpos h)) ?_
    (proper_covering (by decide))
  intro tail htail middle _ hmiddle
  obtain ⟨operator, -, rfl⟩ := List.mem_map.1 htail
  exact .cons (hn.settles_blank hmiddle) fun _ hnext => .last (hn.settles_one hnext rfl)

/-- A sequence, if items take or miss from its start on. -/
theorem Notation.settles_sequence (h : ∀ {place}, pos ≤ place → place ≤ ctx.input.size →
      Settled ctx rule (Proper ctx.input) (.reference "Prefix") 1 place) :
    Settled ctx rule (Proper ctx.input) (.reference "Sequence") 1 pos := by
  have hrule := hn.suffix
  have hitem : ∀ {place}, pos ≤ place → place ≤ ctx.input.size →
      Settled ctx rule (Proper ctx.input) (.seq [ws, .reference "Prefix"]) 1 place :=
    fun hle hplace => .seq hrule hplace rfl (by decide) (.cons (hn.settles_blank hplace)
      fun hle' hnext => .last (h (Nat.le_trans hle hle') hnext))
  refine hn.settles_node 4 rfl rfl rfl (by decide) ?_
  exact .seq hrule hpos rfl (by decide) (.cons (h (Nat.le_refl pos) hpos) fun hle hnext =>
    .last (.star hrule hnext fun hle' hlater => hitem (by omega) hlater))

/-- An expression, if items take or miss from its start on. -/
theorem Notation.settles_expression (h : ∀ {place}, pos ≤ place → place ≤ ctx.input.size →
      Settled ctx rule (Proper ctx.input) (.reference "Prefix") 1 place) :
    Settled ctx rule (Proper ctx.input) (.reference "Expression") 1 pos := by
  have hrule := hn.suffix
  have hsequence : ∀ {place}, pos ≤ place → place ≤ ctx.input.size →
      Settled ctx rule (Proper ctx.input) (.reference "Sequence") 1 place :=
    fun hle hplace => hn.settles_sequence hplace fun hle' => h (Nat.le_trans hle hle')
  have hother : ∀ {place}, pos ≤ place → place ≤ ctx.input.size →
      Settled ctx rule (Proper ctx.input) (.seq [ws, .lit "/", ws, .reference "Sequence"]) 1 place :=
    fun hle hplace => .seq hrule hplace rfl (by decide) (.cons (hn.settles_blank hplace)
      fun hle' hslash => .cons (hn.settles_one hslash rfl) fun hle'' hblank =>
        .cons (hn.settles_blank hblank) fun hfar hnext => .last (hsequence (by omega) hnext))
  have hchoice : Settled ctx rule (Proper ctx.input) (.reference "Choice") 1 pos := by
    refine hn.settles_node 3 rfl rfl rfl (by decide) ?_
    exact .seq hrule hpos rfl (by decide) (.cons (hsequence (Nat.le_refl pos) hpos) fun hle hnext =>
      .last (.star hrule hnext fun hle' hlater => hother (by omega) hlater))
  exact hn.settles_node 2 rfl rfl rfl (by decide) hchoice

omit hpos in
/-- **An item takes or misses wherever it is tried**, since items and expressions in it come further
on. -/
theorem Notation.settles_item {pos : Nat} (hpos : pos ≤ ctx.input.size) :
    Settled ctx rule (Proper ctx.input) (.reference "Prefix") 1 pos := by
  have hrule := hn.suffix
  have hlater : ∀ {place}, pos + 1 ≤ place → place ≤ ctx.input.size →
      Settled ctx rule (Proper ctx.input) (.reference "Prefix") 1 place :=
    fun hlt hplace => Notation.settles_item hplace
  have hexpression : ∀ {place}, pos + 1 ≤ place → place ≤ ctx.input.size →
      Settled ctx rule (Proper ctx.input) (.reference "Expression") 1 place :=
    fun hlt hplace => hn.settles_expression hplace fun hle => hlater (Nat.le_trans hlt hle)
  refine .reference hrule hn.items (.choice hrule hpos rfl fun e he => ?_) (proper_covering (by decide))
  rcases List.mem_append.1 he with hoperator | hoperand
  · obtain ⟨operator, -, rfl⟩ := List.mem_map.1 hoperator
    exact .seq hrule hpos rfl (by decide) (.cons (hn.settles_one hpos rfl) fun hlt hnext =>
      .cons (hn.settles_blank hnext) fun hle hitem => .last (hlater (Nat.le_trans hlt hle) hitem))
  · obtain rfl := List.mem_singleton.1 hoperand
    exact hn.settles_suffix hpos hexpression
termination_by ctx.input.size - pos

/-! ### Rules -/

/-- **A rule takes or misses wherever it is tried.** -/
theorem Notation.settles_rule :
    Settled ctx rule (Declares ctx.input) (.reference "Rule") 1 pos := by
  have hrule := hn.suffix
  refine .reference hrule (visible_names hn.built 1 rfl rfl rfl) (P := Proper ctx.input) ?_
    declares_covering
  exact .seq hrule hpos rfl (by decide)
    (.cons (.optional hrule hpos (hn.settles_one hpos rfl)) fun _ hname =>
      .cons (hn.settles_identifier hname) fun _ hblank => .cons (hn.settles_blank hblank) fun _ harrow =>
        .cons (.literal hrule harrow (proper_terminal _ _)) fun _ hblank' =>
          .cons (hn.settles_blank hblank') fun _ hbody =>
            .cons (hn.settles_expression hbody fun _ => hn.settles_item) fun _ hblank'' =>
              .cons (hn.settles_blank hblank'') fun _ hend =>
                .cons (hn.settles_one hend rfl) fun _ hlast => .last (hn.settles_blank hlast))

/-- A text takes or misses as a whole. -/
theorem Notation.settles_grammar : Settled ctx rule (Declares ctx.input)
    (.seq [ws, .plus (.seq [.reference "Rule", ws])]) 1 pos := by
  have hrule := hn.suffix
  have hline : ∀ {place}, pos ≤ place → place ≤ ctx.input.size → Settled ctx rule (Declares ctx.input)
      (.seq [.reference "Rule", ws]) 1 place :=
    fun _ hplace => .seq hrule hplace rfl (by decide) (.cons (hn.settles_rule hplace) fun _ hnext =>
      .last (hn.settles_blank hnext))
  exact .seq hrule hpos rfl (by decide) (.cons (hn.settles_blank hpos) fun hle hnext =>
    .last (.plus hrule hnext fun hle' => hline (Nat.le_trans hle hle')))

end rules

end Spec
end Packrat

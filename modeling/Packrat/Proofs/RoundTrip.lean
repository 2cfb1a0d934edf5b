import Packrat.Proofs.NestedGrowth
import Packrat.Proofs.Spelling

/-!
# Written grammars are read back

* `Expr.Writable`, `Definition.Printable` — the expressions and definitions that can be written in
  grammar notation and read back.
* `Spec.Operand`, `Spec.StandsFor` — a text that is read as an expression to which an operator after it
  applies, and one that stands for an expression at the top of a rule. There is one lemma for each way
  to put texts together.
* **`Spec.Notation.readsBack`** — every expression in printable form is read back wherever it is written.
* `Spec.Line` — a rule as it stands in a text, with any text that stands for its body.
* **`Spec.read_lines`** — the texts of rules are read as the grammar of their definitions.
* **`read_render`** — a grammar that was built from printable definitions is written as a text from which
  the same grammar is read.
-/

namespace Packrat

/-! ## Printable form -/

namespace Expr

/-- Whether an expression is a lookahead. -/
def isLookahead : Expr → Bool
  | .ahead _ | .notAhead _ => true
  | _ => false

/-- Whether an expression can be written and read back, apart from the expressions in it. A sequence or
choice of one item would be read as the item alone, a caret at the start of a class as its inversion,
and an operator after a lookahead as one inside it. -/
def Writable : Expr → Prop
  | .literal text => ∀ c ∈ text, isLegible c = true
  | .char c => isLegible c = true
  | .charClass ranges inverted =>
    (∀ range ∈ ranges, isLegible range.lo = true ∧ isLegible range.hi = true) ∧
      (inverted = false → ∀ range, ranges.head? = some range → range.lo ≠ '^')
  | .seq items | .choice items => 2 ≤ items.length
  | .repeated item _ | .optional item => item.isLookahead = false
  | .reference name => isIdentifier name.toList = true
  | .anyChar | .empty | .ahead _ | .notAhead _ => True

end Expr

/-- Whether a definition can be written and read back: its name is an identifier, perhaps with a mark,
and so is every name in it. -/
structure Definition.Printable (definition : Definition) : Prop where
  /-- The name is an identifier. -/
  name : isIdentifier (unmarked definition.name).toList = true
  /-- The body can be written and read back. -/
  body : definition.body.Each Expr.Writable

/-- An identifier carries no mark. -/
theorem Expr.Writable.unmarked {e : Expr} (h : e.Writable) : e.Unmarked := by
  cases e with
  | reference name =>
    obtain ⟨c, more, hchars, hc⟩ := exists_of_isIdentifier h
    simp [Expr.Unmarked, Packrat.unmarked, hchars, ne_mark_of_isNameStart hc]
  | _ => trivial

/-- Reporting changes nothing about a grammar. -/
theorem Grammar.fst_buildTraced (definitions : List Definition) :
    (Grammar.buildTraced definitions).1 = Grammar.build definitions := by
  unfold Grammar.buildTraced
  cases Grammar.build definitions <;> rfl

namespace Spec

/-- What starts as an operand starts as an item. -/
theorem startsItem_of_startsOperand {c : Char} (h : startsOperand c = true) : startsItem c = true := by
  simp [startsItem, h]

/-! ## Expressions -/

/-- Whether a text is read as an expression to which an operator after it applies. -/
structure Operand (ctx : Context) (rule : LeftRule) (text : List Char) (e : Expr) : Prop where
  /-- It starts as an operand. -/
  starts : text.head?.any startsOperand = true
  /-- Growth passes through it, where a name does not go on. -/
  reached : ∀ {pos rest}, ctx.At pos (text ++ rest) → rest.head?.any isNamePart = false →
    Reached ctx rule e pos (pos + text.length)

/-- Whether a text stands for an expression at the top of a rule. -/
structure StandsFor (ctx : Context) (rule : LeftRule) (text : List Char) (e : Expr) : Prop where
  /-- It does not start with a blank. -/
  starts : ∀ {rest}, startsBlank (text ++ rest) = false
  /-- It is parsed as the expression before what ends one. -/
  parsed : ∀ {pos rest}, ctx.At pos (text ++ rest) → Ends [')', ';'] rest →
    Parsed ctx rule "Expression" e pos (pos + text.length)

/-- **Whether an expression is read back** wherever it is written: by itself, and if it is no lookahead
also as the operand of an operator after it. -/
structure ReadsBack (ctx : Context) (rule : LeftRule) (e : Expr) : Prop where
  /-- What is no lookahead can go on with an operator. -/
  operand : e.isLookahead = false → Operand ctx rule e.render e
  /-- It is an item. -/
  spelled : Spelled ctx rule "Prefix" Closes e.render e

section expressions

variable {ctx : Context} {rule : LeftRule} (hn : Notation ctx rule) {pos : Nat} {c d : Char}
  {text more rest : List Char} {e item : Expr} {items : List Expr}
include hn

/-- An operand is an item. -/
theorem Operand.spelled (h : Operand ctx rule text e) : Spelled ctx rule "Prefix" Closes text e where
  starts := by
    obtain ⟨c, more, rfl, hc⟩ := exists_of_head?_any h.starts
    exact startsItem_of_startsOperand hc
  parsed := by
    intro pos rest hat hrest
    have hstarts : (text ++ rest).head?.any startsOperand = true := by
      obtain ⟨c, more, rfl, hc⟩ := exists_of_head?_any h.starts
      exact hc
    exact hn.parsed_prefix hat hstarts (hn.parsed_suffix (h.reached hat hrest.name) hat.skip hrest)

/-- An operand is read back. -/
theorem Operand.readsBack (h : Operand ctx rule e.render e) : ReadsBack ctx rule e :=
  ⟨fun _ => h, h.spelled hn⟩

/-- An operand of a kind, if no earlier kind can start so. -/
theorem Operand.of_kind (i : Nat) {name : String} {starts : Char → Bool}
    (hi : operands[i]? = some (name, starts)) (hc : starts c = true)
    (hbefore : (operands.take i).all (fun operand => !operand.2 c) = true)
    (h : ∀ {pos rest}, ctx.At pos (c :: more ++ rest) → rest.head?.any isNamePart = false →
      Parsed ctx rule name e pos (pos + (c :: more).length)) : Operand ctx rule (c :: more) e where
  starts := List.any_eq_true.2 ⟨_, List.mem_of_getElem? hi, hc⟩
  reached := by
    intro pos rest hat hrest
    obtain ⟨hlt, hget⟩ := List.getElem?_eq_some_iff.1 hi
    have hsplit : operands = operands.take i ++ (name, starts) :: operands.drop (i + 1) := by
      rw [← hget, ← List.drop_eq_getElem_cons hlt, List.take_append_drop]
    refine hn.reached_operand hat.le (hn.parsed_primary hsplit hat ?_ (h hat hrest))
    intro operand hmem
    simpa using List.all_eq_true.1 hbefore operand hmem

/-- An item stands for its expression at the top of a rule. -/
theorem standsFor_of_spelled (h : Spelled ctx rule "Prefix" Closes text e) :
    StandsFor ctx rule text e where
  starts := h.startsBlank_eq
  parsed := by
    intro pos rest hat hrest
    have hitem := h.parsed hat hrest.sequence.closes
    have hsequence := hn.parsed_sequence_one hitem hat.le hat.skip hrest.sequence
    exact hn.parsed_expression (hn.parsed_choice_one hsequence hat.le hat.skip hrest)

/-- What stands for an expression is an operand between parentheses. -/
theorem StandsFor.parens (h : StandsFor ctx rule text e) :
    Operand ctx rule ('(' :: (text ++ [')'])) e := by
  refine .of_kind hn 5 rfl rfl rfl fun {pos rest} hat _ => ?_
  have hinside := hat.inside
  have hends : Ends [')', ';'] (')' :: rest) := ⟨')', by simp, rest, .inl rfl⟩
  have hblank : startsBlank (text ++ [')'] ++ rest) = false := by
    rw [List.append_assoc]
    exact h.starts
  have hparens := hn.parsed_parens hat hblank (h.parsed hinside hends) hinside.skip
  have hstop : pos + 1 + text.length + 1 = pos + ('(' :: (text ++ [')'])).length := by
    simp only [List.length_cons, List.length_append, List.length_nil]
    omega
  rwa [hstop] at hparens

/-! ### Sequences and choices -/

omit hn in
/-- Items start as their first. -/
theorem startsBlank_renderItems {between : List Char} (hlen : 2 ≤ items.length)
    (h : ∀ item ∈ items, ReadsBack ctx rule item) :
    startsBlank (Expr.renderItems between items ++ rest) = false := by
  match items, hlen with
  | first :: others, _ =>
    rw [renderItems_cons, List.append_assoc]
    exact (h first List.mem_cons_self).spelled.startsBlank_eq

/-- A sequence of several items. -/
theorem standsFor_seq (hlen : 2 ≤ items.length) (h : ∀ item ∈ items, ReadsBack ctx rule item) :
    StandsFor ctx rule (Expr.renderItems [' '] items) (.seq items) where
  starts := startsBlank_renderItems hlen h
  parsed := by
    intro pos rest hat hrest
    match items, hlen with
    | first :: second :: others, _ =>
      have hsequence := hn.parsed_sequence (fun item hitem => (h item hitem).spelled) hat hrest.sequence
      exact hn.parsed_expression (hn.parsed_choice_one hsequence hat.le hat.skip hrest)

/-- A choice between several items. -/
theorem standsFor_choice (hlen : 2 ≤ items.length) (h : ∀ item ∈ items, ReadsBack ctx rule item) :
    StandsFor ctx rule (Expr.renderItems [' ', '/', ' '] items) (.choice items) where
  starts := startsBlank_renderItems hlen h
  parsed := by
    intro pos rest hat hrest
    match items, hlen with
    | first :: second :: others, _ =>
      exact hn.parsed_expression
        (hn.parsed_choice (fun item hitem => (h item hitem).spelled) hat hrest)

/-! ### Operators -/

/-- An operator after an operand. -/
theorem Operand.after (hd : d ∈ operatorsAfter) (happly : applyAfter [d] item = .ok e)
    (h : Operand ctx rule text item) : Operand ctx rule (text ++ [d]) e where
  starts := by
    obtain ⟨c, more, rfl, hc⟩ := exists_of_head?_any h.starts
    exact hc
  reached := by
    intro pos rest hat _
    rw [List.append_assoc, List.singleton_append] at hat
    have hnames : ∀ d ∈ operatorsAfter, isNamePart d = false := List.all_iff_forall_prop.1 (by decide)
    have hreached := hn.reached_after hd happly (h.reached hat (hnames d hd)) hat.skip
    rwa [List.length_append, List.length_singleton, ← Nat.add_assoc]

/-- An operator before an item. -/
theorem Spelled.before (hd : d ∈ operatorsBefore) (happly : applyBefore [d] item = .ok e)
    (h : Spelled ctx rule "Prefix" Closes text item) :
    Spelled ctx rule "Prefix" Closes (d :: text) e where
  starts := by simp [startsItem, hd]
  parsed := by
    intro pos rest hat hrest
    have hparsed := hn.parsed_before hd happly hat h.startsBlank_eq (h.parsed hat.next hrest)
    rwa [List.length_cons, Nat.add_comm text.length, ← Nat.add_assoc]

/-- A lookahead is an operator before an item. -/
theorem ReadsBack.lookahead (hd : d ∈ operatorsBefore) (happly : applyBefore [d] item = .ok e)
    (hrender : e.render = d :: item.render) (he : e.isLookahead = true) (h : ReadsBack ctx rule item) :
    ReadsBack ctx rule e where
  operand := fun hnot => absurd hnot (by simp [he])
  spelled := by
    rw [hrender]
    exact h.spelled.before hn hd happly

/-! ### Kinds of operands -/

/-- A text. -/
theorem operand_literal (htext : ∀ c ∈ text, isLegible c = true) :
    Operand ctx rule (Expr.literal text).render (.literal text) := by
  rw [Expr.render]
  refine .of_kind hn 1 rfl rfl rfl fun hat _ => hn.parsed_string (fun c hc => ?_) hat
  exact (Escape.stands_encodeChar (htext c hc)).mono (by simp)

/-- A name. -/
theorem operand_reference {name : String} (hname : isIdentifier name.toList = true) :
    Operand ctx rule (Expr.reference name).render (.reference name) := by
  obtain ⟨c, more, hchars, hc⟩ := exists_of_isIdentifier hname
  rw [Expr.render, hchars]
  refine .of_kind hn 0 rfl hc rfl ?_
  rw [← hchars]
  exact hn.parsed_identifier hname

/-- A sequence. -/
theorem operand_seq (hlen : 2 ≤ items.length) (h : ∀ item ∈ items, ReadsBack ctx rule item) :
    Operand ctx rule (Expr.seq items).render (.seq items) := by
  rw [Expr.render]
  exact (standsFor_seq hn hlen h).parens hn

/-- A choice. -/
theorem operand_choice (hlen : 2 ≤ items.length) (h : ∀ item ∈ items, ReadsBack ctx rule item) :
    Operand ctx rule (Expr.choice items).render (.choice items) := by
  rw [Expr.render]
  exact (standsFor_choice hn hlen h).parens hn

/-- A repetition. -/
theorem operand_repeated {atLeastOne : Bool} (h : Operand ctx rule item.render item) :
    Operand ctx rule (Expr.repeated item atLeastOne).render (.repeated item atLeastOne) := by
  rw [Expr.render]
  cases atLeastOne with
  | true => exact h.after hn (d := '+') (by decide) rfl
  | false => exact h.after hn (d := '*') (by decide) rfl

/-- An option. -/
theorem operand_optional (h : Operand ctx rule item.render item) :
    Operand ctx rule (Expr.optional item).render (.optional item) := by
  rw [Expr.render]
  exact h.after hn (d := '?') (by decide) rfl

end expressions

mutual

/-- **Every expression in printable form is read back.** -/
theorem Notation.readsBack {ctx : Context} {rule : LeftRule} (hn : Notation ctx rule) : (e : Expr) →
    e.Each Expr.Writable → e.Each Expr.Filled → ReadsBack ctx rule e
  | .literal _, hw, _ => (operand_literal hn hw).readsBack hn
  | .char _, hw, _ => by
    refine Operand.readsBack hn ?_
    rw [Expr.render]
    exact .of_kind hn 2 rfl rfl rfl fun hat _ => hn.parsed_char hw hat
  | .charClass _ _, hw, hf => by
    refine Operand.readsBack hn ?_
    rw [Expr.render]
    exact .of_kind hn 3 rfl rfl rfl fun hat _ => hn.parsed_class hf hw.1 hw.2 hat
  | .anyChar, _, _ => Operand.readsBack hn (.of_kind hn 4 rfl rfl rfl fun hat _ => hn.parsed_any hat)
  | .empty, _, _ => Operand.readsBack hn (.of_kind hn 5 rfl rfl rfl fun hat _ => hn.parsed_empty hat)
  | .reference _, hw, _ => (operand_reference hn hw).readsBack hn
  | .seq items, hw, hf => (operand_seq hn hw.1 (hn.readsBack_items items hw.2 hf.2)).readsBack hn
  | .choice items, hw, hf => (operand_choice hn hw.1 (hn.readsBack_items items hw.2 hf.2)).readsBack hn
  | .repeated item _, hw, hf =>
    (operand_repeated hn ((hn.readsBack item hw.2 hf.2).operand hw.1)).readsBack hn
  | .optional item, hw, hf =>
    (operand_optional hn ((hn.readsBack item hw.2 hf.2).operand hw.1)).readsBack hn
  | .ahead item, hw, hf =>
    (hn.readsBack item hw.2 hf.2).lookahead hn (d := '&') (by decide) rfl (by rw [Expr.render]) rfl
  | .notAhead item, hw, hf =>
    (hn.readsBack item hw.2 hf.2).lookahead hn (d := '!') (by decide) rfl (by rw [Expr.render]) rfl

/-- Several expressions in printable form are read back. -/
theorem Notation.readsBack_items {ctx : Context} {rule : LeftRule} (hn : Notation ctx rule) :
    (items : List Expr) → Expr.EachItem Expr.Writable items → Expr.EachItem Expr.Filled items →
    ∀ item ∈ items, ReadsBack ctx rule item
  | [], _, _ => nofun
  | item :: items, hw, hf =>
    List.forall_mem_cons.2 ⟨hn.readsBack item hw.1 hf.1, hn.readsBack_items items hw.2 hf.2⟩

end

/-! ## Definitions -/

/-- What the node of a rule stands for. -/
theorem toDefinition_rule {input : Array Char} {start len arrow semicolon : Nat} {marks : List Ast}
    {name body : Ast} {e : Expr} {marked : Bool}
    (hmarks : ∀ ast ∈ marks, ast.label = Ast.terminalLabel)
    (hmarked : ∀ more, (marks ++ name :: more).head?.any (isToken input · "~") = marked)
    (hname : name.label = "Identifier") (hbody : body.label = "Expression")
    (hexpr : toExpr input body = .ok e) :
    toDefinition input ⟨"Rule", start, len, none,
        marks ++ [name, .terminal arrow 2, body, .terminal semicolon 1]⟩ =
      .ok ⟨String.ofList ((if marked then ['~'] else []) ++ chars input name), e⟩ := by
  have hnone : ∀ label, label ≠ Ast.terminalLabel → marks.find? (·.label == label) = none := by
    intro label hne
    refine List.find?_eq_none.2 fun ast hast => ?_
    rw [hmarks ast hast]
    simpa using hne.symm
  have hidentifier : (marks ++ [name, .terminal arrow 2, body, .terminal semicolon 1]).find?
      (·.label == "Identifier") = some name := by
    rw [List.find?_append, hnone _ (by decide), Option.none_or]
    simp [hname]
  have hexpression : (marks ++ [name, .terminal arrow 2, body, .terminal semicolon 1]).find?
      (·.label == "Expression") = some body := by
    rw [List.find?_append, hnone _ (by decide), Option.none_or]
    simp [hname, hbody, Ast.terminal, Ast.terminalLabel]
  simp only [toDefinition, Ast.child?, hidentifier, hexpression, hmarked, hexpr]
  rfl

/-- A rule as it stands in a text: its definition, and the text that stands for the body. -/
structure Line where
  /-- The definition. -/
  definition : Definition
  /-- How the body is written. -/
  body : List Char

/-- The text of a rule, with its line break. -/
def Line.text (line : Line) : List Char :=
  line.definition.name.toList ++ " <- ".toList ++ line.body ++ " ;\n".toList

/-- Whether the text of a rule can be read: its name is an identifier, and its body stands for that of
the definition. -/
structure Line.Reads (ctx : Context) (rule : LeftRule) (line : Line) : Prop where
  /-- The name is an identifier. -/
  name : isIdentifier (unmarked line.definition.name).toList = true
  /-- The text of the body stands for it. -/
  body : StandsFor ctx rule line.body line.definition.body

section definitions

variable {ctx : Context} {rule : LeftRule} (hn : Notation ctx rule) {pos : Nat} {rest : List Char}
  {line : Line} {lines : List Line}
include hn

/-- The mark of a definition. -/
theorem Notation.takes_mark {marked : Bool} {c : Char} {text : List Char}
    (h : ctx.At pos ((if marked then ['~'] else []) ++ c :: text)) (hc : isNameStart c = true) :
    ∃ marks, Takes ctx rule (.optional (.lit "~")) pos
        (pos + (if marked then ['~'] else []).length) marks ∧
      (∀ ast ∈ marks, ast.label = Ast.terminalLabel) ∧
      ∀ ast more, ast.isTerminal = false →
        (marks ++ ast :: more).head?.any (isToken ctx.input · "~") = marked := by
  have hrule := hn.suffix
  cases marked with
  | true =>
    refine ⟨_, Takes.optional hrule (Takes.one hrule rfl h rfl), ?_, fun ast more _ => ?_⟩
    · exact List.forall_mem_singleton.2 rfl
    · have hterminal : (Ast.terminal pos 1).isTerminal = true := rfl
      simp [isToken, chars_terminal h, hterminal]
  | false =>
    have hmiss : Misses ctx rule (.lit "~") pos :=
      Misses.one hrule rfl h (beq_eq_false_iff_ne.2 (ne_mark_of_isNameStart hc))
    refine ⟨[], Takes.absent hrule h.le hmiss, List.forall_mem_nil _, fun ast more hast => ?_⟩
    simp [isToken, hast]

/-- **The text of a rule is read** before one that does not start with a blank. -/
theorem Notation.takes_rule (h : line.Reads ctx rule) (hat : ctx.At pos (line.text ++ rest))
    (hrest : startsBlank rest = false) :
    ∃ ast, Takes ctx rule (.reference "Rule") pos (pos + line.text.length) [ast] ∧
      toDefinition ctx.input ast = .ok line.definition := by
  have hrule := hn.suffix
  obtain ⟨c, more, hchars, hc⟩ := exists_of_isIdentifier h.name
  have htext : line.text = (if isMarked line.definition.name then ['~'] else []) ++
      ((unmarked line.definition.name).toList ++ ([' ', '<', '-', ' '] ++ (line.body ++
        [' ', ';', '\n']))) := by
    rw [Line.text, ← mark_append_unmarked]
    simp
  rw [htext] at hat
  simp only [List.append_assoc] at hat
  have hmark := hat
  rw [hchars] at hmark
  obtain ⟨marks, hmarks, hlabels, hmarked⟩ := hn.takes_mark hmark hc
  obtain ⟨asts, hidentifier⟩ := hn.takes_identifier h.name hat.skip rfl
  have harrow := hat.skip.skip.next
  have hbody : ctx.At _ (line.body ++ ([' ', ';', '\n'] ++ rest)) := harrow.next.next.next
  have hend := hbody.skip.next
  have htakes : Takes ctx rule (.lit "<-") _ _ _ :=
    Takes.literal hrule (show ctx.At _ (['<', '-'] ++ _) from harrow)
  obtain ⟨ast, hast, hlabel, hexpr⟩ := h.body.parsed hbody ⟨';', by simp, '\n' :: rest, .inr rfl⟩
  have hsemicolon : Takes ctx rule (.lit ";") _ _ _ := Takes.one hrule rfl hend rfl
  have hrow := TakesRow.cons hmarks (TakesRow.cons hidentifier (TakesRow.cons
    (hn.takes_blank hat.skip.skip (by simp) rfl) (TakesRow.cons htakes (TakesRow.cons
      (hn.takes_blank harrow.next.next (by simp) h.body.starts) (TakesRow.cons hast
        (TakesRow.cons (hn.takes_blank hbody.skip (by simp) rfl) (TakesRow.cons hsemicolon
          (TakesRow.cons (hn.takes_blank hend.next (by simp) hrest) TakesRow.nil))))))))
  obtain ⟨start, len, hnode⟩ := Takes.node hrule (visible_names hn.built 1 rfl rfl rfl)
    (Takes.seq hrule hat.le rfl hrow)
  have hstop : pos + line.text.length = pos +
      (if isMarked line.definition.name then ['~'] else []).length +
      (unmarked line.definition.name).toList.length + 4 + line.body.length + 3 := by
    simp only [htext, List.length_append, List.length_cons, List.length_nil]
    omega
  rw [hstop]
  refine ⟨_, hnode, ?_⟩
  refine (toDefinition_rule hlabels (fun more => hmarked _ more rfl) rfl hlabel hexpr).trans ?_
  rw [chars_eq hat.skip, mark_append_unmarked, String.ofList_toList]

omit hn in
/-- The text of a rule starts with its mark or its name. -/
theorem Line.Reads.exists_text (h : line.Reads ctx rule) :
    ∃ c more, line.text = c :: more ∧ (c = '~' ∨ isNameStart c = true) := by
  obtain ⟨c, more, hchars, hc⟩ := exists_of_isIdentifier h.name
  rw [Line.text, ← mark_append_unmarked, hchars]
  cases isMarked line.definition.name with
  | true => exact ⟨'~', _, rfl, .inl rfl⟩
  | false => exact ⟨c, _, rfl, .inr hc⟩

omit hn in
/-- No rule starts with a blank. -/
theorem startsBlank_lines (h : ∀ line ∈ lines, line.Reads ctx rule) :
    startsBlank (lines.flatMap Line.text) = false := by
  cases lines with
  | nil => rfl
  | cons line others =>
    obtain ⟨c, more, htext, hc⟩ := (h line List.mem_cons_self).exists_text
    rw [List.flatMap_cons, htext]
    refine startsBlank_of_startsItem ?_
    rcases hc with rfl | hc
    · rfl
    · exact startsItem_of_startsOperand (List.any_eq_true.2 ⟨_, List.mem_cons_self, hc⟩)

/-- After the last rule there is no other. -/
theorem Notation.misses_rule (h : ctx.At pos []) : Misses ctx rule (.reference "Rule") pos := by
  have hrule := hn.suffix
  refine Misses.reference hrule (visible_names hn.built 1 rfl rfl rfl) (Misses.seq hrule rfl ?_)
  exact MissesRow.later (Takes.absent hrule h.le (Misses.one hrule rfl h rfl))
    (MissesRow.here (hn.misses_identifier h rfl))

/-- **The texts of rules are read** one after the other. -/
theorem Notation.takes_rules : ∀ {lines : List Line} {pos : Nat},
    (∀ line ∈ lines, line.Reads ctx rule) → ctx.At pos (lines.flatMap Line.text) →
    ∃ asts, TakesMany ctx rule (.seq [.reference "Rule", ws]) pos
        (pos + (lines.flatMap Line.text).length) asts ∧
      asts.mapM (toDefinition ctx.input) = .ok (lines.map Line.definition)
  | [], pos, _, hat =>
    ⟨[], TakesMany.nil hat.le (Misses.seq hn.suffix rfl (MissesRow.here (hn.misses_rule hat))), rfl⟩
  | line :: lines, pos, hall, hat => by
    obtain ⟨hline, hothers⟩ := List.forall_mem_cons.1 hall
    rw [List.flatMap_cons] at hat ⊢
    have hblank := startsBlank_lines hothers
    obtain ⟨ast, htakes, hdefinition⟩ := hn.takes_rule hline hat hblank
    obtain ⟨asts, hmany, hdefinitions⟩ := Notation.takes_rules hothers hat.skip
    have hrow := TakesRow.cons htakes (TakesRow.cons (hn.takes_no_blank hat.skip hblank) TakesRow.nil)
    obtain ⟨c, more, htext, -⟩ := hline.exists_text
    have hlt : pos < pos + line.text.length := by
      simp [htext]
    rw [List.length_append, ← Nat.add_assoc]
    refine ⟨[ast] ++ asts, TakesMany.cons (Takes.seq hn.suffix hat.le rfl hrow) hlt hmany, ?_⟩
    simp only [List.singleton_append, List.mapM_cons, hdefinition, hdefinitions, List.map_cons]
    rfl

end definitions

/-! ## Grammars -/

/-- A text that the grammar of the notation takes as a whole is parsed without errors. -/
theorem exists_parseNotation {g : Grammar} {rule : LeftRule} {spec : String}
    (hn : Notation ⟨g, spec.toList.toArray⟩ rule) {body : Expr} (hnames : g.Names "Grammar" false body)
    {asts : List Ast} (h : Takes ⟨g, spec.toList.toArray⟩ rule body 0 spec.toList.length asts) :
    ∃ p events, parseNotation spec = .ok (p, events) ∧ p.hasErrors = false ∧
      p.input = spec.toList.toArray ∧ (Ast.ofParse p).children = asts := by
  obtain ⟨-, r, hfind, -, hbody⟩ := hnames
  obtain ⟨node, hreads, hgives⟩ := h.reads hbody
  have hr : g.rule? "Grammar" = some r.body := by
    rw [Grammar.rule?, show unmarked "Grammar" = "Grammar" from rfl, hfind]
    rfl
  have hg : g.WellFormed := build_wellFormed hn.built
  have hcovers : (g.job "Grammar" r.body spec {}).covers (.matched node) = true := by
    have hlen : node.len = spec.toList.length := by simpa using hgives.add_len
    simp [Job.covers, Grammar.job, Outcome.node?, hgives.start, hlen]
  have htop : (g.job "Grammar" r.body spec {}).context.Has r.body := hg.rule?_lt hr
  obtain ⟨work, events, hexecute⟩ := Job.execute_reads hg hn.suffix.form htop hreads hcovers
  refine ⟨(g.job "Grammar" r.body spec {}).assemble (.matched node) false work, events, ?_, rfl, rfl, ?_⟩
  · refine except_bind_eq_ok.2 ⟨g, hn.built, ?_⟩
    rw [Job.make_eq_ok hr]
    show Except.ok (g.job "Grammar" r.body spec {}).run = _
    rw [Job.run, hexecute]
  · rw [Job.children_ofParse]
    exact hgives.asts

/-- Every text is parsed with the grammar of the notation. -/
theorem parseNotation_eq_ok (spec : String) :
    ∃ g top p events, notationGrammar = .ok g ∧ g.rule? "Grammar" = some top ∧
      g.Denotes (.seq [ws, .plus (.seq [.reference "Rule", ws])]) top ∧
      parseNotation spec = .ok (p, events) ∧ parse g "Grammar" spec {} = .ok p := by
  obtain ⟨g, hg, -⟩ := exists_notation
  obtain ⟨-, found, hfind, -, hdenotes⟩ := visible_names hg 0 rfl rfl rfl
  have hr : g.rule? "Grammar" = some found.body := by
    rw [Grammar.rule?, show unmarked "Grammar" = "Grammar" from rfl, hfind]
    rfl
  let job := g.job "Grammar" found.body spec {}
  refine ⟨g, found.body, job.run.1, job.run.2, hg, hr, hdenotes, except_bind_eq_ok.2 ⟨g, hg, ?_⟩, ?_⟩
  · rw [Job.make_eq_ok hr]
    rfl
  · rw [parse, Job.make_eq_ok hr]
    rfl

/-- What is read, without the events of the run. The two functions are compared as such: applied to a text
they would be evaluated, and the grammar of the notation with them. -/
theorem read_eq (spec : String) : read spec = (readTraced spec).1 :=
  congrFun (show read = fun spec => (readTraced spec).1 from rfl) spec

/-- **What is read of a text that is parsed**: its syntax errors, or the grammar that is built from what
its rules stand for. -/
theorem read_of_parse {spec : String} {p : Parse} {events : List Event}
    (hparse : parseNotation spec = .ok (p, events)) :
    read spec = if p.hasErrors then .error (.rejected p.descriptions)
      else (Ast.ofParse p).children.mapM (toDefinition p.input) >>= Grammar.build := by
  obtain ⟨more, htraced⟩ : ∃ more, readTraced spec = (if p.hasErrors then
        .error (.rejected p.descriptions)
      else (Ast.ofParse p).children.mapM (toDefinition p.input) >>= Grammar.build, more) := by
    unfold readTraced
    simp only [hparse]
    cases p.hasErrors with
    | true => exact ⟨_, rfl⟩
    | false =>
      cases (Ast.ofParse p).children.mapM (toDefinition p.input) with
      | error e => exact ⟨_, rfl⟩
      | ok rules => exact ⟨_, Prod.ext (Grammar.fst_buildTraced rules) rfl⟩
  rw [read_eq, htraced]

/-- **A grammar is read** where the text has no syntax errors and the grammar can be built from what its
rules stand for. -/
theorem read_eq_ok_iff {spec : String} {g : Grammar} :
    read spec = .ok g ↔ ∃ p events rules, parseNotation spec = .ok (p, events) ∧ p.hasErrors = false ∧
      (Ast.ofParse p).children.mapM (toDefinition p.input) = .ok rules ∧
      Grammar.build rules = .ok g := by
  constructor
  · intro h
    obtain ⟨_, _, p, events, -, -, -, hparse, -⟩ := parseNotation_eq_ok spec
    rw [read_of_parse hparse] at h
    split at h
    · cases h
    · rename_i herrors
      obtain ⟨rules, hrules, hb⟩ := except_bind_eq_ok.1 h
      exact ⟨p, events, rules, hparse, Bool.eq_false_iff.2 herrors, hrules, hb⟩
  · rintro ⟨p, events, rules, hparse, herrors, hrules, hb⟩
    rw [read_of_parse hparse, herrors, if_neg Bool.false_ne_true, hrules]
    exact hb

/-- **The texts of rules are read as the grammar of their definitions.** -/
theorem read_lines {lines : List Line} {g : Grammar}
    (hb : Grammar.build (lines.map Line.definition) = .ok g)
    (h : ∀ {ctx rule}, Notation ctx rule → ∀ line ∈ lines, line.Reads ctx rule) :
    read (String.ofList (lines.flatMap Line.text)) = .ok g := by
  obtain ⟨notated, hnotated, hnotation⟩ := exists_notation
  set spec := String.ofList (lines.flatMap Line.text) with hspec
  obtain ⟨rule, hn⟩ := hnotation spec.toList.toArray
  have hrule := hn.suffix
  have hat : Context.At ⟨notated, spec.toList.toArray⟩ 0 (lines.flatMap Line.text) :=
    ⟨Nat.zero_le _, by simp [hspec]⟩
  obtain ⟨asts, hmany, hdefinitions⟩ := hn.takes_rules (h hn) hat
  have hblank := hn.takes_no_blank hat (startsBlank_lines (h hn))
  have hpositive : 0 < 0 + (lines.flatMap Line.text).length := by
    cases lines with
    | nil => cases hb
    | cons line others =>
      obtain ⟨c, more, htext, -⟩ := (h hn line List.mem_cons_self).exists_text
      simp [htext]
  have hplus : Takes ⟨notated, spec.toList.toArray⟩ rule (.plus (.seq [.reference "Rule", ws])) 0
      (0 + (lines.flatMap Line.text).length) asts :=
    Takes.repeated hrule (Nat.zero_le _) hmany fun _ => hpositive
  have htakes := Takes.seq hrule (Nat.zero_le _) rfl
    (TakesRow.cons hblank (TakesRow.cons hplus TakesRow.nil))
  rw [Nat.zero_add, List.nil_append, List.append_nil, ← String.toList_ofList (l := lines.flatMap _),
    ← hspec] at htakes
  obtain ⟨p, events, hparse, herrors, hinput, hchildren⟩ :=
    exists_parseNotation hn (visible_names hnotated 0 rfl rfl rfl) htakes
  refine read_eq_ok_iff.2 ⟨p, events, _, hparse, herrors, ?_, hb⟩
  rw [hchildren, hinput]
  exact hdefinitions

/-- Definitions in printable form are read back from the text that they are written as. -/
theorem read_definitions {definitions : List Definition} {g : Grammar}
    (hb : Grammar.build definitions = .ok g)
    (hp : ∀ definition ∈ definitions, definition.Printable) :
    read (String.ofList (definitions.flatMap Definition.render)) = .ok g := by
  have hlines : (definitions.map fun d => Line.mk d d.body.render).map Line.definition =
      definitions := by
    rw [List.map_map]
    exact List.map_id definitions
  rw [← hlines] at hb
  have hread := read_lines hb fun {ctx rule} hn line hline => by
    obtain ⟨definition, hd, rfl⟩ := List.mem_map.1 hline
    have hfilled := build_filled (hlines ▸ hb) definition hd
    have hbody := hn.readsBack _ (hp definition hd).body hfilled
    exact ⟨(hp definition hd).name, standsFor_of_spelled hn hbody.spelled⟩
  rwa [List.flatMap_map] at hread

end Spec

/-- A grammar of printable definitions is written as they are. -/
theorem render_eq_of_printable {definitions : List Definition} {g : Grammar}
    (hb : Grammar.build definitions = .ok g)
    (hp : ∀ definition ∈ definitions, definition.Printable) :
    g.render = String.ofList (definitions.flatMap Definition.render) :=
  render_eq hb fun d hd => Expr.Each.imp (fun _ => Expr.Writable.unmarked) d.body (hp d hd).body

/-- **A written grammar is read back.** -/
theorem read_render {definitions : List Definition} {g : Grammar}
    (hb : Grammar.build definitions = .ok g)
    (hp : ∀ definition ∈ definitions, definition.Printable) : Spec.read g.render = .ok g := by
  rw [render_eq_of_printable hb hp]
  exact Spec.read_definitions hb hp

/-- A grammar with every kind of expression, with characters that have to be escaped and with a rule
that leaves no trace. -/
def everyKind : List Definition :=
  [ ⟨"S", .seq [.ahead (.reference "_T0"), .star (.choice [.lit "a\"\n", .char '\x27',
      .charClass [⟨'a', 'z'⟩, .single ']', ⟨'^', '~'⟩] true]), .optional .empty]⟩,
    ⟨"~_T0", .plus (.seq [.notAhead (.range '-' '\\'), .anyChar])⟩ ]

/-- Such a grammar is read back. -/
theorem read_render_everyKind :
    ∃ g, Grammar.build everyKind = .ok g ∧ (∀ definition ∈ everyKind, definition.Printable) ∧
      Spec.read g.render = .ok g := by
  have hp : ∀ definition ∈ everyKind, definition.Printable := by
    refine List.forall_mem_cons.2 ⟨⟨by decide, ?_⟩, List.forall_mem_singleton.2 ⟨by decide, ?_⟩⟩
    · simp [Expr.Each, Expr.EachItem, Expr.Writable, Expr.star, Expr.lit, Expr.isLookahead]
      decide
    · simp [Expr.Each, Expr.EachItem, Expr.Writable, Expr.plus, Expr.range, Expr.isLookahead]
      decide
  have hsome : (Grammar.build everyKind).toOption.isSome = true := by decide +kernel
  cases hb : Grammar.build everyKind with
  | error e =>
    rw [hb] at hsome
    cases hsome
  | ok g => exact ⟨g, rfl, hp, read_render hb hp⟩

end Packrat

import Packrat.Proofs.Operands

/-!
# Expressions of grammar notation

What the rules of the notation for operands, operators, sequences and choices give of a text that is
written as an expression.

* `operands`, `operatorsAfter`, `operatorsBefore` — the kinds of operands, each with the characters that
  it can start with, and the operators.
* `Next`, `Closes` — the next character after at most one blank, and what can follow an item.
* `Notation.reached_operand`, `reached_after` — the growth of an operand with operators after it.
* `Notation.parsed_before`, `Notation.takes_list` — an operator before an operand, and items with
  separators between them.
-/

namespace Packrat
namespace Spec

/-! ## What comes next -/

/-- The kinds of operands in the order in which they are tried, each with the characters that it can
start with. -/
def operands : List (String × (Char → Bool)) :=
  [("Identifier", isNameStart), ("StringLiteral", (· == '\x22')), ("CharLiteral", (· == '\x27')),
    ("CharClass", (· == '[')), ("AnyChar", (· == '.')), ("Parens", (· == '('))]

/-- The operators after an operand in the order in which they are tried. -/
def operatorsAfter : List Char := ['*', '+', '?']

/-- The operators before an operand in the order in which they are tried. -/
def operatorsBefore : List Char := ['&', '!', '~']

/-- Whether an operand can start with a character. -/
def startsOperand (c : Char) : Bool := operands.any (·.2 c)

/-- Whether an operator or an operand can start with a character. -/
def startsItem (c : Char) : Bool := c ∈ operatorsBefore || startsOperand c

/-- Whether a character is the next after at most one blank. -/
def Next (c : Char) (text : List Char) : Prop := ∃ more, text = c :: more ∨ text = ' ' :: c :: more

/-- Whether a text can follow an item: it does not go on with a name, and after at most one blank
there is a character that is neither a blank nor an operator after an operand. -/
structure Closes (text : List Char) : Prop where
  /-- A name does not go on. -/
  name : text.head?.any isNamePart = false
  /-- The next character is neither a blank nor an operator. -/
  next : ∃ c, Next c text ∧ startsBlank [c] = false ∧ c ∉ operatorsAfter

section operands

variable {ctx : Context} {rule : LeftRule} (hn : Notation ctx rule) {pos stop : Nat} {c : Char}
  {text rest : List Char} {e : Expr}
include hn

/-- A blank if there is one. -/
theorem Notation.takes_next (h : ctx.At pos text) (hnext : Next c text) (hc : startsBlank [c] = false) :
    ∃ middle more, Takes ctx rule ws pos middle [] ∧ ctx.At middle (c :: more) := by
  obtain ⟨more, rfl | rfl⟩ := hnext
  · exact ⟨pos, more, hn.takes_no_blank h hc, h⟩
  · exact ⟨pos + 1, more, hn.takes_blank h (by simp) hc, h.next⟩

/-! ## Operands -/

/-- A rule whose first item is not there. -/
theorem Notation.misses_first {name : String} {first : Expr} {items : List Expr}
    (hnames : ctx.grammar.Names name false (.seq (first :: items))) (hone : first.isOne = true)
    (h : ctx.At pos text) (htext : text.head?.any first.accepts = false) :
    Misses ctx rule (.reference name) pos := by
  refine Misses.reference hn.suffix hnames (Misses.seq hn.suffix ?_ ?_)
  · cases first <;> first | rfl | cases hone
  · exact MissesRow.here (Misses.one hn.suffix hone h htext)

/-- No name. -/
theorem Notation.misses_identifier (h : ctx.At pos text) (htext : text.head?.any isNameStart = false) :
    Misses ctx rule (.reference "Identifier") pos := by
  have hrule := hn.suffix
  refine Misses.reference hrule (visible_names hn.built 9 rfl rfl rfl) (Misses.seq hrule rfl ?_)
  refine MissesRow.here (Misses.anyOf hrule rfl h ?_)
  simpa only [any_accepts_nameStart] using htext

/-- An operand does not match where it cannot start. -/
theorem Notation.misses_operand {operand : String × (Char → Bool)} (hmem : operand ∈ operands)
    (h : ctx.At pos text) (htext : text.head?.any operand.2 = false) :
    Misses ctx rule (.reference operand.1) pos := by
  simp only [operands, List.mem_cons, List.not_mem_nil, or_false] at hmem
  rcases hmem with rfl | rfl | rfl | rfl | rfl | rfl
  · exact hn.misses_identifier h htext
  · exact hn.misses_first (visible_names hn.built 10 rfl rfl rfl) rfl h htext
  · exact hn.misses_first (visible_names hn.built 11 rfl rfl rfl) rfl h htext
  · exact hn.misses_first (visible_names hn.built 13 rfl rfl rfl) rfl h htext
  · exact Misses.reference hn.suffix (visible_names hn.built 16 rfl rfl rfl)
      (Misses.one hn.suffix rfl h htext)
  · exact hn.misses_first (visible_names hn.built 8 rfl rfl rfl) rfl h htext

/-- An operand of a kind, if no earlier kind can start so. -/
theorem Notation.parsed_primary {before after : List (String × (Char → Bool))} {name : String}
    {starts : Char → Bool} (hsplit : operands = before ++ (name, starts) :: after)
    (hat : ctx.At pos text) (hbefore : ∀ operand ∈ before, text.head?.any operand.2 = false)
    (h : Parsed ctx rule name e pos stop) : Parsed ctx rule "Primary" e pos stop := by
  have hrule := hn.suffix
  obtain ⟨ast, htakes, hlabel, hexpr⟩ := h
  have hnames : ctx.grammar.Names "Primary" false
      (.choice (operands.map fun operand => .reference operand.1)) :=
    visible_names hn.built 7 rfl rfl rfl
  have hfirst : TakesFirst ctx rule (operands.map fun operand => .reference operand.1) pos stop
      [ast] := by
    rw [hsplit, List.map_append, List.map_cons]
    refine TakesFirst.skip (TakesFirst.here htakes) fun other hother => ?_
    obtain ⟨operand, hoperand, rfl⟩ := List.mem_map.1 hother
    refine hn.misses_operand ?_ hat (hbefore operand hoperand)
    rw [hsplit]
    exact List.mem_append_left _ hoperand
  obtain ⟨start, len, hprimary⟩ := Takes.node hrule hnames (Takes.choice hrule hat.le rfl hfirst)
  refine ⟨_, hprimary, rfl, ?_⟩
  rwa [toExpr]

/-- No operand of any kind. -/
theorem Notation.misses_primary (h : ∀ operand ∈ operands, Misses ctx rule (.reference operand.1) pos) :
    Misses ctx rule (.reference "Primary") pos := by
  have hnames : ctx.grammar.Names "Primary" false
      (.choice (operands.map fun operand => .reference operand.1)) :=
    visible_names hn.built 7 rfl rfl rfl
  refine Misses.reference hn.suffix hnames (Misses.choice hn.suffix rfl fun other hother => ?_)
  obtain ⟨operand, hoperand, rfl⟩ := List.mem_map.1 hother
  exact h operand hoperand

/-! ## Operators after an operand -/

/-- Whether the growth of the left-recursive rule passes through a match that stands for an
expression. -/
def Reached (ctx : Context) (rule : LeftRule) (e : Expr) (pos stop : Nat) : Prop :=
  ∃ asts, Reaches ctx rule pos stop asts ∧
    ∀ start len, toExpr ctx.input ⟨"Suffix", start, len, none, asts⟩ = .ok e

/-- Growth starts with an operand. -/
theorem Notation.reached_operand (hpos : pos ≤ ctx.input.size)
    (h : Parsed ctx rule "Primary" e pos stop) : Reached ctx rule e pos stop := by
  obtain ⟨ast, htakes, -, hexpr⟩ := h
  refine ⟨[ast], Reaches.base hn.suffix hpos (TakesFirst.here htakes), fun start len => ?_⟩
  rwa [toExpr]

/-- The rule of operands with operators after them, by its operators. -/
theorem Notation.follows : rule.Follows ctx.grammar "Suffix"
    (operatorsAfter.map fun operator => [ws, .literal [operator]]) [.reference "Primary"] := hn.suffix

/-- An operator is not there. -/
theorem Notation.misses_tail {operator : Char} (h : ctx.At pos text) (hnext : Next c text)
    (hc : startsBlank [c] = false) (hne : c ≠ operator) :
    MissesRow ctx rule [ws, .literal [operator]] pos := by
  obtain ⟨middle, more, hblank, hat⟩ := hn.takes_next h hnext hc
  have hmiss := Misses.other hn.suffix hat (d := operator) (by simpa using hne)
  exact MissesRow.later hblank (MissesRow.here hmiss)

/-- Growth goes on with an operator. -/
theorem Notation.reached_after {operator : Char} (hoperator : operator ∈ operatorsAfter)
    {operand result : Expr} (happly : applyAfter [operator] operand = .ok result) {middle : Nat}
    (h : Reached ctx rule operand pos middle) (hat : ctx.At middle (operator :: rest)) :
    Reached ctx rule result pos (middle + 1) := by
  obtain ⟨asts, hreaches, hexpr⟩ := h
  have hblanks : ∀ d ∈ operatorsAfter, startsBlank [d] = false := List.all_iff_forall_prop.1 (by decide)
  have hblank := hblanks operator hoperator
  obtain ⟨before, after, hsplit⟩ := List.append_of_mem hoperator
  have hnodup : operatorsAfter.Nodup := by decide
  rw [hsplit, List.nodup_append] at hnodup
  have htails := congrArg (List.map fun d => [ws, Expr.literal [d]]) hsplit
  rw [List.map_append, List.map_cons] at htails
  have hone : Takes ctx rule (.literal [operator]) middle (middle + 1) [.terminal middle 1] :=
    Takes.one hn.suffix rfl hat (beq_self_eq_true operator)
  have hrow := TakesRow.cons (hn.takes_no_blank hat hblank) (TakesRow.cons hone TakesRow.nil)
  refine ⟨_, Reaches.step hn.follows hreaches htails ?_ hrow (Nat.lt_succ_self middle), ?_⟩
  · intro tail htail
    obtain ⟨other, hother, rfl⟩ := List.mem_map.1 htail
    exact hn.misses_tail hat ⟨rest, .inl rfl⟩ hblank
      (hnodup.2.2 other hother operator List.mem_cons_self).symm
  · intro start len
    obtain ⟨start', len', hcovering⟩ := Ast.exists_covering "Suffix" pos middle asts
    have hterminal : (Ast.terminal middle 1).isTerminal = true := rfl
    rw [hcovering]
    simp only [List.nil_append, List.append_nil, toExpr, hterminal, if_true, chars_terminal hat, hexpr]
    exact happly

/-- Growth ends where no operator follows. -/
theorem Notation.parsed_suffix (h : Reached ctx rule e pos stop) (hat : ctx.At stop rest)
    (hrest : Closes rest) : Parsed ctx rule "Suffix" e pos stop := by
  obtain ⟨asts, hreaches, hexpr⟩ := h
  obtain ⟨c, hnext, hblank, hc⟩ := hrest.next
  obtain ⟨start, len, hcovering⟩ := Ast.exists_covering "Suffix" pos stop asts
  have htakes : Takes ctx rule (.reference "Suffix") pos stop [.covering "Suffix" pos stop asts] := by
    refine Reaches.takes hn.follows hreaches fun tail htail => ?_
    obtain ⟨operator, hoperator, rfl⟩ := List.mem_map.1 htail
    refine hn.misses_tail hat hnext hblank ?_
    rintro rfl
    exact hc hoperator
  rw [hcovering] at htakes
  exact ⟨_, htakes, rfl, hexpr start len⟩

/-- No operand, so no operator after it. -/
theorem Notation.misses_suffix (h : ∀ operand ∈ operands, Misses ctx rule (.reference operand.1) pos) :
    Misses ctx rule (.reference "Suffix") pos :=
  Misses.baseless hn.suffix (List.forall_mem_singleton.2 (hn.misses_primary h))

/-! ## Operators before an operand -/

/-- The alternatives of an item: an operator with its operand, and an operand. -/
def alternatives : List Expr :=
  (operatorsBefore.map fun operator => .seq [.literal [operator], ws, .reference "Prefix"]) ++
    [.reference "Suffix"]

/-- The rule of items, by its alternatives. -/
theorem Notation.items : ctx.grammar.Names "Prefix" false (.choice alternatives) :=
  visible_names hn.built 5 rfl rfl rfl

/-- An operator is not there. -/
theorem Notation.misses_before {operator : Char} (h : ctx.At pos text)
    (htext : text.head? ≠ some operator) :
    Misses ctx rule (.seq [.literal [operator], ws, .reference "Prefix"]) pos :=
  Misses.seq hn.suffix rfl (MissesRow.here (Misses.other hn.suffix h htext))

/-- An operand without an operator before it. -/
theorem Notation.parsed_prefix (hat : ctx.At pos text) (htext : text.head?.any startsOperand = true)
    (h : Parsed ctx rule "Suffix" e pos stop) : Parsed ctx rule "Prefix" e pos stop := by
  have hrule := hn.suffix
  obtain ⟨ast, htakes, -, hexpr⟩ := h
  have hfirst : TakesFirst ctx rule alternatives pos stop [ast] := by
    refine TakesFirst.skip (TakesFirst.here htakes) fun other hother => ?_
    obtain ⟨operator, hoperator, rfl⟩ := List.mem_map.1 hother
    refine hn.misses_before hat fun heq => ?_
    have hno : ∀ d ∈ operatorsBefore, startsOperand d = false :=
      List.all_iff_forall_prop.1 (by decide)
    rw [heq, Option.any_some, hno operator hoperator] at htext
    cases htext
  obtain ⟨start, len, hprefix⟩ := Takes.node hrule hn.items (Takes.choice hrule hat.le rfl hfirst)
  refine ⟨_, hprefix, rfl, ?_⟩
  rwa [toExpr]

/-- An operator before an operand. -/
theorem Notation.parsed_before {operator : Char} (hoperator : operator ∈ operatorsBefore)
    {operand result : Expr} (happly : applyBefore [operator] operand = .ok result)
    (hat : ctx.At pos (operator :: rest)) (hrest : startsBlank rest = false)
    (h : Parsed ctx rule "Prefix" operand (pos + 1) stop) :
    Parsed ctx rule "Prefix" result pos stop := by
  have hrule := hn.suffix
  obtain ⟨ast, htakes, -, hexpr⟩ := h
  obtain ⟨before, after, hsplit⟩ := List.append_of_mem hoperator
  have hnodup : operatorsBefore.Nodup := by decide
  rw [hsplit, List.nodup_append] at hnodup
  have hone : Takes ctx rule (.literal [operator]) pos (pos + 1) [.terminal pos 1] :=
    Takes.one hrule rfl hat (beq_self_eq_true operator)
  have hseq : Takes ctx rule (.seq [.literal [operator], ws, .reference "Prefix"]) pos stop
      [.terminal pos 1, ast] :=
    Takes.seq hrule hat.le rfl (TakesRow.cons hone
      (TakesRow.cons (hn.takes_no_blank hat.next hrest) (TakesRow.cons htakes TakesRow.nil)))
  have hfirst : TakesFirst ctx rule alternatives pos stop [.terminal pos 1, ast] := by
    rw [alternatives, hsplit, List.map_append, List.map_cons, List.append_assoc, List.cons_append]
    refine TakesFirst.skip (TakesFirst.here hseq) fun alternative halternative => ?_
    obtain ⟨other, hother, rfl⟩ := List.mem_map.1 halternative
    refine hn.misses_before hat fun heq => ?_
    exact hnodup.2.2 other hother operator List.mem_cons_self (Option.some.inj heq).symm
  obtain ⟨start, len, hprefix⟩ := Takes.node hrule hn.items (Takes.choice hrule hat.le rfl hfirst)
  refine ⟨_, hprefix, rfl, ?_⟩
  have hterminal : (Ast.terminal pos 1).isTerminal = true := rfl
  simp only [toExpr, hterminal, if_true, chars_terminal hat, hexpr]
  exact happly

/-- Neither an operator nor an operand. -/
theorem Notation.misses_item (h : ctx.At pos text) (htext : text.head?.all (· ∉ operatorsBefore) = true)
    (hoperands : ∀ operand ∈ operands, Misses ctx rule (.reference operand.1) pos) :
    Misses ctx rule (.reference "Prefix") pos := by
  refine Misses.reference hn.suffix hn.items (Misses.choice hn.suffix rfl fun e he => ?_)
  rcases List.mem_append.1 he with hoperator | hoperand
  · obtain ⟨operator, hmem, rfl⟩ := List.mem_map.1 hoperator
    refine hn.misses_before h fun heq => ?_
    simp [heq, hmem] at htext
  · obtain rfl := List.mem_singleton.1 hoperand
    exact hn.misses_suffix hoperands

/-- Nothing that an item can start with. -/
theorem Notation.misses_prefix (h : ctx.At pos text) (htext : text.head?.any startsItem = false) :
    Misses ctx rule (.reference "Prefix") pos := by
  have hnone : ∀ d, text.head? = some d → d ∉ operatorsBefore ∧ startsOperand d = false := by
    intro d hd
    rw [hd, Option.any_some, startsItem, Bool.or_eq_false_iff, decide_eq_false_iff_not] at htext
    exact htext
  refine hn.misses_item h ?_ fun operand hoperand => hn.misses_operand hoperand h ?_
  · refine (Option.all_eq_true _ _).2 fun d hd => ?_
    simpa using (hnone d hd).1
  · refine (Option.any_eq_false _ _).2 fun d hd => ?_
    simpa using List.any_eq_false.1 (hnone d hd).2 operand hoperand

end operands

/-! ## Items with separators -/

/-- Whether a text starts as an item, and is parsed as an expression wherever it stands before one that
closes it. -/
structure Spelled (ctx : Context) (rule : LeftRule) (name : String) (closes : List Char → Prop)
    (text : List Char) (e : Expr) : Prop where
  /-- It starts as an item. -/
  starts : text.head?.any startsItem = true
  /-- It is parsed as the expression. -/
  parsed : ∀ {pos rest}, ctx.At pos (text ++ rest) → closes rest →
    Parsed ctx rule name e pos (pos + text.length)

/-- Whether a rule is a list of items of another with separators that are written between them. -/
structure Lists (ctx : Context) (rule : LeftRule) (outer inner : String) (closes : List Char → Prop)
    (separators : List Expr) (between : List Char) : Prop where
  /-- The rule is an item, and then separators and an item as often as there are any. -/
  names : ctx.grammar.Names outer false
    (.seq [.reference inner, .star (.seq (separators ++ [.reference inner]))])
  /-- The items are not the left-recursive rule. -/
  first : (unmarked inner == "Suffix") = false
  /-- The separators do not start with the left-recursive rule. -/
  other : (Expr.seq (separators ++ [.reference inner])).startsWith "Suffix" = false
  /-- What is between two items closes the first. -/
  closed : ∀ {c more}, startsItem c = true → closes (between ++ c :: more)
  /-- Separators and an item give nodes of which only that of the item counts. -/
  takes : ∀ {pos stop c more ast}, ctx.At pos (between ++ c :: more) → startsBlank [c] = false →
    Takes ctx rule (.reference inner) (pos + between.length) stop [ast] →
    ∃ asts, TakesRow ctx rule (separators ++ [.reference inner]) pos stop asts ∧
      ∀ others, toExprs ctx.input inner (asts ++ others) = toExprs ctx.input inner (ast :: others)

/-- What starts an item is no blank. -/
theorem startsBlank_of_startsItem {c : Char} (h : startsItem c = true) : startsBlank [c] = false := by
  by_contra hblank
  simp only [startsBlank, List.head?_cons, Option.any_some, decide_eq_false_iff_not, not_not,
    List.mem_cons, List.not_mem_nil, or_false] at hblank
  rcases hblank with rfl | rfl | rfl | rfl | rfl <;> exact absurd h (by decide)

/-- Items in grammar notation, by the first and the others. -/
theorem renderItems_cons (between : List Char) (e : Expr) : ∀ es : List Expr,
    Expr.renderItems between (e :: es) = e.render ++ es.flatMap fun other => between ++ other.render
  | [] => by simp [Expr.renderItems]
  | other :: es => by
    rw [Expr.renderItems, renderItems_cons between other es, List.flatMap_cons, List.append_assoc,
      List.append_assoc]
    simp

/-- An item does not start with a blank. -/
theorem Spelled.startsBlank_eq {ctx : Context} {rule : LeftRule} {name : String}
    {closes : List Char → Prop} {text : List Char} {e : Expr}
    (h : Spelled ctx rule name closes text e) {rest : List Char} :
    startsBlank (text ++ rest) = false := by
  obtain ⟨c, more, rfl, hc⟩ := exists_of_head?_any h.starts
  exact startsBlank_of_startsItem hc

namespace Lists

variable {ctx : Context} {rule : LeftRule} (hn : Notation ctx rule) {outer inner : String}
  {closes : List Char → Prop} {separators : List Expr} {between rest : List Char} {pos stop : Nat}
  {e : Expr} {es : List Expr} (h : Lists ctx rule outer inner closes separators between)
include hn h

/-- A list of one item. -/
theorem takes_single (hitem : Parsed ctx rule inner e pos stop) (hpos : pos ≤ ctx.input.size)
    (hstop : stop ≤ ctx.input.size)
    (hend : MissesRow ctx rule (separators ++ [.reference inner]) stop) :
    ∃ start len asts, Takes ctx rule (.reference outer) pos stop [⟨outer, start, len, none, asts⟩] ∧
      toExprs ctx.input inner asts = .ok [e] := by
  obtain ⟨ast, htakes, hlabel, hexpr⟩ := hitem
  have hmany := TakesMany.nil hstop (Misses.seq hn.suffix h.other hend)
  have hrow := TakesRow.cons htakes (TakesRow.cons (Takes.star hn.suffix hstop hmany) TakesRow.nil)
  obtain ⟨start, len, hnode⟩ := Takes.node hn.suffix h.names (Takes.seq hn.suffix hpos h.first hrow)
  refine ⟨start, len, _, hnode, ?_⟩
  simp [toExprs, hlabel, hexpr]

variable (hrest : closes rest)
  (hend : ∀ {pos}, ctx.At pos rest → MissesRow ctx rule (separators ++ [.reference inner]) pos)
include hrest hend

/-- The items after the first. -/
theorem takesMany : ∀ {es : List Expr} {pos : Nat},
    (∀ e ∈ es, Spelled ctx rule inner closes e.render e) →
    ctx.At pos ((es.flatMap fun e => between ++ e.render) ++ rest) →
    closes ((es.flatMap fun e => between ++ e.render) ++ rest) ∧
    ∃ asts, TakesMany ctx rule (.seq (separators ++ [.reference inner])) pos
        (pos + (es.flatMap fun e => between ++ e.render).length) asts ∧
      toExprs ctx.input inner asts = .ok es
  | [], pos, _, hat =>
    ⟨hrest, [], TakesMany.nil hat.le (Misses.seq hn.suffix h.other (hend hat)), rfl⟩
  | e :: es, pos, hes, hat => by
    obtain ⟨he, hes⟩ := List.forall_mem_cons.1 hes
    rw [List.flatMap_cons, List.append_assoc, List.append_assoc] at hat ⊢
    obtain ⟨hcloses, asts, hmany, hexprs⟩ := takesMany hes hat.skip.skip
    obtain ⟨ast, htakes, hlabel, hexpr⟩ := he.parsed hat.skip hcloses
    obtain ⟨c, more, hrender, hc⟩ := exists_of_head?_any he.starts
    have hat' := hat
    rw [hrender, List.cons_append] at hat'
    obtain ⟨nodes, hrow, hnodes⟩ := h.takes hat' (startsBlank_of_startsItem hc) htakes
    have hlt : pos < pos + between.length + e.render.length := by
      simp only [hrender, List.length_cons]
      omega
    refine ⟨?_, nodes ++ asts, ?_, ?_⟩
    · rw [hrender, List.cons_append]
      exact h.closed hc
    · rw [List.length_append, List.length_append, ← Nat.add_assoc, ← Nat.add_assoc]
      exact TakesMany.cons (Takes.seq hn.suffix hat.le h.other hrow) hlt hmany
    · rw [hnodes, toExprs, if_pos hlabel, hexpr, hexprs]
      rfl

/-- **A list of items.** -/
theorem takes_list (hes : ∀ item ∈ e :: es, Spelled ctx rule inner closes item.render item)
    (hat : ctx.At pos (Expr.renderItems between (e :: es) ++ rest)) :
    ∃ start len asts, Takes ctx rule (.reference outer) pos
        (pos + (Expr.renderItems between (e :: es)).length) [⟨outer, start, len, none, asts⟩] ∧
      toExprs ctx.input inner asts = .ok (e :: es) := by
  obtain ⟨he, hes⟩ := List.forall_mem_cons.1 hes
  rw [renderItems_cons, List.append_assoc] at hat
  rw [renderItems_cons]
  obtain ⟨hcloses, asts, hmany, hexprs⟩ := takesMany hn h hrest hend hes hat.skip
  obtain ⟨ast, htakes, hlabel, hexpr⟩ := he.parsed hat hcloses
  have hrow := TakesRow.cons htakes
    (TakesRow.cons (Takes.star hn.suffix hat.skip.le hmany) TakesRow.nil)
  obtain ⟨start, len, hnode⟩ := Takes.node hn.suffix h.names (Takes.seq hn.suffix hat.le h.first hrow)
  rw [List.length_append, ← Nat.add_assoc]
  refine ⟨start, len, _, hnode, ?_⟩
  rw [List.append_nil, List.singleton_append, toExprs, if_pos hlabel, hexpr, hexprs]
  rfl

end Lists

/-! ## Sequences and choices -/

/-- Whether one of some characters is the next after at most one blank. -/
def Ends (characters : List Char) (text : List Char) : Prop := ∃ c ∈ characters, Next c text

/-- What ends a sequence closes its last item. -/
theorem Ends.closes {text : List Char} (h : Ends [')', '/', ';'] text) : Closes text := by
  obtain ⟨c, hc, hnext⟩ := h
  have hall : ∀ d ∈ [')', '/', ';'], isNamePart d = false ∧ startsBlank [d] = false ∧
      d ∉ operatorsAfter := List.all_iff_forall_prop.1 (by decide)
  obtain ⟨hname, hblank, hother⟩ := hall c hc
  refine ⟨?_, c, hnext, hblank, hother⟩
  obtain ⟨more, rfl | rfl⟩ := hnext
  · exact hname
  · rfl

/-- What ends a choice ends its last sequence. -/
theorem Ends.sequence {text : List Char} (h : Ends [')', ';'] text) : Ends [')', '/', ';'] text := by
  obtain ⟨c, hc, hnext⟩ := h
  exact ⟨c, (by decide : [')', ';'] ⊆ [')', '/', ';']) hc, hnext⟩

/-- Terminals between items do not count. -/
theorem toExprs_terminal {label : String} (hlabel : label ≠ Ast.terminalLabel) (input : Array Char)
    (pos len : Nat) (asts : List Ast) :
    toExprs input label (.terminal pos len :: asts) = toExprs input label asts := by
  rw [toExprs]
  exact if_neg hlabel.symm

section lists

variable {ctx : Context} {rule : LeftRule} (hn : Notation ctx rule) {pos stop : Nat}
  {text rest : List Char} {e other : Expr} {es : List Expr}
include hn

/-- A sequence is a list of items with blanks between them. -/
theorem Notation.lists_sequence : Lists ctx rule "Sequence" "Prefix" Closes [ws] [' '] where
  names := visible_names hn.built 4 rfl rfl rfl
  first := rfl
  other := rfl
  closed := by
    intro c more hc
    refine ⟨rfl, c, ⟨more, .inr rfl⟩, startsBlank_of_startsItem hc, ?_⟩
    intro hmem
    have hnone : ∀ d ∈ operatorsAfter, startsItem d = false := List.all_iff_forall_prop.1 (by decide)
    rw [hnone c hmem] at hc
    cases hc
  takes := by
    intro pos stop c more ast hat hc htakes
    exact ⟨_, TakesRow.cons (hn.takes_blank hat (by simp) hc) (TakesRow.cons htakes TakesRow.nil),
      fun others => rfl⟩

/-- A choice is a list of sequences with slashes between them. -/
theorem Notation.lists_choice :
    Lists ctx rule "Choice" "Sequence" (Ends [')', '/', ';']) [ws, .lit "/", ws] [' ', '/', ' '] where
  names := visible_names hn.built 3 rfl rfl rfl
  first := rfl
  other := rfl
  closed := fun _ => ⟨'/', by simp, _, .inr rfl⟩
  takes := by
    intro pos stop c more ast hat hc htakes
    have hslash : Takes ctx rule (.lit "/") (pos + 1) (pos + 2) [.terminal (pos + 1) 1] :=
      Takes.one hn.suffix rfl hat.next rfl
    have hlast := TakesRow.cons (hn.takes_blank hat.next.next (by simp) hc)
      (TakesRow.cons htakes TakesRow.nil)
    exact ⟨_, TakesRow.cons (hn.takes_blank hat (by simp) rfl) (TakesRow.cons hslash hlast),
      fun others => toExprs_terminal (by decide) ctx.input (pos + 1) 1 _⟩

/-- Where a sequence ends there is no other item. -/
theorem Notation.sequence_ends (hrest : Ends [')', '/', ';'] rest) (h : ctx.At pos rest) :
    MissesRow ctx rule ([ws] ++ [.reference "Prefix"]) pos := by
  obtain ⟨c, hc, hnext⟩ := hrest
  have hall : ∀ d ∈ [')', '/', ';'], startsBlank [d] = false ∧ startsItem d = false :=
    List.all_iff_forall_prop.1 (by decide)
  obtain ⟨middle, more, hws, hat⟩ := hn.takes_next h hnext (hall c hc).1
  exact MissesRow.later hws (MissesRow.here (hn.misses_prefix hat (hall c hc).2))

/-- Where a choice ends there is no other sequence. -/
theorem Notation.choice_ends (hrest : Ends [')', ';'] rest) (h : ctx.At pos rest) :
    MissesRow ctx rule ([ws, .lit "/", ws] ++ [.reference "Sequence"]) pos := by
  obtain ⟨c, hc, hnext⟩ := hrest
  have hall : ∀ d ∈ [')', ';'], startsBlank [d] = false ∧ (d == '/') = false :=
    List.all_iff_forall_prop.1 (by decide)
  obtain ⟨middle, more, hws, hat⟩ := hn.takes_next h hnext (hall c hc).1
  exact MissesRow.later hws (MissesRow.here (Misses.one hn.suffix rfl hat (hall c hc).2))

/-- A sequence of one item stands for the item. -/
theorem Notation.parsed_sequence_one (h : Parsed ctx rule "Prefix" e pos stop)
    (hpos : pos ≤ ctx.input.size) (hat : ctx.At stop rest) (hrest : Ends [')', '/', ';'] rest) :
    Parsed ctx rule "Sequence" e pos stop := by
  obtain ⟨start, len, asts, htakes, hexprs⟩ :=
    hn.lists_sequence.takes_single hn h hpos hat.le (hn.sequence_ends hrest hat)
  refine ⟨_, htakes, rfl, ?_⟩
  rw [toExpr, hexprs]
  rfl

/-- A choice of one sequence stands for the sequence. -/
theorem Notation.parsed_choice_one (h : Parsed ctx rule "Sequence" e pos stop)
    (hpos : pos ≤ ctx.input.size) (hat : ctx.At stop rest) (hrest : Ends [')', ';'] rest) :
    Parsed ctx rule "Choice" e pos stop := by
  obtain ⟨start, len, asts, htakes, hexprs⟩ :=
    hn.lists_choice.takes_single hn h hpos hat.le (hn.choice_ends hrest hat)
  refine ⟨_, htakes, rfl, ?_⟩
  rw [toExpr, hexprs]
  rfl

/-- A sequence of several items. -/
theorem Notation.parsed_sequence
    (hes : ∀ item ∈ e :: other :: es, Spelled ctx rule "Prefix" Closes item.render item)
    (hat : ctx.At pos (Expr.renderItems [' '] (e :: other :: es) ++ rest))
    (hrest : Ends [')', '/', ';'] rest) :
    Parsed ctx rule "Sequence" (.seq (e :: other :: es)) pos
      (pos + (Expr.renderItems [' '] (e :: other :: es)).length) := by
  obtain ⟨start, len, asts, htakes, hexprs⟩ :=
    hn.lists_sequence.takes_list hn hrest.closes (hn.sequence_ends hrest) hes hat
  refine ⟨_, htakes, rfl, ?_⟩
  rw [toExpr, hexprs]
  rfl

/-- An item is also spelled as a sequence. -/
theorem Notation.spelled_sequence (h : Spelled ctx rule "Prefix" Closes text e) :
    Spelled ctx rule "Sequence" (Ends [')', '/', ';']) text e where
  starts := h.starts
  parsed := fun hat hrest =>
    hn.parsed_sequence_one (h.parsed hat hrest.closes) hat.le hat.skip hrest

/-- A choice between several items. -/
theorem Notation.parsed_choice
    (hes : ∀ item ∈ e :: other :: es, Spelled ctx rule "Prefix" Closes item.render item)
    (hat : ctx.At pos (Expr.renderItems [' ', '/', ' '] (e :: other :: es) ++ rest))
    (hrest : Ends [')', ';'] rest) :
    Parsed ctx rule "Choice" (.choice (e :: other :: es)) pos
      (pos + (Expr.renderItems [' ', '/', ' '] (e :: other :: es)).length) := by
  obtain ⟨start, len, asts, htakes, hexprs⟩ :=
    hn.lists_choice.takes_list hn hrest.sequence (hn.choice_ends hrest)
      (fun item hitem => hn.spelled_sequence (hes item hitem)) hat
  refine ⟨_, htakes, rfl, ?_⟩
  rw [toExpr, hexprs]
  rfl

/-- An expression is a choice. -/
theorem Notation.parsed_expression (h : Parsed ctx rule "Choice" e pos stop) :
    Parsed ctx rule "Expression" e pos stop := by
  obtain ⟨ast, htakes, -, hexpr⟩ := h
  obtain ⟨start, len, hnode⟩ := Takes.node hn.suffix (visible_names hn.built 2 rfl rfl rfl) htakes
  refine ⟨_, hnode, rfl, ?_⟩
  rwa [toExpr]

/-! ## Parentheses -/

/-- An expression between parentheses. -/
theorem Notation.parsed_parens (hat : ctx.At pos ('(' :: text)) (htext : startsBlank text = false)
    (h : Parsed ctx rule "Expression" e (pos + 1) stop) (hstop : ctx.At stop (')' :: rest)) :
    Parsed ctx rule "Parens" e pos (stop + 1) := by
  have hrule := hn.suffix
  obtain ⟨ast, htakes, hlabel, hexpr⟩ := h
  have hopen : Takes ctx rule (.lit "(") _ _ _ := Takes.one hrule rfl hat rfl
  have hclose : Takes ctx rule (.lit ")") _ _ _ := Takes.one hrule rfl hstop rfl
  have hrow := TakesRow.cons hopen (TakesRow.cons (hn.takes_no_blank hat.next htext)
    (TakesRow.cons (Takes.optional hrule htakes) (TakesRow.cons (hn.takes_no_blank hstop rfl)
      (TakesRow.cons hclose TakesRow.nil))))
  obtain ⟨start, len, hnode⟩ := Takes.node hrule (visible_names hn.built 8 rfl rfl rfl)
    (Takes.seq hrule hat.le rfl hrow)
  refine ⟨_, hnode, rfl, ?_⟩
  have hchild : Ast.child? ⟨"Parens", start, len, none, [.terminal pos 1, ast, .terminal stop 1]⟩
      "Expression" = some ast := by
    simp [Ast.child?, Ast.terminal, Ast.terminalLabel, hlabel]
  simp [toExpr_parens, hchild, hexpr]

/-- Where there is no item there is no expression. -/
theorem Notation.misses_expression (h : Misses ctx rule (.reference "Prefix") pos) :
    Misses ctx rule (.reference "Expression") pos := by
  have hrule := hn.suffix
  have hsequence : Misses ctx rule (.reference "Sequence") pos :=
    Misses.reference hrule (visible_names hn.built 4 rfl rfl rfl)
      (Misses.seq hrule rfl (MissesRow.here h))
  have hchoice : Misses ctx rule (.reference "Choice") pos :=
    Misses.reference hrule (visible_names hn.built 3 rfl rfl rfl)
      (Misses.seq hrule rfl (MissesRow.here hsequence))
  exact Misses.reference hrule (visible_names hn.built 2 rfl rfl rfl) hchoice

/-- Nothing between parentheses. -/
theorem Notation.parsed_empty (hat : ctx.At pos ('(' :: ')' :: rest)) :
    Parsed ctx rule "Parens" .empty pos (pos + 2) := by
  have hrule := hn.suffix
  have hexpression := hn.misses_expression (hn.misses_prefix hat.next rfl)
  have hopen : Takes ctx rule (.lit "(") _ _ _ := Takes.one hrule rfl hat rfl
  have hclose : Takes ctx rule (.lit ")") _ _ _ := Takes.one hrule rfl hat.next rfl
  have hblank := hn.takes_no_blank hat.next rfl
  have hrow := TakesRow.cons hopen (TakesRow.cons hblank (TakesRow.cons
    (Takes.absent hrule hat.next.le hexpression) (TakesRow.cons hblank
      (TakesRow.cons hclose TakesRow.nil))))
  obtain ⟨start, len, hnode⟩ := Takes.node hrule (visible_names hn.built 8 rfl rfl rfl)
    (Takes.seq hrule hat.le rfl hrow)
  refine ⟨_, hnode, rfl, ?_⟩
  rw [toExpr_parens _ rfl]
  rfl

end lists
end Spec
end Packrat

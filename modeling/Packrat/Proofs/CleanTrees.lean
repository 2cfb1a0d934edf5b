import Packrat.Proofs.ErrorReports
import Packrat.Proofs.Projection
import Packrat.Proofs.Recognition

/-!
# What matches without errors give

A match tree without errors follows the expressions of its grammar and nothing else, so what it gives
to the syntax tree can be told from them. Which alternative was taken, or how often an item was
repeated, is left open; for the rules there is a relation, and what holds of all trees is proved by
going through the definitions once.

* `Chain` — stretches of input one after the other.
* **`Produces`** — what a match of an expression gives, if the relation says it for the rules.
* `Definition.Upholds` — a definition whose body gives what the relation says of its name.
* **`ofNode_produces`** — a match tree without errors gives what its expression does, for every relation
  that all definitions of the grammar uphold.
-/

namespace Packrat

/-- Stretches of input one after the other, each with the nodes that it gives. -/
inductive Chain (R : Nat → Nat → List Ast → Prop) : Nat → Nat → List (List Ast) → Prop
  | nil {pos : Nat} : Chain R pos pos []
  | cons {pos middle stop : Nat} {asts : List Ast} {parts : List (List Ast)} : R pos middle asts →
      Chain R middle stop parts → Chain R pos stop (asts :: parts)

section produces

variable (input : Array Char) (P : String → Nat → Nat → List Ast → Prop)

mutual

/-- **What a match of an expression without errors gives**: from where to where it reaches, and its
nodes of the syntax tree. The relation says it for the rules, by their names. -/
def Produces : Expr → Nat → Nat → List Ast → Prop
  | .literal text, pos, stop, asts =>
    startsAt input text pos = true ∧ stop = pos + text.length ∧ asts = [.terminal pos text.length]
  | .char c, pos, stop, asts =>
    input[pos]? = some c ∧ stop = pos + 1 ∧ asts = [.terminal pos 1]
  | .charClass ranges inverted, pos, stop, asts =>
    (∃ c, input[pos]? = some c ∧ classAccepts ranges inverted c = true) ∧ stop = pos + 1 ∧
      asts = [.terminal pos 1]
  | .anyChar, pos, stop, asts =>
    (∃ c, input[pos]? = some c) ∧ stop = pos + 1 ∧ asts = [.terminal pos 1]
  | .empty, pos, stop, asts => stop = pos ∧ asts = [.terminal pos 0]
  | .seq items, pos, stop, asts => ProducesRow items pos stop asts
  | .choice items, pos, stop, asts => ProducesAny items pos stop asts
  | .repeated item atLeastOne, pos, stop, asts =>
    ∃ parts, Chain (fun start middle nodes => Produces item start middle nodes) pos stop parts ∧
      (atLeastOne = true → parts ≠ []) ∧ asts = parts.flatten
  | .optional item, pos, stop, asts => (stop = pos ∧ asts = []) ∨ Produces item pos stop asts
  | .reference name, pos, stop, asts => P (unmarked name) pos stop asts
  | .ahead _, pos, stop, asts | .notAhead _, pos, stop, asts => stop = pos ∧ asts = []

/-- What matches of several expressions one after the other give. -/
def ProducesRow : List Expr → Nat → Nat → List Ast → Prop
  | [], pos, stop, asts => stop = pos ∧ asts = []
  | item :: rest, pos, stop, asts => ∃ middle first others, Produces item pos middle first ∧
      ProducesRow rest middle stop others ∧ asts = first ++ others

/-- What a match of one of several expressions gives. -/
def ProducesAny : List Expr → Nat → Nat → List Ast → Prop
  | [], _, _, _ => False
  | item :: rest, pos, stop, asts => Produces item pos stop asts ∨ ProducesAny rest pos stop asts

end

/-- **Whether the body of a definition gives what a relation says of its name**: the node of the rule
over what the body gives, or nothing if the name is marked. -/
def Definition.Upholds (definition : Definition) : Prop :=
  ∀ pos stop asts, Produces input P definition.body pos stop asts →
    P (unmarked definition.name) pos stop (if isMarked definition.name then [] else
      [.covering (unmarked definition.name) pos stop asts])

end produces

/-- What matches of several expressions give, in two parts. -/
theorem ProducesRow.of_append {input : Array Char} {P : String → Nat → Nat → List Ast → Prop}
    {others : List Expr} {stop : Nat} : ∀ {items : List Expr} {pos : Nat} {asts : List Ast},
    ProducesRow input P (items ++ others) pos stop asts →
    ∃ middle first rest, ProducesRow input P items pos middle first ∧
      ProducesRow input P others middle stop rest ∧ asts = first ++ rest
  | [], pos, asts, h => ⟨pos, [], asts, ⟨rfl, rfl⟩, h, rfl⟩
  | item :: items, _, _, ⟨middle, first, _, hitem, hrest, hasts⟩ => by
    obtain ⟨later, second, rest, hitems, hothers, rfl⟩ := ProducesRow.of_append hrest
    refine ⟨later, first ++ second, rest, ⟨middle, first, second, hitem, hitems, rfl⟩, hothers, ?_⟩
    rw [hasts, List.append_assoc]

/-- What a match of the only one of several expressions gives. -/
theorem ProducesRow.of_single {input : Array Char} {P : String → Nat → Nat → List Ast → Prop}
    {item : Expr} {pos stop : Nat} {asts : List Ast} (h : ProducesRow input P [item] pos stop asts) :
    Produces input P item pos stop asts := by
  obtain ⟨middle, first, others, hitem, ⟨rfl, rfl⟩, rfl⟩ := h
  rwa [List.append_nil]

/-- One of several expressions gives what they do. -/
theorem ProducesAny.exists_mem {input : Array Char} {P : String → Nat → Nat → List Ast → Prop}
    {pos stop : Nat} {asts : List Ast} : ∀ {items : List Expr},
    ProducesAny input P items pos stop asts → ∃ item ∈ items, Produces input P item pos stop asts
  | item :: _, .inl h => ⟨item, List.mem_cons_self, h⟩
  | _ :: _, .inr h => by
    obtain ⟨item, hmem, hitem⟩ := ProducesAny.exists_mem h
    exact ⟨item, List.mem_cons_of_mem _ hmem, hitem⟩

/-! ## Match trees -/

/-- One of several expressions gives what all do, if it stands among them. -/
theorem ProducesAny.of_denotes {input : Array Char} {P : String → Nat → Nat → List Ast → Prop}
    {g : Grammar} {id : ClauseId} {pos stop : Nat} {asts : List Ast} : ∀ {items : List Expr}
    {ids : List ClauseId}, g.DenotesAll items ids → id ∈ ids →
    (∀ item, g.Denotes item id → Produces input P item pos stop asts) →
    ProducesAny input P items pos stop asts
  | [], _, hids, hmem, _ => by
    obtain rfl : _ = [] := hids
    cases hmem
  | item :: rest, _, ⟨other, others, hids, hitem, hrest⟩, hmem, h => by
    subst hids
    rcases List.mem_cons.1 hmem with rfl | hmem
    · exact .inl (h item hitem)
    · exact .inr (ProducesAny.of_denotes hrest hmem h)

/-- A sequence without children has no elements. -/
theorem Elements.of_nil {inputLen pos stop : Nat} {ids : List ClauseId}
    (h : Elements inputLen ids pos [] stop) : ids = [] ∧ pos = stop := by
  generalize hnodes : ([] : List Node) = nodes at h
  cases h with
  | nil => exact ⟨rfl, rfl⟩
  | matched | resumed => cases hnodes
  | missing => exact ⟨List.map_eq_nil_iff.1 hnodes.symm, rfl⟩

/-- The first child of a sequence is a match of its first element, unless it is an error. -/
theorem Elements.of_cons {inputLen pos stop : Nat} {ids : List ClauseId} {node : Node}
    {rest : List Node} (h : Elements inputLen ids pos (node :: rest) stop)
    (hclean : node.isError = false) :
    ∃ id others, ids = id :: others ∧ node.IsMatch id pos ∧
      Elements inputLen others node.stop rest stop := by
  generalize hnodes : node :: rest = nodes at h
  cases h with
  | nil => cases hnodes
  | matched hnode hrest =>
    cases hnodes
    exact ⟨_, _, rfl, hnode, hrest⟩
  | resumed =>
    cases hnodes
    cases hclean
  | missing =>
    cases ids with
    | nil => cases hnodes
    | cons =>
      cases hnodes
      cases hclean

/-- The first child of a repetition is a match of its item, unless it is an error. -/
theorem Iterations.of_cons {inputLen pos stop : Nat} {item : ClauseId} {repaired : Bool} {node : Node}
    {rest : List Node} (h : Iterations inputLen item repaired pos (node :: rest) stop)
    (hclean : node.isError = false) :
    node.IsMatch item pos ∧ Iterations inputLen item repaired node.stop rest stop := by
  cases h with
  | matched hnode hrest => exact ⟨hnode, hrest⟩
  | resumed | abandoned => cases hclean

/-- The nodes of one match tree. -/
theorem Ast.ofNodes_single (g : Grammar) (node : Node) : ofNodes g [node] = ofNode g node := by
  rw [ofNodes, ofNodes, List.append_nil]

/-- The node of a rule in terms of the input that the rule matched. -/
theorem Ast.ofRule_eq_covering (label : String) (node : Node) (asts : List Ast) :
    ofRule label node asts = covering label node.pos node.stop asts := by
  rw [ofRule, covering, Node.stop, Nat.add_sub_cancel_left]

/-- The node of a rule reaches from the start of its first child to the end of its last. -/
theorem Ast.covering_eq {label : String} {pos stop : Nat} {asts : List Ast} {first last : Ast}
    (hfirst : asts.head? = some first) (hlast : asts.getLast? = some last) :
    covering label pos stop asts = ⟨label, first.pos, last.stop - first.pos, none, asts⟩ := by
  simp [covering, spanning?, Ast.stop, hfirst, hlast]

/-- Whether a node is one of a match tree, and no syntax error. -/
def Node.Clean (ctx : Context) (node : Node) : Prop := node.Formed ctx ∧ node.isError = false

/-- Whether all definitions of a grammar uphold a relation. -/
def Context.Upholds (ctx : Context) (P : String → Nat → Nat → List Ast → Prop) : Prop :=
  ∃ definitions, Grammar.build definitions = .ok ctx.grammar ∧
    ∀ definition ∈ definitions, definition.Upholds ctx.input P

/-- The node of a rule is what the relation says of its name, if it holds of the rules below it. -/
theorem Context.Upholds.reference {ctx : Context} {P : String → Nat → Nat → List Ast → Prop}
    (h : ctx.Upholds P) {name : String} {rule : Rule} (hfind : ctx.grammar.findRule? name = some rule)
    {info : NodeInfo} (hclause : ctx.grammar.clause? info.clause = some (.reference name rule.body))
    {body : Node} (hbody : ∀ e, ctx.grammar.Denotes e rule.body →
      Produces ctx.input P e body.pos body.stop (Ast.ofNode ctx.grammar body)) :
    P name body.pos body.stop (Ast.ofNode ctx.grammar (.clause info [body])) := by
  obtain ⟨definitions, hb, hupholds⟩ := h
  obtain ⟨definition, hd, rfl, hdefines⟩ := exists_of_findRule? hb hfind
  have htransparent : ctx.grammar.isTransparent (unmarked definition.name) =
      isMarked definition.name := by
    rw [Grammar.isTransparent, hfind, Option.any_some, hdefines.transparent]
  rw [Ast.ofNode_reference hclause, htransparent, Ast.ofRule_eq_covering]
  exact hupholds definition hd _ _ _ (hbody _ hdefines.denotes)

section trees

variable {ctx : Context} {P : String → Nat → Nat → List Ast → Prop}

mutual

/-- **A match tree without errors gives what its expression does.** The induction is on the tree; a
reference goes down to the body of a rule, whose expression is another one. -/
theorem ofNode_produces (h : ctx.Upholds P) : (node : Node) → (∀ other ∈ node.nodes, other.Clean ctx) →
    ∀ {id : ClauseId} {pos : Nat} {e : Expr}, node.IsMatch id pos → ctx.grammar.Denotes e id →
    Produces ctx.input P e pos node.stop (Ast.ofNode ctx.grammar node)
  | .skipped _ _, hclean, _, _, _, _, _ | .deleted _ _, hclean, _, _, _, _, _ => by
    cases (hclean _ (Node.self_mem_nodes _)).2
  | .clause info children, hclean, _, _, e, hmatch, hdenotes => by
    obtain ⟨_, _, hnode, rfl, rfl⟩ := hmatch
    cases hnode
    obtain ⟨⟨-, -, clause, hclause, hforms⟩, -⟩ := hclean _ (Node.self_mem_nodes _)
    have hbelow : ∀ other ∈ Node.nodesOf children, other.Clean ctx :=
      fun other hother => hclean other (List.mem_cons_of_mem _ hother)
    show Produces ctx.input P e info.pos (info.pos + info.len) _
    -- The end is given a name of its own, so that the cases of `Forms` can say what it is.
    obtain ⟨stop, hstop⟩ : ∃ stop, info.pos + info.len = stop := ⟨_, rfl⟩
    rw [hstop] at hforms ⊢
    cases e with
    | literal text =>
      cases hclause.symm.trans hdenotes
      cases hforms with
      | literal htext =>
        rw [Ast.ofNode_terminal hclause rfl, Nat.add_left_cancel hstop]
        exact ⟨htext, rfl, rfl⟩
    | char c =>
      cases hclause.symm.trans hdenotes
      cases hforms with
      | char hc =>
        rw [Ast.ofNode_terminal hclause rfl, Nat.add_left_cancel hstop]
        exact ⟨hc, rfl, rfl⟩
    | charClass ranges inverted =>
      cases hclause.symm.trans hdenotes
      cases hforms with
      | charClass hc haccepts =>
        rw [Ast.ofNode_terminal hclause rfl, Nat.add_left_cancel hstop]
        exact ⟨⟨_, hc, haccepts⟩, rfl, rfl⟩
    | anyChar =>
      cases hclause.symm.trans hdenotes
      cases hforms with
      | anyChar hc =>
        rw [Ast.ofNode_terminal hclause rfl, Nat.add_left_cancel hstop]
        exact ⟨⟨_, hc⟩, rfl, rfl⟩
    | empty =>
      cases hclause.symm.trans hdenotes
      cases hforms with
      | empty =>
        rw [Ast.ofNode_terminal hclause rfl, Nat.add_eq_left.1 hstop]
        exact ⟨rfl, rfl⟩
    | seq items =>
      obtain ⟨ids, hids, hitems⟩ := hdenotes
      cases hclause.symm.trans hids
      cases hforms with
      | seq helements =>
        rw [Ast.ofNode_inner hclause rfl rfl]
        exact ofNodes_row h children hbelow helements hitems
    | choice items =>
      obtain ⟨ids, hids, hitems⟩ := hdenotes
      cases hclause.symm.trans hids
      cases hforms with
      | choice hmem hchild =>
        rw [Ast.ofNode_inner hclause rfl rfl]
        refine ProducesAny.of_denotes hitems hmem fun item hitem => ?_
        exact ofNodes_one h _ hbelow rfl hchild hitem
    | repeated item atLeastOne =>
      obtain ⟨child, hchild, hitem⟩ := hdenotes
      cases hclause.symm.trans hchild
      cases hforms with
      | repeated hiterations hone =>
        obtain ⟨parts, hparts, hnodes, hlength⟩ := ofNodes_chain h children hbelow hiterations hitem
        rw [Ast.ofNode_inner hclause rfl rfl]
        refine ⟨parts, hparts, fun hleast hnil => hone hleast ?_, hnodes⟩
        rw [hnil] at hlength
        exact List.length_eq_zero_iff.1 hlength.symm
    | optional item =>
      obtain ⟨child, hchild, hitem⟩ := hdenotes
      cases hclause.symm.trans hchild
      rw [Ast.ofNode_inner hclause rfl rfl]
      cases hforms with
      | absent => exact .inl ⟨rfl, rfl⟩
      | present hmatch => exact .inr (ofNodes_one h _ hbelow rfl hmatch hitem)
    | reference name =>
      obtain ⟨rule, hfind, hreference⟩ := hdenotes
      cases hclause.symm.trans hreference
      cases hforms with
      | reference hmatch =>
        have hrule := h.reference hfind hclause fun e he => by
          rw [hmatch.pos_eq, ← Ast.ofNodes_single]
          exact ofNodes_one h _ hbelow rfl hmatch he
        rwa [hmatch.pos_eq] at hrule
    | ahead item | notAhead item =>
      obtain ⟨child, hchild, -⟩ := hdenotes
      cases hclause.symm.trans hchild
      rw [Ast.ofNode_inner hclause rfl rfl]
      cases hforms
      exact ⟨rfl, rfl⟩

/-- The one node below another. -/
theorem ofNodes_one (h : ctx.Upholds P) : (nodes : List Node) →
    (∀ other ∈ Node.nodesOf nodes, other.Clean ctx) →
    ∀ {node : Node} {id : ClauseId} {pos : Nat} {e : Expr}, nodes = [node] → node.IsMatch id pos →
    ctx.grammar.Denotes e id →
    Produces ctx.input P e pos node.stop (Ast.ofNodes ctx.grammar nodes)
  | [node], hclean, _, _, _, _, heq, hmatch, hdenotes => by
    cases heq
    rw [Ast.ofNodes_single]
    exact ofNode_produces h node (fun other hother => hclean other (Node.mem_nodesOf.2
      ⟨node, List.mem_cons_self, hother⟩)) hmatch hdenotes

/-- The children of a sequence give what its elements do, one after the other. -/
theorem ofNodes_row (h : ctx.Upholds P) : (nodes : List Node) →
    (∀ other ∈ Node.nodesOf nodes, other.Clean ctx) →
    ∀ {ids : List ClauseId} {pos stop : Nat} {items : List Expr},
    Elements ctx.input.size ids pos nodes stop → ctx.grammar.DenotesAll items ids →
    ProducesRow ctx.input P items pos stop (Ast.ofNodes ctx.grammar nodes)
  | [], _, _, _, _, items, helements, hitems => by
    obtain ⟨rfl, rfl⟩ := helements.of_nil
    cases items with
    | nil => exact ⟨rfl, rfl⟩
    | cons item rest => obtain ⟨_, _, ⟨⟩, -⟩ := hitems
  | node :: rest, hclean, _, _, _, _, helements, hitems => by
    obtain ⟨hnode, hrest⟩ := List.forall_mem_append.1 hclean
    obtain ⟨id, others, rfl, hmatch, hothers⟩ :=
      helements.of_cons (hnode _ (Node.self_mem_nodes _)).2
    obtain ⟨item, items, rfl, hitem, hitems⟩ := hitems.of_cons
    exact ⟨_, _, _, ofNode_produces h node hnode hmatch hitem,
      ofNodes_row h rest hrest hothers hitems, rfl⟩

/-- The children of a repetition give what its item does, as often as there are children. -/
theorem ofNodes_chain (h : ctx.Upholds P) : (nodes : List Node) →
    (∀ other ∈ Node.nodesOf nodes, other.Clean ctx) →
    ∀ {id : ClauseId} {repaired : Bool} {pos stop : Nat} {item : Expr},
    Iterations ctx.input.size id repaired pos nodes stop → ctx.grammar.Denotes item id →
    ∃ parts, Chain (Produces ctx.input P item) pos stop parts ∧
      Ast.ofNodes ctx.grammar nodes = parts.flatten ∧ parts.length = nodes.length
  | [], _, _, _, _, _, _, hiterations, _ => by
    cases hiterations
    exact ⟨[], .nil, rfl, rfl⟩
  | node :: rest, hclean, _, _, _, _, _, hiterations, hitem => by
    obtain ⟨hnode, hrest⟩ := List.forall_mem_append.1 hclean
    obtain ⟨hmatch, hothers⟩ := hiterations.of_cons (hnode _ (Node.self_mem_nodes _)).2
    obtain ⟨parts, hparts, hnodes, hlength⟩ := ofNodes_chain h rest hrest hothers hitem
    refine ⟨_ :: parts, .cons (ofNode_produces h node hnode hmatch hitem) hparts, ?_, ?_⟩
    · rw [Ast.ofNodes, hnodes, List.flatten_cons]
    · rw [List.length_cons, List.length_cons, hlength]

end

end trees

/-! ## Parses -/

/-- **An input without errors** gives to the syntax tree what the expression of the top rule does. -/
theorem children_produces {g : Grammar} {input : String} {P : String → Nat → Nat → List Ast → Prop}
    (h : Context.Upholds ⟨g, input.toList.toArray⟩ P) {rule : String} {top : ClauseId}
    (hr : g.rule? rule = some top) {e : Expr} (hdenotes : g.Denotes e top) {config : Config}
    {p : Parse} (hparse : parse g rule input config = .ok p) (hflag : p.hasErrors = false) :
    p.input = input.toList.toArray ∧
      Produces input.toList.toArray P e 0 input.length (Ast.ofParse p).children := by
  have hg : g.WellFormed := build_wellFormed h.choose_spec.1
  obtain ⟨job, outcome, hasErrors, work, hctx, rfl, hresult, hsound, hcovers⟩ :=
    parse_of_rule hg hr input config
  obtain ⟨_, first, hreported, -, haccounts, -⟩ := parse_reports hg hr input config
  cases hresult.symm.trans hparse
  cases hresult.symm.trans hreported
  obtain rfl : hasErrors = false := hflag
  have hcovers := hcovers rfl
  cases outcome with
  | mismatch | pending => cases hcovers
  | matched node =>
    have hmatches := hsound node rfl
    have hclean : ∀ other ∈ node.nodes, other.Clean job.context :=
      fun other hother => ⟨hmatches.formed other hother, haccounts.unflagged rfl other hother⟩
    obtain ⟨grammar, topRule, top, _, config⟩ := job
    cases hctx
    have hstop : node.stop = input.length := by
      rw [← size_toArray_toList]
      simpa [Job.covers, Outcome.node?, Node.stop, hmatches.pos_eq] using hcovers
    rw [Job.children_ofParse, ← hstop]
    exact ⟨rfl, ofNode_produces h node hclean hmatches.isMatch hdenotes⟩

end Packrat

import Packrat.Ast.Basic
import Packrat.Proofs.ReadBack
import Packrat.Proofs.ReadingRules

/-!
# What expressions take

What the clauses of a grammar read is said here for the expressions that they stand for, with the nodes
of the syntax tree in place of match trees. There is one rule for each kind of expression, and for the
left-recursive rule one for each turn of its growth.

* `Grammar.Names` — a name of a grammar with the expression that it stands for.
* `LeftRule.Follows` — a left-recursive rule, by the expressions of its body.
* **`Takes`**, **`Misses`** — an expression that takes the input from one position to another and gives
  nodes of the syntax tree, and one that does not match. `TakesRow`, `TakesFirst` and `TakesMany` are
  the same for several expressions.
* **`Reaches`** — a match that the growth of the rule passes through: it starts with a base, each step
  makes it longer, and where no step goes on the rule takes it.
-/

namespace Packrat

/-! ## Names -/

/-- Whether a name stands for an expression, for one that leaves no trace if it is transparent. -/
def Grammar.Names (g : Grammar) (name : String) (transparent : Bool) (body : Expr) : Prop :=
  unmarked name = name ∧ ∃ rule, g.findRule? name = some rule ∧ rule.transparent = transparent ∧
    g.Denotes body rule.body

/-- The names of a built grammar stand for the bodies of its definitions. -/
theorem build_names {definitions : List Definition} {g : Grammar}
    (h : Grammar.build definitions = .ok g) {definition : Definition} (hd : definition ∈ definitions)
    (hname : unmarked (unmarked definition.name) = unmarked definition.name) :
    g.Names (unmarked definition.name) (isMarked definition.name) definition.body := by
  obtain ⟨rule, hfind, hdefines⟩ := findRule?_defines h hd
  exact ⟨hname, rule, hfind, hdefines.transparent, hdefines.denotes⟩

/-- Whether an expression starts with the rule of a name, or its first alternative does. -/
def Expr.startsWith (name : String) : Expr → Bool
  | .seq (.reference other :: _) => unmarked other == name
  | .choice (.seq (.reference other :: _) :: _) => unmarked other == name
  | _ => false

namespace Grammar

variable {g : Grammar} {e : Expr} {id : ClauseId} {ids : List ClauseId}

/-- Only a choice stands for a choice. -/
theorem Denotes.of_choice (h : g.Denotes e id) (hclause : g.clause? id = some (.choice ids)) :
    ∃ items, e = .choice items ∧ g.DenotesAll items ids := by
  cases e <;> simp_all [Denotes]

/-- Only a sequence stands for a sequence. -/
theorem Denotes.of_seq (h : g.Denotes e id) (hclause : g.clause? id = some (.seq ids)) :
    ∃ items, e = .seq items ∧ g.DenotesAll items ids := by
  cases e <;> simp_all [Denotes]

/-- Only a reference stands for a reference. -/
theorem Denotes.of_reference {name : String} {target : ClauseId} (h : g.Denotes e id)
    (hclause : g.clause? id = some (.reference name target)) :
    ∃ other, e = .reference other ∧ unmarked other = name := by
  cases e with
  | reference other =>
    obtain ⟨rule, -, hother⟩ := h
    rw [hclause] at hother
    cases hother
    exact ⟨other, rfl, rfl⟩
  | _ => simp_all [Denotes]

/-- The first of several expressions. -/
theorem DenotesAll.of_cons {items : List Expr} (h : g.DenotesAll items (id :: ids)) :
    ∃ item rest, items = item :: rest ∧ g.Denotes item id ∧ g.DenotesAll rest ids := by
  cases items with
  | nil => cases h
  | cons item rest =>
    obtain ⟨_, _, heq, hitem, hrest⟩ := h
    cases heq
    exact ⟨item, rest, rfl, hitem, hrest⟩

end Grammar

/-! ## A left-recursive rule -/

/-- Whether a left-recursive rule has a name and a body: a choice between sequences of a reference to
the rule and a tail, and after them bases of another form. -/
structure LeftRule.Follows (rule : LeftRule) (g : Grammar) (name : String) (tails : List (List Expr))
    (bases : List Expr) : Prop where
  /-- The name is not marked. -/
  mark : unmarked name = name
  /-- The name stands for the rule, and is visible. -/
  named : ∃ r, g.findRule? name = some r ∧ r.transparent = false ∧ r.body = rule.top
  /-- The body has the form of a left-recursive rule. -/
  form : g.LeftRecursive rule.top rule.steps rule.bases
  /-- The steps start with the name. -/
  self : ∀ step ∈ rule.steps, g.clause? step.self = some (.reference name rule.top)
  /-- The steps go on with the tails. -/
  step : List.Forall₂ (fun tail step => g.DenotesAll tail step.tail) tails rule.steps
  /-- The bases of the rule stand for those of the body. -/
  base : g.DenotesAll bases rule.bases
  /-- The bases do not start with the rule. -/
  other : ∀ e ∈ bases, Expr.startsWith name e = false

namespace LeftRule.Follows

variable {rule : LeftRule} {g : Grammar} {name : String} {tails : List (List Expr)}
  {bases : List Expr} {e : Expr} {id : ClauseId}

/-- An expression that does not start with the rule does not belong to it. -/
theorem not_owns (h : rule.Follows g name tails bases) (he : e.startsWith name = false)
    (hdenotes : g.Denotes e id) : ¬rule.Owns id := by
  have hstep : ∀ {e' id'} {step : Step}, step ∈ rule.steps → g.Denotes e' id' → id' = step.id →
      ∃ other rest, e' = .seq (.reference other :: rest) ∧ unmarked other = name := by
    rintro e' _ step hmem hdenotes' rfl
    obtain ⟨items, rfl, hitems⟩ := hdenotes'.of_seq (h.form.seq step hmem)
    obtain ⟨item, rest, rfl, hitem, -⟩ := hitems.of_cons
    obtain ⟨other, rfl, hother⟩ := hitem.of_reference (h.self step hmem)
    exact ⟨other, rest, rfl, hother⟩
  rintro (rfl | hsome)
  · obtain ⟨items, rfl, hitems⟩ := hdenotes.of_choice h.form.body
    cases hsteps : rule.steps with
    | nil => exact h.form.steps_ne hsteps
    | cons step steps =>
      rw [hsteps, List.map_cons, List.cons_append] at hitems
      obtain ⟨item, rest, rfl, hitem, -⟩ := hitems.of_cons
      obtain ⟨other, _, rfl, hother⟩ := hstep (by rw [hsteps]; exact List.mem_cons_self) hitem rfl
      simp [Expr.startsWith, hother] at he
  · obtain ⟨step, hfound⟩ := Option.isSome_iff_exists.1 hsome
    have hid : step.id = id := by simpa using List.find?_some hfound
    obtain ⟨other, _, rfl, hother⟩ := hstep (List.mem_of_find?_eq_some hfound) hdenotes hid.symm
    simp [Expr.startsWith, hother] at he

end LeftRule.Follows

/-- The alternatives of a rule that start with it, as steps. -/
theorem Grammar.DenotesAll.exists_steps {g : Grammar} {name : String} {r : Rule} {bases : List Expr}
    (hname : unmarked name = name) (hfind : g.findRule? name = some r) :
    ∀ {tails : List (List Expr)} {ids : List ClauseId},
    g.DenotesAll (tails.map (fun tail => .seq (.reference name :: tail)) ++ bases) ids →
    ∃ steps others, ids = steps.map Step.id ++ others ∧ g.DenotesAll bases others ∧
      List.Forall₂ (fun tail step => g.DenotesAll tail step.tail) tails steps ∧
      (∀ step ∈ steps, g.clause? step.id = some (.seq (step.self :: step.tail))) ∧
      ∀ step ∈ steps, g.clause? step.self = some (.reference name r.body)
  | [], ids, h => ⟨[], ids, rfl, h, .nil, nofun, nofun⟩
  | tail :: tails, _, ⟨id, ids, hids, ⟨_, hseq, self, tailIds, hself, hreference, htail⟩, hrest⟩ => by
    subst hids hself
    obtain ⟨steps, others, rfl, hothers, htails, hseqs, hselves⟩ := exists_steps hname hfind hrest
    obtain ⟨r', hfind', hclause⟩ := hreference
    rw [hname] at hfind' hclause
    cases hfind.symm.trans hfind'
    exact ⟨⟨id, self, tailIds⟩ :: steps, others, rfl, hothers, .cons htail htails,
      List.forall_mem_cons.2 ⟨hseq, hseqs⟩, List.forall_mem_cons.2 ⟨hclause, hselves⟩⟩

/-- A rule whose body has the form. -/
theorem Grammar.Names.exists_follows {g : Grammar} {name : String} {tails : List (List Expr)}
    {bases : List Expr}
    (h : g.Names name false
      (.choice (tails.map (fun tail => .seq (.reference name :: tail)) ++ bases)))
    (hne : tails ≠ []) (hother : ∀ e ∈ bases, Expr.startsWith name e = false) :
    ∃ rule : LeftRule, rule.Follows g name tails bases := by
  obtain ⟨hname, r, hfind, hvisible, ids, hbody, hids⟩ := h
  obtain ⟨steps, others, rfl, hothers, htails, hseqs, hselves⟩ := hids.exists_steps hname hfind
  refine ⟨⟨r.body, steps, others⟩, hname, ⟨r, hfind, hvisible, rfl⟩, ⟨hbody, ?_, hseqs, ?_⟩, hselves,
    htails, hothers, hother⟩
  · rintro rfl
    cases htails
    exact hne rfl
  · exact fun step hstep => ⟨name, hselves step hstep⟩

/-! ## Nodes of the syntax tree -/

namespace Ast

variable {g : Grammar} {info : NodeInfo} {clause : Clause}

/-- The node of a rule over its children, or from where to where the rule matched if it has none. -/
def covering (label : String) (pos stop : Nat) (children : List Ast) : Ast :=
  (spanning? label children).getD ⟨label, pos, stop - pos, none, []⟩

/-- A node over some children starts with the first and ends with the last. -/
theorem exists_spanning?_cons (label : String) (ast : Ast) (rest : List Ast) :
    ∃ last, (ast :: rest).getLast? = some last ∧ spanning? label (ast :: rest) =
      some ⟨label, ast.pos, last.pos + last.len - ast.pos, none, ast :: rest⟩ := by
  obtain ⟨last, hlast⟩ :=
    Option.isSome_iff_exists.1 (List.getLast?_isSome.2 (List.cons_ne_nil ast rest))
  exact ⟨last, hlast, by simp [spanning?, hlast]⟩

/-- The node of a rule is over its children. -/
theorem children_ofRule (label : String) (node : Node) (asts : List Ast) :
    (ofRule label node asts).children = asts := by
  cases asts with
  | nil => rfl
  | cons ast rest =>
    obtain ⟨last, -, hspanning⟩ := exists_spanning?_cons label ast rest
    rw [ofRule, hspanning, Option.getD_some]

/-- A terminal gives its own node. -/
theorem ofNode_terminal {children : List Node} (hclause : g.clause? info.clause = some clause)
    (hterminal : clause.isTerminal = true) :
    ofNode g (.clause info children) = [terminal info.pos info.len] := by
  rw [ofNode.eq_def]
  simp [hclause, hterminal]

/-- A clause that is neither a terminal nor a reference gives the nodes of its children. -/
theorem ofNode_inner {children : List Node} (hclause : g.clause? info.clause = some clause)
    (hterminal : clause.isTerminal = false) (hreference : clause.isReference = false) :
    ofNode g (.clause info children) = ofNodes g children := by
  rw [ofNode.eq_def]
  simp [hclause, hterminal, hreference]

/-- A reference gives the node of its rule, or nothing if that is transparent. -/
theorem ofNode_reference {name : String} {target : ClauseId} {body : Node}
    (hclause : g.clause? info.clause = some (.reference name target)) :
    ofNode g (.clause info [body]) =
      if g.isTransparent name then [] else [ofRule name body (ofNode g body)] := by
  have hvisible : g.visibleName? info.clause = if g.isTransparent name then none else some name := by
    cases htransparent : g.isTransparent name <;>
      simp [Grammar.visibleName?, Grammar.ruleName?, hclause, htransparent]
  have hterminal : (Clause.reference name target).isTerminal = false := rfl
  have hreference : (Clause.reference name target).isReference = true := rfl
  rw [ofNode.eq_def]
  cases htransparent : g.isTransparent name <;>
    simp [hclause, hvisible, htransparent, hterminal, hreference]

end Ast

/-- A match of the whole input gives the children of the syntax tree. -/
theorem Job.children_ofParse (job : Job) (node : Node) (work : Option Work) :
    (Ast.ofParse (job.assemble (.matched node) false work)).children = Ast.ofNode job.grammar node := by
  have hrest : job.rest? node false = none := by
    simp [Job.rest?]
  rw [Ast.ofParse, Ast.children_ofRule]
  simp only [Job.assemble, hrest, Option.toList_none, List.map_nil, List.append_nil]

/-- Whether a match reaches from one position to another and gives nodes of the syntax tree. -/
structure Node.Gives (g : Grammar) (node : Node) (pos stop : Nat) (asts : List Ast) : Prop where
  /-- The match starts there. -/
  start : node.pos = pos
  /-- The match ends there. -/
  stop : node.stop = stop
  /-- These are its nodes of the syntax tree. -/
  asts : Ast.ofNode g node = asts

namespace Node.Gives

variable {g : Grammar} {node : Node} {nodes : List Node} {pos stop : Nat} {asts : List Ast}
  {id : ClauseId} {clause : Clause} {complete : Bool}

/-- A match ends as far from its start as it is long. -/
theorem add_len (h : node.Gives g pos stop asts) : pos + node.len = stop := by
  rw [← h.start, ← h.stop, Node.stop]

/-- A match without children. -/
theorem leaf {len : Nat} (hclause : g.clause? id = some clause) (hterminal : clause.isTerminal = true) :
    (Node.terminal id pos len).Gives g pos (pos + len) [.terminal pos len] :=
  ⟨rfl, rfl, Ast.ofNode_terminal hclause hterminal⟩

/-- A match of nothing. -/
theorem emptyAt (hclause : g.clause? id = some clause) (hterminal : clause.isTerminal = false)
    (hreference : clause.isReference = false) : (Node.emptyAt id pos complete).Gives g pos pos [] :=
  ⟨rfl, rfl, Ast.ofNode_inner hclause hterminal hreference⟩

/-- A match with children. -/
theorem wrap (hclause : g.clause? id = some clause) (hterminal : clause.isTerminal = false)
    (hreference : clause.isReference = false) (htiles : Tiles pos nodes stop) (hne : nodes ≠ []) :
    (Node.wrap id nodes complete).Gives g pos stop (Ast.ofNodes g nodes) := by
  rw [Node.wrap_eq htiles hne]
  exact ⟨rfl, Nat.add_sub_cancel' htiles.le, Ast.ofNode_inner hclause hterminal hreference⟩

/-- A match around another. -/
theorem lift (h : node.Gives g pos stop asts) (hclause : g.clause? id = some clause)
    (hterminal : clause.isTerminal = false) (hreference : clause.isReference = false) :
    (node.lift id).Gives g pos stop asts := by
  have hwrap : (node.lift id).Gives g pos stop (Ast.ofNodes g [node]) :=
    wrap hclause hterminal hreference ⟨h.start, h.stop⟩ (List.cons_ne_nil node [])
  rwa [Ast.ofNodes, Ast.ofNodes, List.append_nil, h.asts] at hwrap

/-- A match of a rule. -/
theorem reference {name : String} {target : ClauseId} {r : Rule} (h : node.Gives g pos stop asts)
    (hclause : g.clause? id = some (.reference name target)) (hfind : g.findRule? name = some r) :
    (node.lift id).Gives g pos stop
      (if r.transparent then [] else [.covering name pos stop asts]) := by
  have hlen : node.len = stop - pos := by
    rw [← h.add_len, Nat.add_sub_cancel_left]
  refine ⟨h.start, (Node.stop_lift id node).trans h.stop, ?_⟩
  have htransparent : g.isTransparent name = r.transparent := by
    rw [Grammar.isTransparent, hfind, Option.any_some]
  refine (Ast.ofNode_reference hclause).trans ?_
  rw [Ast.ofRule, Ast.covering, h.asts, h.start, hlen, htransparent]

/-- Marking a match changes none of this. -/
theorem markGrown (h : node.Gives g pos stop asts) : node.markGrown.Gives g pos stop asts := by
  cases node with
  | clause info children =>
    refine ⟨h.start, h.stop, ?_⟩
    have hasts := h.asts
    rwa [Ast.ofNode.eq_def] at hasts ⊢
  | skipped | deleted => exact h

end Node.Gives

/-! ## Expressions -/

/-- **Whether an expression takes the input** from one position to another and gives nodes of the syntax
tree. -/
structure Takes (ctx : Context) (rule : LeftRule) (e : Expr) (pos stop : Nat) (asts : List Ast) :
    Prop where
  /-- The input reaches as far as the start. -/
  le : pos ≤ ctx.input.size
  /-- The clauses that stand for the expression read so. -/
  reads : ∀ {id}, ctx.grammar.Denotes e id →
    ∃ node, Reads ctx rule id pos (.matched node) ∧ node.Gives ctx.grammar pos stop asts

/-- **Whether an expression does not match** at a position. -/
def Misses (ctx : Context) (rule : LeftRule) (e : Expr) (pos : Nat) : Prop :=
  ∀ id, ctx.grammar.Denotes e id → Reads ctx rule id pos .mismatch

/-- Whether expressions one after the other take the input. -/
def TakesRow (ctx : Context) (rule : LeftRule) (items : List Expr) (pos stop : Nat) (asts : List Ast) :
    Prop :=
  ∀ ids, ctx.grammar.DenotesAll items ids →
    ∃ nodes, ReadsRow ctx rule ids pos (some nodes) ∧ Tiles pos nodes stop ∧
      Ast.ofNodes ctx.grammar nodes = asts

/-- Whether one of several expressions does not match after those before it. -/
def MissesRow (ctx : Context) (rule : LeftRule) (items : List Expr) (pos : Nat) : Prop :=
  ∀ ids, ctx.grammar.DenotesAll items ids → ReadsRow ctx rule ids pos none

/-- Whether the first of several expressions that matches takes the input. -/
def TakesFirst (ctx : Context) (rule : LeftRule) (items : List Expr) (pos stop : Nat)
    (asts : List Ast) : Prop :=
  ∀ ids, ctx.grammar.DenotesAll items ids →
    ∃ id node, ReadsFirst ctx rule ids pos (some (id, node)) ∧ node.Gives ctx.grammar pos stop asts

/-- Whether an expression takes the input as often as it matches. -/
def TakesMany (ctx : Context) (rule : LeftRule) (item : Expr) (pos stop : Nat) (asts : List Ast) :
    Prop :=
  ∀ id, ctx.grammar.Denotes item id →
    ∃ nodes short, ReadsMany ctx rule id pos nodes short ∧ Tiles pos nodes stop ∧
      Ast.ofNodes ctx.grammar nodes = asts

variable {ctx : Context} {rule : LeftRule} {e item : Expr} {items : List Expr} {pos middle stop : Nat}
  {asts others : List Ast}

/-! ### Several expressions -/

/-- No expressions take nothing. -/
theorem TakesRow.nil : TakesRow ctx rule [] pos pos [] := by
  rintro _ rfl
  exact ⟨[], ⟨0, rfl⟩, rfl, rfl⟩

/-- One expression, and others after it. -/
theorem TakesRow.cons (h : Takes ctx rule e pos middle asts)
    (hrest : TakesRow ctx rule items middle stop others) :
    TakesRow ctx rule (e :: items) pos stop (asts ++ others) := by
  rintro _ ⟨id, ids, rfl, hid, hids⟩
  obtain ⟨node, hnode, hgives⟩ := h.reads hid
  obtain ⟨nodes, hnodes, htiles, hothers⟩ := hrest ids hids
  rw [← hgives.add_len] at hnodes
  refine ⟨node :: nodes, ReadsRow.cons hnode hnodes, ⟨hgives.start, ?_⟩, ?_⟩
  · rwa [hgives.stop]
  · rw [Ast.ofNodes, hgives.asts, hothers]

/-- The first expression does not match. -/
theorem MissesRow.here (h : Misses ctx rule e pos) : MissesRow ctx rule (e :: items) pos := by
  rintro _ ⟨id, ids, rfl, hid, -⟩
  exact ReadsRow.miss (h id hid)

/-- One of the later expressions does not match. -/
theorem MissesRow.later (h : Takes ctx rule e pos middle asts)
    (hrest : MissesRow ctx rule items middle) : MissesRow ctx rule (e :: items) pos := by
  rintro _ ⟨id, ids, rfl, hid, hids⟩
  obtain ⟨node, hnode, hgives⟩ := h.reads hid
  have hnone := hrest ids hids
  rw [← hgives.add_len] at hnone
  exact ReadsRow.cons hnode hnone

/-- The first alternative matches. -/
theorem TakesFirst.here (h : Takes ctx rule e pos stop asts) :
    TakesFirst ctx rule (e :: items) pos stop asts := by
  rintro _ ⟨id, ids, rfl, hid, -⟩
  obtain ⟨node, hnode, hgives⟩ := h.reads hid
  exact ⟨id, node, .here hnode.matched, hgives⟩

/-- The first alternative does not match. -/
theorem TakesFirst.later (h : Misses ctx rule e pos) (hrest : TakesFirst ctx rule items pos stop asts) :
    TakesFirst ctx rule (e :: items) pos stop asts := by
  rintro _ ⟨id, ids, rfl, hid, hids⟩
  obtain ⟨other, node, hnode, hgives⟩ := hrest ids hids
  exact ⟨other, node, .later (h id hid).mismatch hnode, hgives⟩

/-- Alternatives that do not match do not count. -/
theorem TakesFirst.skip (h : TakesFirst ctx rule items pos stop asts) : ∀ {before : List Expr},
    (∀ e ∈ before, Misses ctx rule e pos) → TakesFirst ctx rule (before ++ items) pos stop asts
  | [], _ => h
  | _ :: _, hmiss =>
    .later (List.forall_mem_cons.1 hmiss).1 (TakesFirst.skip h (List.forall_mem_cons.1 hmiss).2)

/-- No alternative matches. -/
theorem readsFirst_none : ∀ {items : List Expr} {ids : List ClauseId},
    (∀ e ∈ items, Misses ctx rule e pos) → ctx.grammar.DenotesAll items ids →
    ReadsFirst ctx rule ids pos none
  | [], _, _, rfl => .nil
  | e :: _, _, h, ⟨id, ids, rfl, hid, hids⟩ =>
    .later (h e List.mem_cons_self id hid).mismatch
      (readsFirst_none (fun e he => h e (List.mem_cons_of_mem _ he)) hids)

/-- The item does not match. -/
theorem TakesMany.nil (hpos : pos ≤ ctx.input.size) (h : Misses ctx rule item pos) :
    TakesMany ctx rule item pos pos [] :=
  fun id hid => ⟨[], _, ReadsMany.nil hpos (h id hid), rfl, rfl⟩

/-- The item takes some of the input, and more after it. -/
theorem TakesMany.cons (h : Takes ctx rule item pos middle asts) (hlt : pos < middle)
    (hrest : TakesMany ctx rule item middle stop others) :
    TakesMany ctx rule item pos stop (asts ++ others) := by
  intro id hid
  obtain ⟨node, hnode, hgives⟩ := h.reads hid
  obtain ⟨nodes, short, hnodes, htiles, hothers⟩ := hrest id hid
  have hlen : node.len ≠ 0 := by
    have hadd := hgives.add_len
    omega
  rw [← hgives.add_len] at hnodes
  refine ⟨node :: nodes, short, ReadsMany.cons h.le hnode hlen hnodes, ⟨hgives.start, ?_⟩, ?_⟩
  · rwa [hgives.stop]
  · rw [Ast.ofNodes, hgives.asts, hothers]

/-! ### Each kind of expression -/

section kinds

variable {name : String} {tails : List (List Expr)} {bases : List Expr}
  (hrule : rule.Follows ctx.grammar name tails bases)
include hrule

/-- An expression takes what the rule of its kind gives. -/
theorem Takes.of_clause (hpos : pos ≤ ctx.input.size) (he : e.startsWith name = false)
    (h : ∀ id, ctx.grammar.Denotes e id → ∃ clause fuel node, ctx.grammar.clause? id = some clause ∧
      plainClause ctx (readAtFuel ctx rule fuel) fuel id clause pos = some (.matched node) ∧
      node.Gives ctx.grammar pos stop asts) : Takes ctx rule e pos stop asts := by
  refine ⟨hpos, fun {id} hid => ?_⟩
  obtain ⟨clause, fuel, node, hclause, hplain, hgives⟩ := h id hid
  exact ⟨node, .of_clause hpos (hrule.not_owns he hid) hclause hplain, hgives⟩

/-- An expression does not match if the rule of its kind gives nothing. -/
theorem Misses.of_clause (he : e.startsWith name = false)
    (h : pos ≤ ctx.input.size → ∀ id, ctx.grammar.Denotes e id →
      ∃ clause fuel, ctx.grammar.clause? id = some clause ∧
        plainClause ctx (readAtFuel ctx rule fuel) fuel id clause pos = some .mismatch) :
    Misses ctx rule e pos := by
  intro id hid
  by_cases hpos : pos ≤ ctx.input.size
  · obtain ⟨clause, fuel, hclause, hplain⟩ := h hpos id hid
    exact .of_clause hpos (hrule.not_owns he hid) hclause hplain
  · exact .beyond (Nat.lt_of_not_le hpos)

/-- A sequence. -/
theorem Takes.seq (hpos : pos ≤ ctx.input.size) (he : (Expr.seq items).startsWith name = false)
    (h : TakesRow ctx rule items pos stop asts) : Takes ctx rule (.seq items) pos stop asts := by
  refine Takes.of_clause hrule hpos he fun id hid => ?_
  obtain ⟨ids, hclause, hids⟩ := hid
  obtain ⟨nodes, ⟨fuel, hnodes⟩, htiles, rfl⟩ := h ids hids
  cases nodes with
  | nil =>
    cases htiles
    exact ⟨_, fuel, .emptyAt id pos true, hclause, by simp [plainClause, hnodes],
      .emptyAt hclause rfl rfl⟩
  | cons node nodes =>
    exact ⟨_, fuel, _, hclause, by simp only [plainClause, hnodes]; rfl,
      .wrap hclause rfl rfl htiles (List.cons_ne_nil node nodes)⟩

/-- A sequence of which one item does not match. -/
theorem Misses.seq (he : (Expr.seq items).startsWith name = false)
    (h : MissesRow ctx rule items pos) : Misses ctx rule (.seq items) pos := by
  refine Misses.of_clause hrule he fun _ id hid => ?_
  obtain ⟨ids, hclause, hids⟩ := hid
  obtain ⟨fuel, hnone⟩ := h ids hids
  exact ⟨_, fuel, hclause, by simp [plainClause, hnone]⟩

/-- A choice. -/
theorem Takes.choice (hpos : pos ≤ ctx.input.size) (he : (Expr.choice items).startsWith name = false)
    (h : TakesFirst ctx rule items pos stop asts) : Takes ctx rule (.choice items) pos stop asts := by
  refine Takes.of_clause hrule hpos he fun id hid => ?_
  obtain ⟨ids, hclause, hids⟩ := hid
  obtain ⟨first, node, hfirst, hgives⟩ := h ids hids
  obtain ⟨fuel, hfuel⟩ := hfirst.exists_plainFirst (readAtFuel_mono_success ctx rule)
  exact ⟨_, fuel, node.lift id, hclause, by simp [plainClause, hfuel, Node.lift],
    hgives.lift hclause rfl rfl⟩

/-- A choice of which no item matches. -/
theorem Misses.choice (he : (Expr.choice items).startsWith name = false)
    (h : ∀ e ∈ items, Misses ctx rule e pos) : Misses ctx rule (.choice items) pos := by
  refine Misses.of_clause hrule he fun _ id hid => ?_
  obtain ⟨ids, hclause, hids⟩ := hid
  obtain ⟨fuel, hfuel⟩ :=
    (readsFirst_none h hids).exists_plainFirst (readAtFuel_mono_success ctx rule)
  exact ⟨_, fuel, hclause, by simp [plainClause, hfuel]⟩

/-- A repetition. -/
theorem Takes.repeated {atLeastOne : Bool} (hpos : pos ≤ ctx.input.size)
    (h : TakesMany ctx rule item pos stop asts) (hsome : atLeastOne = true → pos < stop) :
    Takes ctx rule (.repeated item atLeastOne) pos stop asts := by
  refine Takes.of_clause hrule hpos rfl fun id hid => ?_
  obtain ⟨child, hclause, hchild⟩ := hid
  obtain ⟨nodes, short, ⟨fuel, hnodes⟩, htiles, rfl⟩ := h child hchild
  cases nodes with
  | nil =>
    cases htiles
    cases atLeastOne with
    | true => exact absurd (hsome rfl) (Nat.lt_irrefl pos)
    | false =>
      exact ⟨_, fuel, .emptyAt id pos !short, hclause, by simp [plainClause, hnodes],
        .emptyAt hclause rfl rfl⟩
  | cons node nodes =>
    exact ⟨_, fuel, _, hclause, by simp only [plainClause, hnodes]; rfl,
      .wrap hclause rfl rfl htiles (List.cons_ne_nil node nodes)⟩

/-- A repetition that need not match. -/
theorem Takes.star (hpos : pos ≤ ctx.input.size) (h : TakesMany ctx rule item pos stop asts) :
    Takes ctx rule (.star item) pos stop asts := Takes.repeated hrule hpos h nofun

/-- A repetition that has to match, and does not. -/
theorem Misses.plus (h : Misses ctx rule item pos) : Misses ctx rule (.plus item) pos := by
  refine Misses.of_clause hrule rfl fun hpos id hid => ?_
  obtain ⟨child, hclause, hchild⟩ := hid
  obtain ⟨fuel, hnone⟩ := ReadsMany.nil hpos (h child hchild)
  exact ⟨_, fuel, hclause, by simp [plainClause, hnone]⟩

/-- An option that matches. -/
theorem Takes.optional (h : Takes ctx rule item pos stop asts) :
    Takes ctx rule (.optional item) pos stop asts := by
  refine Takes.of_clause hrule h.le rfl fun id hid => ?_
  obtain ⟨child, hclause, hchild⟩ := hid
  obtain ⟨node, ⟨fuel, hnode⟩, hgives⟩ := h.reads hchild
  exact ⟨_, fuel, node.lift id, hclause, by simp [plainClause, hnode, Node.lift],
    hgives.lift hclause rfl rfl⟩

/-- An option that does not match. -/
theorem Takes.absent (hpos : pos ≤ ctx.input.size) (h : Misses ctx rule item pos) :
    Takes ctx rule (.optional item) pos pos [] := by
  refine Takes.of_clause hrule hpos rfl fun id hid => ?_
  obtain ⟨child, hclause, hchild⟩ := hid
  obtain ⟨fuel, hnone⟩ := h child hchild
  exact ⟨_, fuel, _, hclause, by simp only [plainClause, hnone]; rfl, .emptyAt hclause rfl rfl⟩

/-- A lookahead for what is not there. -/
theorem Takes.notAhead (hpos : pos ≤ ctx.input.size) (h : Misses ctx rule item pos) :
    Takes ctx rule (.notAhead item) pos pos [] := by
  refine Takes.of_clause hrule hpos rfl fun id hid => ?_
  obtain ⟨child, hclause, hchild⟩ := hid
  obtain ⟨fuel, hnone⟩ := h child hchild
  exact ⟨_, fuel, .terminal id pos 0, hclause, by simp [plainClause, hnone, Outcome.isMatch],
    .emptyAt hclause rfl rfl⟩

/-- A lookahead for what is there. -/
theorem Misses.notAhead (h : Takes ctx rule item pos stop asts) :
    Misses ctx rule (.notAhead item) pos := by
  refine Misses.of_clause hrule rfl fun _ id hid => ?_
  obtain ⟨child, hclause, hchild⟩ := hid
  obtain ⟨node, ⟨fuel, hnode⟩, -⟩ := h.reads hchild
  exact ⟨_, fuel, hclause, by simp [plainClause, hnode, Outcome.isMatch]⟩

/-- A reference. -/
theorem Takes.named {other : String} {transparent : Bool} {body : Expr}
    (hnames : ctx.grammar.Names other transparent body) (h : Takes ctx rule body pos stop asts) :
    Takes ctx rule (.reference other) pos stop
      (if transparent then [] else [.covering other pos stop asts]) := by
  obtain ⟨hmark, r, hfind, rfl, hbody⟩ := hnames
  refine Takes.of_clause hrule h.le rfl fun id hid => ?_
  obtain ⟨r', hfind', hclause⟩ := hid
  rw [hmark] at hfind' hclause
  cases hfind.symm.trans hfind'
  obtain ⟨node, ⟨fuel, hnode⟩, hgives⟩ := h.reads hbody
  exact ⟨_, fuel, node.lift id, hclause, by simp [plainClause, hnode, Node.lift],
    hgives.reference hclause hfind⟩

/-- A reference to a visible rule. -/
theorem Takes.reference {other : String} {body : Expr} (hnames : ctx.grammar.Names other false body)
    (h : Takes ctx rule body pos stop asts) :
    Takes ctx rule (.reference other) pos stop [.covering other pos stop asts] :=
  Takes.named hrule hnames h

/-- A reference to a transparent rule. -/
theorem Takes.hidden {other : String} {body : Expr} (hnames : ctx.grammar.Names other true body)
    (h : Takes ctx rule body pos stop asts) : Takes ctx rule (.reference other) pos stop [] :=
  Takes.named hrule hnames h

/-- A reference to a rule that does not match. -/
theorem Misses.reference {other : String} {transparent : Bool} {body : Expr}
    (hnames : ctx.grammar.Names other transparent body) (h : Misses ctx rule body pos) :
    Misses ctx rule (.reference other) pos := by
  obtain ⟨hmark, r, hfind, rfl, hbody⟩ := hnames
  refine Misses.of_clause hrule rfl fun _ id hid => ?_
  obtain ⟨r', hfind', hclause⟩ := hid
  rw [hmark] at hfind' hclause
  cases hfind.symm.trans hfind'
  obtain ⟨fuel, hnone⟩ := h r.body hbody
  exact ⟨_, fuel, hclause, by simp [plainClause, hnone]⟩

end kinds

/-! ### The left-recursive rule -/

/-- **Whether the growth of the rule passes through a match** from one position to another that gives
nodes of the syntax tree. The match is no shorter than that of a base. -/
def Reaches (ctx : Context) (rule : LeftRule) (pos stop : Nat) (asts : List Ast) : Prop :=
  pos ≤ ctx.input.size ∧ ∃ node base, node.Gives ctx.grammar pos stop asts ∧
    ReadsFirst ctx rule rule.bases pos (some base) ∧ base.2.len ≤ node.len ∧
    ∀ final, Grown ctx rule pos (some node) final → Grown ctx rule pos none final

section growth

variable {name : String} {tails : List (List Expr)} {bases : List Expr}
  (hrule : rule.Follows ctx.grammar name tails bases)
include hrule

/-- The bases do not belong to the rule. -/
theorem LeftRule.Follows.base_not_owns {id : ClauseId} (hid : id ∈ rule.bases) : ¬rule.Owns id := by
  have hall : ∀ {bases : List Expr} {ids : List ClauseId}, ctx.grammar.DenotesAll bases ids →
      (∀ e ∈ bases, Expr.startsWith name e = false) → ∀ id ∈ ids, ¬rule.Owns id := by
    intro bases
    induction bases with
    | nil =>
      rintro _ rfl
      exact fun _ => nofun
    | cons e bases ih =>
      rintro _ ⟨first, ids, rfl, hfirst, hids⟩ hother
      refine List.forall_mem_cons.2 ⟨hrule.not_owns (hother e List.mem_cons_self) hfirst, ?_⟩
      exact ih hids fun e' he' => hother e' (List.mem_cons_of_mem e he')
  exact hall hrule.base hrule.other id hid

/-- What the bases give in a turn. -/
theorem ReadsFirst.base {seed : Option Node} {found : Option (ClauseId × Node)}
    (h : ReadsFirst ctx rule rule.bases pos found) :
    FirstOf (Eventually (fun fuel => seeded (readAtFuel ctx rule fuel) rule pos seed) pos) rule.bases
      found := by
  have hall := fun id (hid : id ∈ rule.bases) => hrule.base_not_owns hid
  revert hall
  generalize rule.bases = ids at h
  intro hall
  induction h with
  | nil => exact .nil
  | here hgives => exact .here (hgives.base (hall _ List.mem_cons_self))
  | later hgives _ ih =>
    exact .later (hgives.base (hall _ List.mem_cons_self))
      (ih fun id hid => hall id (List.mem_cons_of_mem _ hid))

/-- Before there is a match the steps give nothing. -/
theorem Turn.start {found : Option (ClauseId × Node)} (h : ReadsFirst ctx rule rule.bases pos found) :
    Turn ctx rule pos none found := by
  refine (ReadsFirst.base hrule h).skip fun id hid => ?_
  obtain ⟨step, hstep, rfl⟩ := List.mem_map.1 hid
  exact ⟨0, .mismatch, by simp [seeded, LeftRule.step?_eq hrule.form hstep, Step.given], rfl⟩

/-- The rule starts with a base. -/
theorem Reaches.base (hpos : pos ≤ ctx.input.size) (h : TakesFirst ctx rule bases pos stop asts) :
    Reaches ctx rule pos stop asts := by
  obtain ⟨id, node, hnode, hgives⟩ := h rule.bases hrule.base
  refine ⟨hpos, node.lift rule.top, (id, node), hgives.lift hrule.form.body rfl rfl, hnode, ?_, ?_⟩
  · exact Nat.le_of_eq (Node.len_lift rule.top node).symm
  · exact fun final hfinal => .step (.start hrule hnode) rfl hfinal

/-- The rule does not match if no base does. -/
theorem Misses.baseless (h : ∀ e ∈ bases, Misses ctx rule e pos) :
    Misses ctx rule (.reference name) pos := by
  obtain ⟨r, hfind, -, hbody⟩ := hrule.named
  refine Misses.of_clause hrule rfl fun hpos id hid => ?_
  obtain ⟨r', hfind', hclause⟩ := hid
  rw [hrule.mark] at hfind' hclause
  cases hfind.symm.trans hfind'
  have hgrown : Grown ctx rule pos none none :=
    .ended (.start hrule (readsFirst_none h hrule.base)) rfl
  obtain ⟨fuel, hfuel⟩ := hgrown.reads hpos
  rw [← hbody] at hfuel
  exact ⟨_, fuel, hclause, by simp [plainClause, hfuel, Outcome.ofNode?]⟩

/-- What a step gives in a turn where its tail does not match. -/
theorem LeftRule.Follows.step_none {before : List (List Expr)} {steps : List Step} {node : Node}
    (hsteps : List.Forall₂ (fun tail step => ctx.grammar.DenotesAll tail step.tail) before steps)
    (hsub : ∀ step ∈ steps, step ∈ rule.steps)
    (hmiss : ∀ tail ∈ before, MissesRow ctx rule tail (pos + node.len)) :
    ∀ id ∈ steps.map Step.id,
      Eventually (fun fuel => seeded (readAtFuel ctx rule fuel) rule pos (some node)) pos id none := by
  induction hsteps with
  | nil => exact fun _ => nofun
  | @cons tail step before steps htail _ ih =>
    rw [List.map_cons]
    refine List.forall_mem_cons.2 ⟨?_, ih (List.forall_mem_cons.1 hsub).2
      (List.forall_mem_cons.1 hmiss).2⟩
    have hstep := hsub step List.mem_cons_self
    exact (hmiss tail List.mem_cons_self step.tail htail).eventually hrule.form hstep

/-- **One step of the rule**, the first that goes on. -/
theorem Reaches.step {before after : List (List Expr)} {tail : List Expr}
    (h : Reaches ctx rule pos middle asts) (htails : tails = before ++ tail :: after)
    (hmiss : ∀ other ∈ before, MissesRow ctx rule other middle)
    (htail : TakesRow ctx rule tail middle stop others) (hlt : middle < stop) :
    Reaches ctx rule pos stop (.covering name pos middle asts :: others) := by
  obtain ⟨hpos, node, base, hgives, hbase, hle, hgrown⟩ := h
  obtain ⟨r, hfind, hvisible, -⟩ := hrule.named
  have hsteps := hrule.step.flip
  rw [htails] at hsteps
  have hbefore := (List.forall₂_take_append _ _ _ hsteps).flip
  obtain ⟨step, later, hstep, -, hdrop⟩ :=
    List.forall₂_cons_left_iff.1 (List.forall₂_drop_append _ _ _ hsteps).flip
  have hall : rule.steps = rule.steps.take before.length ++ step :: later := by
    rw [← hdrop, List.take_append_drop]
  have hmem : step ∈ rule.steps := by
    rw [hall]
    exact List.mem_append_right _ List.mem_cons_self
  obtain ⟨nodes, hnodes, htiles, rfl⟩ := htail step.tail hstep
  rw [← hgives.add_len] at hmiss hnodes
  -- The match of the rule so far is the first element of the step.
  have hself := hgives.reference (hrule.self step hmem) hfind
  rw [hvisible, if_neg Bool.false_ne_true] at hself
  have hrow : (step.row node nodes).Gives ctx.grammar pos stop
      (.covering name pos middle asts :: Ast.ofNodes ctx.grammar nodes) := by
    have hwrap : (step.row node nodes).Gives ctx.grammar pos stop
        (Ast.ofNodes ctx.grammar (node.lift step.self :: nodes)) :=
      .wrap (hrule.form.seq step hmem) rfl rfl ⟨hself.start, by rwa [hself.stop]⟩ (List.cons_ne_nil _ _)
    rwa [Ast.ofNodes, hself.asts] at hwrap
  have hlift := hrow.lift hrule.form.body rfl rfl
  have hturn : Turn ctx rule pos (some node) (some (step.id, step.row node nodes)) := by
    have hnone := hrule.step_none hbefore (fun _ hs => List.mem_of_mem_take hs) hmiss
    rw [Turn, hall, List.map_append, List.map_cons, List.append_assoc, List.cons_append]
    exact (FirstOf.here (hnodes.eventually hrule.form hmem)).skip hnone
  have hlen := hgives.add_len
  have hlen' := hlift.add_len
  refine ⟨hpos, (step.row node nodes).lift rule.top, base, hlift, hbase, by omega, fun final hfinal => ?_⟩
  refine hgrown final (.step hturn ?_ hfinal)
  simp only [Outcome.longerThan, Outcome.ofNode?, Outcome.len?, Outcome.node?, Option.map_some,
    decide_eq_true_eq]
  omega

/-- **The rule takes a match** where no step goes on. -/
theorem Reaches.takes (h : Reaches ctx rule pos stop asts)
    (hmiss : ∀ tail ∈ tails, MissesRow ctx rule tail stop) :
    Takes ctx rule (.reference name) pos stop [.covering name pos stop asts] := by
  obtain ⟨hpos, node, base, hgives, hbase, hle, hgrown⟩ := h
  obtain ⟨r, hfind, hvisible, hbody⟩ := hrule.named
  rw [← hgives.add_len] at hmiss
  have hturn : Turn ctx rule pos (some node) (some base) :=
    (ReadsFirst.base hrule hbase).skip (hrule.step_none hrule.step (fun _ h => h) hmiss)
  have hended : Grown ctx rule pos (some node) (some node) := by
    refine .ended hturn ?_
    simp only [Outcome.longerThan, Outcome.ofNode?, Outcome.len?, Outcome.node?, Option.map_some,
      Node.len_lift, decide_eq_false_iff_not]
    omega
  obtain ⟨fuel, hfuel⟩ := (hgrown _ hended).reads hpos
  refine Takes.of_clause hrule hpos rfl fun id hid => ?_
  obtain ⟨r', hfind', hclause⟩ := hid
  rw [hrule.mark] at hfind' hclause
  cases hfind.symm.trans hfind'
  rw [← hbody] at hfuel
  have hlift := hgives.markGrown.reference hclause hfind
  rw [hvisible, if_neg Bool.false_ne_true] at hlift
  exact ⟨_, fuel, node.markGrown.lift id, hclause,
    by simp [plainClause, hfuel, Outcome.ofNode?, Node.lift], hlift⟩

end growth
end Packrat

import Packrat.Proofs.ErrorCounts
import Packrat.Proofs.Recognition

/-!
# What a syntax tree keeps of a match tree

* `Node.withAncestors` — the nodes of a match tree, each with the nodes above it.
* `Node.kept` — those that a syntax tree is to show: terminals, errors and references to visible
  rules, unless a reference to a transparent rule stands above them.
* `Ast.outline` — the nodes of a syntax tree, each with its depth.
* `Node.ShownAs`, `Depicts` — how a node of the match tree is shown, and at which depth.
* `Ast.ofNode_depicts` — the nodes that a match tree gives show exactly the nodes that are kept, in
  order and with their nesting.
* `Ast.Row`, `Ast.Spanned` — nodes in order between two positions, and a node that spans its children.
* `Ast.ofNode_spanned` — the nodes that a match tree gives are in order where the tree is, and all
  nodes in them span their children.
* **`parse_projects`** — both, for the syntax tree of every parse.
-/

namespace Packrat

/-! ## What is kept -/

namespace Node

mutual

/-- The nodes of a tree, each with the nodes above it, the nearest first; a node before its
children. -/
def withAncestors (above : List Node) : Node → List (List Node × Node)
  | .clause info children =>
    (above, .clause info children) :: withAncestorsOf (.clause info children :: above) children
  | .skipped pos len => [(above, .skipped pos len)]
  | .deleted pos id => [(above, .deleted pos id)]

/-- The nodes of several trees, each with the nodes above it. -/
def withAncestorsOf (above : List Node) : List Node → List (List Node × Node)
  | [] => []
  | node :: rest => node.withAncestors above ++ withAncestorsOf above rest

end

/-- Whether a node is a match of a terminal. -/
def isTerminalOf (g : Grammar) : Node → Bool
  | .clause info _ => (g.clause? info.clause).any Clause.isTerminal
  | _ => false

/-- The rule that a node refers to. -/
def ruleName? (g : Grammar) : Node → Option String
  | .clause info _ => g.ruleName? info.clause
  | _ => none

/-- Whether a node refers to a transparent rule. -/
def isHidden (g : Grammar) (node : Node) : Bool := (node.ruleName? g).any g.isTransparent

/-- Whether a node refers to a rule that is not transparent. -/
def isVisible (g : Grammar) (node : Node) : Bool :=
  (node.ruleName? g).any fun name => !g.isTransparent name

/-- Whether a node is to be shown, apart from what stands above it. -/
def isShown (g : Grammar) (node : Node) : Bool :=
  node.isTerminalOf g || node.isError || node.isVisible g

/-- **The nodes of a tree that a syntax tree is to show**, each with the nodes above it: those that no
reference to a transparent rule stands above. -/
def kept (g : Grammar) (above : List Node) (node : Node) : List (List Node × Node) :=
  (node.withAncestors above).filter fun entry => entry.1.all (!·.isHidden g) && entry.2.isShown g

end Node

/-! ## How it is shown -/

namespace Ast

mutual

/-- The nodes of a syntax tree with their depths, a node before its children. -/
def outline (depth : Nat) : Ast → List (Nat × Ast)
  | ⟨label, pos, len, error, children⟩ =>
    (depth, ⟨label, pos, len, error, children⟩) :: outlineOf (depth + 1) children

/-- The nodes of several syntax trees with their depths. -/
def outlineOf (depth : Nat) : List Ast → List (Nat × Ast)
  | [] => []
  | ast :: rest => outline depth ast ++ outlineOf depth rest

end

/-- The nodes of a syntax tree: itself and those below it. -/
theorem outline_eq (depth : Nat) (ast : Ast) :
    ast.outline depth = (depth, ast) :: outlineOf (depth + 1) ast.children := by
  cases ast
  rw [outline]

/-- The nodes of two rows of trees. -/
theorem outlineOf_append (depth : Nat) : ∀ asts others : List Ast,
    outlineOf depth (asts ++ others) = outlineOf depth asts ++ outlineOf depth others
  | [], _ => rfl
  | ast :: rest, others => by
    rw [List.cons_append, outlineOf, outlineOf, outlineOf_append depth rest, List.append_assoc]

end Ast

/-- **How a node of a match tree is shown.** The node of a rule has the place of the match if it has no
children; otherwise its children say where it is. -/
inductive Node.ShownAs (g : Grammar) (node : Node) : Ast → Prop
  | terminal : node.isTerminalOf g = true → ShownAs g node (.terminal node.pos node.len)
  | error {error : SyntaxError} : node.error? = some error → ShownAs g node (.ofError error)
  | rule {ast : Ast} : node.isVisible g = true → node.ruleName? g = some ast.label →
      ast.error = none → (ast.children = [] → ast.pos = node.pos ∧ ast.len = node.len) →
      ShownAs g node ast

/-- **Whether a node of a syntax tree depicts one of a match tree**: it shows it, and the nodes above it
are the root and the visible rules. -/
def Depicts (g : Grammar) (entry : List Node × Node) (item : Nat × Ast) : Prop :=
  item.1 = entry.1.countP (·.isVisible g) + 1 ∧ entry.2.ShownAs g item.2

namespace Node

variable {g : Grammar} {above : List Node}

mutual

/-- A node that stands above a tree stands above each of its nodes. -/
theorem mem_withAncestors {hidden : Node} : (node : Node) → ∀ {above}, hidden ∈ above →
    ∀ entry ∈ node.withAncestors above, hidden ∈ entry.1
  | .skipped _ _, _, hmem, entry, hentry | .deleted _ _, _, hmem, entry, hentry => by
    rw [withAncestors, List.mem_singleton] at hentry
    subst hentry
    exact hmem
  | .clause info children, _, hmem, entry, hentry => by
    rw [withAncestors] at hentry
    rcases List.mem_cons.1 hentry with rfl | hentry
    · exact hmem
    · exact mem_withAncestorsOf children (List.mem_cons_of_mem _ hmem) entry hentry

/-- The same for several trees. -/
theorem mem_withAncestorsOf {hidden : Node} : (trees : List Node) → ∀ {above}, hidden ∈ above →
    ∀ entry ∈ withAncestorsOf above trees, hidden ∈ entry.1
  | [], _, _, _, hentry => absurd hentry List.not_mem_nil
  | tree :: rest, _, hmem, entry, hentry => by
    rw [withAncestorsOf] at hentry
    rcases List.mem_append.1 hentry with hentry | hentry
    · exact mem_withAncestors tree hmem entry hentry
    · exact mem_withAncestorsOf rest hmem entry hentry

end

/-- The nodes of several trees that are kept. -/
def keptOf (g : Grammar) (above : List Node) (trees : List Node) : List (List Node × Node) :=
  (withAncestorsOf above trees).filter fun entry =>
    entry.1.all (!·.isHidden g) && entry.2.isShown g

/-- What is kept of several trees is what is kept of each. -/
theorem keptOf_cons (tree : Node) (rest : List Node) :
    keptOf g above (tree :: rest) = tree.kept g above ++ keptOf g above rest := by
  rw [keptOf, withAncestorsOf, List.filter_append]
  rfl

/-- Below a reference to a transparent rule nothing is kept. -/
theorem keptOf_eq_nil {hidden : Node} (hmem : hidden ∈ above) (hhidden : hidden.isHidden g = true)
    (trees : List Node) : keptOf g above trees = [] := by
  refine List.filter_eq_nil_iff.2 fun entry hentry => ?_
  have habove := mem_withAncestorsOf trees hmem entry hentry
  rw [Bool.and_eq_true, List.all_eq_true, not_and]
  intro hall
  have hvisible := hall hidden habove
  rw [hhidden] at hvisible
  cases hvisible

/-- Where no reference to a transparent rule stands above, a node is kept if it is shown. -/
theorem kept_clause {info : NodeInfo} {children : List Node}
    (habove : ∀ other ∈ above, other.isHidden g = false) :
    (Node.clause info children).kept g above =
      (if (Node.clause info children).isShown g then [(above, .clause info children)] else []) ++
        keptOf g (.clause info children :: above) children := by
  have hall : above.all (!·.isHidden g) = true :=
    List.all_eq_true.2 fun other hother => by rw [habove other hother]; rfl
  rw [kept, withAncestors, List.filter_cons, hall, Bool.true_and]
  split <;> rfl

/-- Where no reference to a transparent rule stands above, an error is kept. -/
theorem kept_error {node : Node} (herror : node.isError = true)
    (habove : ∀ other ∈ above, other.isHidden g = false) : node.kept g above = [(above, node)] := by
  have hall : above.all (!·.isHidden g) = true :=
    List.all_eq_true.2 fun other hother => by rw [habove other hother]; rfl
  have hshown : node.isShown g = true := by simp [isShown, herror]
  cases node with
  | clause info children => cases herror
  | skipped pos len | deleted pos id => simp [kept, withAncestors, hall, hshown]

end Node

/-- What a match is, as far as syntax trees go: one of a terminal, which has no children; one of a
reference, which is around one other; or one of a clause without a node of its own. -/
theorem Forms.kinds {input : Array Char} {clause : Clause} {pos stop : Nat} {children : List Node}
    (h : Forms input clause pos stop children) :
    (clause.isTerminal = true ∧ children = []) ∨
    (∃ name target body, clause = .reference name target ∧ children = [body] ∧ body.pos = pos ∧
      body.stop = stop) ∨
    (clause.isTerminal = false ∧ clause.isReference = false) := by
  cases h with
  | literal | char | charClass | anyChar | empty => exact .inl ⟨rfl, rfl⟩
  | reference hchild => exact .inr (.inl ⟨_, _, _, rfl, rfl, hchild.pos_eq, rfl⟩)
  | _ => exact .inr (.inr ⟨rfl, rfl⟩)

/-- Only references carry the name of a rule. -/
theorem Grammar.ruleName?_eq_none {g : Grammar} {id : ClauseId} {clause : Clause}
    (hclause : g.clause? id = some clause) (hreference : clause.isReference = false) :
    g.ruleName? id = none := by
  rw [Grammar.ruleName?, hclause]
  cases clause with
  | reference => cases hreference
  | _ => rfl

namespace Ast

/-- The node of a rule has the place of the match if it has no children. -/
theorem exists_ofRule (label : String) (node : Node) (asts : List Ast) :
    ∃ pos len, ofRule label node asts = ⟨label, pos, len, none, asts⟩ ∧
      (asts = [] → pos = node.pos ∧ len = node.len) := by
  cases asts with
  | nil => exact ⟨node.pos, node.len, rfl, fun _ => ⟨rfl, rfl⟩⟩
  | cons ast rest =>
    obtain ⟨last, -, hspanning⟩ := exists_spanning?_cons label ast rest
    refine ⟨_, _, by rw [ofRule, hspanning, Option.getD_some], fun hnil => ?_⟩
    cases hnil

variable {ctx : Context}

mutual

/-- **The nodes that a match tree gives depict what is kept of it**, where no reference to a
transparent rule stands above it. -/
theorem ofNode_depicts : (node : Node) → (∀ other ∈ node.nodes, other.Formed ctx) → ∀ {above},
    (∀ other ∈ above, other.isHidden ctx.grammar = false) →
    List.Forall₂ (Depicts ctx.grammar) (node.kept ctx.grammar above)
      (outlineOf (above.countP (·.isVisible ctx.grammar) + 1) (ofNode ctx.grammar node))
  | .skipped pos len, _, above, habove | .deleted pos id, _, above, habove => by
    rw [Node.kept_error rfl habove, ofNode, outlineOf, outlineOf, outline_eq]
    exact .cons ⟨rfl, .error rfl⟩ .nil
  | .clause info children, hformed, above, habove => by
    obtain ⟨-, -, clause, hclause, hforms⟩ := hformed _ (Node.self_mem_nodes _)
    have hbelow : ∀ other ∈ Node.nodesOf children, other.Formed ctx := fun other hother =>
      hformed other (List.mem_cons_of_mem _ hother)
    have habove' : (Node.clause info children).isHidden ctx.grammar = false →
        ∀ other ∈ Node.clause info children :: above, other.isHidden ctx.grammar = false := by
      intro hself other hother
      rcases List.mem_cons.1 hother with rfl | hother
      · exact hself
      · exact habove other hother
    rw [Node.kept_clause habove]
    rcases hforms.kinds with ⟨hterminal, rfl⟩ | ⟨name, target, body, rfl, rfl, hpos, hstop⟩ |
      ⟨hterminal, hreference⟩
    · have hleaf : (Node.clause info []).isTerminalOf ctx.grammar = true := by
        rw [Node.isTerminalOf, hclause, Option.any_some, hterminal]
      rw [ofNode_terminal hclause hterminal, if_pos (by rw [Node.isShown, hleaf]; rfl)]
      exact .cons ⟨rfl, .terminal hleaf⟩ .nil
    · have hname : (Node.clause info [body]).ruleName? ctx.grammar = some name := by
        rw [Node.ruleName?, Grammar.ruleName?, hclause]
      rw [ofNode_reference hclause]
      cases htransparent : ctx.grammar.isTransparent name with
      | true =>
        have hhidden : (Node.clause info [body]).isHidden ctx.grammar = true := by
          rw [Node.isHidden, hname, Option.any_some, htransparent]
        have hshown : (Node.clause info [body]).isShown ctx.grammar = false := by
          rw [Node.isShown, Node.isTerminalOf, hclause, Node.isVisible, hname, Option.any_some,
            Option.any_some, htransparent]
          rfl
        rw [Node.keptOf_eq_nil List.mem_cons_self hhidden, hshown]
        exact .nil
      | false =>
        have hvisible : (Node.clause info [body]).isVisible ctx.grammar = true := by
          rw [Node.isVisible, hname, Option.any_some, htransparent]
          rfl
        have hself : (Node.clause info [body]).isHidden ctx.grammar = false := by
          rw [Node.isHidden, hname, Option.any_some, htransparent]
        have hbody := ofNodes_depicts [body] hbelow (habove' hself)
        rw [List.countP_cons_of_pos hvisible, ofNodes, ofNodes, List.append_nil] at hbody
        obtain ⟨start, len, hrule, hplace⟩ := exists_ofRule name body (ofNode ctx.grammar body)
        have hlen : body.len = info.len := by
          rw [Node.stop, hpos] at hstop
          exact Nat.add_left_cancel hstop
        rw [hpos, hlen] at hplace
        rw [if_pos (by rw [Node.isShown, hvisible, Bool.or_true]), if_neg Bool.false_ne_true, outlineOf,
          outlineOf, List.append_nil, outline_eq, hrule]
        exact .cons ⟨rfl, .rule hvisible hname rfl hplace⟩ hbody
    · have hname : (Node.clause info children).ruleName? ctx.grammar = none :=
        Grammar.ruleName?_eq_none hclause hreference
      have hvisible : (Node.clause info children).isVisible ctx.grammar = false := by
        rw [Node.isVisible, hname, Option.any_none]
      have hshown : (Node.clause info children).isShown ctx.grammar = false := by
        simp [Node.isShown, hvisible, Node.isTerminalOf, hclause, hterminal, Node.isError,
          Node.error?]
      have hself : (Node.clause info children).isHidden ctx.grammar = false := by
        rw [Node.isHidden, hname, Option.any_none]
      have hchildren := ofNodes_depicts children hbelow (habove' hself)
      rw [List.countP_cons_of_neg (by rw [hvisible]; exact Bool.false_ne_true)] at hchildren
      rw [ofNode_inner hclause hterminal hreference, hshown, if_neg Bool.false_ne_true]
      exact hchildren

/-- The same for several trees. -/
theorem ofNodes_depicts : (trees : List Node) → (∀ other ∈ Node.nodesOf trees, other.Formed ctx) →
    ∀ {above}, (∀ other ∈ above, other.isHidden ctx.grammar = false) →
    List.Forall₂ (Depicts ctx.grammar) (Node.keptOf ctx.grammar above trees)
      (outlineOf (above.countP (·.isVisible ctx.grammar) + 1) (ofNodes ctx.grammar trees))
  | [], _, _, _ => .nil
  | tree :: rest, hformed, above, habove => by
    rw [Node.keptOf_cons, ofNodes, outlineOf_append]
    rw [Node.nodesOf] at hformed
    exact List.rel_append
      (ofNode_depicts tree (fun other hother => hformed other (List.mem_append_left _ hother)) habove)
      (ofNodes_depicts rest (fun other hother => hformed other (List.mem_append_right _ hother)) habove)

end

/-! ## Where it is shown -/

/-- Where a node of a syntax tree ends. -/
def stop (ast : Ast) : Nat := ast.pos + ast.len

/-- **Whether nodes stand in order between two positions**: each lies between them and ends before the
later ones start. -/
structure Row (start : Nat) (asts : List Ast) (stop : Nat) : Prop where
  /-- The second position does not come before the first. -/
  le : start ≤ stop
  /-- Each node lies between the positions. -/
  within : ∀ ast ∈ asts, start ≤ ast.pos ∧ ast.stop ≤ stop
  /-- Each node ends before the later ones start. -/
  ordered : asts.Pairwise fun a b => a.stop ≤ b.pos

namespace Row

variable {start middle stop : Nat} {asts others : List Ast} {ast : Ast}

/-- No nodes. -/
theorem nil (h : start ≤ stop) : Row start [] stop := ⟨h, nofun, .nil⟩

/-- One node. -/
theorem single (h : start ≤ ast.pos ∧ ast.stop ≤ stop) : Row start [ast] stop where
  le := by
    have hle : ast.pos ≤ ast.stop := Nat.le_add_right _ _
    omega
  within := by
    intro other hother
    rw [List.mem_singleton] at hother
    rwa [hother]
  ordered := List.pairwise_singleton _ _

/-- One row of nodes after another. -/
theorem append (h : Row start asts middle) (h' : Row middle others stop) :
    Row start (asts ++ others) stop where
  le := h.le.trans h'.le
  within := by
    intro ast hast
    rcases List.mem_append.1 hast with hast | hast
    · exact ⟨(h.within ast hast).1, (h.within ast hast).2.trans h'.le⟩
    · exact ⟨h.le.trans (h'.within ast hast).1, (h'.within ast hast).2⟩
  ordered := List.pairwise_append.2 ⟨h.ordered, h'.ordered, fun a ha b hb =>
    (h.within a ha).2.trans (h'.within b hb).1⟩

/-- A row reaches from the start of its first node to the end of its last. -/
theorem narrow {last : Ast} (h : Row start (ast :: asts) stop)
    (hlast : (ast :: asts).getLast? = some last) : Row ast.pos (ast :: asts) last.stop := by
  have hfirst : ∀ other ∈ ast :: asts, ast.pos ≤ other.pos := by
    intro other hother
    have hstop : ast.pos ≤ ast.stop := Nat.le_add_right _ _
    rcases List.mem_cons.1 hother with rfl | hother
    · exact Nat.le_refl _
    · exact hstop.trans (List.rel_of_pairwise_cons h.ordered hother)
  have hfinal : ∀ other ∈ ast :: asts, other.stop ≤ last.stop := by
    intro other hother
    obtain ⟨init, hinit⟩ := List.getLast?_eq_some_iff.1 hlast
    have hordered := h.ordered
    rw [hinit] at hordered hother
    have hstop : last.pos ≤ last.stop := Nat.le_add_right _ _
    rcases List.mem_append.1 hother with hother | hother
    · exact ((List.pairwise_append.1 hordered).2.2 other hother last List.mem_cons_self).trans hstop
    · rw [List.mem_singleton] at hother
      rw [hother]
  have hmem : last ∈ ast :: asts := List.mem_of_getLast? hlast
  refine ⟨?_, fun other hother => ⟨hfirst other hother, hfinal other hother⟩, h.ordered⟩
  exact (hfirst last hmem).trans (Nat.le_add_right _ _)

end Row

/-- **Whether a node of a syntax tree spans its children**: it lies within the input, its children
stand in order inside it, and it reaches from the start of the first to the end of the last. -/
structure Spanned (inputLen : Nat) (ast : Ast) : Prop where
  /-- The node ends inside the input. -/
  within : ast.stop ≤ inputLen
  /-- The children stand in order inside the node. -/
  inside : Row ast.pos ast.children ast.stop
  /-- The node reaches exactly over its children. -/
  exact : ∀ first last, ast.children.head? = some first → ast.children.getLast? = some last →
    ast.pos = first.pos ∧ ast.stop = last.stop

/-- A node without children spans them. -/
theorem spanned_leaf {inputLen : Nat} {label : String} {pos len : Nat} {error : Option SyntaxError}
    (h : pos + len ≤ inputLen) : Spanned inputLen ⟨label, pos, len, error, []⟩ :=
  ⟨h, .nil (Nat.le_add_right _ _), nofun⟩

/-- The node of a rule spans its children, where they stand in order about the match. -/
theorem ofRule_spanned {inputLen start stop : Nat} {label : String} {node : Node} {asts : List Ast}
    (hrow : Row start asts stop) (hnode : start ≤ node.pos ∧ node.stop ≤ stop)
    (hle : stop ≤ inputLen) :
    (ofRule label node asts).Spanned inputLen ∧ start ≤ (ofRule label node asts).pos ∧
      (ofRule label node asts).stop ≤ stop := by
  cases asts with
  | nil => exact ⟨spanned_leaf (hnode.2.trans hle), hnode⟩
  | cons ast rest =>
    obtain ⟨last, hlast, hspanning⟩ := exists_spanning?_cons label ast rest
    have hnarrow := hrow.narrow hlast
    have hstop : ast.pos + (last.pos + last.len - ast.pos) = last.stop :=
      Nat.add_sub_cancel' hnarrow.le
    have hfirst := (hrow.within ast List.mem_cons_self).1
    have hfinal := (hrow.within last (List.mem_of_getLast? hlast)).2
    rw [ofRule, hspanning, Option.getD_some, Ast.stop, hstop]
    refine ⟨⟨?_, ?_, ?_⟩, hfirst, hfinal⟩
    · rw [Ast.stop, hstop]
      exact hfinal.trans hle
    · rw [Ast.stop, hstop]
      exact hnarrow
    · intro first final hhead hgetLast
      cases hhead
      cases hlast.symm.trans hgetLast
      exact ⟨rfl, hstop⟩

/-- All nodes of a tree span their children if the root and those below it do. -/
theorem outlineOf_single_spanned {inputLen : Nat} {ast : Ast} (hroot : ast.Spanned inputLen)
    (hbelow : ∀ depth, ∀ item ∈ outlineOf depth ast.children, item.2.Spanned inputLen) :
    ∀ depth, ∀ item ∈ outlineOf depth [ast], item.2.Spanned inputLen := by
  intro depth item hitem
  rw [outlineOf, outlineOf, outline_eq, List.append_nil] at hitem
  rcases List.mem_cons.1 hitem with rfl | hitem
  · exact hroot
  · exact hbelow (depth + 1) item hitem

/-- A node without children lies where it should, and is all there is. -/
theorem leaf_spanned {inputLen : Nat} {label : String} {pos len : Nat} {error : Option SyntaxError}
    (h : pos + len ≤ inputLen) :
    Row pos [⟨label, pos, len, error, []⟩] (pos + len) ∧
      ∀ depth, ∀ item ∈ outlineOf depth [⟨label, pos, len, error, []⟩], item.2.Spanned inputLen :=
  ⟨.single ⟨Nat.le_refl _, Nat.le_refl _⟩,
    outlineOf_single_spanned (spanned_leaf h) fun _ _ hitem => absurd hitem List.not_mem_nil⟩

mutual

/-- **The nodes that a match tree gives stand in order where the tree does**, and all nodes in them
span their children. -/
theorem ofNode_spanned : (node : Node) → (∀ other ∈ node.nodes, other.Formed ctx) →
    Row node.pos (ofNode ctx.grammar node) node.stop ∧
      ∀ depth, ∀ item ∈ outlineOf depth (ofNode ctx.grammar node),
        item.2.Spanned ctx.input.size
  | .skipped pos len, hformed => by
    rw [ofNode]
    exact leaf_spanned (hformed _ (Node.self_mem_nodes _)).2
  | .deleted pos id, hformed => by
    rw [ofNode]
    exact leaf_spanned (Nat.le_of_eq (hformed _ (Node.self_mem_nodes _)))
  | .clause info children, hformed => by
    obtain ⟨hle, -, clause, hclause, hforms⟩ := hformed _ (Node.self_mem_nodes _)
    have hbelow : ∀ other ∈ Node.nodesOf children, other.Formed ctx := fun other hother =>
      hformed other (List.mem_cons_of_mem _ hother)
    rcases hforms.kinds with ⟨hterminal, rfl⟩ | ⟨name, target, body, rfl, rfl, hpos, hstop⟩ |
      ⟨hterminal, hreference⟩
    · rw [ofNode_terminal hclause hterminal]
      exact leaf_spanned hle
    · obtain ⟨hrow, hspanned⟩ := ofNodes_spanned [body] hbelow ⟨hpos, hstop⟩
      rw [ofNodes, ofNodes, List.append_nil] at hrow hspanned
      rw [ofNode_reference hclause]
      split
      · exact ⟨.nil (Nat.le_add_right _ _), fun _ _ hitem => absurd hitem List.not_mem_nil⟩
      · obtain ⟨hrule, hplace⟩ := ofRule_spanned hrow ⟨Nat.le_of_eq hpos.symm, Nat.le_of_eq hstop⟩ hle
        refine ⟨.single hplace, outlineOf_single_spanned hrule ?_⟩
        rwa [children_ofRule]
    · rw [ofNode_inner hclause hterminal hreference]
      cases children with
      | nil => exact ⟨.nil (Nat.le_add_right _ _), fun _ _ hitem => absurd hitem List.not_mem_nil⟩
      | cons child rest => exact ofNodes_spanned _ hbelow (hforms.tiles (List.cons_ne_nil child rest))

/-- The same for trees that stand one after the other. -/
theorem ofNodes_spanned : (trees : List Node) → (∀ other ∈ Node.nodesOf trees, other.Formed ctx) →
    ∀ {start stop : Nat}, Tiles start trees stop →
    Row start (ofNodes ctx.grammar trees) stop ∧
      ∀ depth, ∀ item ∈ outlineOf depth (ofNodes ctx.grammar trees),
        item.2.Spanned ctx.input.size
  | [], _, _, _, htiles => ⟨.nil (Nat.le_of_eq htiles), fun _ _ hitem => absurd hitem List.not_mem_nil⟩
  | tree :: rest, hformed, start, stop, ⟨hpos, hrest⟩ => by
    rw [Node.nodesOf] at hformed
    obtain ⟨hrow, hspanned⟩ :=
      ofNode_spanned tree fun other hother => hformed other (List.mem_append_left _ hother)
    obtain ⟨hrow', hspanned'⟩ :=
      ofNodes_spanned rest (fun other hother => hformed other (List.mem_append_right _ hother)) hrest
    rw [hpos] at hrow
    rw [ofNodes]
    refine ⟨hrow.append hrow', fun depth item hitem => ?_⟩
    rw [outlineOf_append] at hitem
    rcases List.mem_append.1 hitem with hitem | hitem
    · exact hspanned depth item hitem
    · exact hspanned' depth item hitem

end

end Ast

/-! ## Parses -/

/-- **Whether a syntax tree is the projection of a result**: its root is labelled with the top rule; the
nodes below the root depict what is kept of the match tree and then the rest of the input, in order
and with their nesting; and all nodes span their children. -/
structure Parse.ProjectsTo (p : Parse) (inputLen : Nat) (ast : Ast) : Prop where
  /-- The root stands for the top rule. -/
  label : ast.label = p.topRule
  /-- The root stands for no error. -/
  error : ast.error = none
  /-- Without children the root has the place of the match. -/
  place : ast.children = [] → ast.pos = p.root.pos ∧ ast.len = p.root.len
  /-- The nodes below the root are those that are kept. -/
  depicts : List.Forall₂ (Depicts p.grammar)
    (p.root.kept p.grammar [] ++ p.trailing.map fun node => ([], node)) (Ast.outlineOf 1 ast.children)
  /-- All nodes span their children. -/
  spanned : ∀ item ∈ ast.outline 0, item.2.Spanned inputLen

/-- The syntax tree of a result is its projection, if that of its root is and the rest of the input is
what the root leaves. -/
theorem Parse.projectsTo_ofParse {p : Parse} {inputLen : Nat}
    (hdepicts : List.Forall₂ (Depicts p.grammar) (p.root.kept p.grammar [])
      (Ast.outlineOf 1 (Ast.ofNode p.grammar p.root)))
    (hroot : Ast.Row p.root.pos (Ast.ofNode p.grammar p.root) p.root.stop ∧
      ∀ depth, ∀ item ∈ Ast.outlineOf depth (Ast.ofNode p.grammar p.root),
        item.2.Spanned inputLen)
    (hle : p.root.stop ≤ inputLen)
    (hrest : ∀ rest ∈ p.unmatched, rest = ⟨p.root.stop, inputLen - p.root.stop, none⟩) :
    p.ProjectsTo inputLen (Ast.ofParse p) := by
  have htail : Ast.Row p.root.stop (p.unmatched.toList.map Ast.ofError) inputLen ∧
      (∀ depth, ∀ item ∈ Ast.outlineOf depth (p.unmatched.toList.map Ast.ofError),
        item.2.Spanned inputLen) ∧
      List.Forall₂ (Depicts p.grammar) (p.trailing.map fun node => ([], node))
        (Ast.outlineOf 1 (p.unmatched.toList.map Ast.ofError)) := by
    rw [Parse.trailing]
    cases hunmatched : p.unmatched with
    | none => exact ⟨.nil hle, fun _ _ hitem => absurd hitem List.not_mem_nil, .nil⟩
    | some rest =>
      obtain rfl := hrest rest hunmatched
      have hstop : p.root.stop + (inputLen - p.root.stop) = inputLen := Nat.add_sub_cancel' hle
      obtain ⟨hrow, hspanned⟩ := Ast.leaf_spanned (Nat.le_of_eq hstop)
      rw [hstop] at hrow
      exact ⟨hrow, hspanned, .cons ⟨rfl, .error rfl⟩ .nil⟩
  obtain ⟨hrow, hspanned, hshown⟩ := htail
  have hrule : (Ast.ofParse p).Spanned inputLen ∧ _ :=
    Ast.ofRule_spanned (hroot.1.append hrow) ⟨Nat.le_refl _, hle⟩ (Nat.le_refl _)
  have hchildren : (Ast.ofParse p).children =
      Ast.ofNode p.grammar p.root ++ p.unmatched.toList.map Ast.ofError :=
    Ast.children_ofRule _ _ _
  obtain ⟨pos, len, hast, hplace⟩ := Ast.exists_ofRule p.topRule p.root
    (Ast.ofNode p.grammar p.root ++ p.unmatched.toList.map Ast.ofError)
  refine ⟨?_, ?_, ?_, ?_, ?_⟩
  · rw [Ast.ofParse, hast]
  · rw [Ast.ofParse, hast]
  · rw [Ast.ofParse, hast]
    exact hplace
  · rw [hchildren, Ast.outlineOf_append]
    exact List.rel_append hdepicts hshown
  · intro item hitem
    rw [Ast.outline_eq, hchildren, Ast.outlineOf_append] at hitem
    rcases List.mem_cons.1 hitem with rfl | hitem
    · exact hrule.1
    · rcases List.mem_append.1 hitem with hitem | hitem
      · exact hroot.2 _ item hitem
      · exact hspanned _ item hitem

/-- The rest of the input is what the root leaves. -/
theorem Job.assemble_rest {job : Job} {outcome : Outcome} {hasErrors : Bool} {work : Option Work} :
    ∀ rest ∈ (job.assemble outcome hasErrors work).unmatched,
      rest = ⟨(job.assemble outcome hasErrors work).root.stop,
        job.input.size - (job.assemble outcome hasErrors work).root.stop, none⟩ := by
  intro rest hrest
  cases outcome with
  | matched node =>
    change rest ∈ job.rest? node hasErrors at hrest
    rw [Job.rest?] at hrest
    split at hrest
    · cases hrest
      rfl
    · cases hrest
  | mismatch | pending => cases hrest

/-- The result that a sound outcome of the phases stands for projects to its syntax tree. -/
theorem Job.assemble_projects {job : Job} {outcome : Outcome} {hasErrors : Bool} {work : Option Work}
    (hsound : outcome.Sound job.context job.top 0) :
    (job.assemble outcome hasErrors work).ProjectsTo job.input.size
      (Ast.ofParse (job.assemble outcome hasErrors work)) := by
  cases outcome with
  | matched node =>
    have hnode := hsound node rfl
    exact Parse.projectsTo_ofParse (Ast.ofNode_depicts node hnode.formed nofun)
      (Ast.ofNode_spanned node hnode.formed) hnode.stop_le Job.assemble_rest
  | mismatch | pending =>
    have hstop : 0 + job.input.size ≤ job.input.size := Nat.le_of_eq (Nat.zero_add _)
    refine Parse.projectsTo_ofParse ?_ (Ast.leaf_spanned hstop) hstop Job.assemble_rest
    show List.Forall₂ _ ((Node.skipped 0 job.input.size).kept job.grammar []) _
    rw [Node.kept_error rfl fun _ hother => absurd hother List.not_mem_nil]
    exact .cons ⟨rfl, .error rfl⟩ .nil

/-- Every result of a parse projects to its syntax tree. -/
theorem projectsTo_of_parse {g : Grammar} (hg : g.WellFormed) {rule input : String} {config : Config}
    {p : Parse} (hparse : parse g rule input config = .ok p) :
    p.ProjectsTo input.length (Ast.ofParse p) := by
  cases hr : g.rule? rule with
  | none =>
    rw [parse, Job.make, hr] at hparse
    cases hparse
  | some top =>
    obtain ⟨job, outcome, hasErrors, work, hctx, -, hresult, hsound, -⟩ :=
      parse_of_rule hg hr input config
    have hinput : job.input = input.toList.toArray := congrArg Context.input hctx
    have hsize : job.input.size = input.length := by rw [hinput, size_toArray_toList]
    cases hresult.symm.trans hparse
    rw [← hsize]
    exact Job.assemble_projects hsound

/-- **The syntax tree of every parse is its projection.** From every rule of a built grammar, over every
input and under every configuration, the result exists and projects to its syntax tree: below the
root there is one node for each terminal, each error and each reference to a visible rule of the match
tree that stands below no reference to a transparent rule, in the same order and with the same
nesting, terminals and errors where they are in the match tree; then comes the rest of the input. Every
node lies within the input, and its children stand in order inside it, from its start to its end. -/
theorem parse_projects {definitions : List Definition} {g : Grammar}
    (hb : Grammar.build definitions = .ok g) {rule : String}
    (hr : (g.rule? rule).isSome = true) (input : String) (config : Config) :
    ∃ p, parse g rule input config = .ok p ∧ p.ProjectsTo input.length (Ast.ofParse p) := by
  obtain ⟨top, htop⟩ := Option.isSome_iff_exists.1 hr
  have hg := build_wellFormed hb
  obtain ⟨_, _, _, _, -, -, hparse, -⟩ := parse_of_rule hg htop input config
  exact ⟨_, hparse, projectsTo_of_parse hg hparse⟩

/-- Two words with blanks between them that leave no trace. -/
def wordsDefinitions : List Definition :=
  [⟨"S", .seq [.reference "A", .reference "W", .reference "B"]⟩,
    ⟨"A", .plus (.lit "a")⟩, ⟨"B", .seq [.lit "b", .reference "A"]⟩, ⟨"~W", .plus (.lit " ")⟩]

/-- The grammar of two words. -/
def wordsGrammar : Grammar where
  clauses := #[.reference "A" 5, .reference "W" 10, .reference "B" 8, .seq [0, 1, 2], .literal ['a'],
    .repeated 4 true, .literal ['b'], .reference "A" 5, .seq [6, 7], .literal [' '], .repeated 9 true]
  rules := [⟨"S", false, 3⟩, ⟨"A", false, 5⟩, ⟨"B", false, 8⟩, ⟨"W", true, 10⟩]

/-- Two words with a character that fits nowhere between the blanks, and a rest. -/
theorem parse_projects_words :
    Grammar.build wordsDefinitions = .ok wordsGrammar ∧ (wordsGrammar.rule? "S").isSome = true ∧
      ∃ p, parse wordsGrammar "S" "aa ? ba!" {} = .ok p ∧ p.ProjectsTo 8 (Ast.ofParse p) := by
  have hb : Grammar.build wordsDefinitions = .ok wordsGrammar := rfl
  exact ⟨hb, rfl, parse_projects hb rfl "aa ? ba!" {}⟩

/-- The tree of the two words: what fits nowhere between the blanks is gone with them. -/
example : (parse wordsGrammar "S" "aa ? ba!" {}).toOption.map
      (fun p => ((Ast.ofParse p).outline 0).map fun item =>
        (item.1, item.2.label, item.2.pos, item.2.len)) =
    some [(0, "S", 0, 8), (1, "A", 0, 2), (2, "<Terminal>", 0, 1), (2, "<Terminal>", 1, 1),
      (1, "B", 5, 2), (2, "<Terminal>", 5, 1), (2, "A", 6, 1), (3, "<Terminal>", 6, 1),
      (1, "<SyntaxError>", 7, 1)] := by
  decide +kernel

end Packrat

import Packrat.Proofs.Tiling

/-!
# The errors of a match tree

A match tree shows its errors in two ways: every node records how many there are below it, and a
walk over the tree lists them.

* `Node.isError` — whether a node is a syntax error itself.
* `Node.syntaxErrors_eq` — the list is made of the nodes that are errors, in the order of the tree.
* `Node.Matches.errors_eq` — in a match tree the recorded number is that of the nodes that are errors,
  and so the length of the list.
* `Tiles.errors_within`, `Tiles.errors_ordered` — errors among nodes that stand one after the other
  lie where the nodes do, do not overlap, and come in order.
-/

namespace Packrat

/-- Whether a node is a syntax error. -/
def Node.isError (node : Node) : Bool := node.error?.isSome

/-- Whether each of several errors ends before the later ones start. -/
def InOrder (errors : List SyntaxError) : Prop := errors.Pairwise fun a b => a.stop ≤ b.pos

/-! ## The list of errors -/

namespace Node

mutual

/-- The errors of a tree are its nodes that are errors. -/
theorem syntaxErrors_eq : (node : Node) → node.syntaxErrors = node.nodes.filterMap error?
  | .clause _ children => by
    rw [syntaxErrors, nodes, List.filterMap_cons_none rfl, syntaxErrorsOf_eq children]
  | .skipped _ _ => rfl
  | .deleted _ _ => rfl

/-- The errors of several trees are their nodes that are errors. -/
theorem syntaxErrorsOf_eq : (trees : List Node) →
    syntaxErrorsOf trees = (nodesOf trees).filterMap error?
  | [] => rfl
  | tree :: rest => by
    rw [syntaxErrorsOf, nodesOf, List.filterMap_append, syntaxErrors_eq tree, syntaxErrorsOf_eq rest]

end

/-- There are as many errors in the list as nodes that are errors. -/
theorem length_syntaxErrors (node : Node) : node.syntaxErrors.length = node.nodes.countP isError := by
  rw [syntaxErrors_eq, List.length_filterMap_eq_countP]
  rfl

/-- The errors of a tree are among its leaves. -/
theorem syntaxErrors_eq_leaves (node : Node) : node.syntaxErrors = node.leaves.filterMap error? := by
  rw [syntaxErrors_eq, leaves, List.filterMap_filter]
  refine List.filterMap_congr fun other _ => ?_
  cases other with
  | clause info children => exact (ite_self none).symm
  | skipped _ _ | deleted _ _ => rfl

/-! ## The recorded number -/

mutual

/-- If every match records the errors of its children, then a tree records as many errors as it has
nodes that are errors. -/
theorem errors_eq_countP : (node : Node) →
    (∀ info children, .clause info children ∈ node.nodes → info.errors = totalErrors children) →
    node.errors = node.nodes.countP isError
  | .skipped _ _, _ => rfl
  | .deleted _ _, _ => rfl
  | .clause info children, h => by
    have hroot : info.errors = totalErrors children := h info children (self_mem_nodes _)
    have hbelow := totalErrors_eq_countP children fun info' children' hmem =>
      h info' children' (List.mem_cons_of_mem _ hmem)
    rw [nodes, List.countP_cons_of_neg (by simp [isError, error?]), ← hbelow]
    exact hroot

/-- The same for several trees. -/
theorem totalErrors_eq_countP : (trees : List Node) →
    (∀ info children, .clause info children ∈ nodesOf trees → info.errors = totalErrors children) →
    totalErrors trees = (nodesOf trees).countP isError
  | [], _ => rfl
  | tree :: rest, h => by
    have hfirst := errors_eq_countP tree fun info children hmem =>
      h info children (mem_nodesOf.2 ⟨tree, List.mem_cons_self, hmem⟩)
    have hrest := totalErrors_eq_countP rest fun info children hmem =>
      h info children (by rw [nodesOf]; exact List.mem_append_right _ hmem)
    rw [nodesOf, List.countP_append, ← hfirst, ← hrest]
    rfl

end

mutual

/-- The nodes below a node of a tree are nodes of the tree. -/
theorem mem_nodes_trans {node other : Node} : (tree : Node) → node ∈ tree.nodes →
    other ∈ node.nodes → other ∈ tree.nodes
  | .skipped _ _, hnode, hother | .deleted _ _, hnode, hother => by
    rw [nodes, List.mem_singleton] at hnode
    subst hnode
    exact hother
  | .clause info children, hnode, hother => by
    rw [nodes] at hnode
    rcases List.mem_cons.1 hnode with rfl | hnode
    · exact hother
    · exact List.mem_cons_of_mem _ (mem_nodesOf_trans children hnode hother)

/-- The same for several trees. -/
theorem mem_nodesOf_trans {node other : Node} : (trees : List Node) → node ∈ nodesOf trees →
    other ∈ node.nodes → other ∈ nodesOf trees
  | tree :: rest, hnode, hother => by
    rw [nodesOf] at hnode ⊢
    rcases List.mem_append.1 hnode with hnode | hnode
    · exact List.mem_append_left _ (mem_nodes_trans tree hnode hother)
    · exact List.mem_append_right _ (mem_nodesOf_trans rest hnode hother)

end

variable {ctx : Context} {id : ClauseId} {pos : Nat} {node : Node}

/-- **Every node of a match tree records the number of errors below it.** -/
theorem Matches.errors_eq (h : node.Matches ctx id pos) :
    ∀ other ∈ node.nodes, other.errors = other.nodes.countP isError := by
  intro other hother
  refine errors_eq_countP other fun info children hmem => ?_
  exact (h.formed _ (mem_nodes_trans node hother hmem)).2.1

/-- A match tree that records no errors has none. -/
theorem Matches.not_isError (h : node.Matches ctx id pos) (herrors : node.errors = 0) :
    ∀ other ∈ node.nodes, other.isError = false := by
  rw [h.errors_eq node (self_mem_nodes node), List.countP_eq_zero] at herrors
  exact fun other hother => Bool.eq_false_iff.2 (herrors other hother)

end Node

/-! ## The order of the errors -/

/-- An error starts and ends where its node does. -/
theorem Node.pos_of_error? {node : Node} {error : SyntaxError} (h : node.error? = some error) :
    error.pos = node.pos ∧ error.stop = node.stop := by
  cases node with
  | clause info children => cases h
  | skipped pos len | deleted pos id =>
    cases h
    exact ⟨rfl, rfl⟩

/-- Errors among nodes that stand one after the other lie where the nodes do. -/
theorem Tiles.errors_within : ∀ {nodes : List Node} {start stop : Nat}, Tiles start nodes stop →
    ∀ error ∈ nodes.filterMap Node.error?, start ≤ error.pos ∧ error.stop ≤ stop
  | [], _, _, _, _, herror => absurd herror List.not_mem_nil
  | node :: rest, start, stop, ⟨hpos, hrest⟩, error, herror => by
    have hle := hrest.le
    have hnode : node.pos ≤ node.stop := Nat.le_add_right _ _
    obtain ⟨other, hother, hsome⟩ := List.mem_filterMap.1 herror
    rcases List.mem_cons.1 hother with rfl | hother
    · obtain ⟨hstart, hstop⟩ := Node.pos_of_error? hsome
      omega
    · have hwithin := hrest.errors_within error (List.mem_filterMap.2 ⟨other, hother, hsome⟩)
      omega

/-- **Errors among nodes that stand one after the other come in order.** -/
theorem Tiles.errors_ordered : ∀ {nodes : List Node} {start stop : Nat}, Tiles start nodes stop →
    InOrder (nodes.filterMap Node.error?)
  | [], _, _, _ => .nil
  | node :: rest, _, _, ⟨_, hrest⟩ => by
    cases herror : node.error? with
    | none =>
      rw [List.filterMap_cons_none herror]
      exact hrest.errors_ordered
    | some error =>
      rw [List.filterMap_cons_some herror]
      refine List.pairwise_cons.2 ⟨fun other hother => ?_, hrest.errors_ordered⟩
      rw [(Node.pos_of_error? herror).2]
      exact (hrest.errors_within other hother).1

end Packrat

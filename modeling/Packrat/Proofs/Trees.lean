import Packrat.Match.Evaluate

/-!
# The shape of match trees

A match tree is well shaped if every node of it fits its own children; what a node has to satisfy
is a condition on the node and its children alone, never on what lies below them.

* `Node.nodes` — all nodes of a tree, a node before its children.
* `Tiles` — whether nodes stand one after the other, from one position to another, without a gap.
* `Elements`, `Iterations` — what the children of a sequence and of a repetition can be.
* `Forms` — what the children of a match can be, for every kind of clause.
* `Node.Formed` — the condition on one node.
* **`Node.Matches`** — a tree whose root is a match of a given clause at a given position and all of
  whose nodes are `Formed`. This is what matching promises about every node it gives or stores.

All statements about the trees of a parse are drawn from `Node.Matches`.
-/

namespace Packrat
namespace Node

/-! ## All nodes of a tree -/

mutual

/-- The nodes of a tree, a node before its children. -/
def nodes : Node → List Node
  | .clause info children => .clause info children :: nodesOf children
  | .skipped pos len => [.skipped pos len]
  | .deleted pos id => [.deleted pos id]

/-- The nodes of several trees. -/
def nodesOf : List Node → List Node
  | [] => []
  | node :: rest => node.nodes ++ nodesOf rest

end

/-- The nodes of several trees are those of each of them. -/
theorem mem_nodesOf {node : Node} : ∀ {trees : List Node},
    node ∈ nodesOf trees ↔ ∃ tree ∈ trees, node ∈ tree.nodes
  | [] => by simp [nodesOf]
  | tree :: rest => by simp [nodesOf, mem_nodesOf]

/-- A tree holds its root. -/
theorem self_mem_nodes (node : Node) : node ∈ node.nodes := by
  cases node <;> simp [nodes]

/-- Whether a node is a match of the clause `id` that starts at `pos`. -/
def IsMatch (node : Node) (id : ClauseId) (pos : Nat) : Prop :=
  ∃ info children, node = .clause info children ∧ info.clause = id ∧ info.pos = pos

/-- Where a match starts. -/
theorem IsMatch.pos_eq {node : Node} {id : ClauseId} {pos : Nat} (h : node.IsMatch id pos) :
    node.pos = pos := by
  obtain ⟨info, children, rfl, -, hpos⟩ := h
  exact hpos

end Node

/-! ## Standing one after the other -/

/-- Whether nodes stand one after the other, the first at `start` and the last ending at `stop`. -/
def Tiles : Nat → List Node → Nat → Prop
  | start, [], stop => start = stop
  | start, node :: rest, stop => node.pos = start ∧ Tiles node.stop rest stop

namespace Tiles

/-- Nodes that stand one after the other do not go back. -/
theorem le : ∀ {nodes : List Node} {start stop : Nat}, Tiles start nodes stop → start ≤ stop
  | [], _, _, h => Nat.le_of_eq h
  | node :: rest, start, stop, ⟨hpos, hrest⟩ => by
    have hle := hrest.le
    rw [Node.stop, hpos] at hle
    omega

/-- One row of nodes after another. -/
theorem append : ∀ {nodes others : List Node} {start middle stop : Nat},
    Tiles start nodes middle → Tiles middle others stop → Tiles start (nodes ++ others) stop
  | [], _, _, _, _, h, h' => by
    rw [show _ = _ from h]
    exact h'
  | _ :: _, _, _, _, _, ⟨hpos, hrest⟩, h' => ⟨hpos, hrest.append h'⟩

/-- A row of one node. -/
theorem single {node : Node} {pos : Nat} (h : node.pos = pos) : Tiles pos [node] node.stop :=
  ⟨h, rfl⟩

/-- Missing clauses take no room. -/
theorem deleted {pos : Nat} : ∀ {elements : List ClauseId},
    Tiles pos (elements.map (Node.deleted pos)) pos
  | [] => rfl
  | _ :: _ => ⟨rfl, deleted⟩

/-- Where the last node of a row ends. -/
theorem getLast_stop : ∀ {nodes : List Node} {start stop : Nat}, Tiles start nodes stop →
    nodes ≠ [] → (nodes.getLast?.map Node.stop).getD 0 = stop
  | [], _, _, _, hne => absurd rfl hne
  | [_], _, _, h, _ => h.2
  | _ :: second :: rest, _, _, h, _ => by
    rw [List.getLast?_cons_cons]
    exact getLast_stop h.2 (List.cons_ne_nil second rest)

end Tiles

/-! ## The children of a match -/

/-- The children of a sequence with these elements, from one position to another: each element is
matched, perhaps after input that is passed over, until the end of the input is reached and the
remaining elements are missing. -/
inductive Elements (inputLen : Nat) : List ClauseId → Nat → List Node → Nat → Prop
  | nil {pos : Nat} : Elements inputLen [] pos [] pos
  | matched {element : ClauseId} {rest : List ClauseId} {pos stop : Nat} {node : Node}
      {nodes : List Node} : node.IsMatch element pos → Elements inputLen rest node.stop nodes stop →
      Elements inputLen (element :: rest) pos (node :: nodes) stop
  | resumed {element : ClauseId} {rest : List ClauseId} {pos skip stop : Nat} {node : Node}
      {nodes : List Node} : node.IsMatch element (pos + skip) →
      Elements inputLen rest node.stop nodes stop →
      Elements inputLen (element :: rest) pos (.skipped pos skip :: node :: nodes) stop
  | missing {elements : List ClauseId} :
      Elements inputLen elements inputLen (elements.map (Node.deleted inputLen)) inputLen

/-- The children of a repetition of an item, from one position to another. The flag says whether
input was passed over before: only then can a rest of the input be passed over for good. -/
inductive Iterations (inputLen : Nat) (item : ClauseId) : Bool → Nat → List Node → Nat → Prop
  | nil {repaired : Bool} {pos : Nat} : Iterations inputLen item repaired pos [] pos
  | matched {repaired : Bool} {pos stop : Nat} {node : Node} {nodes : List Node} :
      node.IsMatch item pos → Iterations inputLen item repaired node.stop nodes stop →
      Iterations inputLen item repaired pos (node :: nodes) stop
  | resumed {repaired : Bool} {pos skip stop : Nat} {node : Node} {nodes : List Node} :
      node.IsMatch item (pos + skip) → Iterations inputLen item true node.stop nodes stop →
      Iterations inputLen item repaired pos (.skipped pos skip :: node :: nodes) stop
  | abandoned {pos : Nat} : pos < inputLen →
      Iterations inputLen item true pos [.skipped pos (inputLen - pos)] inputLen

/-- What the children of a match of a clause can be, if the match reaches from one position to
another. -/
inductive Forms (input : Array Char) : Clause → Nat → Nat → List Node → Prop
  | literal {text : List Char} {pos : Nat} : startsAt input text pos = true →
      Forms input (.literal text) pos (pos + text.length) []
  | char {c : Char} {pos : Nat} : input[pos]? = some c → Forms input (.char c) pos (pos + 1) []
  | charClass {ranges : List CharRange} {inverted : Bool} {c : Char} {pos : Nat} :
      input[pos]? = some c → classAccepts ranges inverted c = true →
      Forms input (.charClass ranges inverted) pos (pos + 1) []
  | anyChar {c : Char} {pos : Nat} : input[pos]? = some c → Forms input .anyChar pos (pos + 1) []
  | empty {pos : Nat} : Forms input .empty pos pos []
  | ahead {item : ClauseId} {pos : Nat} : Forms input (.ahead item) pos pos []
  | notAhead {item : ClauseId} {pos : Nat} : Forms input (.notAhead item) pos pos []
  | seq {elements : List ClauseId} {pos stop : Nat} {children : List Node} :
      Elements input.size elements pos children stop → Forms input (.seq elements) pos stop children
  | choice {alternatives : List ClauseId} {alternative : ClauseId} {pos : Nat} {child : Node} :
      alternative ∈ alternatives → child.IsMatch alternative pos →
      Forms input (.choice alternatives) pos child.stop [child]
  | repeated {item : ClauseId} {atLeastOne : Bool} {pos stop : Nat} {children : List Node} :
      Iterations input.size item false pos children stop → (atLeastOne = true → children ≠ []) →
      Forms input (.repeated item atLeastOne) pos stop children
  | absent {item : ClauseId} {pos : Nat} : Forms input (.optional item) pos pos []
  | present {item : ClauseId} {pos : Nat} {child : Node} : child.IsMatch item pos →
      Forms input (.optional item) pos child.stop [child]
  | reference {name : String} {target : ClauseId} {pos : Nat} {child : Node} :
      child.IsMatch target pos → Forms input (.reference name target) pos child.stop [child]

/-- The children of a sequence stand one after the other. -/
theorem Elements.tiles {inputLen pos stop : Nat} {elements : List ClauseId} {nodes : List Node}
    (h : Elements inputLen elements pos nodes stop) : Tiles pos nodes stop := by
  induction h with
  | nil => rfl
  | matched hnode _ ih => exact ⟨hnode.pos_eq, ih⟩
  | resumed hnode _ ih => exact ⟨rfl, hnode.pos_eq, ih⟩
  | missing => exact .deleted

/-- The children of a repetition stand one after the other. -/
theorem Iterations.tiles {inputLen pos stop : Nat} {item : ClauseId} {repaired : Bool}
    {nodes : List Node} (h : Iterations inputLen item repaired pos nodes stop) :
    Tiles pos nodes stop := by
  induction h with
  | nil => rfl
  | matched hnode _ ih => exact ⟨hnode.pos_eq, ih⟩
  | resumed hnode _ ih => exact ⟨rfl, hnode.pos_eq, ih⟩
  | abandoned hlt => exact ⟨rfl, Nat.add_sub_cancel' (Nat.le_of_lt hlt)⟩

/-- A match without children may reach over input; the children of any other stand one after the
other over exactly what the match reaches over. -/
theorem Forms.tiles {input : Array Char} {clause : Clause} {pos stop : Nat} {children : List Node}
    (h : Forms input clause pos stop children) (hne : children ≠ []) :
    Tiles pos children stop := by
  cases h with
  | seq h => exact h.tiles
  | repeated h _ => exact h.tiles
  | choice _ h | present h | reference h => exact .single h.pos_eq
  | _ => exact absurd rfl hne

/-! ## Whole trees -/

/-- The condition on one node of a match tree: it ends inside the input, counts the errors of its
children, and its clause can have these children. -/
def Node.Formed (ctx : Context) : Node → Prop
  | .clause info children =>
    info.pos + info.len ≤ ctx.input.size ∧ info.errors = totalErrors children ∧
      ∃ clause, ctx.grammar.clause? info.clause = some clause ∧
        Forms ctx.input clause info.pos (info.pos + info.len) children
  | .skipped pos len => 0 < len ∧ pos + len ≤ ctx.input.size
  | .deleted pos _ => pos = ctx.input.size

/-- **A match tree** of the clause `id` at `pos`. -/
structure Node.Matches (ctx : Context) (id : ClauseId) (pos : Nat) (node : Node) : Prop where
  /-- The root is a match of the clause at the position. -/
  isMatch : node.IsMatch id pos
  /-- Every node fits its children. -/
  formed : ∀ other ∈ node.nodes, other.Formed ctx

namespace Node

variable {ctx : Context} {id : ClauseId} {pos stop : Nat} {clause : Clause}

/-- A match tree starts where it should. -/
theorem Matches.pos_eq {node : Node} (h : node.Matches ctx id pos) : node.pos = pos :=
  h.isMatch.pos_eq

/-- A match tree ends inside the input. -/
theorem Matches.stop_le {node : Node} (h : node.Matches ctx id pos) :
    node.stop ≤ ctx.input.size := by
  obtain ⟨info, children, rfl, -, -⟩ := h.isMatch
  exact (h.formed _ (self_mem_nodes _)).1

/-- The end of a match tree from its length. -/
theorem Matches.stop_eq {node : Node} (h : node.Matches ctx id pos) :
    node.stop = pos + node.len := by
  rw [Node.stop, h.pos_eq]

/-- A match without children. -/
theorem matches_leaf {len : Nat} {complete : Bool} (hid : ctx.grammar.clause? id = some clause)
    (hforms : Forms ctx.input clause pos (pos + len) []) (hle : pos + len ≤ ctx.input.size) :
    Matches ctx id pos (.clause ⟨id, pos, len, complete, false, 0⟩ []) where
  isMatch := ⟨_, _, rfl, rfl, rfl⟩
  formed := by
    intro other hother
    simp only [nodes, nodesOf, List.mem_singleton] at hother
    subst hother
    exact ⟨hle, rfl, clause, hid, hforms⟩

/-- What wrapping nodes that stand one after the other gives. -/
theorem wrap_eq {children : List Node} {complete : Bool} (h : Tiles pos children stop)
    (hne : children ≠ []) :
    wrap id children complete =
      .clause ⟨id, pos, stop - pos, complete, children.any isGrown, totalErrors children⟩
        children := by
  have hlast := h.getLast_stop hne
  cases children with
  | nil => exact absurd rfl hne
  | cons first rest =>
    have hfirst : ((first :: rest).head?.map Node.pos).getD 0 = pos := h.1
    simp only [wrap, hfirst, hlast]

/-- Where wrapping nodes that stand one after the other starts. -/
theorem pos_wrap {children : List Node} {complete : Bool} (h : Tiles pos children stop)
    (hne : children ≠ []) : (wrap id children complete).pos = pos := by
  rw [wrap_eq h hne, Node.pos]

/-- Where wrapping nodes that stand one after the other ends. -/
theorem stop_wrap {children : List Node} {complete : Bool} (h : Tiles pos children stop)
    (hne : children ≠ []) : (wrap id children complete).stop = stop := by
  rw [Node.stop, wrap_eq h hne, Node.pos, Node.len, Nat.add_sub_cancel' h.le]

/-- A match with children. -/
theorem matches_wrap {children : List Node} {complete : Bool}
    (hid : ctx.grammar.clause? id = some clause) (hforms : Forms ctx.input clause pos stop children)
    (hne : children ≠ []) (hle : stop ≤ ctx.input.size)
    (hformed : ∀ other ∈ nodesOf children, other.Formed ctx) :
    Matches ctx id pos (wrap id children complete) := by
  have htiles := hforms.tiles hne
  have hstop : pos + (stop - pos) = stop := Nat.add_sub_cancel' htiles.le
  rw [wrap_eq htiles hne]
  refine ⟨⟨_, _, rfl, rfl, rfl⟩, ?_⟩
  intro other hother
  rw [nodes] at hother
  rcases List.mem_cons.1 hother with rfl | hother
  · refine ⟨?_, rfl, clause, hid, ?_⟩
    · rw [hstop]
      exact hle
    · rw [hstop]
      exact hforms
  · exact hformed other hother

/-- A match around one other. -/
theorem matches_wrapOne {child : Node} {item : ClauseId} {complete : Bool}
    (hid : ctx.grammar.clause? id = some clause)
    (hforms : Forms ctx.input clause pos child.stop [child]) (hchild : child.Matches ctx item pos) :
    Matches ctx id pos (wrapOne id child complete) := by
  refine matches_wrap hid hforms (List.cons_ne_nil child []) hchild.stop_le ?_
  intro other hother
  obtain ⟨tree, htree, hother⟩ := mem_nodesOf.1 hother
  rw [List.mem_singleton] at htree
  exact hchild.formed other (htree ▸ hother)

/-- Marking a match tree changes none of what it has to satisfy. -/
theorem Matches.markGrown {node : Node} (h : node.Matches ctx id pos) :
    node.markGrown.Matches ctx id pos := by
  obtain ⟨info, children, rfl, hid, hpos⟩ := h.isMatch
  refine ⟨⟨_, _, rfl, hid, hpos⟩, ?_⟩
  intro other hother
  rw [Node.markGrown, nodes] at hother
  rcases List.mem_cons.1 hother with rfl | hother
  · exact h.formed (.clause info children) (self_mem_nodes _)
  · exact h.formed other (List.mem_cons_of_mem _ hother)

end Node

/-- What matching a clause at a position promises: if there is a match, it is a match tree of that
clause at that position. -/
def Outcome.Sound (ctx : Context) (id : ClauseId) (pos : Nat) (outcome : Outcome) : Prop :=
  ∀ node, outcome = .matched node → node.Matches ctx id pos

namespace Outcome

variable {ctx : Context} {id : ClauseId} {pos : Nat}

/-- A match tree is a sound outcome. -/
theorem sound_matched {node : Node} (h : node.Matches ctx id pos) :
    Outcome.Sound ctx id pos (.matched node) := by
  intro other hother
  cases hother
  exact h

/-- An outcome without a match is sound. -/
theorem sound_of_not_isMatch {outcome : Outcome} (h : outcome.isMatch = false) :
    outcome.Sound ctx id pos := by
  intro node hnode
  rw [hnode] at h
  cases h

/-- Marking keeps an outcome sound. -/
theorem Sound.markGrown {outcome : Outcome} (h : outcome.Sound ctx id pos) :
    outcome.markGrown.Sound ctx id pos := by
  cases outcome with
  | matched node => exact sound_matched (h node rfl).markGrown
  | _ => exact sound_of_not_isMatch rfl

end Outcome
end Packrat

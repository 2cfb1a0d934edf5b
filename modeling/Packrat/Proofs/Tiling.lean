import Packrat.Proofs.Parsing

/-!
# A parse covers its input

* `Node.leaves` — the nodes of a tree without children, from left to right.
* `Node.leaves_tile` — if the children of every node stand one after the other over what the node
  reaches over, then so do the leaves of the tree.
* `Parse.trailing` — the rest of the input after the root, as a node.
* **`parse_tiles`** — in the result of every parse the leaves of the root, and then the rest of the
  input, stand one after the other from the start of the input to its end.
-/

namespace Packrat

namespace Node

/-- The nodes of a tree that have no children, from left to right. -/
def leaves (node : Node) : List Node := node.nodes.filter fun other => other.children.isEmpty

mutual

/-- The leaves of a tree stand one after the other over what its root reaches over, if the children
of every node do so. -/
theorem leaves_tile : (node : Node) →
    (∀ other ∈ node.nodes, other.children ≠ [] → Tiles other.pos other.children other.stop) →
    Tiles node.pos node.leaves node.stop
  | .skipped _ _, _ | .deleted _ _, _ => ⟨rfl, rfl⟩
  | .clause _ [], _ => ⟨rfl, rfl⟩
  | .clause info (child :: rest), h => by
    have hroot : Tiles info.pos (child :: rest) (info.pos + info.len) :=
      h _ (self_mem_nodes _) (List.cons_ne_nil child rest)
    have hbelow := leavesOf_tile (child :: rest) hroot fun other hother hne =>
      h other (List.mem_cons_of_mem _ hother) hne
    rw [leaves, nodes, List.filter_cons_of_neg (by simp [children])]
    exact hbelow

/-- The leaves of trees that stand one after the other do so as well. -/
theorem leavesOf_tile : (trees : List Node) → ∀ {start stop : Nat}, Tiles start trees stop →
    (∀ other ∈ nodesOf trees, other.children ≠ [] → Tiles other.pos other.children other.stop) →
    Tiles start ((nodesOf trees).filter fun other => other.children.isEmpty) stop
  | [], _, _, htiles, _ => htiles
  | tree :: rest, _, _, ⟨hpos, hrest⟩, h => by
    rw [nodesOf, List.filter_append]
    have hmem : ∀ other, other ∈ tree.nodes → other ∈ nodesOf (tree :: rest) :=
      fun other hother => mem_nodesOf.2 ⟨tree, List.mem_cons_self, hother⟩
    have hmem' : ∀ other, other ∈ nodesOf rest → other ∈ nodesOf (tree :: rest) := by
      intro other hother
      rw [nodesOf]
      exact List.mem_append_right _ hother
    have hfirst := leaves_tile tree fun other hother => h other (hmem other hother)
    rw [hpos] at hfirst
    exact hfirst.append (leavesOf_tile rest hrest fun other hother => h other (hmem' other hother))

end

/-- In a match tree the children of every node stand one after the other over what the node reaches
over. -/
theorem Matches.tiles {ctx : Context} {id : ClauseId} {pos : Nat} {node : Node}
    (h : node.Matches ctx id pos) :
    ∀ other ∈ node.nodes, other.children ≠ [] → Tiles other.pos other.children other.stop := by
  intro other hother hne
  have hformed := h.formed other hother
  cases other with
  | clause info children =>
    obtain ⟨-, -, clause, -, hforms⟩ := hformed
    exact hforms.tiles hne
  | skipped _ _ | deleted _ _ => exact absurd rfl hne

end Node

/-- The rest of the input after the root, as a node. -/
def Parse.trailing (p : Parse) : List Node :=
  p.unmatched.toList.map fun error => .skipped error.pos error.len

/-- Whether a result covers its input: the root starts at the start, the children of every node of
its tree stand one after the other over what the node reaches over, the leaves of the root and then
the rest of the input stand one after the other over the whole input, and there is a rest exactly if
the root ends before the input does. -/
structure Parse.Covers (p : Parse) (inputLen : Nat) : Prop where
  /-- The root starts at the start. -/
  root_pos : p.root.pos = 0
  /-- Children fit their parents. -/
  children_tile : ∀ node ∈ p.root.nodes, node.children ≠ [] →
    Tiles node.pos node.children node.stop
  /-- The leaves and the rest are the input. -/
  leaves_tile : Tiles 0 (p.root.leaves ++ p.trailing) inputLen
  /-- There is a rest if the root falls short. -/
  trailing_iff : p.unmatched.isSome = true ↔ p.root.stop < inputLen

/-- A row of leaves that reaches to the end of the input leaves no rest. -/
theorem Parse.covers_of_reaches {p : Parse} {inputLen : Nat} (hpos : p.root.pos = 0)
    (hchildren : ∀ node ∈ p.root.nodes, node.children ≠ [] →
      Tiles node.pos node.children node.stop)
    (hstop : p.root.stop = inputLen) (hnone : p.unmatched = none) : p.Covers inputLen where
  root_pos := hpos
  children_tile := hchildren
  leaves_tile := by
    have hleaves := Node.leaves_tile p.root hchildren
    rw [hpos, hstop] at hleaves
    rw [Parse.trailing, hnone]
    exact hleaves.append rfl
  trailing_iff := by
    rw [hnone, hstop]
    simp

/-- A row of leaves that falls short is followed by the rest of the input. -/
theorem Parse.covers_of_falls_short {p : Parse} {inputLen : Nat} (hpos : p.root.pos = 0)
    (hchildren : ∀ node ∈ p.root.nodes, node.children ≠ [] →
      Tiles node.pos node.children node.stop)
    (hlt : p.root.stop < inputLen)
    (hsome : p.unmatched = some ⟨p.root.stop, inputLen - p.root.stop, none⟩) :
    p.Covers inputLen where
  root_pos := hpos
  children_tile := hchildren
  leaves_tile := by
    have hleaves := Node.leaves_tile p.root hchildren
    rw [hpos] at hleaves
    rw [Parse.trailing, hsome]
    refine hleaves.append ⟨rfl, ?_⟩
    show p.root.stop + (inputLen - p.root.stop) = inputLen
    omega
  trailing_iff := by
    rw [hsome]
    simp [hlt]

/-- The result that a sound outcome of the phases stands for covers the input. -/
theorem Job.assemble_covers {job : Job} {outcome : Outcome} {hasErrors : Bool} {work : Option Work}
    (hsound : outcome.Sound job.context job.top 0)
    (hcovers : hasErrors = false → job.covers outcome = true) :
    (job.assemble outcome hasErrors work).Covers job.input.size := by
  cases outcome with
  | matched node =>
    have hnode := hsound node rfl
    by_cases hshort : node.stop < job.input.size
    · -- The phases cannot claim that a match which falls short covers the input.
      have herrors : hasErrors = true := by
        by_contra hne
        have hc := hcovers (Bool.eq_false_iff.2 hne)
        simp only [Job.covers, Outcome.node?, Option.any_some, Bool.and_eq_true, beq_iff_eq] at hc
        rw [Node.stop] at hshort
        omega
      refine Parse.covers_of_falls_short hnode.pos_eq hnode.tiles hshort ?_
      show job.rest? node hasErrors = _
      rw [Job.rest?, if_pos (by simp [hshort, herrors])]
      rfl
    · have hstop : node.stop = job.input.size :=
        Nat.le_antisymm hnode.stop_le (Nat.le_of_not_lt hshort)
      refine Parse.covers_of_reaches hnode.pos_eq hnode.tiles hstop ?_
      show job.rest? node hasErrors = none
      rw [Job.rest?, if_neg (by simp [hshort])]
  | mismatch | pending =>
    refine Parse.covers_of_reaches rfl ?_ (Nat.zero_add _) rfl
    intro node hnode hne
    have hroot : node ∈ (Node.skipped 0 job.input.size).nodes := hnode
    rw [Node.nodes, List.mem_singleton] at hroot
    subst hroot
    exact absurd rfl hne

/-- **Every parse covers its input.** From every rule of a built grammar, over every input and under
every configuration, the result exists and covers exactly the characters of the input. -/
theorem parse_tiles {definitions : List Definition} {g : Grammar}
    (hb : Grammar.build definitions = .ok g) {rule : String}
    (hr : (g.rule? rule).isSome = true) (input : String) (config : Config) :
    ∃ p, parse g rule input config = .ok p ∧ p.Covers input.length := by
  obtain ⟨top, htop⟩ := Option.isSome_iff_exists.1 hr
  obtain ⟨job, outcome, hasErrors, work, hctx, -, hparse, hsound, hcovers⟩ :=
    parse_of_rule (build_wellFormed hb) htop input config
  have hinput : job.input = input.toList.toArray := congrArg Context.input hctx
  have hsize : job.input.size = input.length := by rw [hinput, size_toArray_toList]
  rw [← hsize]
  exact ⟨_, hparse, Job.assemble_covers hsound hcovers⟩

/-- A sum with input that fits nowhere, inside and after it. -/
theorem parse_tiles_sum :
    Grammar.build sumDefinitions = .ok sumGrammar ∧ (sumGrammar.rule? "Sum").isSome = true ∧
      ∃ p, parse sumGrammar "Sum" "1+?2 " {} = .ok p ∧ p.Covers 5 := by
  have hb : Grammar.build sumDefinitions = .ok sumGrammar := rfl
  exact ⟨hb, rfl, parse_tiles hb rfl "1+?2 " {}⟩

end Packrat

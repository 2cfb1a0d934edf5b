import Mathlib.Data.List.Forall2
import Packrat.Proofs.Parsing

/-!
# Every match is a derivation

* `Clause.Admits` — what a match of a clause may look like: what it covers and which children it
  has. This is stated kind by kind and without reference to how matches are found. Repairs show as
  input that is passed over, and as missing elements at the end of a sequence.
* `Node.Derived` — a node that is a match of some clause is one that the clause admits.
* **`parse_derives`** — if the root of a parse is a match, it is one of the body of the top rule, and
  all nodes of its tree are derived.
-/

namespace Packrat

namespace Node

/-- Whether a node is a match of the clause. -/
def isMatchOf (id : ClauseId) : Node → Bool
  | .clause info _ => info.clause == id
  | _ => false

/-- Whether a node stands for input that is passed over. -/
def isSkip : Node → Bool
  | .skipped _ _ => true
  | _ => false

/-- Whether a node stands for the clause being missing. -/
def isDeletionOf (id : ClauseId) : Node → Bool
  | .deleted _ missing => missing == id
  | _ => false

/-- A match of a clause at a position is a match of the clause. -/
theorem IsMatch.isMatchOf {node : Node} {id : ClauseId} {pos : Nat} (h : node.IsMatch id pos) :
    node.isMatchOf id = true := by
  obtain ⟨info, children, rfl, rfl, -⟩ := h
  exact beq_self_eq_true info.clause

/-- A match is not input that is passed over. -/
theorem IsMatch.not_isSkip {node : Node} {id : ClauseId} {pos : Nat} (h : node.IsMatch id pos) :
    node.isSkip = false := by
  obtain ⟨info, children, rfl, -, -⟩ := h
  rfl

end Node

/-! ## What a clause admits -/

/-- The children of a sequence, apart from input that is passed over, correspond to its elements:
matches first, and then elements that are missing. -/
def CorrespondTo (elements : List ClauseId) (children : List Node) : Prop :=
  ∃ present missing matches' deletions, elements = present ++ missing ∧
    children = matches' ++ deletions ∧
    List.Forall₂ (fun element node => node.isMatchOf element = true) present matches' ∧
    List.Forall₂ (fun element node => node.isDeletionOf element = true) missing deletions

/-- Input that is passed over in a repetition is followed by a match of the item, or else it is the
last child, reaches to the end of the input and comes after other input that is passed over. -/
def SkipsResume (inputLen : Nat) (item : ClauseId) (children : List Node) : Prop :=
  ∀ before pos len after, children = before ++ .skipped pos len :: after →
    (∃ node rest, after = node :: rest ∧ node.isMatchOf item = true) ∨
      (after = [] ∧ pos + len = inputLen ∧ ∃ skip ∈ before, skip.isSkip = true)

/-- The one child is a match of the clause that covers the same input. -/
def WrapsMatchOf (id : ClauseId) (pos len : Nat) (children : List Node) : Prop :=
  ∃ child, children = [child] ∧ child.isMatchOf id = true ∧ child.pos = pos ∧ child.len = len

/-- **What a match of a clause may look like**: where it starts, how much it covers and which
children it has. -/
def Clause.Admits (input : Array Char) (pos len : Nat) (children : List Node) : Clause → Prop
  | .literal text =>
    children = [] ∧ len = text.length ∧ (input.extract pos (pos + len)).toList = text
  | .char c => children = [] ∧ len = 1 ∧ input[pos]? = some c
  | .charClass ranges inverted =>
    children = [] ∧ len = 1 ∧ ∃ c, input[pos]? = some c ∧ classAccepts ranges inverted c = true
  | .anyChar => children = [] ∧ len = 1 ∧ pos < input.size
  | .empty | .ahead _ | .notAhead _ => children = [] ∧ len = 0
  | .seq elements => CorrespondTo elements (children.filter fun child => !child.isSkip)
  | .choice alternatives =>
    ∃ alternative ∈ alternatives, WrapsMatchOf alternative pos len children
  | .repeated item atLeastOne =>
    (∀ child ∈ children, child.isMatchOf item = true ∨ child.isSkip = true) ∧
      SkipsResume input.size item children ∧ (atLeastOne = true → children ≠ [])
  | .optional item =>
    (children = [] ∧ len = 0) ∨ WrapsMatchOf item pos len children
  | .reference _ target => WrapsMatchOf target pos len children

/-- Whether a node, if it is a match, is one that its clause admits. -/
def Node.Derived (g : Grammar) (input : Array Char) : Node → Prop
  | .clause info children =>
    ∃ clause, g.clause? info.clause = some clause ∧
      clause.Admits input info.pos info.len children
  | _ => True

/-! ## Well-shaped nodes are derived -/

/-- A text that stands at a position is what the input holds there. -/
theorem take_drop_of_startsAt {input : Array Char} : ∀ {text : List Char} {pos : Nat},
    startsAt input text pos = true → (input.toList.drop pos).take text.length = text
  | [], _, _ => rfl
  | c :: rest, pos, h => by
    rw [startsAt, Bool.and_eq_true, beq_iff_eq, ← Array.getElem?_toList] at h
    obtain ⟨hlt, hc⟩ := List.getElem?_eq_some_iff.1 h.1
    rw [List.drop_eq_getElem_cons hlt, hc, List.length_cons, List.take_succ_cons,
      take_drop_of_startsAt h.2]

/-- A text that stands at a position is what is taken from the input there. -/
theorem extract_of_startsAt {input : Array Char} {text : List Char} {pos : Nat}
    (h : startsAt input text pos = true) :
    (input.extract pos (pos + text.length)).toList = text := by
  rw [Array.toList_extract, List.extract_eq_take_drop, Nat.add_sub_cancel_left]
  exact take_drop_of_startsAt h

/-- The children of a sequence correspond to its elements. -/
theorem Elements.correspond {inputLen pos stop : Nat} {elements : List ClauseId} {nodes : List Node}
    (h : Elements inputLen elements pos nodes stop) :
    CorrespondTo elements (nodes.filter fun child => !child.isSkip) := by
  induction h with
  | nil => exact ⟨[], [], [], [], rfl, rfl, .nil, .nil⟩
  | @matched element rest pos stop node nodes hnode _ ih =>
    obtain ⟨present, missing, matches', deletions, rfl, hnodes, hpresent, hmissing⟩ := ih
    rw [List.filter_cons_of_pos (by simp [hnode.not_isSkip]), hnodes]
    exact ⟨element :: present, missing, node :: matches', deletions, rfl, rfl,
      .cons hnode.isMatchOf hpresent, hmissing⟩
  | @resumed element rest pos skip stop node nodes hnode _ ih =>
    obtain ⟨present, missing, matches', deletions, rfl, hnodes, hpresent, hmissing⟩ := ih
    rw [List.filter_cons_of_neg (by simp [Node.isSkip]),
      List.filter_cons_of_pos (by simp [hnode.not_isSkip]), hnodes]
    exact ⟨element :: present, missing, node :: matches', deletions, rfl, rfl,
      .cons hnode.isMatchOf hpresent, hmissing⟩
  | @missing elements =>
    refine ⟨[], elements, [], elements.map (Node.deleted inputLen), rfl, ?_, .nil, ?_⟩
    · rw [List.nil_append, List.filter_eq_self]
      intro node hnode
      obtain ⟨element, -, rfl⟩ := List.mem_map.1 hnode
      rfl
    · rw [List.forall₂_map_right_iff, List.forall₂_same]
      intro element _
      exact beq_self_eq_true element

/-- The children of a repetition are matches of its item or input that is passed over. -/
theorem Iterations.items {inputLen pos stop : Nat} {item : ClauseId} {repaired : Bool}
    {nodes : List Node} (h : Iterations inputLen item repaired pos nodes stop) :
    ∀ child ∈ nodes, child.isMatchOf item = true ∨ child.isSkip = true := by
  induction h with
  | nil => simp
  | matched hnode _ ih =>
    rw [List.forall_mem_cons]
    exact ⟨.inl hnode.isMatchOf, ih⟩
  | resumed hnode _ ih =>
    rw [List.forall_mem_cons, List.forall_mem_cons]
    exact ⟨.inr rfl, .inl hnode.isMatchOf, ih⟩
  | abandoned _ =>
    rw [List.forall_mem_singleton]
    exact .inr rfl

/-- Where a repetition passes over input, it goes on with its item, or it was repaired before. -/
theorem Iterations.resume {inputLen pos stop : Nat} {item : ClauseId} {repaired : Bool}
    {nodes : List Node} (h : Iterations inputLen item repaired pos nodes stop) :
    ∀ before place len after, nodes = before ++ .skipped place len :: after →
      (∃ node rest, after = node :: rest ∧ node.isMatchOf item = true) ∨
        (after = [] ∧ place + len = inputLen ∧
          (repaired = true ∨ ∃ skip ∈ before, skip.isSkip = true)) := by
  induction h with
  | nil =>
    intro before place len after heq
    simp at heq
  | @matched repaired pos stop node nodes hnode _ ih =>
    intro before place len after heq
    cases before with
    | nil =>
      cases heq
      exact absurd hnode.not_isSkip (by simp [Node.isSkip])
    | cons first before =>
      cases heq
      rcases ih before place len after rfl with hresumed | ⟨hlast, hend, hrepaired⟩
      · exact .inl hresumed
      · refine .inr ⟨hlast, hend, hrepaired.imp_right ?_⟩
        rintro ⟨skip, hskip, his⟩
        exact ⟨skip, List.mem_cons_of_mem _ hskip, his⟩
  | @resumed repaired pos skip stop node nodes hnode _ ih =>
    intro before place len after heq
    match before, heq with
    | [], heq =>
      cases heq
      exact .inl ⟨node, nodes, rfl, hnode.isMatchOf⟩
    | [_], heq =>
      cases heq
      exact absurd hnode.not_isSkip (by simp [Node.isSkip])
    | _ :: _ :: before, heq =>
      cases heq
      rcases ih before place len after rfl with hresumed | ⟨hlast, hend, -⟩
      · exact .inl hresumed
      · exact .inr ⟨hlast, hend, .inr ⟨_, List.mem_cons_self, rfl⟩⟩
  | @abandoned pos hlt =>
    intro before place len after heq
    cases before with
    | nil =>
      cases heq
      exact .inr ⟨rfl, Nat.add_sub_cancel' (Nat.le_of_lt hlt), .inl rfl⟩
    | cons first before =>
      have hlen := congrArg List.length heq
      simp at hlen

/-- A match around one other covers what that one covers. -/
theorem Node.IsMatch.wrapsMatchOf {node : Node} {id : ClauseId} {pos : Nat}
    (h : node.IsMatch id pos) : WrapsMatchOf id pos (node.stop - pos) [node] := by
  refine ⟨node, rfl, h.isMatchOf, h.pos_eq, ?_⟩
  rw [Node.stop, h.pos_eq, Nat.add_sub_cancel_left]

/-- What forms a match of a clause is admitted by it. -/
theorem Forms.admits {input : Array Char} {clause : Clause} {pos stop : Nat} {children : List Node}
    (h : Forms input clause pos stop children) :
    clause.Admits input pos (stop - pos) children := by
  cases h with
  | literal htext =>
    rw [Nat.add_sub_cancel_left]
    exact ⟨rfl, rfl, extract_of_startsAt htext⟩
  | char hc => exact ⟨rfl, Nat.add_sub_cancel_left pos 1, hc⟩
  | charClass hc haccepts => exact ⟨rfl, Nat.add_sub_cancel_left pos 1, _, hc, haccepts⟩
  | anyChar hc => exact ⟨rfl, Nat.add_sub_cancel_left pos 1, (Array.getElem?_eq_some_iff.1 hc).1⟩
  | empty | ahead | notAhead => exact ⟨rfl, Nat.sub_self pos⟩
  | seq helements => exact helements.correspond
  | choice hmem hchild => exact ⟨_, hmem, hchild.wrapsMatchOf⟩
  | repeated hiterations hone =>
    refine ⟨hiterations.items, ?_, hone⟩
    intro before place len after heq
    rcases hiterations.resume before place len after heq with hresumed | ⟨hlast, hend, hrepaired⟩
    · exact .inl hresumed
    · exact .inr ⟨hlast, hend, hrepaired.resolve_left nofun⟩
  | absent => exact .inl ⟨rfl, Nat.sub_self pos⟩
  | present hchild => exact .inr hchild.wrapsMatchOf
  | reference hchild => exact hchild.wrapsMatchOf

/-- All nodes of a match tree are derived. -/
theorem Node.Matches.derived {ctx : Context} {id : ClauseId} {pos : Nat} {node : Node}
    (h : node.Matches ctx id pos) :
    ∀ other ∈ node.nodes, other.Derived ctx.grammar ctx.input := by
  intro other hother
  have hformed := h.formed other hother
  cases other with
  | clause info children =>
    obtain ⟨-, -, clause, hclause, hforms⟩ := hformed
    have hadmits := hforms.admits
    rw [Nat.add_sub_cancel_left] at hadmits
    exact ⟨clause, hclause, hadmits⟩
  | skipped _ _ | deleted _ _ => trivial

/-! ## Parses -/

/-- **Every match that a parse gives is a derivation.** From every rule of a built grammar, over every
input and under every configuration, the result exists; and unless its root is a syntax error, the
root is a match of the rule's body and every match in its tree is one that its clause admits. -/
theorem parse_derives {definitions : List Definition} {g : Grammar}
    (hb : Grammar.build definitions = .ok g) {rule : String} {top : ClauseId}
    (hr : g.rule? rule = some top) (input : String) (config : Config) :
    ∃ p, parse g rule input config = .ok p ∧
      (p.isMatch = true → p.root.isMatchOf top = true ∧
        ∀ node ∈ p.root.nodes, node.Derived g input.toList.toArray) := by
  obtain ⟨job, outcome, hasErrors, work, hctx, rfl, hparse, hsound, -⟩ :=
    parse_of_rule (build_wellFormed hb) hr input config
  refine ⟨_, hparse, fun hmatch => ?_⟩
  cases outcome with
  | matched node =>
    have hnode := hsound node rfl
    have hderived := hnode.derived
    rw [hctx] at hderived
    exact ⟨hnode.isMatch.isMatchOf, hderived⟩
  | mismatch | pending => cases hmatch

/-- A sum with input that fits nowhere is a match all the same, and so a derivation. -/
theorem parse_derives_sum :
    Grammar.build sumDefinitions = .ok sumGrammar ∧ sumGrammar.rule? "Sum" = some 7 ∧
      ∃ p, parse sumGrammar "Sum" "1+?2" {} = .ok p ∧ p.isMatch = true ∧
        p.root.isMatchOf 7 = true ∧
        ∀ node ∈ p.root.nodes, node.Derived sumGrammar "1+?2".toList.toArray := by
  have hb : Grammar.build sumDefinitions = .ok sumGrammar := rfl
  have hr : sumGrammar.rule? "Sum" = some 7 := rfl
  obtain ⟨p, hp, hderives⟩ := parse_derives hb hr "1+?2" {}
  have hmatch : (parse sumGrammar "Sum" "1+?2" {}).toOption.map Parse.isMatch = some true := by
    decide +kernel
  rw [hp] at hmatch
  have hmatch' : p.isMatch = true := Option.some.inj hmatch
  exact ⟨hb, hr, p, hp, hmatch', hderives hmatch'⟩

end Packrat

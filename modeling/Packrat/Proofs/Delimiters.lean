import Packrat.Proofs.Derivation
import Packrat.Proofs.Matching

/-!
# Delimiters and repetitions

During recovery every element of a sequence is bounded by the one after it, so that a repetition
stops before the delimiter that follows.

* `KeepsOut` — no iteration of a repetition starts at a text, but for those that come directly after
  input that was passed over.
* `Grammar.delimits` — whether certain clauses are followed by a text wherever they are used, by
  themselves, through references, as alternatives or at the end of a sequence.
* `Node.Heeds` — a repetition among these clauses that was repaired keeps the text out. A repair shows
  that the match was not made by plain matching.
* `Matcher.Guards` — the matcher's side: all nodes of its matches heed the text, and the text itself is
  found where it stands.
* `iterate_guarded` — the iterations of a repetition, before each of which the bound is looked for.
* **`evaluate_guarded`** — the side of the evaluation.
-/

namespace Packrat

/-! ## Keeping a text out -/

/-- **Whether a repetition with these children keeps a text out**: the text does not stand where a
child starts, unless input was passed over directly before. -/
def KeepsOut (input : Array Char) (text : List Char) (children : List Node) : Prop :=
  ∀ before child after, children = before ++ child :: after →
    (∀ last ∈ before.getLast?, last.isSkip = false) → startsAt input text child.pos = false

namespace KeepsOut

variable {input : Array Char} {text : List Char} {children : List Node}

/-- No iterations. -/
theorem nil : KeepsOut input text [] := by
  intro before child after heq
  simp at heq

/-- One child more. -/
theorem cons {node : Node} (hnode : startsAt input text node.pos = false)
    (h : KeepsOut input text children) : KeepsOut input text (node :: children) := by
  intro before child after heq hlast
  match before, heq with
  | [], heq =>
    cases heq
    exact hnode
  | [_], heq =>
    cases heq
    exact h [] child after rfl (by simp)
  | _ :: second :: before, heq =>
    cases heq
    refine h (second :: before) child after rfl ?_
    rwa [List.getLast?_cons_cons] at hlast

/-- Input that is passed over and the child after it. -/
theorem resumed {pos skip : Nat} {node : Node} (hpos : startsAt input text pos = false)
    (h : KeepsOut input text children) :
    KeepsOut input text (.skipped pos skip :: node :: children) := by
  intro before child after heq hlast
  match before, heq with
  | [], heq =>
    cases heq
    exact hpos
  | [_], heq =>
    cases heq
    cases hlast _ rfl
  | [_, _], heq =>
    cases heq
    exact h [] child after rfl (by simp)
  | _ :: _ :: third :: before, heq =>
    cases heq
    refine h (third :: before) child after rfl ?_
    rwa [List.getLast?_cons_cons, List.getLast?_cons_cons] at hlast

end KeepsOut

/-! ## Where a text follows -/

namespace Grammar

/-- Whether the text comes directly after every bounded element of a row. What comes after the row is
only known if the row is `closed`. -/
def rowDelimits (g : Grammar) (text : List Char) (bounded : ClauseId → Bool) (closed : Bool) :
    List ClauseId → Bool
  | [] => true
  | [element] => !bounded element || closed
  | element :: next :: rest =>
    (!bounded element || g.clause? next == some (.literal text))
      && g.rowDelimits text bounded closed (next :: rest)

/-- Whether a clause is followed by the text if it is bounded makes that the bounded clauses that it
consults are. A repetition is followed by itself. -/
def clauseDelimits (g : Grammar) (text : List Char) (bounded : ClauseId → Bool) (id : ClauseId) :
    Clause → Bool
  | .seq elements => g.rowDelimits text bounded (bounded id) elements
  | .repeated item _ => !bounded item
  | clause => clause.children.all fun child => !bounded child || bounded id

/-- **Whether bounded clauses are followed by the text** wherever they are used. -/
def delimits (g : Grammar) (text : List Char) (bounded : ClauseId → Bool) : Bool :=
  (List.range g.clauses.size).all fun id => (g.clause? id).all (g.clauseDelimits text bounded id)

/-- Each clause of the grammar. -/
theorem clauseDelimits_of_delimits {g : Grammar} {text : List Char} {bounded : ClauseId → Bool}
    (h : g.delimits text bounded = true) {id : ClauseId} {clause : Clause}
    (hclause : g.clause? id = some clause) : g.clauseDelimits text bounded id clause = true := by
  have hid : id < g.clauses.size := (Array.getElem?_eq_some_iff.1 hclause).1
  have hall := List.all_eq_true.1 h id (List.mem_range.2 hid)
  rwa [hclause] at hall

end Grammar

/-- Whether a clause, if it is bounded, is matched under the text as its bound. -/
def UnderBound (g : Grammar) (text : List Char) (bounded : ClauseId → Bool) (phase : Phase)
    (id : ClauseId) (bound : Option ClauseId) : Prop :=
  phase = .recovery → bounded id = true →
    ∃ delimiter, bound = some delimiter ∧ g.clause? delimiter = some (.literal text)

section bounds

variable {g : Grammar} {text : List Char} {bounded : ClauseId → Bool} {phase : Phase}
  {id child : ClauseId} {bound : Option ClauseId}

/-- Plain matching goes without a bound. -/
theorem underBound_discovery : UnderBound g text bounded .discovery id bound := nofun

/-- A clause that is not bounded goes without a bound. -/
theorem underBound_of_not_bounded (h : bounded id = false) :
    UnderBound g text bounded phase id bound := by
  intro _ hbounded
  rw [h] at hbounded
  cases hbounded

/-- A clause that is bounded at most where another is, under the bound of that one. -/
theorem UnderBound.inherit (h : UnderBound g text bounded phase id bound)
    (hchild : (!bounded child || bounded id) = true) :
    UnderBound g text bounded phase child bound := by
  intro hphase hbounded
  rw [hbounded] at hchild
  exact h hphase hchild

/-- The first element of a row, under the bound that it gets. -/
theorem UnderBound.element {rest : List ClauseId} (h : UnderBound g text bounded phase id bound)
    (hrow : g.rowDelimits text bounded (bounded id) (child :: rest) = true) :
    UnderBound g text bounded phase child (elementBound phase rest bound) := by
  cases rest with
  | nil =>
    have hbound : elementBound phase [] bound = bound := by cases phase <;> rfl
    rw [hbound]
    exact h.inherit hrow
  | cons next rest =>
    intro hphase hbounded
    subst hphase
    rw [Grammar.rowDelimits, Bool.and_eq_true, hbounded] at hrow
    exact ⟨next, rfl, beq_iff_eq.1 hrow.1⟩

/-- The elements of a row after the first. -/
theorem Grammar.rowDelimits_tail {closed : Bool} {rest : List ClauseId}
    (h : g.rowDelimits text bounded closed (child :: rest) = true) :
    g.rowDelimits text bounded closed rest = true := by
  cases rest with
  | nil => rfl
  | cons next rest =>
    rw [Grammar.rowDelimits, Bool.and_eq_true] at h
    exact h.2

end bounds

/-! ## Guarded matches -/

/-- **Whether a node heeds the text**: if it is a match of a bounded repetition in which input was
passed over, it keeps the text out. -/
def Node.Heeds (ctx : Context) (text : List Char) (bounded : ClauseId → Bool) : Node → Prop
  | .clause info children =>
    ∀ item atLeastOne, ctx.grammar.clause? info.clause = some (.repeated item atLeastOne) →
      bounded info.clause = true → (∃ child ∈ children, child.isSkip = true) →
      KeepsOut ctx.input text children
  | _ => True

/-- A match at a position of which all nodes heed the text. -/
structure Node.Guarded (ctx : Context) (text : List Char) (bounded : ClauseId → Bool) (pos : Nat)
    (node : Node) : Prop where
  /-- The match starts at the position. -/
  pos_eq : node.pos = pos
  /-- It is not input that is passed over. -/
  not_isSkip : node.isSkip = false
  /-- All its nodes heed the text. -/
  heeds : ∀ other ∈ node.nodes, other.Heeds ctx text bounded

/-- An outcome that is guarded if it is a match. -/
def Outcome.Guarded (ctx : Context) (text : List Char) (bounded : ClauseId → Bool) (pos : Nat)
    (outcome : Outcome) : Prop :=
  ∀ node, outcome = .matched node → node.Guarded ctx text bounded pos

section nodes

variable {ctx : Context} {text : List Char} {bounded : ClauseId → Bool} {pos : Nat} {id : ClauseId}

/-- A match is a guarded outcome. -/
theorem Outcome.guarded_matched {node : Node} (h : node.Guarded ctx text bounded pos) :
    Outcome.Guarded ctx text bounded pos (.matched node) := by
  rintro _ ⟨⟩
  exact h

/-- What is no match is guarded. -/
theorem Outcome.guarded_of_not_isMatch {outcome : Outcome} (h : outcome.isMatch = false) :
    outcome.Guarded ctx text bounded pos := by
  rintro node rfl
  cases h

/-- A match of a clause that is not a repetition heeds the text. -/
theorem Node.heeds_of_clause {info : NodeInfo} {children : List Node} {clause : Clause}
    (hclause : ctx.grammar.clause? info.clause = some clause)
    (hkind : ∀ item atLeastOne, clause ≠ .repeated item atLeastOne) :
    (Node.clause info children).Heeds ctx text bounded := by
  intro item atLeastOne hrepeated
  rw [hclause] at hrepeated
  exact absurd (Option.some.inj hrepeated) (hkind item atLeastOne)

/-- A match without children. -/
theorem Node.guarded_leaf {len : Nat} {complete : Bool} :
    Node.Guarded ctx text bounded pos (.clause ⟨id, pos, len, complete, false, 0⟩ []) where
  pos_eq := rfl
  not_isSkip := rfl
  heeds := by
    intro other hother
    simp only [nodes, nodesOf, List.mem_singleton] at hother
    subst hother
    rintro item atLeastOne - - ⟨child, hchild, -⟩
    cases hchild

/-- A match with children. -/
theorem Node.guarded_wrap {children : List Node} {complete : Bool} (hne : children ≠ [])
    (hstarts : ∀ child ∈ children.head?, child.pos = pos)
    (hheeds : ∀ other ∈ nodesOf children, other.Heeds ctx text bounded)
    (hself : (wrap id children complete).Heeds ctx text bounded) :
    (wrap id children complete).Guarded ctx text bounded pos where
  pos_eq := by
    obtain ⟨first, rest, rfl⟩ := List.exists_cons_of_ne_nil hne
    exact hstarts first rfl
  not_isSkip := rfl
  heeds := by
    intro other hother
    rw [wrap, nodes] at hother
    rcases List.mem_cons.1 hother with rfl | hother
    · exact hself
    · exact hheeds other hother

/-- A match of a clause that is not a repetition around one other match. -/
theorem Node.Guarded.wrapOne {child : Node} {complete : Bool} {clause : Clause}
    (h : child.Guarded ctx text bounded pos) (hclause : ctx.grammar.clause? id = some clause)
    (hkind : ∀ item atLeastOne, clause ≠ .repeated item atLeastOne) :
    (Node.wrapOne id child complete).Guarded ctx text bounded pos := by
  refine guarded_wrap (List.cons_ne_nil child []) ?_ ?_ (heeds_of_clause hclause hkind)
  · rintro _ ⟨⟩
    exact h.pos_eq
  · intro other hother
    obtain ⟨tree, htree, hother⟩ := mem_nodesOf.1 hother
    rw [List.mem_singleton.1 htree] at hother
    exact h.heeds other hother

/-- Marking changes nothing that the text has to do with. -/
theorem Outcome.Guarded.markGrown {outcome : Outcome} (h : outcome.Guarded ctx text bounded pos) :
    outcome.markGrown.Guarded ctx text bounded pos := by
  cases outcome with
  | matched node =>
    refine guarded_matched ?_
    have hnode := h node rfl
    cases node with
    | clause info children =>
      refine ⟨hnode.pos_eq, rfl, fun other hother => ?_⟩
      rw [Node.markGrown, Node.nodes] at hother
      rcases List.mem_cons.1 hother with rfl | hother
      · exact hnode.heeds (.clause info children) (Node.self_mem_nodes _)
      · exact hnode.heeds other (List.mem_cons_of_mem _ hother)
    | skipped _ _ | deleted _ _ => exact hnode
  | mismatch | pending => exact guarded_of_not_isMatch rfl

/-- The nodes of several trees, one tree first. -/
theorem heeds_cons {node : Node} {nodes : List Node}
    (hnode : ∀ other ∈ node.nodes, other.Heeds ctx text bounded)
    (hnodes : ∀ other ∈ Node.nodesOf nodes, other.Heeds ctx text bounded) :
    ∀ other ∈ Node.nodesOf (node :: nodes), other.Heeds ctx text bounded := by
  intro other hother
  rw [Node.nodesOf] at hother
  rcases List.mem_append.1 hother with hother | hother
  · exact hnode other hother
  · exact hnodes other hother

/-- Input that is passed over, as a node. -/
theorem heeds_skipped {len : Nat} :
    ∀ other ∈ (Node.skipped pos len).nodes, other.Heeds ctx text bounded := by
  intro other hother
  rw [Node.nodes, List.mem_singleton] at hother
  subst hother
  trivial

/-- Missing clauses, as nodes. -/
theorem heeds_deleted (elements : List ClauseId) :
    ∀ other ∈ Node.nodesOf (elements.map (Node.deleted pos)), other.Heeds ctx text bounded := by
  intro other hother
  obtain ⟨tree, htree, hother⟩ := Node.mem_nodesOf.1 hother
  obtain ⟨element, -, rfl⟩ := List.mem_map.1 htree
  rw [Node.nodes, List.mem_singleton] at hother
  subst hother
  trivial

end nodes

/-! ## Evaluating -/

/-- What a lookup of the text gives, as the input has it. -/
def textOutcome (ctx : Context) (text : List Char) (id : ClauseId) (pos : Nat) : Outcome :=
  if startsAt ctx.input text pos then .matched (.terminal id pos text.length) else .mismatch

/-- What a matcher promises: bounded clauses are guarded under the text as their bound, and the text
is found where it stands. -/
structure Matcher.Guards (ctx : Context) (text : List Char) (bounded : ClauseId → Bool)
    (I : Session → Prop) (matcher : Matcher) : Prop where
  /-- Matches are guarded. -/
  guarded : ∀ {phase id pos bound}, UnderBound ctx.grammar text bounded phase id bound →
    Ensures True I (matcher phase id pos bound) (Outcome.Guarded ctx text bounded pos)
  /-- The text is found. -/
  finds : ∀ {delimiter pos}, ctx.grammar.clause? delimiter = some (.literal text) →
    pos ≤ ctx.input.size →
    Ensures True I (matcher .discovery delimiter pos none) (· = textOutcome ctx text delimiter pos)

section evaluation

variable {ctx : Context} {text : List Char} {bounded : ClauseId → Bool} {I : Session → Prop}
  {matcher : Matcher} {phase : Phase} {id : ClauseId} {bound : Option ClauseId} {pos : Nat}

/-- A probe of any clause. -/
theorem Matcher.Guards.probe (hM : matcher.Guards ctx text bounded I) :
    Ensures True I (matcher .discovery id pos none) (Outcome.Guarded ctx text bounded pos) :=
  hM.guarded underBound_discovery

/-- Recording a repair: beyond the input it breaks off. -/
theorem recordRepair_partial (hI : Stable ctx I) :
    Ensures True I (recordRepair pos) fun _ => True := by
  by_cases hpos : pos ≤ ctx.input.size
  · exact (hI.recordRepair hpos).of_total
  · refine .bind (hI.tally _).of_total fun _ _ s hs => ?_
    have hnone : s.chart.column? pos = none := by
      have hwidth : s.chart.columns.size = ctx.input.size + 1 := hI.width hs
      exact Array.getElem?_eq_none (by omega)
    have hcolumn : (Session.column pos).run s = .error .outOfRange := by
      have hget : (get : MatchM Session).run s = .ok (s, s) := rfl
      rw [Session.column, Session.run_bind_of_ok hget, hnone]
      rfl
    have hbump : (Session.bump pos).run s = .error .outOfRange := by
      rw [Session.bump, Session.version, bind_assoc, StateT.run_bind, hcolumn]
      rfl
    have hrun : (discard (Session.bump pos) : MatchM Unit).run s = .error .outOfRange := by
      show ((Session.bump pos).run s >>= fun result => .ok ((), result.2)) = _
      rw [hbump]
      rfl
    rw [hrun]
    trivial

/-! ### Sequences -/

/-- The node with which a repair goes on heeds the text. -/
def SequenceRepair.Heeds (ctx : Context) (text : List Char) (bounded : ClauseId → Bool) :
    SequenceRepair → Prop
  | .deleteRest => True
  | .skip _ node => ∀ other ∈ node.nodes, other.Heeds ctx text bounded

/-- Taking up an element again. -/
theorem resumeAfter_guarded (hM : matcher.Guards ctx text bounded I) {failed : ClauseId}
    {failedClause : Clause} {next : Option Clause} {skip : Nat} :
    Ensures True I
      (resumeAfter ctx (matcher .discovery · · none) failed failedClause next pos skip)
      fun r => ∀ repair, r = some repair → repair.Heeds ctx text bounded := by
  unfold resumeAfter
  split
  · exact .pure nofun
  · refine .bind hM.probe fun outcome hguarded => ?_
    split
    · rename_i node
      split
      · exact .pure nofun
      · refine .pure ?_
        rintro _ ⟨⟩
        exact (hguarded node rfl).heeds
    · exact .pure nofun

/-- Repairing a sequence. -/
theorem repairSequence_guarded (hM : matcher.Guards ctx text bounded I) {failed : ClauseId}
    {rest : List ClauseId} :
    Ensures True I (repairSequence ctx (matcher .discovery · · none) failed rest pos)
      fun r => ∀ repair, r = some repair → repair.Heeds ctx text bounded := by
  have hclause : ∀ other, Ensures True I (ctx.clause other) fun _ => True := by
    intro other
    unfold Context.clause
    split
    · exact .pure trivial
    · exact .throw trivial
  unfold repairSequence
  split
  · refine .pure ?_
    rintro _ ⟨⟩
    trivial
  · refine .bind (hclause failed) fun failedClause _ => ?_
    have hnext : Ensures True I (rest.head?.mapM ctx.clause) fun _ => True := by
      cases rest with
      | nil => exact .pure trivial
      | cons next rest => exact .bind (hclause next) fun _ _ => .pure trivial
    exact .bind hnext fun next _ => .findSomeM? fun skip _ => resumeAfter_guarded hM

/-- Nodes from a position on that heed the text. -/
structure RowGuarded (ctx : Context) (text : List Char) (bounded : ClauseId → Bool) (pos : Nat)
    (nodes : List Node) : Prop where
  /-- The first one starts at the position. -/
  starts : ∀ node ∈ nodes.head?, node.pos = pos
  /-- All their nodes heed the text. -/
  heeds : ∀ other ∈ Node.nodesOf nodes, other.Heeds ctx text bounded

/-- No nodes. -/
theorem RowGuarded.nil : RowGuarded ctx text bounded pos [] := ⟨nofun, nofun⟩

/-- One match more. -/
theorem RowGuarded.cons {node : Node} {nodes : List Node} {place : Nat}
    (hnode : node.Guarded ctx text bounded pos) (h : RowGuarded ctx text bounded place nodes) :
    RowGuarded ctx text bounded pos (node :: nodes) := by
  refine ⟨?_, heeds_cons hnode.heeds h.heeds⟩
  rintro _ ⟨⟩
  exact hnode.pos_eq

/-- Input that is passed over, and what comes after it. -/
theorem RowGuarded.skipped {nodes : List Node} {skip : Nat}
    (h : ∀ other ∈ Node.nodesOf nodes, other.Heeds ctx text bounded) :
    RowGuarded ctx text bounded pos (.skipped pos skip :: nodes) := by
  refine ⟨?_, heeds_cons heeds_skipped h⟩
  rintro _ ⟨⟩
  rfl

/-- The elements of a sequence. -/
theorem evaluateElements_guarded (hI : Stable ctx I) (hM : matcher.Guards ctx text bounded I)
    (hbound : UnderBound ctx.grammar text bounded phase id bound) :
    ∀ {elements : List ClauseId} {pos : Nat},
      ctx.grammar.rowDelimits text bounded (bounded id) elements = true →
      Ensures True I (evaluateElements ctx matcher phase id bound elements pos)
        fun r => ∀ nodes, r = some nodes → RowGuarded ctx text bounded pos nodes
  | [], pos, _ => by
    refine .pure ?_
    rintro _ ⟨⟩
    exact .nil
  | element :: rest, pos, hrow => by
    have hrest := Grammar.rowDelimits_tail hrow
    rw [evaluateElements]
    refine .bind (hM.guarded (hbound.element hrow)) fun outcome hguarded => ?_
    split
    · rename_i node
      refine .bind (evaluateElements_guarded hI hM hbound hrest) fun others hothers => .pure ?_
      intro nodes hnodes
      obtain ⟨tail, rfl, rfl⟩ := Option.map_eq_some_iff.1 hnodes
      exact .cons (hguarded node rfl) (hothers tail rfl)
    · split
      · exact .pure (by rintro _ ⟨⟩)
      refine .bind (repairSequence_guarded hM) fun repair hrepair => ?_
      split
      · exact .pure (by rintro _ ⟨⟩)
      · refine .bind (recordRepair_partial hI) fun _ _ => .bind (hI.note _).of_total fun _ _ => .pure ?_
        rintro _ ⟨⟩
        refine ⟨?_, heeds_deleted (element :: rest)⟩
        rintro _ ⟨⟩
        rfl
      · rename_i skip node
        have hnode : ∀ other ∈ node.nodes, other.Heeds ctx text bounded := hrepair _ rfl
        refine .bind (recordRepair_partial hI) fun _ _ => .bind (hI.note _).of_total fun _ _ =>
          .bind (evaluateElements_guarded hI hM hbound hrest) fun others hothers => .pure ?_
        intro nodes hnodes
        obtain ⟨tail, rfl, rfl⟩ := Option.map_eq_some_iff.1 hnodes
        exact .skipped (heeds_cons hnode (hothers tail rfl).heeds)

/-! ### Choices -/

/-- The most plausible alternative. -/
theorem bestAlternative_guarded (hM : matcher.Guards ctx text bounded I) :
    ∀ {rest : List ClauseId} {best : Node},
      (∀ other ∈ rest, UnderBound ctx.grammar text bounded phase other bound) →
      best.Guarded ctx text bounded pos →
      Ensures True I (bestAlternative matcher phase pos bound rest best)
        (Node.Guarded ctx text bounded pos)
  | [], _, _, hbest => .pure hbest
  | alternative :: rest, best, hunder, hbest => by
    have hrest := fun other hother => hunder other (List.mem_cons_of_mem alternative hother)
    rw [bestAlternative]
    refine .bind (hM.guarded (hunder alternative List.mem_cons_self)) fun outcome hguarded => ?_
    split
    · rename_i candidate
      have hbest' : (if preferred candidate best then candidate else best).Guarded ctx text bounded
          pos := by
        split
        · exact hguarded candidate rfl
        · exact hbest
      generalize (if preferred candidate best then candidate else best) = chosen at hbest' ⊢
      show Ensures True I (if _ then pure chosen else _) _
      split
      · exact .pure hbest'
      · exact bestAlternative_guarded hM hrest hbest'
    · exact bestAlternative_guarded hM hrest hbest

/-- The first alternative that matches. -/
theorem firstAlternative_guarded (hM : matcher.Guards ctx text bounded I) :
    ∀ {alternatives : List ClauseId},
      (∀ other ∈ alternatives, UnderBound ctx.grammar text bounded phase other bound) →
      Ensures True I (firstAlternative matcher phase pos bound alternatives)
        fun r => ∀ node, r = some node → node.Guarded ctx text bounded pos
  | [], _ => .pure nofun
  | alternative :: rest, hunder => by
    rw [firstAlternative]
    refine .bind (hM.guarded (hunder alternative List.mem_cons_self)) fun outcome hguarded => ?_
    split
    · rename_i node
      refine .pure ?_
      rintro _ ⟨⟩
      exact hguarded node rfl
    · exact firstAlternative_guarded hM fun other hother =>
        hunder other (List.mem_cons_of_mem alternative hother)

/-- The alternative that a choice takes. -/
theorem chooseAlternative_guarded (hM : matcher.Guards ctx text bounded I)
    {alternatives : List ClauseId}
    (hunder : ∀ other ∈ alternatives, UnderBound ctx.grammar text bounded phase other bound) :
    Ensures True I (chooseAlternative matcher phase pos bound alternatives)
      fun r => ∀ node, r = some node → node.Guarded ctx text bounded pos := by
  cases alternatives with
  | nil => exact .pure nofun
  | cons alternative rest =>
    have hrest := fun other hother => hunder other (List.mem_cons_of_mem alternative hother)
    rw [chooseAlternative]
    refine .bind (hM.guarded (hunder alternative List.mem_cons_self)) fun outcome hguarded => ?_
    split
    · rename_i node
      split
      · refine .bind (bestAlternative_guarded hM hrest (hguarded node rfl)) fun best hbest => .pure ?_
        rintro _ ⟨⟩
        exact hbest
      · refine .pure ?_
        rintro _ ⟨⟩
        exact hguarded node rfl
    · exact firstAlternative_guarded hM hrest

/-! ### Repetitions -/

/-- The bound of a bounded repetition is reached where the text stands. -/
theorem boundReached_eq (htext : text ≠ []) (hM : matcher.Guards ctx text bounded I)
    (hbound : UnderBound ctx.grammar text bounded phase id bound) (hpos : pos ≤ ctx.input.size) :
    Ensures True I (boundReached matcher phase bound pos) fun reached =>
      phase = .recovery → bounded id = true → reached = startsAt ctx.input text pos := by
  unfold boundReached
  split
  · rename_i delimiter
    by_cases hbounded : bounded id = true
    · obtain ⟨_, heq, hclause⟩ := hbound rfl hbounded
      cases heq
      refine .bind (hM.finds hclause hpos) fun outcome houtcome => .pure fun _ _ => ?_
      rw [houtcome, textOutcome]
      have hlen : 0 < text.length := List.length_pos_of_ne_nil htext
      cases startsAt ctx.input text pos with
      | false => rfl
      | true => simpa [Outcome.len?, Outcome.node?, Node.terminal, Node.len] using hlen
    · exact .bind hM.probe fun _ _ => .pure fun _ h => absurd h hbounded
  · rename_i hother
    refine .pure fun hphase hbounded => ?_
    obtain ⟨delimiter, hsome, -⟩ := hbound hphase hbounded
    exact absurd hsome (hother delimiter hphase)

/-- The node with which a repetition goes on heeds the text. -/
def RepetitionRepair.Heeds (ctx : Context) (text : List Char) (bounded : ClauseId → Bool)
    (repair : RepetitionRepair) : Prop :=
  ∀ node, repair.resumed = some node → ∀ other ∈ node.nodes, other.Heeds ctx text bounded

/-- Repairing a repetition. -/
theorem repairRepetition_guarded (hM : matcher.Guards ctx text bounded I) {item : ClauseId}
    {repaired : Bool} :
    Ensures True I (repairRepetition ctx (matcher .discovery · · none) item pos repaired)
      fun r => ∀ repair, r = some repair → repair.Heeds ctx text bounded := by
  unfold repairRepetition
  refine .bind (.findSomeM? (P := RepetitionRepair.Heeds ctx text bounded) fun skip _ => ?_)
    fun found hfound => ?_
  · refine .bind hM.probe fun outcome hguarded => .pure ?_
    intro repair hrepair
    cases outcome with
    | matched node =>
      cases hrepair
      rintro _ ⟨⟩
      exact (hguarded node rfl).heeds
    | mismatch | pending => cases hrepair
  · cases found with
    | some repair => exact .pure hfound
    | none =>
      show Ensures True I (if _ then _ else _) _
      split
      · refine .pure ?_
        rintro _ ⟨⟩
        exact nofun
      · exact .pure nofun

/-- What the iterations of a repetition give: with repairs a bounded one keeps the text out, and
without them nothing is passed over. -/
structure IterationsGuarded (ctx : Context) (text : List Char) (bounded : ClauseId → Bool)
    (phase : Phase) (id : ClauseId) (pos : Nat) (nodes : List Node) : Prop where
  /-- The nodes heed the text. -/
  row : RowGuarded ctx text bounded pos nodes
  /-- With repairs the text is kept out. -/
  keeps : phase = .recovery → bounded id = true → KeepsOut ctx.input text nodes
  /-- Without repairs nothing is passed over. -/
  plain : phase = .discovery → ∀ node ∈ nodes, node.isSkip = false

/-- No iterations. -/
theorem IterationsGuarded.nil : IterationsGuarded ctx text bounded phase id pos [] :=
  ⟨.nil, fun _ _ => .nil, fun _ => nofun⟩

/-- **The iterations of a repetition.** Before each of them the bound is looked for; only the search
for a repair does not do so. -/
theorem iterate_guarded (htext : text ≠ []) (hI : Stable ctx I)
    (hM : matcher.Guards ctx text bounded I)
    (hbound : UnderBound ctx.grammar text bounded phase id bound) {item : ClauseId}
    (hitem : bounded item = false) : ∀ {fuel pos : Nat} {repaired : Bool},
      Ensures True I (iterate ctx matcher phase id item bound fuel pos repaired)
        fun r => IterationsGuarded ctx text bounded phase id pos r.1
  | 0, _, _ => .throw trivial
  | fuel + 1, pos, repaired => by
    rw [iterate]
    split
    · exact .pure .nil
    rename_i hwithin
    refine .bind (boundReached_eq htext hM hbound (Nat.le_of_not_lt hwithin)) fun reached hreached => ?_
    split
    · exact .pure .nil
    rename_i hnot
    have hclear : phase = .recovery → bounded id = true → startsAt ctx.input text pos = false :=
      fun hphase hbounded => (hreached hphase hbounded).symm.trans (Bool.eq_false_iff.2 hnot)
    refine .bind (hM.guarded (underBound_of_not_bounded hitem)) fun outcome hguarded => ?_
    split
    · rename_i node
      have hnode := hguarded node rfl
      split
      · exact .pure .nil
      refine .bind (iterate_guarded htext hI hM hbound hitem) fun result hresult => .pure ?_
      refine ⟨.cons hnode hresult.row, fun hphase hbounded => ?_, fun hphase => ?_⟩
      · refine .cons ?_ (hresult.keeps hphase hbounded)
        rw [hnode.pos_eq]
        exact hclear hphase hbounded
      · rw [List.forall_mem_cons]
        exact ⟨hnode.not_isSkip, hresult.plain hphase⟩
    · split
      · exact .pure .nil
      rename_i hphase
      refine .bind (repairRepetition_guarded hM) fun repair hrepair => ?_
      split
      · exact .pure .nil
      · rename_i skip resumed
        have hheeds := hrepair _ rfl
        refine .bind (recordRepair_partial hI) fun _ _ => .bind (hI.note _).of_total fun _ _ => ?_
        cases resumed with
        | none =>
          have hnone : RowGuarded ctx text bounded pos [] := .nil
          refine .pure ⟨.skipped hnone.heeds, fun hrecovery hbounded => ?_,
            fun h => absurd h hphase⟩
          exact .cons (hclear hrecovery hbounded) .nil
        | some node =>
          refine .bind (iterate_guarded htext hI hM hbound hitem) fun result hresult => .pure ?_
          refine ⟨.skipped (heeds_cons (hheeds node rfl) hresult.row.heeds),
            fun hrecovery hbounded => ?_, fun h => absurd h hphase⟩
          exact .resumed (hclear hrecovery hbounded) (hresult.keeps hrecovery hbounded)

/-- A repetition that was repaired keeps the text out. -/
theorem IterationsGuarded.heeds_wrap {nodes : List Node} {complete : Bool}
    (h : IterationsGuarded ctx text bounded phase id pos nodes) :
    (Node.wrap id nodes complete).Heeds ctx text bounded := by
  rintro item atLeastOne - hbounded ⟨child, hchild, hskip⟩
  cases phase with
  | recovery => exact h.keeps rfl hbounded
  | discovery =>
    rw [h.plain rfl child hchild] at hskip
    cases hskip

/-! ### All kinds -/

/-- One character. -/
theorem evaluateChar_guarded (accepts : Char → Bool) :
    (evaluateChar ctx id pos accepts).Guarded ctx text bounded pos := by
  unfold evaluateChar
  split
  · exact Outcome.guarded_matched Node.guarded_leaf
  · exact Outcome.guarded_of_not_isMatch rfl

/-- **Evaluating a clause under the text as its bound, if it is bounded,** gives guarded matches if
the matcher does. -/
theorem evaluate_guarded (htext : text ≠ []) (hI : Stable ctx I)
    (hM : matcher.Guards ctx text bounded I)
    (hbound : UnderBound ctx.grammar text bounded phase id bound) {clause : Clause}
    (hclause : ctx.grammar.clause? id = some clause)
    (hdelimits : ctx.grammar.clauseDelimits text bounded id clause = true) :
    Ensures True I (evaluate ctx matcher phase id clause pos bound)
      (Outcome.Guarded ctx text bounded pos) := by
  cases clause with
  | literal other =>
    refine .pure ?_
    split
    · exact Outcome.guarded_matched Node.guarded_leaf
    · exact Outcome.guarded_of_not_isMatch rfl
  | char c => exact .pure (evaluateChar_guarded _)
  | charClass ranges inverted => exact .pure (evaluateChar_guarded _)
  | anyChar => exact .pure (evaluateChar_guarded _)
  | empty => exact .pure (Outcome.guarded_matched Node.guarded_leaf)
  | seq elements =>
    refine .bind (evaluateElements_guarded hI hM hbound hdelimits) fun result hresult => ?_
    split
    · exact .pure (Outcome.guarded_of_not_isMatch rfl)
    · exact .pure (Outcome.guarded_matched Node.guarded_leaf)
    · rename_i nodes hnodes
      have hrow := hresult nodes rfl
      refine .pure (Outcome.guarded_matched (Node.guarded_wrap hnodes hrow.starts hrow.heeds ?_))
      exact Node.heeds_of_clause hclause nofun
  | choice alternatives =>
    have hunder : ∀ other ∈ alternatives, UnderBound ctx.grammar text bounded phase other bound :=
      fun other hother => hbound.inherit (List.all_eq_true.1 hdelimits other hother)
    refine .bind (chooseAlternative_guarded hM hunder) fun result hresult => ?_
    split
    · rename_i node
      exact .pure (Outcome.guarded_matched ((hresult node rfl).wrapOne hclause nofun))
    · exact .pure (Outcome.guarded_of_not_isMatch rfl)
  | repeated item atLeastOne =>
    have hitem : bounded item = false := by simpa [Grammar.clauseDelimits] using hdelimits
    refine .bind (iterate_guarded htext hI hM hbound hitem) fun result hresult => ?_
    obtain ⟨nodes, short⟩ := result
    cases nodes with
    | nil =>
      refine .pure ?_
      split
      · exact Outcome.guarded_of_not_isMatch rfl
      · exact Outcome.guarded_matched Node.guarded_leaf
    | cons first rest =>
      refine .pure (Outcome.guarded_matched ?_)
      exact Node.guarded_wrap (List.cons_ne_nil first rest) hresult.row.starts hresult.row.heeds
        hresult.heeds_wrap
  | optional item | reference name item =>
    have hunder : UnderBound ctx.grammar text bounded phase item bound :=
      hbound.inherit (List.all_eq_true.1 hdelimits item List.mem_cons_self)
    refine .bind (hM.guarded hunder) fun outcome hguarded => ?_
    cases outcome with
    | matched node =>
      exact .pure (Outcome.guarded_matched ((hguarded node rfl).wrapOne hclause nofun))
    | mismatch | pending =>
      refine .pure ?_
      first
      | exact Outcome.guarded_matched Node.guarded_leaf
      | exact Outcome.guarded_of_not_isMatch rfl
  | ahead item | notAhead item =>
    have hunder : UnderBound ctx.grammar text bounded phase item bound :=
      hbound.inherit (List.all_eq_true.1 hdelimits item List.mem_cons_self)
    refine .bind (hM.guarded hunder) fun outcome _ => ?_
    split
    all_goals
      refine .pure ?_
      first
      | exact Outcome.guarded_matched Node.guarded_leaf
      | exact Outcome.guarded_of_not_isMatch rfl

end evaluation

end Packrat

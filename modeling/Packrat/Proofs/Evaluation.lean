import Packrat.Proofs.BuiltGrammar
import Packrat.Proofs.Runs
import Packrat.Proofs.Trees

/-!
# Evaluating a clause keeps its promise

Evaluating a clause consults other clauses through a matcher. If the matcher keeps an invariant of
the session and gives match trees, then so does the evaluation, and it gives a result.

* `Stable` — the invariants that counters, events and stale positions cannot break. Nothing else
  of the session is changed outside the matcher.
* `Matcher.Upholds` — the matcher's side: a result for every clause at every position, and a match
  only as a match tree.
* One lemma for each of the repairs and for each kind of clause that has rules of its own.
* **`evaluate_ensures`** — the side of the evaluation.

The two loops of this layer end by themselves: a search for a repair goes through a finite list,
and every round of a repetition consumes input, so the rounds that `iterate` is given are enough
(`iterate_ensures`).
-/

namespace Packrat

/-! ## Both sides of the contract -/

/-- Whether a clause exists. -/
def Context.Has (ctx : Context) (id : ClauseId) : Prop := id < ctx.grammar.clauses.size

/-- The invariants that hold of sessions over the whole input and survive counters, events and
stale positions. -/
structure Stable (ctx : Context) (I : Session → Prop) : Prop where
  /-- There is a column for each position. -/
  width : ∀ {s}, I s → s.width = ctx.input.size + 1
  /-- Events do not matter. -/
  noted : ∀ {s} (event : Event), I s → I { s with trace := event :: s.trace }
  /-- Counters do not matter. -/
  tallied : ∀ {s} (f : Work → Work), I s → I { s with work := s.work.map f }
  /-- Making a position stale does not matter. -/
  bumped : ∀ {s pos}, pos ≤ ctx.input.size → I s → I (s.bumped pos)

/-- What a matcher promises. -/
def Matcher.Upholds (ctx : Context) (I : Session → Prop) (matcher : Matcher) : Prop :=
  ∀ {phase id pos bound}, ctx.Has id → (∀ other ∈ bound, ctx.Has other) → pos ≤ ctx.input.size →
    Ensures False I (matcher phase id pos bound) (Outcome.Sound ctx id pos)

section contract

variable {ctx : Context} {I : Session → Prop} {matcher : Matcher}

/-- Reporting an event. -/
theorem Stable.note (hI : Stable ctx I) (event : Event) :
    Ensures False I (Session.note event) fun _ => True :=
  .change fun _ => hI.noted event

/-- Counting. -/
theorem Stable.tally (hI : Stable ctx I) (f : Work → Work) :
    Ensures False I (Session.tally f) fun _ => True :=
  .change fun _ => hI.tallied f

/-- Recording a repair. -/
theorem Stable.recordRepair (hI : Stable ctx I) {pos : Nat} (hpos : pos ≤ ctx.input.size) :
    Ensures False I (recordRepair pos) fun _ => True := by
  refine .bind (hI.tally _) fun _ _ => .of_run fun s hs => ?_
  have hlt : pos < s.width := by
    rw [hI.width hs]
    omega
  refine ⟨(), s.bumped pos, ?_, hI.bumped hpos hs, trivial⟩
  show ((Session.bump pos).run s >>= fun result => .ok ((), result.2)) = _
  rw [Session.run_bump hlt]
  rfl

/-- A clause that exists is in the table. -/
theorem Context.Has.exists_clause {id : ClauseId} (h : ctx.Has id) :
    ∃ clause, ctx.grammar.clause? id = some clause :=
  ⟨_, Array.getElem?_eq_getElem h⟩

/-- A clause that is in the table is found there. -/
theorem Context.clause_eq_pure {id : ClauseId} {clause : Clause}
    (h : ctx.grammar.clause? id = some clause) : ctx.clause id = pure clause := by
  rw [Context.clause, h]

/-- One level of matching, for a clause that is in the table at a position of the input. -/
theorem matchWith_of_clause {id : ClauseId} {clause : Clause} {pos : Nat} (hpos : pos ≤ ctx.input.size)
    (h : ctx.grammar.clause? id = some clause) (evaluation : Clause → MatchM Outcome) (phase : Phase)
    (around : Around) :
    matchWith ctx evaluation phase id pos around =
      if clause.isReference then evaluation clause
      else matchThrough ctx (evaluation clause) phase id pos around := by
  rw [matchWith, if_neg (Nat.not_lt.2 hpos), Context.clause_eq_pure h, pure_bind]

/-- One level of matching ensures what a clause in the table ensures, if a mismatch beyond the input is
fine. -/
theorem matchWith_ensures {Q : Outcome → Prop} {evaluation : Clause → MatchM Outcome} {phase : Phase}
    {id : ClauseId} {pos : Nat} (hbeyond : ctx.input.size < pos → Q .mismatch)
    (hwithin : ∀ {clause}, ctx.grammar.clause? id = some clause → pos ≤ ctx.input.size →
      Ensures True I (if clause.isReference then evaluation clause
        else matchThrough ctx (evaluation clause) phase id pos) Q) :
    Ensures True I (matchWith ctx evaluation phase id pos) Q := by
  by_cases hpos : ctx.input.size < pos
  · rw [matchWith, if_pos hpos]
    exact .pure (hbeyond hpos)
  cases hclause : ctx.grammar.clause? id with
  | none =>
    rw [matchWith, if_neg hpos, Context.clause, hclause]
    exact fun _ _ => trivial
  | some clause =>
    rw [matchWith_of_clause (Nat.le_of_not_lt hpos) hclause]
    exact hwithin hclause (Nat.le_of_not_lt hpos)

/-- Looking up a clause that exists. -/
theorem Context.clause_ensures {id : ClauseId} (h : ctx.Has id) :
    Ensures False I (ctx.clause id) fun clause => ctx.grammar.clause? id = some clause := by
  obtain ⟨clause, hid⟩ := h.exists_clause
  rw [Context.clause_eq_pure hid]
  exact .pure hid

/-- Looking up a clause that exists, if there is one at all. -/
theorem Context.mapM_clause_ensures {id : Option ClauseId} (h : ∀ other ∈ id, ctx.Has other) :
    Ensures False I (id.mapM ctx.clause) fun _ => True := by
  cases id with
  | none => exact .pure trivial
  | some id => exact .bind (Context.clause_ensures (h id rfl)) fun _ _ => .pure trivial

/-- Plain matching without a bound is one use of the matcher. -/
theorem Matcher.Upholds.probe (hM : matcher.Upholds ctx I) {id : ClauseId} {pos : Nat}
    (hid : ctx.Has id) (hpos : pos ≤ ctx.input.size) :
    Ensures False I (matcher .discovery id pos none) (Outcome.Sound ctx id pos) :=
  hM hid (by simp) hpos

/-! ## Repairs -/

/-- A repair of a sequence at `pos` is one that its children may show. -/
def SequenceRepair.Sound (ctx : Context) (failed : ClauseId) (pos : Nat) : SequenceRepair → Prop
  | .deleteRest => ctx.input.size ≤ pos
  | .skip len node => 0 < len ∧ node.Matches ctx failed (pos + len)

/-- A repair of a repetition at `pos` is one that its children may show. -/
def RepetitionRepair.Sound (ctx : Context) (item : ClauseId) (pos : Nat) (repaired : Bool)
    (repair : RepetitionRepair) : Prop :=
  0 < repair.skip ∧
    match repair.resumed with
    | some node => node.Matches ctx item (pos + repair.skip)
    | none => repaired = true ∧ pos < ctx.input.size ∧ repair.skip = ctx.input.size - pos

/-- Taking up an element again. -/
theorem resumeAfter_ensures (hM : matcher.Upholds ctx I) {failed : ClauseId} {failedClause : Clause}
    {next : Option Clause} {pos skip : Nat} (hfailed : ctx.Has failed) (hskip : 0 < skip)
    (hpos : pos + skip ≤ ctx.input.size) :
    Ensures False I
      (resumeAfter ctx (matcher .discovery · · none) failed failedClause next pos skip)
      fun r => ∀ repair, r = some repair → repair.Sound ctx failed pos := by
  unfold resumeAfter
  split
  · exact .pure (by simp)
  · refine .bind (hM.probe hfailed hpos) fun outcome hsound => ?_
    split
    · rename_i node
      split
      · exact .pure (by simp)
      · refine .pure ?_
        intro repair hrepair
        cases hrepair
        exact ⟨hskip, hsound node rfl⟩
    · exact .pure (by simp)

/-- Repairing a sequence. -/
theorem repairSequence_ensures (hM : matcher.Upholds ctx I) {failed : ClauseId}
    {rest : List ClauseId} {pos : Nat} (hfailed : ctx.Has failed)
    (hrest : ∀ other ∈ rest, ctx.Has other) :
    Ensures False I (repairSequence ctx (matcher .discovery · · none) failed rest pos)
      fun r => ∀ repair, r = some repair → repair.Sound ctx failed pos := by
  unfold repairSequence
  split
  · rename_i hend
    refine .pure ?_
    intro repair hrepair
    cases hrepair
    exact hend
  · refine .bind (Context.clause_ensures hfailed) fun failedClause _ => ?_
    have hnext : ∀ other ∈ rest.head?, ctx.Has other :=
      fun other hother => hrest other (List.mem_of_mem_head? hother)
    refine .bind (Context.mapM_clause_ensures hnext) fun next _ => ?_
    refine .findSomeM? fun skip hskip => ?_
    have hrange := List.mem_range'_1.1 hskip
    exact resumeAfter_ensures hM hfailed (by omega) (by omega)

/-- Repairing a repetition. -/
theorem repairRepetition_ensures (hM : matcher.Upholds ctx I) {item : ClauseId} {pos : Nat}
    {repaired : Bool} (hitem : ctx.Has item) :
    Ensures False I (repairRepetition ctx (matcher .discovery · · none) item pos repaired)
      fun r => ∀ repair, r = some repair → repair.Sound ctx item pos repaired := by
  unfold repairRepetition
  refine .bind (.findSomeM? (P := RepetitionRepair.Sound ctx item pos repaired) fun skip hskip => ?_)
    fun found hfound => ?_
  · have hrange := List.mem_range'_1.1 hskip
    refine .bind (hM.probe hitem (by omega)) fun outcome hsound => .pure ?_
    intro repair hrepair
    cases outcome with
    | matched node =>
      cases hrepair
      exact ⟨by show 0 < skip; omega, hsound node rfl⟩
    | _ => cases hrepair
  · cases found with
    | some repair => exact .pure hfound
    | none =>
      show Ensures False I (if _ then _ else _) _
      split
      · rename_i hlast
        rw [Bool.and_eq_true, decide_eq_true_eq] at hlast
        refine .pure ?_
        intro repair hrepair
        cases hrepair
        exact ⟨by show 0 < ctx.input.size - pos; omega, hlast.1, hlast.2, rfl⟩
      · exact .pure (by simp)

/-! ## Sequences -/

/-- The nodes of several trees, one tree first. -/
theorem formed_cons {node : Node} {nodes : List Node}
    (hnode : ∀ other ∈ node.nodes, other.Formed ctx)
    (hnodes : ∀ other ∈ Node.nodesOf nodes, other.Formed ctx) :
    ∀ other ∈ Node.nodesOf (node :: nodes), other.Formed ctx := by
  intro other hother
  rw [Node.nodesOf] at hother
  rcases List.mem_append.1 hother with hother | hother
  · exact hnode other hother
  · exact hnodes other hother

/-- Input that is passed over, as a node. -/
theorem formed_skipped {pos len : Nat} (hlen : 0 < len) (hle : pos + len ≤ ctx.input.size) :
    ∀ other ∈ (Node.skipped pos len).nodes, other.Formed ctx := by
  intro other hother
  rw [Node.nodes, List.mem_singleton] at hother
  subst hother
  exact ⟨hlen, hle⟩

/-- Missing clauses, as nodes. -/
theorem formed_deleted : ∀ {elements : List ClauseId},
    ∀ other ∈ Node.nodesOf (elements.map (Node.deleted ctx.input.size)), other.Formed ctx
  | [] => by simp [Node.nodesOf]
  | _ :: _ => by
    refine formed_cons ?_ formed_deleted
    intro other hother
    rw [Node.nodes, List.mem_singleton] at hother
    subst hother
    exact rfl

/-- The bound of an element is one of the elements after it, or the bound of the sequence. -/
theorem elementBound_has {has : ClauseId → Prop} {phase : Phase} {rest : List ClauseId}
    {bound : Option ClauseId} (hrest : ∀ other ∈ rest, has other)
    (hbound : ∀ other ∈ bound, has other) :
    ∀ other ∈ elementBound phase rest bound, has other := by
  unfold elementBound
  split
  · intro other hother
    cases hother
    exact hrest _ List.mem_cons_self
  · exact hbound

/-- The children that matching the elements of a sequence gives. -/
def ElementsGive (ctx : Context) (elements : List ClauseId) (pos : Nat)
    (result : Option (List Node)) : Prop :=
  ∀ nodes, result = some nodes → ∃ stop ≤ ctx.input.size,
    Elements ctx.input.size elements pos nodes stop ∧
      ∀ other ∈ Node.nodesOf nodes, other.Formed ctx

/-- Matching the elements of a sequence. -/
theorem evaluateElements_ensures (hI : Stable ctx I) (hM : matcher.Upholds ctx I) {phase : Phase}
    {id : ClauseId} {bound : Option ClauseId} (hbound : ∀ other ∈ bound, ctx.Has other) :
    ∀ {elements : List ClauseId} {pos : Nat}, (∀ other ∈ elements, ctx.Has other) →
      pos ≤ ctx.input.size →
      Ensures False I (evaluateElements ctx matcher phase id bound elements pos)
        (ElementsGive ctx elements pos)
  | [], pos, _, hpos => by
    refine .pure ?_
    intro nodes hnodes
    cases hnodes
    exact ⟨pos, hpos, .nil, by simp [Node.nodesOf]⟩
  | element :: rest, pos, helements, hpos => by
    have helement := helements element List.mem_cons_self
    have hrest : ∀ other ∈ rest, ctx.Has other :=
      fun other hother => helements other (List.mem_cons_of_mem element hother)
    rw [evaluateElements]
    refine .bind (hM helement (elementBound_has hrest hbound) hpos) fun outcome hsound => ?_
    split
    · rename_i node
      have hnode := hsound node rfl
      have hstop := hnode.stop_eq
      rw [← hstop]
      refine .bind (evaluateElements_ensures hI hM hbound hrest hnode.stop_le) fun others hothers =>
        .pure ?_
      intro nodes hnodes
      obtain ⟨tail, rfl, rfl⟩ := Option.map_eq_some_iff.1 hnodes
      obtain ⟨stop, hle, helems, hformed⟩ := hothers tail rfl
      exact ⟨stop, hle, .matched hnode.isMatch helems, formed_cons hnode.formed hformed⟩
    · split
      · exact .pure (by simp [ElementsGive])
      · refine .bind (repairSequence_ensures hM helement hrest) fun repair hrepair => ?_
        split
        · exact .pure (by simp [ElementsGive])
        · obtain rfl : pos = ctx.input.size := Nat.le_antisymm hpos (hrepair _ rfl)
          refine .bind (hI.recordRepair hpos) fun _ _ => .bind (hI.note _) fun _ _ => .pure ?_
          intro nodes hnodes
          cases hnodes
          exact ⟨_, Nat.le_refl _, .missing, formed_deleted⟩
        · rename_i skip node
          obtain ⟨hskip, hnode⟩ := hrepair _ rfl
          have hstop := hnode.stop_eq
          have hle := hnode.stop_le
          rw [← hstop]
          refine .bind (hI.recordRepair hpos) fun _ _ => .bind (hI.note _) fun _ _ =>
            .bind (evaluateElements_ensures hI hM hbound hrest hle) fun others hothers => .pure ?_
          intro nodes hnodes
          obtain ⟨tail, rfl, rfl⟩ := Option.map_eq_some_iff.1 hnodes
          obtain ⟨stop, hle', helems, hformed⟩ := hothers tail rfl
          have hskipped : pos + skip ≤ ctx.input.size := by omega
          exact ⟨stop, hle', .resumed hnode.isMatch helems,
            formed_cons (formed_skipped hskip hskipped) (formed_cons hnode.formed hformed)⟩

/-- Matching a sequence. -/
theorem evaluateSequence_ensures (hI : Stable ctx I) (hM : matcher.Upholds ctx I) {phase : Phase}
    {id : ClauseId} {elements : List ClauseId} {pos : Nat} {bound : Option ClauseId}
    (hid : ctx.grammar.clause? id = some (.seq elements))
    (helements : ∀ other ∈ elements, ctx.Has other) (hbound : ∀ other ∈ bound, ctx.Has other)
    (hpos : pos ≤ ctx.input.size) :
    Ensures False I (evaluateSequence ctx matcher phase id elements pos bound)
      (Outcome.Sound ctx id pos) := by
  unfold evaluateSequence
  refine .bind (evaluateElements_ensures hI hM hbound helements hpos) fun result hresult => ?_
  split
  · exact .pure (Outcome.sound_of_not_isMatch rfl)
  · obtain ⟨stop, hle, helems, -⟩ := hresult [] rfl
    obtain rfl : pos = stop := helems.tiles
    exact .pure (Outcome.sound_matched (Node.matches_leaf hid (.seq helems) hpos))
  · rename_i nodes hnodes
    obtain ⟨stop, hle, helems, hformed⟩ := hresult nodes rfl
    exact .pure (Outcome.sound_matched (Node.matches_wrap hid (.seq helems) hnodes hle hformed))

/-! ## Choices -/

/-- Whether a node is a match tree of one of several clauses at a position. -/
def MatchesOne (ctx : Context) (alternatives : List ClauseId) (pos : Nat) (node : Node) : Prop :=
  ∃ alternative ∈ alternatives, node.Matches ctx alternative pos

/-- One more clause does not hurt. -/
theorem MatchesOne.cons {alternatives : List ClauseId} {alternative : ClauseId} {pos : Nat}
    {node : Node} (h : MatchesOne ctx alternatives pos node) :
    MatchesOne ctx (alternative :: alternatives) pos node := by
  obtain ⟨other, hother, hnode⟩ := h
  exact ⟨other, List.mem_cons_of_mem alternative hother, hnode⟩

/-- The most plausible alternative is the first or one of the others. -/
theorem bestAlternative_ensures (hM : matcher.Upholds ctx I) {phase : Phase} {pos : Nat}
    {bound : Option ClauseId} {alternatives : List ClauseId}
    (hbound : ∀ other ∈ bound, ctx.Has other) (hpos : pos ≤ ctx.input.size) :
    ∀ {rest : List ClauseId} {best : Node}, (∀ other ∈ rest, ctx.Has other) →
      rest ⊆ alternatives → MatchesOne ctx alternatives pos best →
      Ensures False I (bestAlternative matcher phase pos bound rest best)
        (MatchesOne ctx alternatives pos)
  | [], _, _, _, hbest => .pure hbest
  | alternative :: rest, best, hhas, hsub, hbest => by
    have hrest : ∀ other ∈ rest, ctx.Has other :=
      fun other hother => hhas other (List.mem_cons_of_mem alternative hother)
    have hsub' : rest ⊆ alternatives := fun _ hother => hsub (List.mem_cons_of_mem _ hother)
    rw [bestAlternative]
    refine .bind (hM (hhas alternative List.mem_cons_self) hbound hpos) fun outcome hsound => ?_
    split
    · rename_i candidate
      have hcandidate : MatchesOne ctx alternatives pos candidate :=
        ⟨alternative, hsub List.mem_cons_self, hsound candidate rfl⟩
      have hbest' :
          MatchesOne ctx alternatives pos (if preferred candidate best then candidate else best) := by
        split
        · exact hcandidate
        · exact hbest
      generalize (if preferred candidate best then candidate else best) = chosen at hbest' ⊢
      show Ensures False I (if _ then pure chosen else _) _
      split
      · exact .pure hbest'
      · exact bestAlternative_ensures hM hbound hpos hrest hsub' hbest'
    · exact bestAlternative_ensures hM hbound hpos hrest hsub' hbest

/-- The first alternative that matches. -/
theorem firstAlternative_ensures (hM : matcher.Upholds ctx I) {phase : Phase} {pos : Nat}
    {bound : Option ClauseId} (hbound : ∀ other ∈ bound, ctx.Has other)
    (hpos : pos ≤ ctx.input.size) : ∀ {alternatives : List ClauseId},
      (∀ other ∈ alternatives, ctx.Has other) →
      Ensures False I (firstAlternative matcher phase pos bound alternatives)
        fun r => ∀ node, r = some node → MatchesOne ctx alternatives pos node
  | [], _ => .pure (by simp)
  | alternative :: rest, hhas => by
    have hrest : ∀ other ∈ rest, ctx.Has other :=
      fun other hother => hhas other (List.mem_cons_of_mem alternative hother)
    rw [firstAlternative]
    refine .bind (hM (hhas alternative List.mem_cons_self) hbound hpos) fun outcome hsound => ?_
    split
    · rename_i node
      refine .pure ?_
      intro other hother
      cases hother
      exact ⟨alternative, List.mem_cons_self, hsound node rfl⟩
    · exact (firstAlternative_ensures hM hbound hpos hrest).mono fun _ h node hnode =>
        (h node hnode).cons

/-- In the first phase a choice takes the first alternative that matches. -/
theorem chooseAlternative_discovery (matcher : Matcher) (pos : Nat) (bound : Option ClauseId)
    (alternatives : List ClauseId) :
    chooseAlternative matcher .discovery pos bound alternatives =
      firstAlternative matcher .discovery pos bound alternatives := by
  cases alternatives with
  | nil => rfl
  | cons alternative rest =>
    rw [chooseAlternative, firstAlternative]
    congr 1

/-- The alternative that a choice takes. -/
theorem chooseAlternative_ensures (hM : matcher.Upholds ctx I) {phase : Phase} {pos : Nat}
    {bound : Option ClauseId} {alternatives : List ClauseId}
    (hhas : ∀ other ∈ alternatives, ctx.Has other) (hbound : ∀ other ∈ bound, ctx.Has other)
    (hpos : pos ≤ ctx.input.size) :
    Ensures False I (chooseAlternative matcher phase pos bound alternatives)
      fun r => ∀ node, r = some node → MatchesOne ctx alternatives pos node := by
  cases alternatives with
  | nil => exact .pure (by simp)
  | cons alternative rest =>
    have hrest : ∀ other ∈ rest, ctx.Has other :=
      fun other hother => hhas other (List.mem_cons_of_mem alternative hother)
    rw [chooseAlternative]
    refine .bind (hM (hhas alternative List.mem_cons_self) hbound hpos) fun outcome hsound => ?_
    split
    · rename_i node
      have hnode : MatchesOne ctx (alternative :: rest) pos node :=
        ⟨alternative, List.mem_cons_self, hsound node rfl⟩
      split
      · refine .bind (bestAlternative_ensures hM hbound hpos hrest (List.subset_cons_self _ _) hnode)
          fun best hbest => .pure ?_
        intro other hother
        cases hother
        exact hbest
      · refine .pure ?_
        intro other hother
        cases hother
        exact hnode
    · exact (firstAlternative_ensures hM hbound hpos hrest).mono fun _ h node hnode =>
        (h node hnode).cons

/-- Matching an ordered choice. -/
theorem evaluateChoice_ensures (hM : matcher.Upholds ctx I) {phase : Phase} {id : ClauseId}
    {alternatives : List ClauseId} {pos : Nat} {bound : Option ClauseId}
    (hid : ctx.grammar.clause? id = some (.choice alternatives))
    (hhas : ∀ other ∈ alternatives, ctx.Has other) (hbound : ∀ other ∈ bound, ctx.Has other)
    (hpos : pos ≤ ctx.input.size) :
    Ensures False I (evaluateChoice matcher phase id alternatives pos bound)
      (Outcome.Sound ctx id pos) := by
  unfold evaluateChoice
  refine .bind (chooseAlternative_ensures hM hhas hbound hpos) fun result hresult => ?_
  split
  · rename_i node
    obtain ⟨alternative, hmem, hnode⟩ := hresult node rfl
    exact .pure (Outcome.sound_matched
      (Node.matches_wrapOne hid (.choice hmem hnode.isMatch) hnode))
  · exact .pure (Outcome.sound_of_not_isMatch rfl)

/-! ## Repetitions -/

/-- Looking for the bound of a repetition. -/
theorem boundReached_ensures (hM : matcher.Upholds ctx I) {phase : Phase} {pos : Nat}
    {bound : Option ClauseId} (hbound : ∀ other ∈ bound, ctx.Has other)
    (hpos : pos ≤ ctx.input.size) :
    Ensures False I (boundReached matcher phase bound pos) fun _ => True := by
  unfold boundReached
  split
  · exact .bind (hM.probe (hbound _ rfl) hpos) fun _ _ => .pure trivial
  · exact .pure trivial

/-- The children that the iterations of a repetition give. -/
def IterationsGive (ctx : Context) (item : ClauseId) (repaired : Bool) (pos : Nat)
    (nodes : List Node) : Prop :=
  ∃ stop ≤ ctx.input.size, Iterations ctx.input.size item repaired pos nodes stop ∧
    ∀ other ∈ Node.nodesOf nodes, other.Formed ctx

/-- No iterations. -/
theorem IterationsGive.nil {item : ClauseId} {repaired : Bool} {pos : Nat}
    (hpos : pos ≤ ctx.input.size) : IterationsGive ctx item repaired pos [] :=
  ⟨pos, hpos, .nil, by simp [Node.nodesOf]⟩

/-- The iterations of a repetition. Every round but the last consumes input, so the rounds suffice
if there is one for each position that is left and one more. -/
theorem iterate_ensures (hI : Stable ctx I) (hM : matcher.Upholds ctx I) {phase : Phase}
    {id item : ClauseId} {bound : Option ClauseId} (hitem : ctx.Has item)
    (hbound : ∀ other ∈ bound, ctx.Has other) :
    ∀ {fuel pos : Nat} {repaired : Bool}, pos ≤ ctx.input.size → ctx.input.size < fuel + pos →
      Ensures False I (iterate ctx matcher phase id item bound fuel pos repaired)
        fun r => IterationsGive ctx item repaired pos r.1
  | 0, pos, _, hpos, hfuel => by omega
  | fuel + 1, pos, repaired, hpos, hfuel => by
    rw [iterate, if_neg (by omega)]
    refine .bind (boundReached_ensures hM hbound hpos) fun reached _ => ?_
    split
    · exact .pure (.nil hpos)
    refine .bind (hM hitem (by simp) hpos) fun outcome hsound => ?_
    split
    · rename_i node
      have hnode := hsound node rfl
      have hstop := hnode.stop_eq
      split
      · exact .pure (.nil hpos)
      rw [← hstop]
      refine .bind (iterate_ensures hI hM hitem hbound hnode.stop_le (by omega)) fun result hresult =>
        .pure ?_
      obtain ⟨stop, hle, hiter, hformed⟩ := hresult
      exact ⟨stop, hle, .matched hnode.isMatch hiter, formed_cons hnode.formed hformed⟩
    · split
      · exact .pure (.nil hpos)
      refine .bind (repairRepetition_ensures hM hitem) fun repair hrepair => ?_
      split
      · exact .pure (.nil hpos)
      · rename_i skip resumed
        have hsound := hrepair _ rfl
        refine .bind (hI.recordRepair hpos) fun _ _ => .bind (hI.note _) fun _ _ => ?_
        cases resumed with
        | none =>
          obtain ⟨hskip, rfl, hlt, rfl⟩ := hsound
          refine .pure ⟨_, Nat.le_refl _, .abandoned hlt, ?_⟩
          exact formed_cons (formed_skipped hskip (by show pos + (ctx.input.size - pos) ≤ _; omega))
            (by simp [Node.nodesOf])
        | some node =>
          obtain ⟨hskip, hnode⟩ := hsound
          have hstop := hnode.stop_eq
          have hle := hnode.stop_le
          simp only at hskip hnode hstop ⊢
          rw [← hstop]
          refine .bind (iterate_ensures hI hM hitem hbound hle (by omega)) fun result hresult =>
            .pure ?_
          obtain ⟨stop, hle', hiter, hformed⟩ := hresult
          exact ⟨stop, hle', .resumed hnode.isMatch hiter,
            formed_cons (formed_skipped hskip (by omega)) (formed_cons hnode.formed hformed)⟩

/-- Matching a repetition. -/
theorem evaluateRepetition_ensures (hI : Stable ctx I) (hM : matcher.Upholds ctx I) {phase : Phase}
    {id item : ClauseId} {atLeastOne : Bool} {pos : Nat} {bound : Option ClauseId}
    (hid : ctx.grammar.clause? id = some (.repeated item atLeastOne)) (hitem : ctx.Has item)
    (hbound : ∀ other ∈ bound, ctx.Has other) (hpos : pos ≤ ctx.input.size) :
    Ensures False I (evaluateRepetition ctx matcher phase id item atLeastOne pos bound)
      (Outcome.Sound ctx id pos) := by
  unfold evaluateRepetition
  refine .bind (iterate_ensures hI hM hitem hbound hpos (by omega)) fun result hresult => ?_
  obtain ⟨nodes, short⟩ := result
  obtain ⟨stop, hle, hiter, hformed⟩ := hresult
  cases nodes with
  | nil =>
    obtain rfl : pos = stop := hiter.tiles
    cases atLeastOne with
    | true => exact .pure (Outcome.sound_of_not_isMatch rfl)
    | false =>
      exact .pure (Outcome.sound_matched (Node.matches_leaf hid (.repeated hiter nofun) hpos))
  | cons node rest =>
    exact .pure (Outcome.sound_matched (Node.matches_wrap hid
      (.repeated hiter fun _ => List.cons_ne_nil node rest) (List.cons_ne_nil node rest) hle hformed))

/-! ## Options, references and terminals -/

/-- Matching an optional clause. -/
theorem evaluateOptional_ensures (hM : matcher.Upholds ctx I) {phase : Phase} {id item : ClauseId}
    {pos : Nat} {bound : Option ClauseId} (hid : ctx.grammar.clause? id = some (.optional item))
    (hitem : ctx.Has item) (hbound : ∀ other ∈ bound, ctx.Has other)
    (hpos : pos ≤ ctx.input.size) :
    Ensures False I (evaluateOptional ctx matcher phase id item pos bound)
      (Outcome.Sound ctx id pos) := by
  unfold evaluateOptional
  refine .bind (hM hitem hbound hpos) fun outcome hsound => ?_
  split
  · rename_i node
    have hnode := hsound node rfl
    exact .pure (Outcome.sound_matched (Node.matches_wrapOne hid (.present hnode.isMatch) hnode))
  · exact .pure (Outcome.sound_matched (Node.matches_leaf hid .absent hpos))

/-- Matching a reference. It needs the promise of the matcher for its target only. -/
theorem evaluateReference_ensures {phase : Phase} {id target : ClauseId} {name : String}
    {pos : Nat} {bound : Option ClauseId}
    (hid : ctx.grammar.clause? id = some (.reference name target))
    (htarget : Ensures False I (matcher phase target pos bound) (Outcome.Sound ctx target pos)) :
    Ensures False I (evaluateReference matcher phase id target pos bound)
      (Outcome.Sound ctx id pos) := by
  unfold evaluateReference
  refine .bind htarget fun outcome hsound => ?_
  split
  · rename_i node
    have hnode := hsound node rfl
    exact .pure (Outcome.sound_matched (Node.matches_wrapOne hid (.reference hnode.isMatch) hnode))
  · rename_i hfailed
    refine .pure (Outcome.sound_of_not_isMatch ?_)
    cases outcome with
    | matched node => exact absurd rfl (hfailed node)
    | _ => rfl

/-- A text that stands at a position ends inside the input. -/
theorem startsAt_le {input : Array Char} : ∀ {text : List Char} {pos : Nat},
    startsAt input text pos = true → pos ≤ input.size → pos + text.length ≤ input.size
  | [], _, _, hpos => hpos
  | c :: rest, pos, h, _ => by
    rw [startsAt, Bool.and_eq_true, beq_iff_eq] at h
    have hlt := (Array.getElem?_eq_some_iff.1 h.1).1
    have hle := startsAt_le h.2 hlt
    rw [List.length_cons]
    omega

/-- Matching one character. -/
theorem evaluateChar_sound {id : ClauseId} {clause : Clause} {pos : Nat} {accepts : Char → Bool}
    (hid : ctx.grammar.clause? id = some clause)
    (hforms : ∀ c, ctx.input[pos]? = some c → accepts c = true →
      Forms ctx.input clause pos (pos + 1) []) :
    (evaluateChar ctx id pos accepts).Sound ctx id pos := by
  unfold evaluateChar
  split
  · rename_i hany
    obtain ⟨c, hc, haccepts⟩ := (Option.any_eq_true _ _).1 hany
    have hlt := (Array.getElem?_eq_some_iff.1 hc).1
    exact Outcome.sound_matched (Node.matches_leaf hid (hforms c hc haccepts) hlt)
  · exact Outcome.sound_of_not_isMatch rfl

/-! ## All kinds -/

/-- **Evaluating a clause that is no reference** keeps the invariant and gives a result, and a match
only as a match tree, provided that the matcher does. -/
theorem evaluate_ensures (hI : Stable ctx I) (hM : matcher.Upholds ctx I) {phase : Phase}
    {id : ClauseId} {clause : Clause} {pos : Nat} {bound : Option ClauseId}
    (hid : ctx.grammar.clause? id = some clause) (hkind : clause.isReference = false)
    (hchildren : ∀ child ∈ clause.children, ctx.Has child)
    (hbound : ∀ other ∈ bound, ctx.Has other) (hpos : pos ≤ ctx.input.size) :
    Ensures False I (evaluate ctx matcher phase id clause pos bound)
      (Outcome.Sound ctx id pos) := by
  cases clause with
  | literal text =>
    refine .pure ?_
    split
    · rename_i htext
      have hle := startsAt_le htext hpos
      exact Outcome.sound_matched (Node.matches_leaf hid (.literal htext) hle)
    · exact Outcome.sound_of_not_isMatch rfl
  | char expected =>
    refine .pure (evaluateChar_sound hid fun c hc haccepts => .char ?_)
    rw [hc, beq_iff_eq.1 haccepts]
  | charClass ranges inverted =>
    exact .pure (evaluateChar_sound hid fun _ hc haccepts => .charClass hc haccepts)
  | anyChar => exact .pure (evaluateChar_sound hid fun _ hc _ => .anyChar hc)
  | empty => exact .pure (Outcome.sound_matched (Node.matches_leaf hid .empty hpos))
  | seq elements => exact evaluateSequence_ensures hI hM hid hchildren hbound hpos
  | choice alternatives => exact evaluateChoice_ensures hM hid hchildren hbound hpos
  | repeated item atLeastOne =>
    exact evaluateRepetition_ensures hI hM hid (hchildren item List.mem_cons_self) hbound hpos
  | optional item =>
    exact evaluateOptional_ensures hM hid (hchildren item List.mem_cons_self) hbound hpos
  | reference name target => cases hkind
  | ahead item =>
    refine .bind (hM (hchildren item List.mem_cons_self) hbound hpos) fun outcome _ => ?_
    split
    · exact .pure (Outcome.sound_matched (Node.matches_leaf hid .ahead hpos))
    · exact .pure (Outcome.sound_of_not_isMatch rfl)
  | notAhead item =>
    refine .bind (hM (hchildren item List.mem_cons_self) hbound hpos) fun outcome _ => ?_
    split
    · exact .pure (Outcome.sound_of_not_isMatch rfl)
    · exact .pure (Outcome.sound_matched (Node.matches_leaf hid .notAhead hpos))

end contract

end Packrat

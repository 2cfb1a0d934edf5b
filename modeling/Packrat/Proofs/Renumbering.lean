import Packrat.Proofs.Parsing

/-!
# Other numbers for the same clauses

A clause is known by its index, and the index is the key of its cells. This module says what it is for
two computations to differ in the indices only.

* `Clause.renumber`, `Node.renumber`, `Outcome.renumber`, `Cell.renumber` — the same thing with other
  indices. What a cell answers and how it changes goes along (`Cell.reusable?_renumber`,
  `Cell.renumber_enter`, `Cell.renumber_leave`).
* **`Grammar.Renumbers`** — two grammars whose clauses and rules correspond.
* `Session.Renumbers` — two sessions whose cells correspond, with the same versions and counters.
* **`InStep`** — two computations that, from corresponding sessions, give corresponding values and leave
  corresponding sessions, or break off for one reason.
* `cell_inStep`, `setCell_inStep`, `bump_inStep` and their kin — one lemma for each way to read or to
  change a session.
-/

namespace Packrat

/-! ## Renumbering -/

/-- The clause with the clauses that it consults renumbered. -/
def Clause.renumber (π : ClauseId → ClauseId) : Clause → Clause
  | .seq items => .seq (items.map π)
  | .choice items => .choice (items.map π)
  | .repeated item atLeastOne => .repeated (π item) atLeastOne
  | .optional item => .optional (π item)
  | .reference name target => .reference name (π target)
  | .ahead item => .ahead (π item)
  | .notAhead item => .notAhead (π item)
  | clause => clause

/-- Renumbering makes no references. -/
theorem Clause.isReference_renumber (π : ClauseId → ClauseId) (clause : Clause) :
    (clause.renumber π).isReference = clause.isReference := by
  cases clause <;> rfl

namespace Node

variable (π : ClauseId → ClauseId)

mutual

/-- The match tree with its clauses renumbered. -/
def renumber : Node → Node
  | .clause info children => .clause { info with clause := π info.clause } (renumberAll children)
  | .skipped pos len => .skipped pos len
  | .deleted pos id => .deleted pos (π id)

/-- Several match trees with their clauses renumbered. -/
def renumberAll : List Node → List Node
  | [] => []
  | node :: rest => renumber node :: renumberAll rest

end

/-- Several match trees are renumbered one by one. -/
theorem renumberAll_eq_map : ∀ nodes : List Node, renumberAll π nodes = nodes.map (renumber π)
  | [] => rfl
  | node :: rest => by rw [renumberAll, renumberAll_eq_map rest, List.map_cons]

@[simp] theorem pos_renumber (node : Node) : (node.renumber π).pos = node.pos := by
  cases node <;> rfl

@[simp] theorem len_renumber (node : Node) : (node.renumber π).len = node.len := by
  cases node <;> rfl

@[simp] theorem stop_renumber (node : Node) : (node.renumber π).stop = node.stop := by
  rw [stop, stop, pos_renumber, len_renumber]

@[simp] theorem isComplete_renumber (node : Node) : (node.renumber π).isComplete = node.isComplete := by
  cases node <;> rfl

@[simp] theorem isGrown_renumber (node : Node) : (node.renumber π).isGrown = node.isGrown := by
  cases node <;> rfl

@[simp] theorem errors_renumber (node : Node) : (node.renumber π).errors = node.errors := by
  cases node <;> rfl

/-- Renumbering adds no errors. -/
theorem totalErrors_renumber (nodes : List Node) :
    totalErrors (nodes.map (renumber π)) = totalErrors nodes := by
  simp [totalErrors, List.foldr_map]

/-- A match made of other nodes. -/
theorem renumber_wrap (id : ClauseId) (children : List Node) (complete : Bool) :
    (wrap id children complete).renumber π = wrap (π id) (children.map (renumber π)) complete := by
  have hgrown : (children.map (renumber π)).any isGrown = children.any isGrown := by
    simp [List.any_map, Function.comp_def]
  have hstart : (children.map (renumber π)).head?.map pos = children.head?.map pos := by
    simp [List.head?_map, Function.comp_def]
  have hfinal : (children.map (renumber π)).getLast?.map stop = children.getLast?.map stop := by
    simp [List.getLast?_map, Function.comp_def]
  rw [wrap, wrap, renumber, renumberAll_eq_map, hgrown, hstart, hfinal, totalErrors_renumber]

/-- A match made of one other node. -/
theorem renumber_wrapOne (id : ClauseId) (child : Node) (complete : Bool) :
    (wrapOne id child complete).renumber π = wrapOne (π id) (child.renumber π) complete :=
  renumber_wrap π id [child] complete

/-- Marking goes along. -/
theorem renumber_markGrown (node : Node) :
    node.markGrown.renumber π = (node.renumber π).markGrown := by
  cases node <;> rfl

end Node

/-- The outcome with the clauses of its match renumbered. -/
def Outcome.renumber (π : ClauseId → ClauseId) : Outcome → Outcome
  | .matched node => .matched (node.renumber π)
  | outcome => outcome

namespace Outcome

variable (π : ClauseId → ClauseId)

@[simp] theorem renumber_matched (node : Node) :
    (matched node).renumber π = .matched (node.renumber π) := rfl

@[simp] theorem isMatch_renumber (outcome : Outcome) :
    (outcome.renumber π).isMatch = outcome.isMatch := by
  cases outcome <;> rfl

@[simp] theorem len?_renumber (outcome : Outcome) : (outcome.renumber π).len? = outcome.len? := by
  cases outcome with
  | matched node => exact congrArg some (node.len_renumber π)
  | _ => rfl

@[simp] theorem isComplete_renumber (outcome : Outcome) :
    (outcome.renumber π).isComplete = outcome.isComplete := by
  cases outcome with
  | matched node => exact node.isComplete_renumber π
  | _ => rfl

/-- Lengths are compared as before. -/
theorem longerThan_renumber (new old : Outcome) :
    (new.renumber π).longerThan (old.renumber π) = new.longerThan old := by
  simp [longerThan]

/-- Marking goes along. -/
theorem renumber_markGrown (outcome : Outcome) :
    outcome.markGrown.renumber π = (outcome.renumber π).markGrown := by
  cases outcome with
  | matched node => exact congrArg matched (node.renumber_markGrown π)
  | _ => rfl

end Outcome

/-- The cell with the clauses of its match renumbered. -/
def Cell.renumber (π : ClauseId → ClauseId) (cell : Cell) : Cell :=
  { cell with result := cell.result.map (Outcome.renumber π) }

namespace Cell

variable (π : ClauseId → ClauseId) (cell : Cell) (phase : Phase) (version pos inputLen : Nat)

/-- The corresponding result answers a lookup. -/
theorem reusable?_renumber :
    (cell.renumber π).reusable? phase version pos inputLen =
      (cell.reusable? phase version pos inputLen).map (Outcome.renumber π) := by
  have hretry : ∀ outcome : Outcome,
      (cell.renumber π).mustRetry phase pos inputLen (outcome.renumber π) =
        cell.mustRetry phase pos inputLen outcome := by
    intro outcome
    cases outcome with
    | matched node => simp [mustRetry, renumber, Outcome.node?, Outcome.isComplete]
    | _ => rfl
  unfold reusable?
  cases hresult : cell.result with
  | none => simp [renumber, hresult]
  | some outcome =>
    have hsame : (cell.renumber π).result = some (outcome.renumber π) := by simp [renumber, hresult]
    rw [hsame, Option.filter_some, Option.filter_some, hretry, Outcome.isComplete_renumber]
    show (if (cell.version == version && _ && (_ && !cell.leftRecursive || cell.phase == phase)) = true
      then _ else _) = _
    split <;> rfl

/-- Entering goes along. -/
theorem renumber_enter :
    (cell.enter phase version).renumber π = (cell.renumber π).enter phase version := by
  unfold enter
  show _ = if (cell.version != version || (cell.leftRecursive && cell.phase != phase)) = true then _
    else _
  split <;> rfl

/-- Leaving goes along. -/
theorem renumber_leave :
    (cell.leave phase version).renumber π = (cell.renumber π).leave phase version := by
  unfold leave renumber
  simp only [Option.map_map, Cell.mk.injEq, and_true]
  congr 1
  funext outcome
  simp only [Function.comp_apply, Outcome.isMatch_renumber]
  split
  · exact outcome.renumber_markGrown π
  · rfl

end Cell

/-! ## Corresponding grammars and sessions -/

/-- **Whether the clauses of two grammars correspond** under a renumbering, and their rules with
them. -/
structure Grammar.Renumbers (π : ClauseId → ClauseId) (g g' : Grammar) : Prop where
  /-- Different clauses get different numbers. -/
  injective : Function.Injective π
  /-- There are as many clauses. -/
  size : g'.clauses.size = g.clauses.size
  /-- Each clause has its counterpart. -/
  clause : ∀ id, g'.clause? (π id) = (g.clause? id).map (Clause.renumber π)
  /-- Each rule has its counterpart. -/
  rule : ∀ name, g'.rule? name = (g.rule? name).map π

/-- Whether the charts of two sessions correspond under a renumbering, and their counters agree. -/
structure Session.Renumbers (π : ClauseId → ClauseId) (s t : Session) : Prop where
  /-- They have as many columns. -/
  width : t.width = s.width
  /-- Each column has the same version. -/
  version : ∀ pos, t.versionAt pos = s.versionAt pos
  /-- Each cell has its counterpart. -/
  cell : ∀ id pos, t.cellAt (π id) pos = (s.cellAt id pos).renumber π
  /-- The work is the same. -/
  work : t.work = s.work

namespace Session

variable {π : ClauseId → ClauseId} {s t : Session}

/-- A change beyond the chart changes nothing. -/
theorem columnAt_modify_of_le {f : Column → Column} {pos place : Nat} (h : s.width ≤ pos) :
    ({ s with chart := s.chart.modify pos f } : Session).columnAt place = s.columnAt place := by
  simp only [columnAt, Chart.column?, Chart.modify, Array.getElem?_modify]
  split
  · rename_i heq
    have hnone : s.chart.columns[place]? = none := Array.getElem?_eq_none (heq ▸ h)
    rw [hnone]
    rfl
  · rfl

namespace Renumbers

/-- Before anything was tried all cells are empty. -/
theorem start (n : Nat) (work : Option Work) :
    Renumbers π (Session.start n work) (Session.start n work) where
  width := rfl
  version _ := rfl
  cell id pos := by
    rw [cellAt_start, cellAt_start]
    rfl
  work := rfl

/-- Events do not matter. -/
theorem noted (h : s.Renumbers π t) (event event' : Event) :
    Renumbers π { s with trace := event :: s.trace } { t with trace := event' :: t.trace } :=
  ⟨h.width, h.version, h.cell, h.work⟩

/-- The same is counted. -/
theorem tallied (h : s.Renumbers π t) (f : Work → Work) :
    Renumbers π { s with work := s.work.map f } { t with work := t.work.map f } :=
  ⟨h.width, h.version, h.cell, congrArg (Option.map f) h.work⟩

/-- Corresponding columns take the place of corresponding columns. -/
theorem modify (h : s.Renumbers π t) {f f' : Column → Column} {pos : Nat}
    (hversion : (f' (t.columnAt pos)).version = (f (s.columnAt pos)).version)
    (hcell : ∀ id, (f' (t.columnAt pos)).cell (π id) = ((f (s.columnAt pos)).cell id).renumber π) :
    Renumbers π { s with chart := s.chart.modify pos f } { t with chart := t.chart.modify pos f' } := by
  have hwidth : ({ t with chart := t.chart.modify pos f' } : Session).width =
      ({ s with chart := s.chart.modify pos f } : Session).width :=
    (Array.size_modify ..).trans (h.width.trans (Array.size_modify ..).symm)
  rcases Nat.lt_or_ge pos s.width with hlt | hge
  · have hlt' : pos < t.width := by rwa [h.width]
    refine ⟨hwidth, fun place => ?_, fun other place => ?_, h.work⟩
    · rw [versionAt, versionAt, columnAt_modify _ hlt, columnAt_modify _ hlt']
      split
      · exact hversion
      · exact h.version place
    · rw [cellAt, cellAt, columnAt_modify _ hlt, columnAt_modify _ hlt']
      split
      · exact hcell other
      · exact h.cell other place
  · have hge' : t.width ≤ pos := by rwa [h.width]
    refine ⟨hwidth, fun place => ?_, fun other place => ?_, h.work⟩
    · rw [versionAt, versionAt, columnAt_modify_of_le hge, columnAt_modify_of_le hge']
      exact h.version place
    · rw [cellAt, cellAt, columnAt_modify_of_le hge, columnAt_modify_of_le hge']
      exact h.cell other place

/-- Corresponding cells are stored. -/
theorem withCell (h : s.Renumbers π t) (hπ : Function.Injective π) (id : ClauseId) (pos : Nat)
    (cell : Cell) : Renumbers π (s.withCell id pos cell) (t.withCell (π id) pos (cell.renumber π)) := by
  refine h.modify (h.version pos) fun other => ?_
  by_cases hsame : other = id
  · rw [hsame, Column.cell_setCell_self, Column.cell_setCell_self]
  · rw [Column.cell_setCell_of_ne _ _ hsame, Column.cell_setCell_of_ne _ _ (hπ.ne hsame)]
    exact h.cell other pos

/-- The same position is made stale. -/
theorem bumped (h : s.Renumbers π t) (pos : Nat) : Renumbers π (s.bumped pos) (t.bumped pos) :=
  h.modify (congrArg (· + 1) (h.version pos)) fun id => h.cell id pos

end Renumbers
end Session

/-! ## Computations in step -/

/-- **Whether two computations go in step** under a renumbering: from corresponding sessions they give
corresponding values, by `f`, and leave corresponding sessions, or they break off for one reason. -/
def InStep {α β : Type} (π : ClauseId → ClauseId) (f : α → β) (m : MatchM α) (m' : MatchM β) : Prop :=
  ∀ s t, s.Renumbers π t →
    (∃ a s' t', m.run s = .ok (a, s') ∧ m'.run t = .ok (f a, t') ∧ s'.Renumbers π t') ∨
      ∃ e, m.run s = .error e ∧ m'.run t = .error e

namespace InStep

variable {α α' β β' : Type} {π : ClauseId → ClauseId} {f : α → α'} {g : β → β'}

/-- Values are given at once. -/
theorem pure {a : α} {b : α'} (h : b = f a) : InStep π f (Pure.pure a) (Pure.pure b) := by
  intro s t hst
  exact .inl ⟨a, s, t, rfl, by rw [h]; rfl, hst⟩

/-- Breaking off for one reason. -/
theorem throw (e : Fault) : InStep π f (MonadExcept.throw e) (MonadExcept.throw e) :=
  fun _ _ _ => .inr ⟨e, rfl, rfl⟩

/-- One computation after another. -/
theorem bind {m : MatchM α} {m' : MatchM α'} {k : α → MatchM β} {k' : α' → MatchM β'}
    (hm : InStep π f m m') (hk : ∀ a, InStep π g (k a) (k' (f a))) :
    InStep π g (m >>= k) (m' >>= k') := by
  intro s t hst
  rcases hm s t hst with ⟨a, u, v, hrun, hrun', huv⟩ | ⟨e, hrun, hrun'⟩
  · rw [Session.run_bind_of_ok hrun, Session.run_bind_of_ok hrun']
    exact hk a u v huv
  · refine .inr ⟨e, ?_, ?_⟩
    · rw [StateT.run_bind, hrun]
      rfl
    · rw [StateT.run_bind, hrun']
      rfl

/-- Corresponding changes of the session. -/
theorem change {f f' : Session → Session} (h : ∀ s t, s.Renumbers π t → (f s).Renumbers π (f' t)) :
    InStep π id (modify f : MatchM Unit) (modify f') :=
  fun s t hst => .inl ⟨(), f s, f' t, rfl, rfl, h s t hst⟩

/-- A search through a list. -/
theorem findSomeM? {k : β → MatchM (Option α)} {k' : β → MatchM (Option α')}
    (h : ∀ b, InStep π (Option.map f) (k b) (k' b)) :
    ∀ items : List β, InStep π (Option.map f) (items.findSomeM? k) (items.findSomeM? k')
  | [] => .pure rfl
  | b :: rest => by
    rw [List.findSomeM?, List.findSomeM?]
    refine .bind (h b) fun found => ?_
    cases found with
    | none => exact findSomeM? h rest
    | some a => exact .pure rfl

end InStep

/-! ## Reading and changing a session -/

/-- A position without a column breaks a run off. -/
theorem Session.run_column_of_le {s : Session} {pos : Nat} (h : s.width ≤ pos) :
    (Session.column pos).run s = .error .outOfRange := by
  have hnone : s.chart.column? pos = none := Array.getElem?_eq_none h
  have hget : (get : MatchM Session).run s = .ok (s, s) := rfl
  rw [Session.column, Session.run_bind_of_ok hget, hnone]
  rfl

section session

variable {π : ClauseId → ClauseId}

/-- Counting. -/
theorem tally_inStep (f : Work → Work) : InStep π id (Session.tally f) (Session.tally f) :=
  .change fun _ _ h => h.tallied f

/-- Reporting events. -/
theorem note_inStep (event event' : Event) : InStep π id (Session.note event) (Session.note event') :=
  .change fun _ _ h => h.noted event event'

/-- Reading something that corresponds from a column. -/
theorem column_inStep {α β : Type} {f : α → β} {look : Column → α} {look' : Column → β} {pos : Nat}
    (h : ∀ s t : Session, s.Renumbers π t → look' (t.columnAt pos) = f (look (s.columnAt pos))) :
    InStep π f (do return look (← Session.column pos)) (do return look' (← Session.column pos)) := by
  intro s t hst
  rcases Nat.lt_or_ge pos s.width with hlt | hge
  · have hlt' : pos < t.width := by rwa [hst.width]
    rw [Session.run_bind_of_ok (Session.run_column hlt),
      Session.run_bind_of_ok (Session.run_column hlt'), h s t hst]
    exact .inl ⟨look (s.columnAt pos), s, t, rfl, rfl, hst⟩
  · have hge' : t.width ≤ pos := by rwa [hst.width]
    rw [StateT.run_bind, StateT.run_bind, Session.run_column_of_le hge,
      Session.run_column_of_le hge']
    exact .inr ⟨.outOfRange, rfl, rfl⟩

/-- Reading versions. -/
theorem version_inStep (pos : Nat) : InStep π id (Session.version pos) (Session.version pos) :=
  column_inStep fun _ _ h => h.version pos

/-- Reading cells. -/
theorem cell_inStep (key : ClauseId) (pos : Nat) :
    InStep π (Cell.renumber π) (Session.cell key pos) (Session.cell (π key) pos) :=
  column_inStep fun _ _ h => h.cell key pos

/-- Storing cells. -/
theorem setCell_inStep (hπ : Function.Injective π) (key : ClauseId) (pos : Nat) (cell : Cell) :
    InStep π id (Session.setCell key pos cell) (Session.setCell (π key) pos (cell.renumber π)) :=
  .change fun _ _ h => h.withCell hπ key pos cell

/-- Making a position stale. -/
theorem bump_inStep (pos : Nat) : InStep π id (Session.bump pos) (Session.bump pos) :=
  .bind (version_inStep pos) fun _ => .bind (.change fun _ _ h => h.bumped pos) fun _ => .pure rfl

/-- Recording a repair. -/
theorem recordRepair_inStep (pos : Nat) : InStep π id (recordRepair pos) (recordRepair pos) := by
  refine .bind (tally_inStep _) fun _ => ?_
  show InStep π id (Session.bump pos >>= fun _ => Pure.pure ())
    (Session.bump pos >>= fun _ => Pure.pure ())
  exact .bind (bump_inStep pos) fun _ => .pure rfl

end session

end Packrat

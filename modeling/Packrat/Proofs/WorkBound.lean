import Mathlib.Algebra.Order.BigOperators.Group.Finset
import Mathlib.Algebra.BigOperators.Ring.Finset
import Packrat.Proofs.Courses
import Packrat.Proofs.Parsing

/-!
# How much work plain matching takes

A clause is evaluated at a position again only after the results of that position were made stale, and
each time that happens is a growth step of some left-recursive match. So every evaluation but the first
one of a clause at a position can be charged to a growth step there, and no two of the same clause to
the same step; several clauses of one position may share a step.

* `watch`, `matchWatching` — matching that counts the evaluations of one clause at one position only,
  and `Job.evaluationsOf` — how many there are in a parse.
* `Together` — what a computation and all of its watched copies do from one session.
* **`Session.Accounts`** — the invariant: the counters are the sums over all pairs and all positions, and
  no pair has been evaluated more often than its position has had versions.
* `growSeed_accounted`, `matchThrough_accounted`, `matchWatching_accounted` — each layer keeps it.
* **`parse_work_bounded`** — the bound on the evaluations of a parse without repairs.
-/

namespace Packrat

/-! ## Watching one pair -/

/-- Confines the count of evaluations to one clause at one position, if one is given: the evaluation
that was just counted is taken back if it is that of another pair. -/
def watch (key : Option (ClauseId × Nat)) (id : ClauseId) (pos : Nat) : MatchM Unit :=
  match key with
  | none => return ()
  | some key =>
    if key = (id, pos) then return ()
    else Session.tally fun work => { work with evaluations := work.evaluations - 1 }

/-- Evaluates a clause at a position, and watches that unless it is a reference: references are not
counted. -/
def evaluateWatching (ctx : Context) (key : Option (ClauseId × Nat)) (matcher : Matcher) : Evaluator :=
  fun phase id clause pos bound =>
    let evaluation := evaluate ctx matcher phase id clause pos bound
    if clause.isReference then evaluation else watch key id pos >>= fun _ => evaluation

/-- Matches a clause at a position, and watches every evaluation. -/
def matchWatching (ctx : Context) (key : Option (ClauseId × Nat)) : Nat → Matcher :=
  matchBy ctx (evaluateWatching ctx key) fun _ _ step => step

/-- Without a pair to watch, matching is as it is. -/
theorem matchWatching_none (ctx : Context) : matchWatching ctx none = matchClause ctx := by
  have heval : evaluateWatching ctx none = evaluate ctx := by
    funext matcher phase id clause pos bound
    exact ite_self _
  rw [matchWatching, heval, matchClause]

/-- How often the first phase of a parse evaluates a clause at a position. -/
def Job.evaluationsOf (job : Job) (id : ClauseId) (pos : Nat) : Nat :=
  match (matchWatching job.context (some (id, pos)) job.context.depth job.firstPhase job.top 0
    none).run job.opening with
  | .ok (_, session) => (session.work.map Work.evaluations).getD 0
  | .error _ => 0

/-! ## All pairs at once -/

/-- How often each clause was evaluated at each position. -/
abbrev Counts := ClauseId × Nat → Nat

/-- The session of a watched copy: the same, but for the count of evaluations. -/
def Session.watched (s : Session) (counts : Counts) : Option (ClauseId × Nat) → Session
  | none => s
  | some key => { s with work := s.work.map fun work => { work with evaluations := counts key } }

/-- **What a computation and its watched copies do together** from a session: the computation breaks
off, or all of them give one value and leave the same session but for the count of evaluations, and
then `Q` holds. -/
def Together {α : Type} (m : Option (ClauseId × Nat) → MatchM α) (s : Session) (counts : Counts)
    (Q : α → Session → Counts → Prop) : Prop :=
  (∃ e, (m none).run s = .error e) ∨
    ∃ a t counts', (∀ key, (m key).run (s.watched counts key) = .ok (a, t.watched counts' key)) ∧
      Q a t counts'

namespace Together

variable {α β : Type} {m : Option (ClauseId × Nat) → MatchM α} {s t : Session}
  {counts counts' : Counts} {Q R : α → Session → Counts → Prop}

/-- A run that is known for all copies. -/
theorem step (a : α) (h : ∀ key, (m key).run (s.watched counts key) = .ok (a, t.watched counts' key))
    (hQ : Q a t counts') : Together m s counts Q :=
  .inr ⟨a, t, counts', h, hQ⟩

/-- A value is given at once. -/
theorem pure {a : α} (hQ : Q a s counts) : Together (fun _ => Pure.pure a) s counts Q :=
  .step a (fun _ => rfl) hQ

/-- One computation after another. -/
theorem bind {f : α → Option (ClauseId × Nat) → MatchM β} {R : β → Session → Counts → Prop}
    (h : Together m s counts fun a t counts' => Together (f a) t counts' R) :
    Together (fun key => m key >>= fun a => f a key) s counts R := by
  obtain ⟨e, he⟩ | ⟨a, t, counts', hm, ⟨e, he⟩ | ⟨b, u, counts'', hf, hR⟩⟩ := h
  · refine .inl ⟨e, ?_⟩
    rw [StateT.run_bind, he]
    rfl
  · refine .inl ⟨e, ?_⟩
    exact (Session.run_bind_of_ok (hm none)).trans he
  · refine .inr ⟨b, u, counts'', fun key => ?_, hR⟩
    rw [Session.run_bind_of_ok (hm key), hf key]

/-- A weaker condition. -/
theorem mono (h : Together m s counts Q)
    (hR : ∀ a t counts', Q a t counts' → R a t counts') : Together m s counts R := by
  obtain ⟨e, he⟩ | ⟨a, t, counts', hm, hQ⟩ := h
  · exact .inl ⟨e, he⟩
  · exact .inr ⟨a, t, counts', hm, hR a t counts' hQ⟩

/-- Copies that do the same. -/
theorem congr {m' : Option (ClauseId × Nat) → MatchM α} (h : Together m s counts Q)
    (heq : ∀ key, m' key = m key) : Together m' s counts Q := by
  obtain rfl : m' = m := funext heq
  exact h

end Together

/-- A change of the session that does not depend on the count of evaluations. -/
theorem Together.change {s : Session} {counts : Counts} {f : Session → Session}
    {Q : Unit → Session → Counts → Prop}
    (h : ∀ key, f (s.watched counts key) = (f s).watched counts key) (hQ : Q () (f s) counts) :
    Together (fun _ => (modify f : MatchM Unit)) s counts Q :=
  .step () (fun key => congrArg (fun t => Except.ok ((), t)) (h key)) hQ

/-! ### The steps through a cell -/

section steps

variable {s : Session} {counts : Counts} {id : ClauseId} {pos : Nat}

/-- Reading a version. -/
theorem Together.version {Q : Nat → Session → Counts → Prop} (hlt : pos < s.width)
    (hQ : Q (s.versionAt pos) s counts) : Together (fun _ => Session.version pos) s counts Q := by
  refine .step _ (fun key => ?_) hQ
  cases key <;> exact Session.run_version hlt

/-- Reading a cell. -/
theorem Together.cell {Q : Cell → Session → Counts → Prop} (hlt : pos < s.width)
    (hQ : Q (s.cellAt id pos) s counts) : Together (fun _ => Session.cell id pos) s counts Q := by
  refine .step _ (fun key => ?_) hQ
  cases key <;> exact Session.run_cell hlt

/-- Storing a cell. -/
theorem Together.setCell {cell : Cell} {Q : Unit → Session → Counts → Prop}
    (hQ : Q () (s.withCell id pos cell) counts) :
    Together (fun _ => Session.setCell id pos cell) s counts Q :=
  .change (fun key => by cases key <;> rfl) hQ

/-- Making a position stale. -/
theorem Together.bump {Q : Nat → Session → Counts → Prop} (hlt : pos < s.width)
    (hQ : Q (s.versionAt pos + 1) (s.bumped pos) counts) :
    Together (fun _ => Session.bump pos) s counts Q := by
  refine .step _ (fun key => ?_) hQ
  cases key <;> exact Session.run_bump hlt

/-- Reporting an event. -/
theorem Together.note {event : Event} {Q : Unit → Session → Counts → Prop}
    (hQ : Q () { s with trace := event :: s.trace } counts) :
    Together (fun _ => Session.note event) s counts Q :=
  .change (fun key => by cases key <;> rfl) hQ

/-- Counting something other than evaluations. -/
theorem Together.tally {f : Work → Work} {Q : Unit → Session → Counts → Prop}
    (hf : ∀ work count, f { work with evaluations := count } = { f work with evaluations := count })
    (hQ : Q () { s with work := s.work.map f } counts) :
    Together (fun _ => Session.tally f) s counts Q := by
  refine .change (fun key => ?_) hQ
  cases key with
  | none => rfl
  | some key =>
    obtain ⟨chart, _ | work, trace, phase⟩ := s
    · rfl
    · exact congrArg (fun counted => Session.mk chart (some counted) trace phase)
        (hf work (counts key))

/-- One more evaluation of a pair. -/
def Counts.plus (counts : Counts) (key : ClauseId × Nat) : Counts :=
  fun other => counts other + if other = key then 1 else 0

/-- Counting an evaluation, and watching it: each copy counts that of its own pair only. -/
theorem Together.evaluated {α : Type} {m : Option (ClauseId × Nat) → MatchM α}
    {Q : α → Session → Counts → Prop}
    (h : Together m { s with work := s.work.map fun work =>
      { work with evaluations := work.evaluations + 1 } } (counts.plus (id, pos)) Q) :
    Together (fun key => do
      Session.tally fun work => { work with evaluations := work.evaluations + 1 }
      watch key id pos
      m key) s counts Q := by
  have hcounted : Together (fun key => do
      Session.tally fun work => { work with evaluations := work.evaluations + 1 }
      watch key id pos) s counts fun _ t counts' => Together m t counts' Q := by
    refine .step () (fun key => ?_) h
    obtain ⟨chart, work, trace⟩ := s
    cases key with
    | none => rfl
    | some key =>
      rw [Session.run_bind_of_ok Session.run_tally, watch]
      split
      · rename_i heq
        have hplus : counts.plus (id, pos) key = counts key + 1 := by rw [Counts.plus, if_pos heq]
        rw [Session.watched, Session.watched, hplus]
        cases work <;> rfl
      · rename_i hne
        have hplus : counts.plus (id, pos) key = counts key := by rw [Counts.plus, if_neg hne]; rfl
        rw [Session.watched, Session.watched, hplus]
        cases work <;> rfl
  exact (Together.bind hcounted).congr fun key => (bind_assoc _ _ _).symm

end steps

/-! ## The invariant -/

/-- The clauses of a grammar that are no references. -/
def Grammar.bodies (g : Grammar) : Finset ClauseId :=
  (Finset.range g.clauses.size).filter fun id => (g.clause? id).any fun clause => !clause.isReference

/-- The pairs that can be evaluated: a clause that is no reference, and a position. -/
def Context.pairs (ctx : Context) : Finset (ClauseId × Nat) :=
  ctx.grammar.bodies ×ˢ Finset.range (ctx.input.size + 1)

/-- **The account of one cell**, in a column of the given version, after so many evaluations. While the
cell is under evaluation its own version may be older than its last evaluation. -/
structure Cell.Accounts (cell : Cell) (version count : Nat) : Prop where
  /-- Everything belongs to the first phase. -/
  phase : cell.phase = .discovery
  /-- The result is no newer than the column. -/
  version_le : cell.version ≤ version
  /-- There was at most one evaluation for each version. -/
  count_le : count ≤ version + 1
  /-- None of them came after the result was stored. -/
  rested : cell.active = false → count ≤ cell.version + 1
  /-- There was none if there is no result. -/
  untried : cell.active = false → cell.result = none → count = 0

namespace Cell.Accounts

variable {cell : Cell} {version count : Nat}

/-- The column is made stale. -/
theorem bumped (h : cell.Accounts version count) : cell.Accounts (version + 1) count :=
  { h with
    version_le := Nat.le_succ_of_le h.version_le
    count_le := Nat.le_succ_of_le h.count_le }

/-- A result is stored. -/
theorem stored (h : cell.Accounts version count) {outcome : Outcome} {leftRecursive : Bool} :
    { cell with result := some outcome, leftRecursive }.Accounts version count :=
  { h with untried := nofun }

/-- A longer result is stored: the column was made stale. -/
theorem grown (h : cell.Accounts version count) {outcome : Outcome} :
    { cell with result := some outcome, version := version + 1 }.Accounts (version + 1) count where
  phase := h.phase
  version_le := Nat.le_refl _
  count_le := Nat.le_succ_of_le h.count_le
  rested _ := Nat.le_succ_of_le h.count_le
  untried := nofun

/-- The cell comes under evaluation. -/
theorem enter (h : cell.Accounts version count) :
    (cell.enter .discovery version).Accounts version count := by
  have hactive := Cell.active_enter cell .discovery version
  constructor
  · unfold Cell.enter
    split <;> exact h.phase
  · unfold Cell.enter
    split <;> exact h.version_le
  · exact h.count_le
  · simp [hactive]
  · simp [hactive]

/-- The cell ends its evaluation with a result of the present version. -/
theorem leave (h : cell.Accounts version count) (hresult : cell.result.isSome = true) :
    (cell.leave .discovery version).Accounts version count where
  phase := rfl
  version_le := Nat.le_refl _
  count_le := h.count_le
  rested _ := h.count_le
  untried _ hnone := by
    obtain ⟨outcome, houtcome⟩ := Option.isSome_iff_exists.1 hresult
    rw [Cell.leave, houtcome] at hnone
    cases hnone

/-- **A cell that does not answer can be charged**: it has no result, or the column has been made
stale since it was stored. -/
theorem slack (h : cell.Accounts version count) (hactive : cell.active = false) {pos inputLen : Nat}
    (hreuse : cell.reusable? .discovery version pos inputLen = none) : count ≤ version := by
  cases hresult : cell.result with
  | none =>
    rw [h.untried hactive hresult]
    exact Nat.zero_le _
  | some outcome =>
    have hstale : cell.version ≠ version := by
      intro heq
      simp [Cell.reusable?, hresult, Cell.mustRetry, h.phase, heq, Option.filter_some] at hreuse
    have hle := h.version_le
    have hcount := h.rested hactive
    omega

/-- An evaluation is charged. -/
theorem evaluated (h : cell.Accounts version count) (hactive : cell.active = true)
    (hslack : count ≤ version) : cell.Accounts version (count + 1) :=
  { h with
    count_le := Nat.succ_le_succ hslack
    rested := by simp [hactive]
    untried := by simp [hactive] }

end Cell.Accounts

/-! ### Growth steps -/

/-- The session after a growth step: the position is made stale, the longer match stored, and the step
counted and reported. -/
def Session.grown (s : Session) (id : ClauseId) (pos : Nat) (outcome : Outcome) : Session :=
  { (s.bumped pos).withCell id pos
      { s.cellAt id pos with result := some outcome, version := s.versionAt pos + 1 } with
    work := s.work.map fun work => { work with expansions := work.expansions + 1 }
    trace := .seedGrown id pos outcome.len? :: s.trace }

section grown

variable {s : Session} {id : ClauseId} {pos : Nat} {outcome : Outcome}

/-- The cells after a growth step. -/
theorem Session.cellAt_grown (hlt : pos < s.width) (other : ClauseId) (place : Nat) :
    (s.grown id pos outcome).cellAt other place =
      if other = id ∧ place = pos then
        { s.cellAt id pos with result := some outcome, version := s.versionAt pos + 1 }
      else s.cellAt other place := by
  have hlt' : pos < (s.bumped pos).width := by rwa [width_bumped]
  refine (cellAt_withCell hlt').trans ?_
  rw [cellAt_bumped hlt]

/-- The versions after a growth step. -/
theorem Session.versionAt_grown (hlt : pos < s.width) (place : Nat) :
    (s.grown id pos outcome).versionAt place =
      s.versionAt place + if place = pos then 1 else 0 := by
  have hlt' : pos < (s.bumped pos).width := by rwa [width_bumped]
  refine (versionAt_withCell hlt').trans ?_
  rw [versionAt_bumped hlt]
  split
  · rename_i heq
    rw [heq]
  · rfl

end grown

/-- **The account of a session**: that of each cell, and the counters are the sums over all pairs and
over all positions. -/
structure Session.Accounts (ctx : Context) (s : Session) (counts : Counts) : Prop where
  /-- There is a column for each position. -/
  width : s.width = ctx.input.size + 1
  /-- Each cell has an account. -/
  cells : ∀ id pos, (s.cellAt id pos).Accounts (s.versionAt pos) (counts (id, pos))
  /-- The evaluations are those of the pairs, and each version stands for a growth step. -/
  work : ∃ work, s.work = some work ∧ work.evaluations = ∑ key ∈ ctx.pairs, counts key ∧
    work.expansions = ∑ pos ∈ Finset.range (ctx.input.size + 1), s.versionAt pos

namespace Session.Accounts

variable {ctx : Context} {s : Session} {counts : Counts} {id : ClauseId} {pos : Nat}

/-- Every position of the input has a column. -/
theorem lt_width (h : s.Accounts ctx counts) (hpos : pos ≤ ctx.input.size) : pos < s.width := by
  rw [h.width]
  omega

/-- Storing a cell with an account. -/
theorem withCell (h : s.Accounts ctx counts) (hpos : pos ≤ ctx.input.size) {cell : Cell}
    (hcell : cell.Accounts (s.versionAt pos) (counts (id, pos))) :
    (s.withCell id pos cell).Accounts ctx counts where
  width := by rw [width_withCell, h.width]
  cells other place := by
    rw [cellAt_withCell (h.lt_width hpos), versionAt_withCell (h.lt_width hpos)]
    split
    · rename_i heq
      rw [heq.1, heq.2]
      exact hcell
    · exact h.cells other place
  work := by
    simp only [versionAt_withCell (h.lt_width hpos)]
    exact h.work

/-- Counting a lookup that the chart answered. -/
theorem hit (h : s.Accounts ctx counts) :
    Accounts ctx { s with work := s.work.map fun work => { work with hits := work.hits + 1 } }
      counts where
  width := h.width
  cells := h.cells
  work := by
    obtain ⟨work, hwork, hsums⟩ := h.work
    exact ⟨_, congrArg (Option.map _) hwork, hsums⟩

/-- Counting an evaluation of a cell that can be charged. -/
theorem evaluated (h : s.Accounts ctx counts) (hmem : (id, pos) ∈ ctx.pairs)
    (hactive : (s.cellAt id pos).active = true) (hslack : counts (id, pos) ≤ s.versionAt pos) :
    Accounts ctx { s with work := s.work.map fun work =>
      { work with evaluations := work.evaluations + 1 } } (counts.plus (id, pos)) where
  width := h.width
  cells other place := by
    unfold Counts.plus
    split
    · rename_i heq
      cases heq
      exact (h.cells id pos).evaluated hactive hslack
    · exact h.cells other place
  work := by
    obtain ⟨work, hwork, hevaluations, hexpansions⟩ := h.work
    refine ⟨_, congrArg (Option.map _) hwork, ?_, hexpansions⟩
    simp [Counts.plus, Finset.sum_add_distrib, hmem, hevaluations]

/-- A growth step. -/
theorem grown (h : s.Accounts ctx counts) (hpos : pos ≤ ctx.input.size) {outcome : Outcome} :
    (s.grown id pos outcome).Accounts ctx counts := by
  have hlt := h.lt_width hpos
  refine ⟨(width_withCell.trans width_bumped).trans h.width, fun other place => ?_, ?_⟩
  · rw [versionAt_grown hlt, cellAt_grown hlt]
    split
    · rename_i heq
      rw [heq.1, heq.2, if_pos rfl]
      exact (h.cells id pos).grown
    · split
      · exact (h.cells other place).bumped
      · exact h.cells other place
  · obtain ⟨work, hwork, hevaluations, hexpansions⟩ := h.work
    have hin : pos < ctx.input.size + 1 := by omega
    refine ⟨_, congrArg (Option.map _) hwork, hevaluations, ?_⟩
    simp [versionAt_grown hlt, Finset.sum_add_distrib, hin, hexpansions]

/-- Before anything was tried there is nothing to account for. -/
theorem start {work : Work} (hevaluations : work.evaluations = 0) (hexpansions : work.expansions = 0)
    {trace : List Event} :
    Accounts ctx { Session.start ctx.input.size (some work) with trace } fun _ => 0 where
  width := show (Session.start ctx.input.size (some work)).width = _ from width_start _
  cells other place := by
    show ((Session.start ctx.input.size (some work)).cellAt other place).Accounts _ _
    rw [cellAt_start]
    exact ⟨rfl, Nat.zero_le _, Nat.zero_le _, fun _ => Nat.zero_le _, fun _ _ => rfl⟩
  work := by
    refine ⟨work, rfl, ?_, ?_⟩
    · rw [hevaluations, Finset.sum_const_zero]
    · show _ = ∑ place ∈ _, (Session.start ctx.input.size (some work)).versionAt place
      simp [versionAt, columnAt_start, hexpansions]

end Session.Accounts

/-! ## Keeping the account -/

/-- Whether the cells that are under evaluation in one session are so in another. -/
def Session.Underway (s t : Session) : Prop :=
  ∀ id pos, (s.cellAt id pos).active = true → (t.cellAt id pos).active = true

/-- One session after another. -/
theorem Session.Underway.trans {s t u : Session} (h : s.Underway t) (h' : t.Underway u) :
    s.Underway u :=
  fun id pos hactive => h' id pos (h id pos hactive)

/-- Storing a cell that is under evaluation if the one before was. -/
theorem Session.Underway.withCell {s : Session} {id : ClauseId} {pos : Nat} (hlt : pos < s.width)
    {cell : Cell} (hcell : (s.cellAt id pos).active = true → cell.active = true) :
    s.Underway (s.withCell id pos cell) := by
  intro other place hactive
  rw [cellAt_withCell hlt]
  split
  · rename_i heq
    rw [heq.1, heq.2] at hactive
    exact hcell hactive
  · exact hactive

/-- A growth step ends no evaluation. -/
theorem Session.Underway.grown {s : Session} {id : ClauseId} {pos : Nat} (hlt : pos < s.width)
    {outcome : Outcome} : s.Underway (s.grown id pos outcome) := by
  intro other place hactive
  rw [cellAt_grown hlt]
  split
  · rename_i heq
    rw [heq.1, heq.2] at hactive
    exact hactive
  · exact hactive

/-- **Whether a computation, together with its watched copies, keeps the account** and ends no
evaluation that is under way. -/
def Accounted (ctx : Context) {α : Type} (m : Option (ClauseId × Nat) → MatchM α) : Prop :=
  ∀ s counts, s.Accounts ctx counts →
    Together m s counts fun _ t counts' => t.Accounts ctx counts' ∧ s.Underway t

/-- The account is kept by what an evaluation is put together from. -/
theorem accounted_composable (ctx : Context) : Composable (Accounted ctx) where
  pure _ _ _ hs := .pure ⟨hs, fun _ _ => id⟩
  throw e _ _ _ := .inl ⟨e, rfl⟩
  bind hm hf s counts hs := .bind <| (hm s counts hs).mono fun a t counts' ht =>
    (hf a t counts' ht.1).mono fun _ _ _ hu => ⟨hu.1, ht.2.trans hu.2⟩

section chart

variable {ctx : Context} {id : ClauseId} {pos : Nat}
  {evaluation : Option (ClauseId × Nat) → MatchM Outcome}

/-- **Growing a match.** Each round is charged to the version with which it starts, and a round that
another one follows makes a new version. -/
theorem growSeed_accounted (hpos : pos ≤ ctx.input.size) (hmem : (id, pos) ∈ ctx.pairs)
    (heval : Accounted ctx evaluation) : ∀ (fuel : Nat) (s : Session) (counts : Counts),
      s.Accounts ctx counts → (s.cellAt id pos).active = true →
      counts (id, pos) ≤ s.versionAt pos →
      Together (fun key => growSeed (watch key id pos >>= fun _ => evaluation key) id pos fuel)
        s counts fun _ t counts' => t.Accounts ctx counts' ∧ s.Underway t ∧
          (t.cellAt id pos).result.isSome = true
  | 0, _, _, _, _, _ => .inl ⟨_, rfl⟩
  | fuel + 1, s, counts, hs, hactive, hslack => by
    simp only [growSeed, bind_assoc]
    refine .evaluated (.bind ?_)
    have hcounted := hs.evaluated hmem hactive hslack
    refine (heval _ _ hcounted).mono fun outcome t counts' hevaluated => ?_
    have ht := hevaluated.1
    have hunderway : s.Underway t := hevaluated.2
    have hlt := ht.lt_width hpos
    refine .bind (.cell hlt ?_)
    by_cases hlonger : (t.cellAt id pos).result.any (!outcome.longerThan ·) = true
    · simp only [if_pos hlonger]
      refine .pure ⟨ht, hunderway, ?_⟩
      obtain ⟨old, hold, -⟩ := (Option.any_eq_true _ _).1 hlonger
      rw [hold]
      rfl
    · simp only [if_neg hlonger]
      by_cases hrecursive : (!(t.cellAt id pos).leftRecursive) = true
      · simp only [if_pos hrecursive]
        refine .setCell ?_
        refine ⟨ht.withCell hpos (ht.cells id pos).stored, hunderway.trans (.withCell hlt fun h => h), ?_⟩
        rw [Session.cellAt_withCell_self hlt]
        rfl
      · simp only [if_neg hrecursive]
        refine .bind (.bump hlt ?_)
        refine .bind (.bind (.setCell (.bind (.tally (fun _ _ => rfl) (.note ?_)))))
        have hgrown : s.Underway (t.grown id pos outcome) := hunderway.trans (.grown hlt)
        have hslack' : counts' (id, pos) ≤ (t.grown id pos outcome).versionAt pos := by
          rw [Session.versionAt_grown hlt, if_pos rfl]
          exact (ht.cells id pos).count_le
        exact (growSeed_accounted hpos hmem heval fuel (t.grown id pos outcome) counts'
          (ht.grown hpos) (hgrown id pos hactive) hslack').mono fun _ u counts'' hu =>
          ⟨hu.1, hgrown.trans hu.2.1, hu.2.2⟩

/-- A clause that is under evaluation is answered from its cell. -/
theorem reenter_accounted {s : Session} {counts : Counts} (hpos : pos ≤ ctx.input.size)
    (hs : s.Accounts ctx counts) :
    Together (fun _ => reenter id pos (s.cellAt id pos)) s counts
      fun _ t counts' => t.Accounts ctx counts' ∧ s.Underway t := by
  unfold reenter
  split
  · exact .pure ⟨hs, fun _ _ h => h⟩
  · exact .pure ⟨hs, fun _ _ h => h⟩
  · refine .bind (.setCell (.pure ?_))
    exact ⟨hs.withCell hpos (hs.cells id pos).stored, .withCell (hs.lt_width hpos) fun h => h⟩

/-- **Matching through a cell.** A clause is evaluated if its cell does not answer, and then the
evaluation can be charged. -/
theorem matchThrough_accounted (hpos : pos ≤ ctx.input.size) (hmem : (id, pos) ∈ ctx.pairs)
    (heval : Accounted ctx evaluation) :
    Accounted ctx fun key =>
      matchThrough ctx (watch key id pos >>= fun _ => evaluation key) .discovery id pos := by
  intro s counts hs
  have hlt := hs.lt_width hpos
  simp only [matchThrough]
  refine .bind (.version hlt (.bind (.cell hlt ?_)))
  cases hreuse : (s.cellAt id pos).reusable? .discovery (s.versionAt pos) pos ctx.input.size with
  | some outcome =>
    refine .bind (.tally (fun _ _ => rfl) (.pure ?_))
    exact ⟨hs.hit, fun _ _ h => h⟩
  | none =>
    by_cases hactive : (s.cellAt id pos).active = true
    · simp only [if_pos hactive]
      exact reenter_accounted hpos hs
    · simp only [if_neg hactive]
      have hidle : (s.cellAt id pos).active = false := Bool.eq_false_iff.2 hactive
      let entered := s.withCell id pos ((s.cellAt id pos).enter .discovery (s.versionAt pos))
      have hentered : entered.Accounts ctx counts := hs.withCell hpos (hs.cells id pos).enter
      have hunder : s.Underway entered := .withCell hlt fun h => absurd h hactive
      refine .bind (.setCell (.bind ?_))
      refine (growSeed_accounted hpos hmem heval _ entered counts hentered ?_ ?_).mono
        fun _ t counts' hgrown => ?_
      · rw [Session.cellAt_withCell_self hlt, Cell.active_enter]
      · rw [Session.versionAt_withCell hlt]
        exact (hs.cells id pos).slack hidle hreuse
      · obtain ⟨ht, hunderway, hresult⟩ := hgrown
        have hlt' := ht.lt_width hpos
        refine .bind (.cell hlt' (.bind (.version hlt' (.bind (.setCell (.pure ?_))))))
        refine ⟨ht.withCell hpos ((ht.cells id pos).leave hresult), fun other place h => ?_⟩
        rw [Session.cellAt_withCell hlt', if_neg]
        · exact hunderway other place (hunder other place h)
        · rintro ⟨rfl, rfl⟩
          exact hactive h

end chart

/-- A pair that can be evaluated. -/
theorem Context.mem_pairs {ctx : Context} {id : ClauseId} {pos : Nat} {clause : Clause}
    (hclause : ctx.grammar.clause? id = some clause) (hkind : clause.isReference = false)
    (hpos : pos ≤ ctx.input.size) : (id, pos) ∈ ctx.pairs := by
  have hlt := (Array.getElem?_eq_some_iff.1 hclause).1
  simp only [pairs, Grammar.bodies, Finset.mem_product, Finset.mem_filter, Finset.mem_range]
  exact ⟨⟨hlt, by rw [hclause]; simp [hkind]⟩, by omega⟩

/-- **Matching a clause keeps the account.** The induction is on the depth. -/
theorem matchWatching_accounted (ctx : Context) : ∀ (depth : Nat) (id : ClauseId) (pos : Nat)
    (bound : Option ClauseId),
    Accounted ctx fun key => matchWatching ctx key depth .discovery id pos bound
  | 0, _, _, _ => (accounted_composable ctx).throw _
  | depth + 1, id, pos, bound => by
    show Accounted ctx fun key => matchWith ctx (fun clause =>
      evaluateWatching ctx key (matchWatching ctx key depth) .discovery id clause pos bound) .discovery
      id pos
    refine (accounted_composable ctx).matchWith ctx fun {clause} hclause hpos => ?_
    have heval : Accounted ctx fun key =>
        evaluate ctx (matchWatching ctx key depth) .discovery id clause pos bound :=
      evaluate_composable (accounted_composable ctx) (matchWatching_accounted ctx depth) id clause pos
        bound
    simp only [evaluateWatching]
    cases hkind : clause.isReference with
    | true =>
      simp only [if_true]
      exact heval
    | false =>
      simp only [Bool.false_eq_true, if_false]
      exact matchThrough_accounted hpos (Context.mem_pairs hclause hkind hpos) heval

/-! ## What the account comes to -/

namespace Session.Accounts

variable {ctx : Context} {s : Session} {counts : Counts} {work : Work}

/-- The versions of all positions make up the growth steps. -/
theorem expansions_eq (h : s.Accounts ctx counts) (hwork : s.work = some work) :
    work.expansions = ∑ pos ∈ Finset.range (ctx.input.size + 1), s.versionAt pos := by
  obtain ⟨work', hwork', -, hexpansions⟩ := h.work
  obtain rfl : work = work' := Option.some.inj (hwork.symm.trans hwork')
  exact hexpansions

/-- No position has had more versions than there were growth steps. -/
theorem versionAt_le (h : s.Accounts ctx counts) (hwork : s.work = some work) (pos : Nat) :
    s.versionAt pos ≤ work.expansions := by
  by_cases hpos : pos < ctx.input.size + 1
  · rw [h.expansions_eq hwork]
    exact Finset.single_le_sum (fun _ _ => Nat.zero_le _) (Finset.mem_range.2 hpos)
  · have hbeyond : s.chart.columns[pos]? = none := by
      rw [Array.getElem?_eq_none_iff]
      exact h.width.le.trans (Nat.le_of_not_lt hpos)
    rw [versionAt, columnAt, Chart.column?, hbeyond]
    exact Nat.zero_le _

/-- Every evaluation but the first of a pair has a growth step of its own. -/
theorem count_le (h : s.Accounts ctx counts) (hwork : s.work = some work) (id : ClauseId)
    (pos : Nat) : counts (id, pos) ≤ work.expansions + 1 :=
  ((h.cells id pos).count_le).trans (Nat.succ_le_succ (h.versionAt_le hwork pos))

/-- **The sum over all pairs**: each clause pays for the positions and for the growth steps. -/
theorem sum_le (h : s.Accounts ctx counts) (hwork : s.work = some work) :
    ∑ key ∈ ctx.pairs, counts key ≤
      ctx.grammar.bodies.card * (ctx.input.size + 1 + work.expansions) := by
  have hcolumn : ∀ id, ∑ pos ∈ Finset.range (ctx.input.size + 1), counts (id, pos) ≤
      ctx.input.size + 1 + work.expansions := by
    intro id
    calc ∑ pos ∈ Finset.range (ctx.input.size + 1), counts (id, pos)
        ≤ ∑ pos ∈ Finset.range (ctx.input.size + 1), (s.versionAt pos + 1) :=
          Finset.sum_le_sum fun pos _ => (h.cells id pos).count_le
      _ = ctx.input.size + 1 + work.expansions := by
          rw [Finset.sum_add_distrib, ← h.expansions_eq hwork, Finset.sum_const_nat fun _ _ => rfl,
            Finset.card_range, Nat.mul_one, Nat.add_comm]
  calc ∑ key ∈ ctx.pairs, counts key
      = ∑ id ∈ ctx.grammar.bodies, ∑ pos ∈ Finset.range (ctx.input.size + 1), counts (id, pos) :=
        Finset.sum_product ..
    _ ≤ ∑ _id ∈ ctx.grammar.bodies, (ctx.input.size + 1 + work.expansions) :=
        Finset.sum_le_sum fun id _ => hcolumn id
    _ = ctx.grammar.bodies.card * (ctx.input.size + 1 + work.expansions) :=
        Finset.sum_const_nat fun _ _ => rfl

end Session.Accounts

/-! ## Parses -/

namespace Job

variable {job : Job}

/-- The first phase of a parse that counts its work: the account at its end has the evaluations of each
clause at each position. -/
theorem matchTop_accounted (hstats : job.config.stats = true) {outcome : Outcome} {t : Session}
    (h : (job.matchTop job.firstPhase).run job.opening = .ok (outcome, t)) :
    ∃ counts, t.Accounts job.context counts ∧
      ∀ id pos, job.evaluationsOf id pos = counts (id, pos) := by
  have hcounters : job.config.counters = some {} := by rw [Config.counters, hstats, if_pos rfl]
  have hopening : job.opening =
      { Session.start job.context.input.size (some {}) with
        trace := [.discovery job.topRule job.input.size] } := by
    rw [opening, start, hcounters]
    rfl
  have hwatched : ∀ key, job.opening.watched (fun _ => 0) key = job.opening := by
    intro key
    rw [hopening]
    cases key <;> rfl
  have hstart : job.opening.Accounts job.context fun _ => 0 := by
    rw [hopening]
    exact .start rfl rfl
  rw [matchTop, ← matchWatching_none] at h
  obtain ⟨e, he⟩ | ⟨a, u, counts, hrun, hu, -⟩ :=
    matchWatching_accounted job.context job.context.depth job.top 0 none job.opening _ hstart
  · exact absurd (h.symm.trans he) nofun
  · have hmain := hrun none
    rw [hwatched] at hmain
    cases h.symm.trans hmain
    refine ⟨counts, hu, fun id pos => ?_⟩
    obtain ⟨work, hwork, -⟩ := hu.work
    have hpair := hrun (some (id, pos))
    rw [hwatched] at hpair
    rw [evaluationsOf, firstPhase, hpair]
    simp only [Session.watched, hwork]
    rfl

/-- The phases of a parse without repairs are the first one. -/
theorem matchPhases_unrepaired (hrecovery : job.config.recovery = false) {first : Outcome}
    {t : Session} (hfirst : (job.matchTop job.firstPhase).run job.opening = .ok (first, t)) :
    job.matchPhases.run job.start = .ok ((first, !job.covers first), t) := by
  have hrun : job.matchPhases.run job.start = _ :=
    (Session.run_bind_of_ok Session.run_note).trans (Session.run_bind_of_ok hfirst)
  rw [hrun, hrecovery]
  cases job.covers first <;> rfl

end Job

/-- **Work is linear but for growth.** A parse without repairs that counts its work reports no more
evaluations than the clauses that are no references, times the positions of the input, the end included,
and the growth steps together. The evaluations are those of the clauses at the positions, and if there
was no growth, no clause was evaluated twice at any position. -/
theorem parse_work_bounded {definitions : List Definition} {g : Grammar}
    (hb : Grammar.build definitions = .ok g) {rule : String} {top : ClauseId}
    (hr : g.rule? rule = some top) (input : String) :
    ∃ p work, parse g rule input ⟨false, true⟩ = .ok p ∧ p.work = some work ∧
      work.evaluations ≤ g.bodies.card * (input.length + 1 + work.expansions) ∧
      work.evaluations = (∑ id ∈ g.bodies, ∑ pos ∈ Finset.range (input.length + 1),
        (g.job rule top input ⟨false, true⟩).evaluationsOf id pos) ∧
      (work.expansions = 0 →
        ∀ id pos, (g.job rule top input ⟨false, true⟩).evaluationsOf id pos ≤ 1) := by
  have hg := build_wellFormed hb
  let job := g.job rule top input ⟨false, true⟩
  have hopening : job.opening.Sound job.context :=
    ⟨job.start_sound.width, job.start_sound.stored⟩
  obtain ⟨outcome, t, hfirst, -, -⟩ := (Job.matchTop_ensures (show job.grammar.WellFormed from hg)
    (hg.rule?_lt hr) job.firstPhase).run hopening
  obtain ⟨counts, ht, hcounts⟩ := Job.matchTop_accounted rfl hfirst
  obtain ⟨work, hwork, hevaluations, -⟩ := ht.work
  obtain ⟨events, hexecute⟩ := Job.execute_of_run (Job.matchPhases_unrepaired rfl hfirst)
  have hsize : job.context.input.size = input.length := size_toArray_toList input
  have hj : Job.make g rule input ⟨false, true⟩ = .ok job := Job.make_eq_ok hr
  refine ⟨_, work, parse_eq_ok hj hexecute, ?_, ?_, ?_, ?_⟩
  · rw [← hwork]
    cases outcome <;> rfl
  · rw [hevaluations, ← hsize]
    exact ht.sum_le hwork
  · simp only [show g.job rule top input ⟨false, true⟩ = job from rfl, hcounts]
    rw [hevaluations, ← hsize]
    exact Finset.sum_product ..
  · intro hnone id pos
    have hle := ht.count_le hwork id pos
    rw [hnone] at hle
    exact (hcounts id pos).le.trans hle

/-- A sum, whose first number grows: three of the ten clauses of its grammar are references. -/
theorem parse_work_bounded_sum :
    Grammar.build sumDefinitions = .ok sumGrammar ∧ sumGrammar.rule? "Sum" = some 7 ∧
      sumGrammar.bodies.card = 7 ∧
      ∃ p work, parse sumGrammar "Sum" "1+2+3" ⟨false, true⟩ = .ok p ∧ p.work = some work ∧
        work.evaluations ≤ 7 * (6 + work.expansions) := by
  have hb : Grammar.build sumDefinitions = .ok sumGrammar := rfl
  have hr : sumGrammar.rule? "Sum" = some 7 := rfl
  have hcard : sumGrammar.bodies.card = 7 := by decide
  obtain ⟨p, work, hp, hwork, hle, -, -⟩ := parse_work_bounded hb hr "1+2+3"
  rw [hcard] at hle
  exact ⟨hb, hr, hcard, p, work, hp, hwork, hle⟩

end Packrat

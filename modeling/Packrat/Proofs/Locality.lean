import Packrat.Proofs.Courses
import Packrat.Proofs.WorkBound

/-!
# What a call leaves alone

Matching a clause at a position works to the right: what the chart says about earlier positions stays as
it is. Nothing is ever made fresh again either, since versions only rise, and every cell that was under
evaluation before a call is so after it.

* `Session.Continues` — how a session may change while all work is done at a position or later.
* `growSeed_eq_ok`, `reenter_eq_ok`, `matchThrough_eq_ok`, `matchWith_eq_ok` — what a run through a cell
  consists of. These need no invariant: a run that gives a result has found all that it asked for.
* **`matchClause_continues`** — matching a clause changes a session in no other way.
-/

namespace Packrat

/-! ## The relation -/

/-- **How a session may change while work is done** at `start` or later, as far as some of its cells are
concerned. -/
structure Session.Continues (cells : ClauseId → Nat → Prop) (start : Nat) (s t : Session) : Prop where
  /-- There are as many columns. -/
  width : t.width = s.width
  /-- Earlier columns stay, with their versions and all their cells. -/
  before : ∀ {pos}, pos < start → t.columnAt pos = s.columnAt pos
  /-- Versions only rise. -/
  version : ∀ pos, s.versionAt pos ≤ t.versionAt pos
  /-- Nothing that was reported is taken back. -/
  trace : s.trace <:+ t.trace
  /-- The same cells are under evaluation, and these are kept. -/
  evolves : s.Evolves cells t

namespace Session.Continues

variable {cells fewer : ClauseId → Nat → Prop} {start pos : Nat} {s t u : Session} {id : ClauseId}

/-- A session goes on as it is. -/
theorem refl (s : Session) : s.Continues cells start s :=
  ⟨rfl, fun _ => rfl, fun _ => Nat.le_refl _, List.suffix_refl _, .of_cellAt_eq fun _ _ => rfl⟩

/-- One change after another. -/
theorem trans (h : s.Continues cells start t) (h' : t.Continues cells start u) :
    s.Continues cells start u where
  width := h'.width.trans h.width
  before hpos := (h'.before hpos).trans (h.before hpos)
  version place := (h.version place).trans (h'.version place)
  trace := h.trace.trans h'.trace
  evolves := h.evolves.trans h'.evolves

/-- A change seen from fewer cells and from fewer earlier positions. -/
theorem mono (h : s.Continues cells pos t) (hle : start ≤ pos)
    (hsub : ∀ {id pos}, fewer id pos → cells id pos) : s.Continues fewer start t where
  width := h.width
  before hlt := h.before (Nat.lt_of_lt_of_le hlt hle)
  version := h.version
  trace := h.trace
  evolves := h.evolves.mono hsub

/-- Counting. -/
theorem tallied (s : Session) (work : Option Work) : s.Continues cells start { s with work } :=
  ⟨rfl, fun _ => rfl, fun _ => Nat.le_refl _, List.suffix_refl _, .of_cellAt_eq fun _ _ => rfl⟩

/-- Reporting an event. -/
theorem noted (s : Session) (event : Event) :
    s.Continues cells start { s with trace := event :: s.trace } :=
  ⟨rfl, fun _ => rfl, fun _ => Nat.le_refl _, List.suffix_cons _ _, .of_cellAt_eq fun _ _ => rfl⟩

/-- Making a position stale. -/
theorem bumped (hlt : pos < s.width) (hle : start ≤ pos) : s.Continues cells start (s.bumped pos) where
  width := width_bumped
  before := by
    intro place hplace
    rw [Session.bumped, columnAt_modify _ hlt, if_neg (by omega)]
  version := by
    intro place
    rw [versionAt_bumped hlt]
    split
    · rename_i heq
      rw [heq]
      omega
    · exact Nat.le_refl _
  trace := List.suffix_refl _
  evolves := .bumped hlt

/-- Storing a cell, seen from the others. -/
theorem withCell {cell : Cell} (hlt : pos < s.width) (hle : start ≤ pos) :
    s.Continues (Elsewhere id pos) start (s.withCell id pos cell) where
  width := width_withCell
  before := by
    intro place hplace
    rw [Session.withCell, columnAt_modify _ hlt, if_neg (by omega)]
  version place := by rw [versionAt_withCell hlt]
  trace := List.suffix_refl _
  evolves := .withCell hlt

/-- A growth step, seen from the other cells. -/
theorem grown {outcome : Outcome} (hlt : pos < s.width) (hle : start ≤ pos) :
    s.Continues (Elsewhere id pos) start (s.grown id pos outcome) := by
  have hlt' : pos < (s.bumped pos).width := by rwa [width_bumped]
  let grown : Cell := { s.cellAt id pos with result := some outcome, version := s.versionAt pos + 1 }
  let stored := (s.bumped pos).withCell id pos grown
  have hstored : s.Continues (Elsewhere id pos) start stored :=
    (bumped hlt hle).trans (withCell hlt' hle)
  let work := s.work.map fun work => { work with expansions := work.expansions + 1 }
  have hcounted : s.Continues (Elsewhere id pos) start { stored with work } :=
    hstored.trans (tallied stored work)
  exact hcounted.trans (noted _ _)

/-- A change of all other cells and of this one. -/
theorem everywhere (h : s.Continues (Elsewhere id pos) start t)
    (hactive : (t.cellAt id pos).active = (s.cellAt id pos).active)
    (hkept : (s.cellAt id pos).active = true → (s.cellAt id pos).Kept (t.cellAt id pos)) :
    s.Continues Everywhere start t :=
  { h with evolves := h.evolves.everywhere hactive hkept }

end Session.Continues

/-! ## Runs that give a result -/

namespace Session

variable {s t : Session} {id : ClauseId} {pos : Nat}

/-- A column that was read is there. -/
theorem column_eq_ok {column : Column} (h : (Session.column pos).run s = .ok (column, t)) :
    pos < s.width ∧ column = s.columnAt pos ∧ t = s := by
  have hlt : pos < s.width := by
    by_contra hge
    have hnone : s.chart.column? pos = none := Array.getElem?_eq_none (Nat.le_of_not_lt hge)
    have hget : (get : MatchM Session).run s = .ok (s, s) := rfl
    rw [Session.column, run_bind_of_ok hget, hnone] at h
    cases h
  rw [run_column hlt] at h
  cases h
  exact ⟨hlt, rfl, rfl⟩

/-- A version that was read is that of a column. -/
theorem version_eq_ok {version : Nat} (h : (Session.version pos).run s = .ok (version, t)) :
    pos < s.width ∧ version = s.versionAt pos ∧ t = s := by
  obtain ⟨column, u, hcolumn, hpure⟩ := run_bind_eq_ok.1 h
  obtain ⟨hlt, rfl, rfl⟩ := column_eq_ok hcolumn
  cases hpure
  exact ⟨hlt, rfl, rfl⟩

/-- A cell that was read is in a column. -/
theorem cell_eq_ok {cell : Cell} (h : (Session.cell id pos).run s = .ok (cell, t)) :
    pos < s.width ∧ cell = s.cellAt id pos ∧ t = s := by
  obtain ⟨column, u, hcolumn, hpure⟩ := run_bind_eq_ok.1 h
  obtain ⟨hlt, rfl, rfl⟩ := column_eq_ok hcolumn
  cases hpure
  exact ⟨hlt, rfl, rfl⟩

/-- A position that was made stale has a column. -/
theorem bump_eq_ok {version : Nat} (h : (Session.bump pos).run s = .ok (version, t)) :
    pos < s.width ∧ version = s.versionAt pos + 1 ∧ t = s.bumped pos := by
  obtain ⟨old, u, hold, -⟩ := run_bind_eq_ok.1 h
  obtain ⟨hlt, -, -⟩ := version_eq_ok hold
  rw [run_bump hlt] at h
  cases h
  exact ⟨hlt, rfl, rfl⟩

/-- The session after an evaluation is counted. -/
def counted (s : Session) : Session :=
  { s with work := s.work.map fun work => { work with evaluations := work.evaluations + 1 } }

/-- The session after a lookup is counted that the chart answered. -/
def hit (s : Session) : Session :=
  { s with work := s.work.map fun work => { work with hits := work.hits + 1 } }

/-- The session after a clause under evaluation turns out to be left recursive. -/
def flagged (s : Session) (id : ClauseId) (pos : Nat) : Session :=
  s.withCell id pos { s.cellAt id pos with leftRecursive := true, result := some .mismatch }

/-- The session after an evaluation of a clause begins. -/
def entered (s : Session) (phase : Phase) (id : ClauseId) (pos : Nat) : Session :=
  s.withCell id pos ((s.cellAt id pos).enter phase (s.versionAt pos))

/-- The session after the only round of an evaluation. -/
def stored (s : Session) (id : ClauseId) (pos : Nat) (outcome : Outcome) : Session :=
  s.withCell id pos { s.cellAt id pos with result := some outcome }

/-- The session after an evaluation of a clause ends. -/
def left (s : Session) (phase : Phase) (id : ClauseId) (pos : Nat) : Session :=
  s.withCell id pos ((s.cellAt id pos).leave phase (s.versionAt pos))

end Session

/-- A repair that was recorded made its position stale. -/
theorem recordRepair_eq_ok {pos : Nat} {s t : Session} (h : (recordRepair pos).run s = .ok ((), t)) :
    pos < s.width ∧ t =
      { s.bumped pos with work := s.work.map fun work => { work with repairs := work.repairs + 1 } } := by
  obtain ⟨_, u, htally, h⟩ := Session.run_bind_eq_ok.1 h
  cases htally
  change (Session.bump pos >>= fun _ => (pure () : MatchM Unit)).run _ = _ at h
  obtain ⟨version, v, hbump, hpure⟩ := Session.run_bind_eq_ok.1 h
  obtain ⟨hlt, -, rfl⟩ := Session.bump_eq_ok hbump
  cases hpure
  exact ⟨hlt, rfl⟩

section cell

variable {evaluation : MatchM Outcome} {id : ClauseId} {pos : Nat} {s t : Session}

/-- **One round of growing a match**: the clause is evaluated, and then its result is no longer than the
one before, or it is stored for good, or it is stored as a growth step and another round begins. -/
theorem growSeed_eq_ok {fuel : Nat} (h : (growSeed evaluation id pos (fuel + 1)).run s = .ok ((), t)) :
    ∃ outcome u, evaluation.run s.counted = .ok (outcome, u) ∧ pos < u.width ∧
      ((u.cellAt id pos).result.any (!outcome.longerThan ·) = true ∧ t = u ∨
        (u.cellAt id pos).result.any (!outcome.longerThan ·) = false ∧
          ((u.cellAt id pos).leftRecursive = false ∧ t = u.stored id pos outcome ∨
            (u.cellAt id pos).leftRecursive = true ∧
              (growSeed evaluation id pos fuel).run (u.grown id pos outcome) = .ok ((), t))) := by
  rw [growSeed, Session.run_bind_of_ok Session.run_tally] at h
  obtain ⟨outcome, u, heval, h⟩ := Session.run_bind_eq_ok.1 h
  obtain ⟨cell, v, hcell, h⟩ := Session.run_bind_eq_ok.1 h
  obtain ⟨hlt, rfl, rfl⟩ := Session.cell_eq_ok hcell
  refine ⟨outcome, v, heval, hlt, ?_⟩
  by_cases hstop : (v.cellAt id pos).result.any (!outcome.longerThan ·) = true
  · rw [if_pos hstop] at h
    cases h
    exact .inl ⟨hstop, rfl⟩
  · rw [if_neg hstop] at h
    refine .inr ⟨Bool.eq_false_iff.2 hstop, ?_⟩
    by_cases hrecursive : (v.cellAt id pos).leftRecursive = true
    · rw [if_neg (by simp [hrecursive])] at h
      rw [Session.run_bind_of_ok (Session.run_bump hlt),
        Session.run_bind_of_ok Session.run_storeGrown] at h
      exact .inr ⟨hrecursive, h⟩
    · rw [if_pos (by simp [hrecursive])] at h
      cases h
      exact .inl ⟨Bool.eq_false_iff.2 hrecursive, rfl⟩

/-- The answer of a clause under evaluation. -/
theorem reenter_eq_ok {outcome : Outcome}
    (h : (reenter id pos (s.cellAt id pos)).run s = .ok (outcome, t)) :
    (s.cellAt id pos).result = some outcome ∧ outcome.isMatch = true ∧ t = s ∨
      outcome = .pending ∧ ((∃ seed, (s.cellAt id pos).result = some seed ∧ seed.isMatch = false) ∧ t = s ∨
        (s.cellAt id pos).result = none ∧ t = s.flagged id pos) := by
  unfold reenter at h
  split at h
  · rename_i node hresult
    cases h
    exact .inl ⟨hresult, rfl, rfl⟩
  · rename_i seed hno hresult
    cases h
    refine .inr ⟨rfl, .inl ⟨⟨seed, hresult, ?_⟩, rfl⟩⟩
    cases seed with
    | matched node => exact absurd rfl (hno node)
    | mismatch | pending => rfl
  · rename_i hnone
    cases h
    exact .inr ⟨rfl, .inr ⟨hnone, rfl⟩⟩

/-- **What a run through a cell consists of**: the stored result is reused, or the clause is under
evaluation and answered from its cell, or it is evaluated and its cell is entered, grown and left. -/
theorem matchThrough_eq_ok {ctx : Context} {phase : Phase} {outcome : Outcome}
    (h : (matchThrough ctx evaluation phase id pos).run s = .ok (outcome, t)) :
    pos < s.width ∧
      ((s.cellAt id pos).reusable? phase (s.versionAt pos) pos ctx.input.size = some outcome ∧
          t = s.hit ∨
        (s.cellAt id pos).reusable? phase (s.versionAt pos) pos ctx.input.size = none ∧
          ((s.cellAt id pos).active = true ∧
              (reenter id pos (s.cellAt id pos)).run s = .ok (outcome, t) ∨
            (s.cellAt id pos).active = false ∧
              ∃ u, (growSeed evaluation id pos (ctx.input.size + 3)).run (s.entered phase id pos) =
                  .ok ((), u) ∧ pos < u.width ∧ t = u.left phase id pos ∧
                outcome = ((u.cellAt id pos).leave phase (u.versionAt pos)).result.getD .mismatch)) := by
  obtain ⟨version, s₁, hversion, h⟩ := Session.run_bind_eq_ok.1 h
  obtain ⟨hlt, rfl, rfl⟩ := Session.version_eq_ok hversion
  obtain ⟨cell, s₂, hcell, h⟩ := Session.run_bind_eq_ok.1 h
  obtain ⟨-, rfl, rfl⟩ := Session.cell_eq_ok hcell
  refine ⟨hlt, ?_⟩
  cases hreuse : (s₂.cellAt id pos).reusable? phase (s₂.versionAt pos) pos ctx.input.size with
  | some stored =>
    rw [hreuse] at h
    cases h
    exact .inl ⟨rfl, rfl⟩
  | none =>
    rw [hreuse] at h
    refine .inr ⟨rfl, ?_⟩
    by_cases hactive : (s₂.cellAt id pos).active = true
    · simp only [hactive, if_true] at h
      exact .inl ⟨hactive, h⟩
    · simp only [hactive, if_false, Bool.false_eq_true] at h
      refine .inr ⟨Bool.eq_false_iff.2 hactive, ?_⟩
      rw [Session.run_bind_of_ok Session.run_setCell] at h
      obtain ⟨_, u, hgrow, h⟩ := Session.run_bind_eq_ok.1 h
      obtain ⟨cell, u₁, hcell, h⟩ := Session.run_bind_eq_ok.1 h
      obtain ⟨hlt', rfl, rfl⟩ := Session.cell_eq_ok hcell
      rw [Session.run_bind_of_ok (Session.run_version hlt'),
        Session.run_bind_of_ok Session.run_setCell] at h
      cases h
      exact ⟨u₁, hgrow, hlt', rfl, rfl⟩

/-! ## What matching changes -/

/-- Growing a match: the cell stays under evaluation, and the rest goes on. -/
theorem growSeed_continues (heval : ∀ {s t outcome}, evaluation.run s = .ok (outcome, t) →
      s.Continues Everywhere pos t) {fuel : Nat}
    (hactive : (s.cellAt id pos).active = true)
    (h : (growSeed evaluation id pos fuel).run s = .ok ((), t)) :
    s.Continues (Elsewhere id pos) pos t ∧ (t.cellAt id pos).active = true := by
  induction fuel generalizing s with
  | zero => cases h
  | succ fuel ih =>
    obtain ⟨outcome, u, hrun, hlt, hcases⟩ := growSeed_eq_ok h
    have hround : s.Continues Everywhere pos u := (Session.Continues.tallied s _).trans (heval hrun)
    have hother : s.Continues (Elsewhere id pos) pos u := hround.mono (Nat.le_refl pos) fun _ => trivial
    have hstill : (u.cellAt id pos).active = true := (hround.evolves.active trivial).trans hactive
    obtain ⟨-, rfl⟩ | ⟨-, ⟨-, rfl⟩ | ⟨-, hrest⟩⟩ := hcases
    · exact ⟨hother, hstill⟩
    · refine ⟨hother.trans (.withCell hlt (Nat.le_refl pos)), ?_⟩
      rw [Session.stored, Session.cellAt_withCell_self hlt]
      exact hstill
    · have hgrown : ((u.grown id pos outcome).cellAt id pos).active = true := by
        rw [Session.cellAt_grown hlt, if_pos ⟨rfl, rfl⟩]
        exact hstill
      obtain ⟨hgoes, hlast⟩ := ih hgrown hrest
      exact ⟨(hother.trans (.grown hlt (Nat.le_refl pos))).trans hgoes, hlast⟩

/-- Matching through a cell. -/
theorem matchThrough_continues {ctx : Context} {phase : Phase} {outcome : Outcome}
    (heval : ∀ {s t outcome}, evaluation.run s = .ok (outcome, t) → s.Continues Everywhere pos t)
    (h : (matchThrough ctx evaluation phase id pos).run s = .ok (outcome, t)) :
    s.Continues Everywhere pos t := by
  obtain ⟨hlt, ⟨-, rfl⟩ | ⟨-, ⟨hactive, hreenter⟩ | ⟨hinactive, u, hgrow, hlt', rfl, -⟩⟩⟩ :=
    matchThrough_eq_ok h
  · exact .tallied s _
  · obtain ⟨-, -, rfl⟩ | ⟨-, ⟨-, rfl⟩ | ⟨hnone, rfl⟩⟩ := reenter_eq_ok hreenter
    · exact .refl t
    · exact .refl t
    · refine (Session.Continues.withCell hlt (Nat.le_refl pos)).everywhere ?_ fun _ => ?_
      · rw [Session.cellAt_withCell_self hlt]
      · rw [Session.cellAt_withCell_self hlt]
        exact .inr ⟨hnone, rfl⟩
  · have hentered : ((s.entered phase id pos).cellAt id pos).active = true := by
      rw [Session.entered, Session.cellAt_withCell_self hlt, Cell.active_enter]
    obtain ⟨hgoes, -⟩ := growSeed_continues heval hentered hgrow
    have hall : s.Continues (Elsewhere id pos) pos (u.left phase id pos) :=
      ((Session.Continues.withCell hlt (Nat.le_refl pos)).trans hgoes).trans
        (.withCell hlt' (Nat.le_refl pos))
    refine hall.everywhere ?_ fun hactive => ?_
    · rw [Session.left, Session.cellAt_withCell_self hlt', hinactive]
      rfl
    · rw [hinactive] at hactive
      cases hactive

end cell

/-- **One level of matching**: beyond the input nothing matches, and anywhere else the clause is in the
table, and evaluated or matched through its cell. -/
theorem matchWith_eq_ok {ctx : Context} {evaluation : Clause → MatchM Outcome} {phase : Phase}
    {id : ClauseId} {pos : Nat} {s t : Session} {outcome : Outcome}
    (h : (matchWith ctx evaluation phase id pos).run s = .ok (outcome, t)) :
    ctx.input.size < pos ∧ outcome = .mismatch ∧ t = s ∨
      pos ≤ ctx.input.size ∧ ∃ clause, ctx.grammar.clause? id = some clause ∧
        (clause.isReference = true ∧ (evaluation clause).run s = .ok (outcome, t) ∨
          clause.isReference = false ∧
            (matchThrough ctx (evaluation clause) phase id pos).run s = .ok (outcome, t)) := by
  by_cases hbeyond : ctx.input.size < pos
  · rw [matchWith, if_pos hbeyond] at h
    cases h
    exact .inl ⟨hbeyond, rfl, rfl⟩
  have hpos : pos ≤ ctx.input.size := Nat.le_of_not_lt hbeyond
  refine .inr ⟨hpos, ?_⟩
  cases hclause : ctx.grammar.clause? id with
  | none =>
    rw [matchWith, if_neg hbeyond, Context.clause, hclause] at h
    cases h
  | some clause =>
    rw [matchWith_of_clause hpos hclause] at h
    refine ⟨clause, rfl, ?_⟩
    cases hkind : clause.isReference with
    | true => exact .inl ⟨rfl, by rwa [hkind] at h⟩
    | false => exact .inr ⟨rfl, by rwa [hkind] at h⟩

/-- Every result of a computation continues the session that it started from. -/
def ContinuesFrom (start : Nat) {α : Type} (m : Unit → MatchM α) : Prop :=
  ∀ {s t : Session} {a : α}, (m ()).run s = .ok (a, t) → s.Continues Everywhere start t

/-- Evaluating goes on from a position if its matcher does from every position. -/
theorem continuesFrom_course (ctx : Context) (start : Nat) (phase : Phase) {matcher : Matcher}
    (hmatcher : ∀ {phase id pos bound s t outcome}, (∀ other ∈ bound, ctx.Has other) →
      (matcher phase id pos bound).run s = .ok (outcome, t) → s.Continues Everywhere pos t) :
    Course ctx.Has start phase (fun _ : Unit => matcher) (ContinuesFrom start) where
  pure a := by
    intro s t b h
    cases h
    exact .refl _
  throw e := by
    intro s t b h
    cases h
  bind := by
    intro α β m f hm hf s t b h
    obtain ⟨a, u, hrun, h⟩ := Session.run_bind_eq_ok.1 h
    exact (hm hrun).trans (hf a h)
  note _ event := by
    intro s t b h
    cases h
    exact .noted s event
  repaired := by
    intro _ pos hpos s t b h
    obtain ⟨hlt, rfl⟩ := recordRepair_eq_ok h
    exact (Session.Continues.bumped hlt hpos).trans (.tallied _ _)
  consulted := by
    intro id pos bound _ hbound hpos s t outcome h
    exact (hmatcher hbound h).mono hpos fun hc => hc
  probed := by
    intro _ id pos _ hpos s t outcome h
    have hbound : ∀ other ∈ (none : Option ClauseId), ctx.Has other := nofun
    exact (hmatcher hbound h).mono hpos fun hc => hc

/-- **Matching a clause works to the right.** Columns before its position stay as they are, versions only
rise, and the cells under evaluation are the same as before. The induction is on the depth. -/
theorem matchClause_continues {ctx : Context} (hg : ctx.grammar.WellFormed) :
    ∀ {depth : Nat} {phase : Phase} {id : ClauseId} {pos : Nat} {bound : Option ClauseId} {s t : Session}
      {outcome : Outcome}, (∀ other ∈ bound, ctx.Has other) →
      (matchClause ctx depth phase id pos bound).run s = .ok (outcome, t) →
      s.Continues Everywhere pos t
  | 0, _, _, _, _, _, _, _, _, h => by cases h
  | depth + 1, phase, id, pos, bound, s, t, outcome, hbound, h => by
    obtain ⟨-, -, rfl⟩ | ⟨-, clause, hclause, hcases⟩ := matchWith_eq_ok h
    · exact .refl _
    · have heval : ∀ {s t outcome},
          (evaluate ctx (matchClause ctx depth) phase id clause pos bound).run s = .ok (outcome, t) →
          s.Continues Everywhere pos t :=
        (continuesFrom_course ctx pos phase (matchClause_continues hg)).evaluate id
          (hg.children_lt hclause) hbound (Nat.le_refl pos)
      obtain ⟨-, h⟩ | ⟨-, h⟩ := hcases
      · exact heval h
      · exact matchThrough_continues heval h

end Packrat

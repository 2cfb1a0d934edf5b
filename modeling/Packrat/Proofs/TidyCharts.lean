import Packrat.Proofs.Moments
import Packrat.Proofs.Switching

/-!
# The chart in the middle of a run

In every session that a run passes through, each entry of the chart stands for a clause that is no
reference at a position of the input, holds a settled result and no version from the future, and a match
in it is a match of its clause at its position. Each call works to the right and gives back the cells
that it takes and the phase that it found.

* `Session.held?` — the cell that is stored for a clause at a position, if there is one.
* `Cell.Fits`, **`Session.Tidy`** — what an entry is like, and a chart with such entries only.
* `tidy_invariant` — every step keeps a chart tidy.
* **`charts_stay_tidy`** — charts are tidy in the middle of every run, and calls are local.
-/

namespace Packrat

/-! ## Entries -/

/-- The cell that is stored for a clause, if there is one. -/
def Column.held? (column : Column) (id : Nat) : Option Cell := column.cells[id]?.join

/-- A stored cell is an entry, and the other entries stay. -/
theorem Column.held?_setCell (column : Column) (id other : Nat) (cell : Cell) :
    (column.setCell id cell).held? other = if other = id then some cell else column.held? other := by
  unfold setCell held?
  by_cases hlt : id < column.cells.size
  · by_cases heq : other = id
    · simp [hlt, heq]
    · simp [hlt, heq, Array.getElem?_setIfInBounds_ne (Ne.symm heq)]
  · have hsize : column.cells.size + (id - column.cells.size) = id := by omega
    by_cases heq : other = id
    · simp only [if_neg hlt, if_pos heq, Array.getElem?_push, Array.size_append, Array.size_replicate,
        hsize, Option.join_some]
    · simp only [if_neg hlt, if_neg heq, Array.getElem?_push, Array.size_append, Array.size_replicate,
        hsize, Array.getElem?_append]
      by_cases hother : other < column.cells.size
      · rw [if_pos hother]
      · rw [if_neg hother, Array.getElem?_eq_none (Nat.le_of_not_lt hother), Array.getElem?_replicate]
        split <;> rfl

namespace Session

variable {s : Session} {id other : ClauseId} {pos place : Nat}

/-- The cell that is stored for a clause at a position, if there is one. -/
def held? (s : Session) (id : ClauseId) (pos : Nat) : Option Cell := (s.columnAt pos).held? id

/-- A clause without an entry has an empty cell. -/
theorem cellAt_eq_getD (s : Session) (id : ClauseId) (pos : Nat) :
    s.cellAt id pos = (s.held? id pos).getD {} := rfl

/-- The entries after a cell was stored. -/
theorem held?_withCell {cell : Cell} (hlt : pos < s.width) :
    (s.withCell id pos cell).held? other place =
      if other = id ∧ place = pos then some cell else s.held? other place := by
  rw [held?, withCell, columnAt_modify _ hlt]
  by_cases hplace : place = pos
  · rw [if_pos hplace, Column.held?_setCell, hplace]
    simp only [and_true]
    rfl
  · rw [if_neg hplace, if_neg fun hc => hplace hc.2]
    rfl

/-- The entries after a position was made stale. -/
theorem held?_bumped (hlt : pos < s.width) : (s.bumped pos).held? other place = s.held? other place := by
  rw [held?, bumped, columnAt_modify _ hlt]
  split
  · rename_i hplace
    rw [hplace]
    rfl
  · rfl

/-- Before anything was tried there are no entries. -/
theorem held?_start (n : Nat) {work : Option Work} : (start n work).held? id pos = none := by
  rw [held?, columnAt_start]
  simp [Column.held?]

end Session

/-! ## Tidy charts -/

/-- **What an entry of the chart is like**, for a clause at a position with a version. -/
structure Cell.Fits (ctx : Context) (id : ClauseId) (pos version : Nat) (cell : Cell) : Prop where
  /-- The clause is no reference. -/
  body : ∃ clause, ctx.grammar.clause? id = some clause ∧ clause.isReference = false
  /-- The position is one of the input, or its end. -/
  pos_le : pos ≤ ctx.input.size
  /-- No result is pending. -/
  settled : cell.result ≠ some .pending
  /-- The version is one that the position has had. -/
  version_le : cell.version ≤ version
  /-- A match is one of the clause, at the position and inside the input. -/
  isMatch : ∀ node, cell.result = some (.matched node) →
    node.IsMatch id pos ∧ node.stop ≤ ctx.input.size

/-- A sound chart whose entries are what they should be. -/
structure Session.Tidy (ctx : Context) (s : Session) : Prop where
  /-- Every match in it is a match tree. -/
  sound : s.Sound ctx
  /-- Its entries are what they should be. -/
  fits : ∀ {id pos cell}, s.held? id pos = some cell → cell.Fits ctx id pos (s.versionAt pos)

namespace Session.Tidy

variable {ctx : Context} {s : Session} {id : ClauseId} {pos : Nat}

/-- No cell has a version from the future. -/
theorem version_le (h : s.Tidy ctx) : (s.cellAt id pos).version ≤ s.versionAt pos := by
  rw [cellAt_eq_getD]
  cases hentry : s.held? id pos with
  | none => exact Nat.zero_le _
  | some cell => exact (h.fits hentry).version_le

/-- No cell holds a pending result. -/
theorem settled (h : s.Tidy ctx) : (s.cellAt id pos).result ≠ some .pending := by
  rw [cellAt_eq_getD]
  cases hentry : s.held? id pos with
  | none => nofun
  | some cell => exact (h.fits hentry).settled

/-- Events and counters do not matter. -/
theorem of_chart (h : s.Tidy ctx) (work : Option Work) (trace : List Event) :
    ({ s with work, trace } : Session).Tidy ctx := ⟨⟨h.sound.width, h.sound.stored⟩, h.fits⟩

/-- Making a position stale keeps a chart tidy. -/
theorem bumped (h : s.Tidy ctx) (hpos : pos ≤ ctx.input.size) : (s.bumped pos).Tidy ctx where
  sound := h.sound.bumped hpos
  fits := by
    intro other place cell hentry
    have hlt := h.sound.lt_width hpos
    rw [held?_bumped hlt] at hentry
    have hgoes : s.Continues Everywhere 0 (s.bumped pos) := .bumped hlt (Nat.zero_le pos)
    exact { h.fits hentry with version_le := (h.fits hentry).version_le.trans (hgoes.version place) }

/-- Storing a cell for a pair that can be evaluated keeps a chart tidy if its result is settled and sound
and its version is one that the position has had. -/
theorem withCell (h : s.Tidy ctx) (hpair : (id, pos) ∈ ctx.pairs) {cell : Cell}
    (hsettled : cell.result ≠ some .pending) (hversion : cell.version ≤ s.versionAt pos)
    (hsound : ∀ outcome, cell.result = some outcome → outcome.Sound ctx id pos) :
    (s.withCell id pos cell).Tidy ctx := by
  obtain ⟨hbody, hpos⟩ := Context.of_mem_pairs hpair
  have hlt := h.sound.lt_width hpos
  refine ⟨h.sound.withCell hpos hsound, ?_⟩
  intro other place entry hentry
  rw [held?_withCell hlt] at hentry
  rw [versionAt_withCell hlt]
  split at hentry
  · rename_i hc
    obtain ⟨rfl, rfl⟩ := hc
    cases hentry
    refine ⟨hbody, hpos, hsettled, hversion, fun node hnode => ?_⟩
    have hmatches := hsound _ hnode node rfl
    exact ⟨hmatches.isMatch, hmatches.stop_le⟩
  · exact h.fits hentry

/-- Before anything was tried a chart is tidy. -/
theorem start (ctx : Context) (work : Option Work) : (Session.start ctx.input.size work).Tidy ctx where
  sound := .start ctx
  fits := by
    intro other place cell hentry
    rw [held?_start] at hentry
    cases hentry

end Session.Tidy

/-- Entering a cell keeps its version. -/
theorem Cell.version_enter (cell : Cell) (phase : Phase) (version : Nat) :
    (cell.enter phase version).version = cell.version := by
  unfold Cell.enter
  split <;> rfl

/-- Leaving a cell settles nothing that was not settled. -/
theorem Cell.settled_leave {cell : Cell} {phase : Phase} {version : Nat}
    (h : cell.result ≠ some .pending) : (cell.leave phase version).result ≠ some .pending := by
  intro hpending
  obtain ⟨old, hold, hmark⟩ := Option.map_eq_some_iff.1 hpending
  cases old with
  | matched node => split at hmark <;> cases hmark
  | mismatch => simp [Outcome.isMatch] at hmark
  | pending => exact h hold

/-- **Every step keeps a chart tidy**, in both phases. -/
theorem tidy_invariant (ctx : Context) : Invariant ctx fun _ s => s.Tidy ctx where
  sound h := h.sound
  step := by
    intro phase s t h hstep
    cases hstep with
    | noted event => exact h.of_chart _ _
    | tallied work => exact h.of_chart _ _
    | bumped hpos => exact h.bumped hpos
    | entered hpair hinactive hreuse =>
      refine h.withCell hpair (fun hpending => ?_) ?_ fun outcome houtcome => ?_
      · exact h.settled (Cell.result_enter hpending)
      · rw [Cell.version_enter]
        exact h.version_le
      · exact h.sound.stored (Cell.result_enter houtcome)
    | flagged hpair hactive hnone =>
      refine h.withCell hpair nofun h.version_le fun outcome houtcome => ?_
      cases houtcome
      exact Outcome.sound_of_not_isMatch rfl
    | stored hpair hactive hsound hsettled hlonger =>
      refine h.withCell hpair (fun hpending => hsettled (Option.some.inj hpending)) h.version_le
        fun outcome houtcome => ?_
      cases houtcome
      exact hsound
    | grown hpair hactive hsound hsettled hlonger =>
      have hpos := (Context.of_mem_pairs hpair).2
      refine ((h.bumped hpos).withCell hpair (fun hpending => hsettled (Option.some.inj hpending)) ?_
        fun outcome houtcome => ?_).of_chart _ _
      · rw [Session.versionAt_bumped (h.sound.lt_width hpos), if_pos rfl]
      · cases houtcome
        exact hsound
    | left hpair hactive hresult =>
      exact h.withCell hpair (Cell.settled_leave h.settled) (Nat.le_refl _)
        (Cell.sound_leave fun outcome houtcome => h.sound.stored houtcome)
  probed h := h
  resumed _ _ h := h
  start work := .start ctx work
  restarted _ h := h

/-! ## The middle of a run -/

/-- A letter with more letters after it. -/
def suffixDefinitions : List Definition :=
  [⟨"S", .choice [.seq [.reference "S", .lit "b"], .lit "a"]⟩]

/-- The grammar of a letter with more letters after it. -/
def suffixGrammar : Grammar where
  clauses := #[.reference "S" 4, .literal ['b'], .seq [0, 1], .literal ['a'], .choice [2, 3]]
  rules := [⟨"S", false, 4⟩]

end Packrat

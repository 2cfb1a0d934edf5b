import Packrat.Match.Parse

/-!
# What a computation on a session ensures

* **`Ensures fault I m Q`** — from every session that satisfies the invariant `I`, the computation
  `m` ends in one that satisfies `I` again, with a value that satisfies `Q`; it may break off only
  if `fault` holds. `Ensures False` is total correctness: a value is always given. `Ensures True`
  is partial correctness: nothing is said about a run that breaks off.
* `Session.columnAt`, `Session.cellAt`, `Session.versionAt` — reading a session as a total function
  of the position, and `Session.withCell`, `Session.bumped` — changing it. The computations of
  `Session` are these functions wherever the position has a column (`Session.run_cell` and its
  kin), and a stored cell is found again (`Session.cellAt_withCell`).
* `Session.Agrees` — two sessions with the same chart, as far as these functions can tell.

The invariant is the same before and after, so it can be about the session alone (what the chart
holds) or about how the session came from an earlier one.
-/

namespace Packrat

/-! ## Ensuring -/

/-- **The contract of a computation**: it keeps `I`, its value satisfies `Q`, and it breaks off
only if `fault` holds. -/
def Ensures {α : Type} (fault : Prop) (I : Session → Prop) (m : MatchM α) (Q : α → Prop) : Prop :=
  ∀ s, I s →
    match m.run s with
    | .ok (a, s') => I s' ∧ Q a
    | .error _ => fault

namespace Ensures

variable {α β : Type} {fault : Prop} {I : Session → Prop} {m : MatchM α} {Q R : α → Prop}

/-- A value is given at once. -/
theorem pure {a : α} (h : Q a) : Ensures fault I (Pure.pure a) Q := fun _ hs => ⟨hs, h⟩

/-- Breaking off needs a licence. -/
theorem throw {e : Fault} (h : fault) : Ensures fault I (MonadExcept.throw e : MatchM α) Q :=
  fun _ _ => h

/-- One computation after another. -/
theorem bind {f : α → MatchM β} {R : β → Prop} (hm : Ensures fault I m Q)
    (hf : ∀ a, Q a → Ensures fault I (f a) R) : Ensures fault I (m >>= f) R := by
  intro s hs
  have h := hm s hs
  rw [StateT.run_bind]
  cases hr : m.run s with
  | error e =>
    rw [hr] at h
    exact h
  | ok result =>
    rw [hr] at h
    exact hf result.1 h.2 result.2 h.1

/-- A weaker condition on the value. -/
theorem mono (hm : Ensures fault I m Q) (h : ∀ a, Q a → R a) : Ensures fault I m R := by
  intro s hs
  have hQ := hm s hs
  cases hr : m.run s with
  | error e =>
    rw [hr] at hQ
    exact hQ
  | ok result =>
    rw [hr] at hQ
    exact ⟨hQ.1, h _ hQ.2⟩

/-- A computation that never breaks off need not be licensed to. -/
theorem of_total (hm : Ensures False I m Q) : Ensures fault I m Q := by
  intro s hs
  have h := hm s hs
  cases hr : m.run s with
  | error e =>
    rw [hr] at h
    exact h.elim
  | ok result =>
    rw [hr] at h
    exact h

/-- A change of the session that gives no value. -/
theorem change {f : Session → Session} (h : ∀ s, I s → I (f s)) :
    Ensures fault I (modify f : MatchM Unit) fun _ => True := fun s hs => ⟨h s hs, trivial⟩

/-- A computation whose run is known. -/
theorem of_run (h : ∀ s, I s → ∃ a s', m.run s = .ok (a, s') ∧ I s' ∧ Q a) :
    Ensures fault I m Q := by
  intro s hs
  obtain ⟨a, s', hr, hI, hQ⟩ := h s hs
  rw [hr]
  exact ⟨hI, hQ⟩

/-- A run that may not break off gives a value. -/
theorem run (hm : Ensures False I m Q) {s : Session} (hs : I s) :
    ∃ a s', m.run s = .ok (a, s') ∧ I s' ∧ Q a := by
  have h := hm s hs
  cases hr : m.run s with
  | error e =>
    rw [hr] at h
    exact h.elim
  | ok result =>
    rw [hr] at h
    exact ⟨result.1, result.2, rfl, h.1, h.2⟩

/-- What a run that does not break off gives. -/
theorem of_ok (hm : Ensures fault I m Q) {s s' : Session} {a : α} (hs : I s)
    (hr : m.run s = .ok (a, s')) : I s' ∧ Q a := by
  have h := hm s hs
  rw [hr] at h
  exact h

/-- A search through a list: what is found satisfies the condition. -/
theorem findSomeM? {P : α → Prop} {f : β → MatchM (Option α)} {items : List β}
    (h : ∀ b ∈ items, Ensures fault I (f b) fun r => ∀ a, r = some a → P a) :
    Ensures fault I (items.findSomeM? f) fun r => ∀ a, r = some a → P a := by
  induction items with
  | nil => exact .pure (by simp)
  | cons b rest ih =>
    rw [List.findSomeM?]
    refine .bind (h b List.mem_cons_self) fun r hr => ?_
    cases r with
    | none => exact ih fun c hc => h c (List.mem_cons_of_mem b hc)
    | some a => exact .pure hr

/-- A search whose first hit is known. -/
theorem findSomeM?_first {f : β → MatchM (Option α)} {b : β} {a : α} {before after : List β}
    (hbefore : ∀ c ∈ before, Ensures fault I (f c) (· = none))
    (hb : Ensures fault I (f b) (· = some a)) :
    Ensures fault I ((before ++ b :: after).findSomeM? f) (· = some a) := by
  induction before with
  | nil =>
    rw [List.nil_append, List.findSomeM?]
    refine .bind hb fun r hr => ?_
    rw [hr]
    exact .pure rfl
  | cons c before ih =>
    rw [List.cons_append, List.findSomeM?]
    refine .bind (hbefore c List.mem_cons_self) fun r hr => ?_
    rw [hr]
    exact ih fun d hd => hbefore d (List.mem_cons_of_mem c hd)

/-- A search along distances whose first hit is known. -/
theorem findSomeM?_range' {f : Nat → MatchM (Option α)} {count first : Nat} {a : α} (hpos : 0 < first)
    (hle : first ≤ count) (hbefore : ∀ k < first, Ensures fault I (f k) (· = none))
    (hfirst : Ensures fault I (f first) (· = some a)) :
    Ensures fault I ((List.range' 1 count).findSomeM? f) (· = some a) := by
  have hrange : List.range' 1 count =
      List.range' 1 (first - 1) ++ first :: List.range' (first + 1) (count - first) := by
    have hcount : count = first - 1 + (count - first + 1) := by omega
    conv => lhs; rw [hcount]
    rw [← List.range'_append_1, Nat.add_sub_cancel' hpos, List.range'_succ]
  rw [hrange]
  refine findSomeM?_first (fun k hk => hbefore k ?_) hfirst
  have hin := List.mem_range'_1.1 hk
  omega

/-- A search without a hit. -/
theorem findSomeM?_none {f : β → MatchM (Option α)} {items : List β}
    (h : ∀ b ∈ items, Ensures fault I (f b) (· = none)) :
    Ensures fault I (items.findSomeM? f) (· = none) := by
  have hnever : ∀ b ∈ items, Ensures fault I (f b) fun r => ∀ a, r = some a → False := by
    intro b hb
    refine (h b hb).mono ?_
    rintro _ rfl a ha
    cases ha
  exact (findSomeM? hnever).mono fun r hr => Option.eq_none_iff_forall_ne_some.2 hr

end Ensures

/-! ## Reading and changing a session -/

namespace Session

/-- The column of a position; beyond the chart, an empty one. -/
def columnAt (s : Session) (pos : Nat) : Column := (s.chart.column? pos).getD {}

/-- The cell of a clause at a position. -/
def cellAt (s : Session) (id : ClauseId) (pos : Nat) : Cell := (s.columnAt pos).cell id

/-- The version of a position. -/
def versionAt (s : Session) (pos : Nat) : Nat := (s.columnAt pos).version

/-- The session with another cell for a clause at a position. -/
def withCell (s : Session) (id : ClauseId) (pos : Nat) (cell : Cell) : Session :=
  { s with chart := s.chart.modify pos (·.setCell id cell) }

/-- The session with the results of a position made stale. -/
def bumped (s : Session) (pos : Nat) : Session :=
  { s with chart := s.chart.modify pos Column.bump }

/-- The number of positions that have a column. -/
def width (s : Session) : Nat := s.chart.columns.size

variable {s : Session} {id other : ClauseId} {pos place : Nat}

/-! ### The computations as functions -/

/-- A computation after one whose run is known. -/
theorem run_bind_of_ok {α β : Type} {m : MatchM α} {f : α → MatchM β} {a : α} {s' : Session}
    (h : m.run s = .ok (a, s')) : (m >>= f).run s = (f a).run s' := by
  rw [StateT.run_bind, h]
  rfl

/-- A computation after another that gives a value: so does the first one. -/
theorem run_bind_eq_ok {α β : Type} {m : MatchM α} {f : α → MatchM β} {b : β} {t : Session} :
    (m >>= f).run s = .ok (b, t) ↔ ∃ a u, m.run s = .ok (a, u) ∧ (f a).run u = .ok (b, t) := by
  constructor
  · intro h
    rw [StateT.run_bind] at h
    cases hm : m.run s with
    | error e =>
      rw [hm] at h
      cases h
    | ok result =>
      rw [hm] at h
      exact ⟨result.1, result.2, rfl, h⟩
  · rintro ⟨a, u, hm, hf⟩
    rw [run_bind_of_ok hm, hf]

/-- Counting. -/
theorem run_tally {f : Work → Work} :
    (tally f).run s = .ok ((), { s with work := s.work.map f }) := rfl

/-- Reporting an event. -/
theorem run_note {event : Event} :
    (note event).run s = .ok ((), { s with trace := event :: s.trace }) := rfl

/-- Reading a column, if there is one. -/
theorem run_column_eq_elim : (column pos).run s =
    (s.chart.column? pos).elim (.error .outOfRange) fun column => .ok (column, s) := by
  have hget : (get : MatchM Session).run s = .ok (s, s) := rfl
  rw [column, run_bind_of_ok hget]
  cases s.chart.column? pos <;> rfl

/-- Reading a column. -/
theorem run_column (h : pos < s.width) : (column pos).run s = .ok (s.columnAt pos, s) := by
  have hc : s.chart.column? pos = some (s.columnAt pos) := by
    have hp : s.chart.columns[pos]? = some s.chart.columns[pos] := Array.getElem?_eq_getElem h
    rw [columnAt, Chart.column?, hp, Option.getD_some]
  rw [run_column_eq_elim, hc]
  rfl

/-- Reading a version. -/
theorem run_version (h : pos < s.width) : (version pos).run s = .ok (s.versionAt pos, s) := by
  rw [version, run_bind_of_ok (run_column h)]
  rfl

/-- Reading a cell. -/
theorem run_cell (h : pos < s.width) : (Session.cell id pos).run s = .ok (s.cellAt id pos, s) := by
  rw [Session.cell, run_bind_of_ok (run_column h)]
  rfl

/-- Storing a cell. -/
theorem run_setCell {cell : Cell} :
    (setCell id pos cell).run s = .ok ((), s.withCell id pos cell) := rfl

/-- Making a position stale. -/
theorem run_bump (h : pos < s.width) :
    (bump pos).run s = .ok (s.versionAt pos + 1, s.bumped pos) := by
  rw [bump, run_bind_of_ok (run_version h)]
  rfl

/-- Storing a longer match. -/
theorem run_storeGrown {cell : Cell} {outcome : Outcome} {version : Nat} :
    (storeGrown id pos cell outcome version).run s = .ok ((),
      { s.withCell id pos { cell with result := some outcome, version } with
        work := s.work.map fun work => { work with expansions := work.expansions + 1 }
        trace := .seedGrown id pos outcome.len? :: s.trace }) := rfl

/-! ### Reading after a change -/

/-- A change of one column, seen from any position. -/
theorem columnAt_modify (f : Column → Column) (h : pos < s.width) :
    ({ s with chart := s.chart.modify pos f } : Session).columnAt place =
      if place = pos then f (s.columnAt pos) else s.columnAt place := by
  simp only [columnAt, Chart.column?, Chart.modify, Array.getElem?_modify]
  split
  · rename_i heq
    subst heq
    have hp : s.chart.columns[pos]? = some s.chart.columns[pos] := Array.getElem?_eq_getElem h
    rw [if_pos rfl, hp]
    rfl
  · rename_i hne
    rw [if_neg (Ne.symm hne)]

/-- A stored cell is found again, and the others stay. -/
theorem cellAt_withCell {cell : Cell} (h : pos < s.width) :
    (s.withCell id pos cell).cellAt other place =
      if other = id ∧ place = pos then cell else s.cellAt other place := by
  rw [cellAt, withCell, columnAt_modify _ h]
  by_cases hp : place = pos
  · by_cases hi : other = id
    · rw [if_pos hp, if_pos ⟨hi, hp⟩, hi, Column.cell_setCell_self]
    · rw [if_pos hp, if_neg fun hc => hi hc.1, Column.cell_setCell_of_ne _ _ hi, hp]
      rfl
  · rw [if_neg hp, if_neg fun hc => hp hc.2]
    rfl

/-- The cell that was just stored. -/
theorem cellAt_withCell_self {cell : Cell} (h : pos < s.width) :
    (s.withCell id pos cell).cellAt id pos = cell := by
  rw [cellAt_withCell h, if_pos ⟨rfl, rfl⟩]

/-- Storing a cell leaves the versions alone. -/
theorem versionAt_withCell {cell : Cell} (h : pos < s.width) :
    (s.withCell id pos cell).versionAt place = s.versionAt place := by
  rw [versionAt, withCell, columnAt_modify _ h]
  split
  · rename_i hp
    rw [hp]
    rfl
  · rfl

/-- Making a position stale leaves the cells alone. -/
theorem cellAt_bumped (h : pos < s.width) : (s.bumped pos).cellAt id place = s.cellAt id place := by
  rw [cellAt, bumped, columnAt_modify _ h]
  split
  · rename_i hp
    rw [hp]
    rfl
  · rfl

/-- Making a position stale raises its version. -/
theorem versionAt_bumped (h : pos < s.width) :
    (s.bumped pos).versionAt place = if place = pos then s.versionAt pos + 1 else s.versionAt place := by
  rw [versionAt, bumped, columnAt_modify _ h]
  split <;> rfl

/-- Storing a cell keeps the shape of the chart. -/
theorem width_withCell {cell : Cell} : (s.withCell id pos cell).width = s.width :=
  Array.size_modify ..

/-- Making a position stale keeps the shape of the chart. -/
theorem width_bumped : (s.bumped pos).width = s.width := Array.size_modify ..

/-- Before anything was tried there is a column for each position, the end included. -/
theorem width_start (n : Nat) {work : Option Work} : (start n work).width = n + 1 := Array.size_replicate ..

/-- Before anything was tried all columns are empty. -/
theorem columnAt_start (n : Nat) {work : Option Work} : (start n work).columnAt pos = {} := by
  simp only [columnAt, start, Chart.start, Chart.column?, Array.getElem?_replicate]
  split <;> rfl

/-- Before anything was tried all cells are empty. -/
theorem cellAt_start (n : Nat) {work : Option Work} : (start n work).cellAt id pos = {} := by
  rw [cellAt, columnAt_start]
  simp [Column.cell]

/-! ### The same chart -/

/-- Whether the charts of two sessions have the same shape, versions and cells. -/
structure Agrees (s t : Session) : Prop where
  /-- They have as many columns. -/
  width : t.width = s.width
  /-- Each column has the same version. -/
  version : ∀ pos, t.versionAt pos = s.versionAt pos
  /-- Each cell is the same. -/
  cell : ∀ id pos, t.cellAt id pos = s.cellAt id pos

namespace Agrees

variable {s t u : Session} {id : ClauseId} {pos : Nat}

/-- Events and counters do not matter. -/
theorem of_chart_eq (h : t.chart = s.chart) : s.Agrees t := by
  obtain ⟨chart, work, trace⟩ := t
  subst h
  exact ⟨rfl, fun _ => rfl, fun _ _ => rfl⟩

/-- Counting does not matter. -/
theorem counted (s : Session) (work : Option Work) : s.Agrees { s with work } := of_chart_eq rfl

/-- One session after another. -/
theorem trans (h : s.Agrees t) (h' : t.Agrees u) : s.Agrees u where
  width := h'.width.trans h.width
  version place := (h'.version place).trans (h.version place)
  cell other place := (h'.cell other place).trans (h.cell other place)

/-- The same cell stored in both. -/
theorem withCell (h : s.Agrees t) (hlt : pos < s.width) (cell : Cell) :
    (s.withCell id pos cell).Agrees (t.withCell id pos cell) := by
  have hlt' : pos < t.width := by rwa [h.width]
  refine ⟨?_, fun place => ?_, fun other place => ?_⟩
  · rw [width_withCell, width_withCell, h.width]
  · rw [versionAt_withCell hlt', versionAt_withCell hlt, h.version]
  · rw [cellAt_withCell hlt', cellAt_withCell hlt, h.cell]

/-- Of two cells stored in one place the last one stays. -/
theorem withCell_withCell (hlt : pos < s.width) (first last : Cell) :
    (s.withCell id pos last).Agrees ((s.withCell id pos first).withCell id pos last) := by
  have hlt' : pos < (s.withCell id pos first).width := by rwa [width_withCell]
  refine ⟨?_, fun place => ?_, fun other place => ?_⟩
  · rw [width_withCell, width_withCell, width_withCell]
  · rw [versionAt_withCell hlt', versionAt_withCell hlt, versionAt_withCell hlt]
  · rw [cellAt_withCell hlt', cellAt_withCell hlt, cellAt_withCell hlt]
    split <;> rfl

/-- Storing the cell that is there changes nothing. -/
theorem withCell_self (hlt : pos < s.width) : (s.withCell id pos (s.cellAt id pos)).Agrees s := by
  refine ⟨?_, fun place => ?_, fun other place => ?_⟩
  · rw [width_withCell]
  · rw [versionAt_withCell hlt]
  · rw [cellAt_withCell hlt]
    split
    · rename_i heq
      rw [heq.1, heq.2]
    · rfl

end Agrees
end Session
end Packrat

import Packrat.Match.Node

/-!
# The chart

Results are kept in a table with one column for each position of the input, the end included. A
column holds one cell for each clause that was tried there, and a version counter.

* `Phase` — whether errors are only looked for or also repaired.
* `Cell` — what is known about one clause at one position.
* `Column` — the cells of one position. `Column.cell` and `Column.setCell` satisfy the two laws of
  a table for every index (`Column.cell_setCell_self`, `Column.cell_setCell_of_ne`).
* `Chart` — the columns.
* `Cell.reusable?` — when a stored result answers a lookup.

Bumping a version makes all results of that position stale: a cell counts only while its version
is that of its column.
-/

namespace Packrat

/-- The two passes over an input. -/
inductive Phase where
  /-- Plain matching. -/
  | discovery
  /-- Matching with repairs. -/
  | recovery
deriving DecidableEq, Repr

/-! ## Cells -/

/-- What is known about one clause at one position. -/
structure Cell where
  /-- The last result. -/
  result : Option Outcome := none
  /-- Whether the clause is being evaluated at this position right now. -/
  active : Bool := false
  /-- Whether an evaluation of the clause has come back to it at this position. -/
  leftRecursive : Bool := false
  /-- The version of the column when the result was stored. -/
  version : Nat := 0
  /-- The phase that stored the result. -/
  phase : Phase := .discovery
deriving DecidableEq, Repr

namespace Cell

/-- Whether a match at the start that does not reach the end is to be tried again in the other
phase. -/
def mustRetry (cell : Cell) (phase : Phase) (pos inputLen : Nat) (outcome : Outcome) : Bool :=
  outcome.isComplete && pos == 0 && outcome.node?.any (·.stop < inputLen) && cell.phase != phase

/-- The stored result, if it answers a lookup in a phase at a version of the column. A complete
match serves both phases unless it is left recursive; anything else serves only its own. -/
def reusable? (cell : Cell) (phase : Phase) (version pos inputLen : Nat) : Option Outcome :=
  cell.result.filter fun outcome =>
    cell.version == version && !cell.mustRetry phase pos inputLen outcome
      && ((outcome.isComplete && !cell.leftRecursive) || cell.phase == phase)

/-- The cell at the start of an evaluation: a result that is stale, or left recursive and of the
other phase, is dropped. -/
def enter (cell : Cell) (phase : Phase) (version : Nat) : Cell :=
  if cell.version != version || (cell.leftRecursive && cell.phase != phase) then
    { cell with active := true, result := none }
  else { cell with active := true }

/-- The cell at the end of an evaluation: the match of a left-recursive clause is marked. -/
def leave (cell : Cell) (phase : Phase) (version : Nat) : Cell :=
  let result := cell.result.map fun outcome =>
    if cell.leftRecursive && outcome.isMatch then outcome.markGrown else outcome
  { cell with active := false, version, phase, result }

end Cell

/-! ## Columns -/

/-- The cells of one position. -/
structure Column where
  /-- How often the results of this position have been made stale. -/
  version : Nat := 0
  /-- The cells by clause; missing ones have not been tried. -/
  cells : Array (Option Cell) := #[]
deriving DecidableEq, Repr

namespace Column

/-- The cell of a clause; a clause that was not tried has an empty one. -/
def cell (column : Column) (id : Nat) : Cell := (column.cells[id]?.join).getD {}

/-- Stores the cell of a clause. -/
def setCell (column : Column) (id : Nat) (cell : Cell) : Column :=
  { column with
    cells :=
      if id < column.cells.size then column.cells.setIfInBounds id (some cell)
      else (column.cells ++ Array.replicate (id - column.cells.size) none).push (some cell) }

/-- Makes the results of the column stale. -/
def bump (column : Column) : Column := { column with version := column.version + 1 }

/-- How many clauses have been tried. -/
def count (column : Column) : Nat := column.cells.countP Option.isSome

/-- A stored cell is found again. -/
theorem cell_setCell_self (column : Column) (id : Nat) (cell : Cell) :
    (column.setCell id cell).cell id = cell := by
  unfold setCell Column.cell
  by_cases h : id < column.cells.size
  · simp [h]
  · have hsize : column.cells.size + (id - column.cells.size) = id := by omega
    simp only [if_neg h, Array.getElem?_push, Array.size_append, Array.size_replicate, hsize,
      if_true, Option.join_some, Option.getD_some]

/-- Storing a cell leaves the other clauses alone. -/
theorem cell_setCell_of_ne (column : Column) {id other : Nat} (cell : Cell)
    (hne : other ≠ id) : (column.setCell id cell).cell other = column.cell other := by
  unfold setCell Column.cell
  by_cases h : id < column.cells.size
  · simp [h, Array.getElem?_setIfInBounds_ne (Ne.symm hne)]
  · have hsize : column.cells.size + (id - column.cells.size) = id := by omega
    simp only [if_neg h, Array.getElem?_push, Array.size_append, Array.size_replicate, hsize,
      if_neg hne, Array.getElem?_append]
    by_cases ho : other < column.cells.size
    · simp [ho]
    · rw [if_neg ho, Array.getElem?_eq_none (Nat.le_of_not_lt ho), Array.getElem?_replicate]
      split <;> rfl

end Column

/-! ## The table -/

/-- One column for each position of the input, the end included. -/
structure Chart where
  /-- The columns by position. -/
  columns : Array Column
deriving DecidableEq, Repr

namespace Chart

/-- The chart of an input before anything was tried. -/
def start (inputLen : Nat) : Chart := ⟨Array.replicate (inputLen + 1) {}⟩

/-- The column of a position. -/
def column? (chart : Chart) (pos : Nat) : Option Column := chart.columns[pos]?

/-- Changes the column of a position. -/
def modify (chart : Chart) (pos : Nat) (f : Column → Column) : Chart :=
  ⟨chart.columns.modify pos f⟩

/-- How many pairs of a clause and a position have been tried. -/
def count (chart : Chart) : Nat :=
  chart.columns.foldl (fun total column => total + column.count) 0

end Chart
end Packrat

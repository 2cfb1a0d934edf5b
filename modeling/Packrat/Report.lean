import Packrat.Ast.Json

/-!
# Reports

What is printed about a parse.

* `Format` — the three forms of a report.
* `Elapsed` — a span of time, with its text.
* `Work.toJson`, `Work.report` — the counters.
* `ErrorReport` — a syntax error with its description.
* **`Parse.report`** — a parse in a format. The time that it took is not part of a parse and is
  passed in.
-/

namespace Packrat

/-! ## Formats -/

/-- The forms of a report. -/
inductive Format where
  /-- The dump of the match tree. -/
  | tree
  /-- The drawing of the syntax tree. -/
  | ast
  /-- A JSON document. -/
  | json
deriving DecidableEq, Repr

namespace Format

/-- The format of a name; the case of letters does not matter. -/
def ofName? (name : String) : Option Format :=
  let lower := name.toList.map Char.toLower
  if lower = "tree".toList then some .tree
  else if lower = "ast".toList then some .ast
  else if lower = "json".toList then some .json
  else none

/-- What is said about a name that is no format. -/
def unknownMessage (name : String) : String :=
  "Unknown format: " ++ name ++ ". Supported: tree, ast, json"

end Format

/-! ## Time -/

/-- A span of time in nanoseconds. -/
structure Elapsed where
  /-- The nanoseconds. -/
  nanos : Nat
deriving DecidableEq, Repr

namespace Elapsed

/-- A decimal number with as many places as needed: `whole` and `part / 10 ^ places`. -/
def decimal (whole part places : Nat) : String :=
  let digits := (toString part).toList
  let padded := List.replicate (places - digits.length) '0' ++ digits
  let kept := (padded.reverse.dropWhile (· == '0')).reverse
  toString whole ++ (if kept.isEmpty then "" else "." ++ String.ofList kept)

/-- A span in the largest unit of which it holds at least one. -/
def text (e : Elapsed) : String :=
  if 1000000000 ≤ e.nanos then decimal (e.nanos / 1000000000) (e.nanos % 1000000000) 9 ++ "s"
  else if 1000000 ≤ e.nanos then decimal (e.nanos / 1000000) (e.nanos % 1000000) 6 ++ "ms"
  else if 1000 ≤ e.nanos then decimal (e.nanos / 1000) (e.nanos % 1000) 3 ++ "µs"
  else decimal e.nanos 0 0 ++ "ns"

/-- A span as JSON. -/
def toJson (e : Elapsed) : Json :=
  .obj [("secs", .nat (e.nanos / 1000000000)), ("nanos", .nat (e.nanos % 1000000000))]

end Elapsed

/-! ## Counters -/

/-- The total work of a run: the evaluations, without the lookups that the chart answered. -/
def Work.total (work : Work) : Nat := work.evaluations

/-- The counters as JSON, with the time of the run. -/
def Work.toJson (work : Work) (elapsed : Elapsed) : Json :=
  .obj [("clause_matches", .nat work.evaluations), ("cache_hits", .nat work.hits),
    ("lr_expansions", .nat work.expansions), ("recovery_attempts", .nat work.repairs),
    ("parse_time", elapsed.toJson)]

/-- The counters as text, with the time of the run. -/
def Work.report (work : Work) (elapsed : Elapsed) : String :=
  "clause matches: " ++ toString work.evaluations
    ++ "\ncache hits: " ++ toString work.hits
    ++ "\nlr expansions: " ++ toString work.expansions
    ++ "\nrecoveries: " ++ toString work.repairs
    ++ "\ntime: " ++ elapsed.text ++ "\n"

/-! ## Errors -/

/-- A syntax error with its description in grammar notation. -/
structure ErrorReport where
  /-- Where the error is. -/
  pos : Nat
  /-- How much input was passed over. -/
  len : Nat
  /-- Its description. -/
  message : String
deriving DecidableEq, Repr

/-- An error report as JSON. -/
def ErrorReport.toJson (r : ErrorReport) : Json :=
  .obj [("pos", .nat r.pos), ("len", .nat r.len), ("message", .str r.message)]

namespace Parse

/-- The reports of the syntax errors. -/
def errorReports (p : Parse) : List ErrorReport :=
  p.syntaxErrors.map fun e => ⟨e.pos, e.len, e.describe p.grammar⟩

/-! ## Whole parses -/

/-- A parse as JSON. -/
def toJson (p : Parse) (elapsed : Elapsed) : Json :=
  .obj ([("top_rule", .str p.topRule), ("has_syntax_errors", .bool p.hasErrors),
      ("errors", .arr (p.errorReports.map ErrorReport.toJson)), ("ast", (Ast.ofParse p).toJson)]
    ++ p.work.toList.map (fun work => ("stats", work.toJson elapsed)))

/-- **A parse in a format**, each form with a final line break. -/
def report (p : Parse) (elapsed : Elapsed) : Format → String
  | .tree => p.pretty
  | .ast => (Ast.ofParse p).pretty p.input ++ "\n"
  | .json => (p.toJson elapsed).pretty ++ "\n"

end Parse
end Packrat

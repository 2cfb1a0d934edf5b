import Packrat.CommandLine.Args
import Packrat.Spec.Run

/-!
# Running a command

* `ReadError` — why a file cannot be read.
* `Host` — what a command needs of its surroundings: the contents of files and the time that an
  evaluation takes.
* `Output` — what a command leaves: an exit code and two texts.
* **`Invocation.run`** — runs a command.

The exit code is 0 for success, 1 if the input has syntax errors, and 2 if the command failed, in
which case the reason stands on the error text.
-/

namespace Packrat
namespace CommandLine

/-! ## Surroundings -/

/-- Why a file cannot be read. -/
inductive ReadError where
  /-- There is no such file. -/
  | notFound
  /-- The name is that of a directory. -/
  | isDirectory
  /-- The path leads on from a file as if it were a directory. -/
  | notDirectory
  /-- The path, or a name in it, is longer than any there is. -/
  | nameTooLong
  /-- The contents are no text. -/
  | notText
  /-- Any other reason. -/
  | other (reason : String)
deriving DecidableEq, Repr

/-- The wording of the reason. -/
def ReadError.message : ReadError → String
  | .notFound => "No such file or directory (os error 2)"
  | .isDirectory => "Is a directory (os error 21)"
  | .notDirectory => "Not a directory (os error 20)"
  | .nameTooLong => "File name too long (os error 36)"
  | .notText => "stream did not contain valid UTF-8"
  | .other reason => reason

/-- The surroundings of a command. -/
structure Host (m : Type → Type) where
  /-- The contents of a file. -/
  read : String → m (Except ReadError String)
  /-- A value, with the time that its evaluation took. -/
  timed : {α : Type} → (Unit → α) → m (α × Elapsed)

/-- What a command leaves. -/
structure Output where
  /-- The exit code. -/
  exitCode : Nat
  /-- The text on the standard output. -/
  out : String
  /-- The text on the standard error. -/
  err : String
deriving DecidableEq, Repr

namespace Output

/-- The output of a command that failed. -/
def failure (reason : String) : Output := ⟨2, "", "Error: " ++ reason ++ "\n"⟩

/-- The output of a command from its result, or from the reason of its failure. -/
def ofResult : Except String Output → Output
  | .ok output => output
  | .error reason => failure reason

end Output

/-! ## Commands -/

variable {m : Type → Type} [Monad m]

/-- Reads a file; `what` says what it holds, for the message. -/
def readFile (host : Host m) (what path : String) : ExceptT String m String := do
  match ← ExceptT.lift (host.read path) with
  | .ok text => return text
  | .error e => throw ("cannot read " ++ what ++ " " ++ path ++ ": " ++ e.message)

/-- Reads the specification in a file. -/
def loadGrammar (host : Host m) (path : String) : ExceptT String m Grammar := do
  let spec ← readFile host "grammar" path
  match Spec.read spec with
  | .ok g => return g
  | .error e => throw e.message

/-- The names of the rules, one a line, the transparent ones marked. -/
def ruleList (g : Grammar) : String :=
  String.join (g.rules.map fun rule => (if rule.transparent then "~" else "") ++ rule.name ++ "\n")

/-- Checks a specification. -/
def runCheck (host : Host m) (path : String) (print : Bool) : ExceptT String m Output := do
  let g ← loadGrammar host path
  return ⟨0, if print then g.render else ruleList g, ""⟩

/-- The input of a parse. -/
def loadInput (host : Host m) (options : ParseOptions) : ExceptT String m String :=
  match options.input, options.text with
  | some path, _ => readFile host "input" path
  | none, some text => return text
  | none, none => throw "no input given"

/-- What is printed about a parse. -/
def parseOutput (p : Parse) (elapsed : Elapsed) (format : Format) : Output :=
  { exitCode := if p.hasErrors then 1 else 0
    out := p.report elapsed format
    err := (p.work.map (·.report elapsed)).getD ""
      ++ String.join (p.descriptions.map fun text => "syntax error: " ++ text ++ "\n") }

/-- Parses an input. -/
def runParse (host : Host m) (options : ParseOptions) : ExceptT String m Output := do
  let g ← loadGrammar host options.grammar
  let input ← loadInput host options
  let config : Config := { recovery := !options.noRecovery, stats := options.stats }
  match Job.make g options.rule input config with
  | .error e => throw e.message
  | .ok job =>
    let ((p, _), elapsed) ← ExceptT.lift (host.timed fun _ => job.run)
    return parseOutput p elapsed options.format

/-- **Runs a command.** -/
def Invocation.run (host : Host m) (invocation : Invocation) : m Output :=
  Output.ofResult <$> ExceptT.run
    (match invocation.command with
    | .parse options => runParse host options
    | .check grammar print => runCheck host grammar print)

end CommandLine
end Packrat

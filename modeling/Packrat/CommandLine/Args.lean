import Packrat.Report

/-!
# Command-line arguments

* `Command`, `Invocation` — what a command line asks for.
* `UsageError` — the ways in which a command line is answered without running anything, with the
  exit code of each.
* `Opt` — the options; `Opt.ofLong?` and `Opt.ofShort?` find them among those of a command.
* `Scan` — the options given so far, and the one that waits for its value.
* **`Invocation.ofArgs`** — reads a command line.

Arguments are read from left to right, and the first fault decides. A value may follow its option as
an argument of its own or be attached to it: `-g v`, `-gv`, `-g=v`, `--grammar v`, `--grammar=v`.
Short flags may be written together, and an option with a value may end such a cluster. No option is
given twice. A value that is an argument of its own is looked at only when the next option comes or
the command line ends.
-/

namespace Packrat
namespace CommandLine

/-! ## What is asked for -/

/-- What to parse and how to show it. -/
structure ParseOptions where
  /-- The file of the specification. -/
  grammar : String
  /-- The top rule. -/
  rule : String
  /-- The file of the input. -/
  input : Option String
  /-- The input itself. -/
  text : Option String
  /-- The form of the report. -/
  format : Format
  /-- Whether the counters are shown. -/
  stats : Bool
  /-- Whether the input is left unrepaired. -/
  noRecovery : Bool
deriving DecidableEq, Repr

/-- The commands. -/
inductive Command where
  /-- Parses an input. -/
  | parse (options : ParseOptions)
  /-- Reads a specification, and prints it or the names of its rules. -/
  | check (grammar : String) (print : Bool)
deriving DecidableEq, Repr

/-- A command line. -/
structure Invocation where
  /-- Whether progress is told. -/
  verbose : Bool
  /-- The command. -/
  command : Command
deriving DecidableEq, Repr

/-- Why a command line is not run. -/
inductive UsageError where
  /-- There are no arguments at all. -/
  | noArguments
  /-- There is no command. -/
  | missingSubcommand
  /-- There is no such command. -/
  | invalidSubcommand
  /-- An option that is needed is not given. -/
  | missingRequired
  /-- An option is given twice, or together with one that excludes it. -/
  | conflict
  /-- An argument fits nowhere. -/
  | unknownArgument
  /-- An option has no value, or one that is empty where it must not be. -/
  | invalidValue
  /-- A flag is given a value. -/
  | tooManyValues
  /-- A value is refused. -/
  | refusedValue
  /-- The version is asked for. -/
  | showVersion
  /-- Help is asked for. -/
  | showHelp
deriving DecidableEq, Repr

/-- The exit code of a command line that is not run. -/
def UsageError.exitCode : UsageError → Nat
  | .showVersion | .showHelp => 0
  | _ => 2

/-! ## Options -/

/-- The options of all commands. -/
inductive Opt where
  | verbose
  | help
  | version
  | grammar
  | rule
  | input
  | text
  | format
  | stats
  | noRecovery
  | print
deriving DecidableEq, Repr

namespace Opt

/-- The long name. -/
def long : Opt → List Char
  | .verbose => "verbose".toList
  | .help => "help".toList
  | .version => "version".toList
  | .grammar => "grammar".toList
  | .rule => "rule".toList
  | .input => "input".toList
  | .text => "text".toList
  | .format => "format".toList
  | .stats => "stats".toList
  | .noRecovery => "no-recovery".toList
  | .print => "print".toList

/-- The short name. -/
def short? : Opt → Option Char
  | .verbose => some 'v'
  | .help => some 'h'
  | .version => some 'V'
  | .grammar => some 'g'
  | .rule => some 'r'
  | .input => some 'i'
  | .text => some 't'
  | .format => some 'f'
  | .stats => none
  | .noRecovery => none
  | .print => some 'p'

/-- Whether the option has a value; the others are flags. -/
def takesValue : Opt → Bool
  | .grammar | .rule | .input | .text | .format => true
  | _ => false

/-- The option with a long name. -/
def ofLong? (table : List Opt) (name : List Char) : Option Opt := table.find? (·.long == name)

/-- The option with a short name. -/
def ofShort? (table : List Opt) (name : Char) : Option Opt := table.find? (·.short? == some name)

/-- Refuses values that an option cannot have: a file name is not empty, and a format exists. -/
def checkValue (opt : Opt) (value : String) : Except UsageError Unit :=
  match opt with
  | .grammar | .input => if value = "" then throw .invalidValue else return ()
  | .format => if (Format.ofName? value).isNone then throw .refusedValue else return ()
  | _ => return ()

end Opt

/-- The options before the command. -/
def rootOptions : List Opt := [.verbose, .help, .version]

/-- The options of the command that parses. -/
def parseOptions : List Opt :=
  [.grammar, .rule, .input, .text, .format, .stats, .noRecovery, .verbose, .help]

/-- The options of the command that checks. -/
def checkOptions : List Opt := [.grammar, .print, .verbose, .help]

/-! ## Reading options -/

/-- The options read so far. -/
structure Scan where
  /-- The options given, with their values; flags have none. -/
  given : List (Opt × Option String) := []
  /-- The last option, while its value is still to be looked at or to come. -/
  waiting : Option (Opt × Option String) := none

namespace Scan

/-- Whether an option was given. -/
def has (scan : Scan) (opt : Opt) : Bool := scan.given.any (·.1 == opt)

/-- The value of an option. -/
def value? (scan : Scan) (opt : Opt) : Option String := (scan.given.lookup opt).join

/-- Adds an option, once. -/
def give (scan : Scan) (opt : Opt) (value : Option String) : Except UsageError Scan := do
  if scan.has opt then throw .conflict
  if let some text := value then opt.checkValue text
  return { scan with given := scan.given ++ [(opt, value)] }

/-- Adds the option that waits; without a value it is refused. -/
def settle (scan : Scan) : Except UsageError Scan :=
  match scan.waiting with
  | none => return scan
  | some (_, none) => throw .invalidValue
  | some (opt, some value) => { scan with waiting := none }.give opt (some value)

/-- Adds a flag. -/
def flag (scan : Scan) (opt : Opt) : Except UsageError Scan := do
  let scan ← scan.settle
  match opt with
  | .help => throw .showHelp
  | .version => throw .showVersion
  | opt => scan.give opt none

/-- Adds an option with its attached value, or lets it wait for one. -/
def option (scan : Scan) (opt : Opt) (attached : Option (List Char)) : Except UsageError Scan := do
  let scan ← scan.settle
  match attached with
  | some value => scan.give opt (some (String.ofList value))
  | none => return { scan with waiting := some (opt, none) }

/-- Reads an argument that starts with two hyphens, without them. -/
def long (table : List Opt) (scan : Scan) (argument : List Char) : Except UsageError Scan := do
  let name := argument.takeWhile (· != '=')
  let attached := ((argument.dropWhile (· != '=')).tail?)
  match Opt.ofLong? table name with
  | none => throw .unknownArgument
  | some opt =>
    if opt.takesValue then scan.option opt attached
    else if attached.isSome then throw .tooManyValues
    else scan.flag opt

/-- Reads an argument that starts with one hyphen, without it. -/
def short (table : List Opt) (scan : Scan) : List Char → Except UsageError Scan
  | [] => return scan
  | c :: rest => do
    match Opt.ofShort? table c with
    | none => throw .unknownArgument
    | some opt =>
      if opt.takesValue then
        match rest with
        | [] => scan.option opt none
        | '=' :: value => scan.option opt (some value)
        | value => scan.option opt (some value)
      else
        let scan ← scan.flag opt
        short table scan rest

/-- Reads an argument that is no option: the value of the option that waits for one. -/
def plain (scan : Scan) (argument : String) : Except UsageError Scan :=
  match scan.waiting with
  | some (opt, none) => return { scan with waiting := some (opt, some argument) }
  | _ => throw .unknownArgument

/-- Reads the arguments of a command. After two hyphens alone nothing may follow. -/
def all (table : List Opt) (scan : Scan) : List String → Except UsageError Scan
  | [] => scan.settle
  | argument :: rest => do
    match argument.toList with
    | ['-', '-'] => if rest.isEmpty then scan.settle else throw .unknownArgument
    | '-' :: '-' :: name => all table (← scan.long table name) rest
    | '-' :: c :: cluster => all table (← scan.short table (c :: cluster)) rest
    | _ => all table (← scan.plain argument) rest

end Scan

/-! ## Commands -/

/-- Reads the arguments of the command that parses. -/
def readParse (args : List String) : Except UsageError (Bool × Command) := do
  let scan ← Scan.all parseOptions {} args
  if scan.has .input && scan.has .text then throw .conflict
  match scan.value? .grammar, scan.value? .rule with
  | some grammar, some rule =>
    if !scan.has .input && !scan.has .text then throw .missingRequired
    let format := ((scan.value? .format).bind Format.ofName?).getD .tree
    let options := ⟨grammar, rule, scan.value? .input, scan.value? .text, format, scan.has .stats,
      scan.has .noRecovery⟩
    return (scan.has .verbose, .parse options)
  | _, _ => throw .missingRequired

/-- Reads the arguments of the command that checks. -/
def readCheck (args : List String) : Except UsageError (Bool × Command) := do
  let scan ← Scan.all checkOptions {} args
  match scan.value? .grammar with
  | some grammar => return (scan.has .verbose, .check grammar (scan.has .print))
  | none => throw .missingRequired

/-- What asking for help by name is answered with: commands have no commands of their own. -/
def helpAbout : List String → UsageError
  | [] | ["parse"] | ["check"] | ["help"] => .showHelp
  | _ => .invalidSubcommand

/-- Whether a name is that of a command. -/
def isCommand (name : String) : Bool := name == "parse" || name == "check" || name == "help"

/-- Reads the arguments from the options before the command on. -/
def readRoot (scan : Scan) : List String → Except UsageError Invocation
  | [] => throw (if scan.given.isEmpty then .noArguments else .missingSubcommand)
  | argument :: rest => do
    if argument = "parse" then
      let (verbose, command) ← readParse rest
      return ⟨scan.has .verbose || verbose, command⟩
    else if argument = "check" then
      let (verbose, command) ← readCheck rest
      return ⟨scan.has .verbose || verbose, command⟩
    else if argument = "help" then throw (helpAbout rest)
    else
      match argument.toList with
      | ['-', '-'] =>
        match rest with
        | [] => throw (if scan.given.isEmpty then .noArguments else .missingSubcommand)
        | name :: _ => throw (if isCommand name then .unknownArgument else .invalidSubcommand)
      | '-' :: '-' :: name => readRoot (← scan.long rootOptions name) rest
      | '-' :: c :: cluster => readRoot (← scan.short rootOptions (c :: cluster)) rest
      | _ => throw .invalidSubcommand

/-- **Reads a command line**, without the name of the program. -/
def Invocation.ofArgs (args : List String) : Except UsageError Invocation := readRoot {} args

end CommandLine
end Packrat

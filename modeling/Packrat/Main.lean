import Packrat.CommandLine.Run

/-!
# The program

Reads the command line, runs the command against the file system and the clock, and prints what the
command leaves.
-/

namespace Packrat
namespace CommandLine

/-- The number of an error, which the system gives with either sign. -/
def magnitude (code : UInt32) : Nat := min code.toNat (0 - code).toNat

/-- The reason for a failed read. -/
def ReadError.ofError : IO.Error → ReadError
  | .noFileOrDirectory _ _ _ => .notFound
  | .inappropriateType _ code _ => if magnitude code = 20 then .notDirectory else .isDirectory
  | error@(.invalidArgument _ code _) =>
    if magnitude code = 36 then .nameTooLong else .other (toString error)
  | error => .other (toString error)

/-- Reads a file as text. -/
def readText (path : String) : IO (Except ReadError String) := do
  try
    match String.fromUTF8? (← IO.FS.readBinFile path) with
    | some text => return .ok text
    | none => return .error .notText
  catch error => return .error (.ofError error)

/-- The file system and the clock. -/
def realHost : Host IO :=
  { read := readText
    timed := fun value => do
      let start ← IO.monoNanosNow
      let result ← IO.lazyPure value
      let stop ← IO.monoNanosNow
      return (result, ⟨stop - start⟩) }

/-- How the program is called. -/
def usage : String :=
  "Check PEG grammars and parse input with them\n\n"
    ++ "Usage: squirrel [-v] parse -g FILE -r RULE (-i FILE | -t TEXT) [-f tree|ast|json]"
    ++ " [--stats] [--no-recovery]\n"
    ++ "       squirrel [-v] check -g FILE [-p]\n"

/-- What is printed for a command line that is not run. -/
def UsageError.output (error : UsageError) : Output :=
  match error with
  | .showHelp => ⟨error.exitCode, usage, ""⟩
  | .showVersion => ⟨error.exitCode, "squirrel 0.3.0\n", ""⟩
  | _ => ⟨error.exitCode, "", usage⟩

end CommandLine
end Packrat

open Packrat.CommandLine in
/-- Runs the program. -/
def main (args : List String) : IO UInt32 := do
  let output ←
    match Invocation.ofArgs args with
    | .ok invocation => invocation.run realHost
    | .error error => pure error.output
  IO.print output.out
  IO.eprint output.err
  return output.exitCode.toUInt32

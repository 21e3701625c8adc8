import Featherweight.CommandLine

/-!
# The executable

Reads the file that the command line names and prints what the run leaves behind.
-/

namespace Featherweight.CommandLine

/-- Deeper evaluations than this exhaust the machine first. -/
def fuel : Nat := 1000000000

def usage : String := "usage: featherweight [--check] [--report] FILE"

def readContent (path : String) : IO FileContent := do
  try
    return .bytes (← IO.FS.readBinFile path)
  catch
    | .noFileOrDirectory .. => return .missing
    | .inappropriateType _ 21 _ => return .unreadable .directory
    | e => return .unreadable (.system (toString e))

def execute (options : Options) : IO UInt32 := do
  match run fuel options (← readContent options.path) with
  | some r =>
    IO.eprint r.err
    IO.print r.out
    return r.exitCode
  | none =>
    IO.eprintln "evaluation did not end"
    return 1

end Featherweight.CommandLine

open Featherweight.CommandLine in
def main (args : List String) : IO UInt32 := do
  match Options.parse? args with
  | some options => execute options
  | none =>
    IO.eprintln usage
    return 2

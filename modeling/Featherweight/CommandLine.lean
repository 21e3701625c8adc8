import Featherweight.Run

/-!
# The command line

`[--check] [--report] path` runs the program in a file and prints the value of
its main term, or with `--check` only the term's type. Warnings and failures are
lines on the error output, and a failure makes the exit code 1. All diagnostics
fit on one line each, so `--report` adds nothing to them.
-/

namespace Featherweight

namespace CommandLine

structure Options where
  checkOnly : Bool
  path : String
deriving DecidableEq

def Options.parse? (args : List String) : Option Options :=
  let (flags, paths) := args.partition (·.startsWith "-")
  match paths with
  | [path] =>
    if flags.all (["--check", "--report"].contains ·) then
      some ⟨flags.contains "--check", path⟩
    else
      none
  | _ => none

structure Result where
  exitCode : UInt32
  out : String
  err : String
deriving DecidableEq

def Result.success (warnings : List Warning) (text : String) : Result :=
  ⟨0, text ++ "\n", String.join (warnings.map fun w => "warning: " ++ w.message ++ "\n")⟩

def Result.failure (f : Failure) : Result := ⟨1, "", f.message ++ "\n"⟩

def answer (fuel : Nat) (options : Options) (content : FileContent) :
    Attempt Failure (List Warning × String) := do
  if options.checkOnly then
    let c ← Accepted.ofFile options.path content
    return (c.warnings, c.ty.text)
  else
    let o ← Evaluated.ofFile fuel options.path content
    return (o.warnings, o.value.text)

def run (fuel : Nat) (options : Options) (content : FileContent) : Option Result :=
  (answer fuel options content).run.map fun
    | .ok (warnings, text) => .success warnings text
    | .error f => .failure f

end CommandLine

end Featherweight

import Featherweight.ClassTable.Validation
import Featherweight.Failure
import Featherweight.Typing.Program

/-!
# Checking and running source text

Source text is read, its classes become a table, the program is checked and its
main term evaluated. The first failure ends the run.
-/

namespace Featherweight

/-- A program that passed all checks, with the type of its main term. -/
structure Accepted where
  program : Program
  table : ClassTable
  ty : Ty
  warnings : List Warning
deriving DecidableEq

def Accepted.ofProgram (p : Program) : Except Failure Accepted := do
  let t ← (ClassTable.ofClasses p.classes).mapError .table
  match (Typing.typeOfProgram t p).run.run [] with
  | (.ok T, warnings) => return ⟨p, t, T, warnings⟩
  | (.error e, _) => throw (.type e)

def Accepted.ofSource (source : String) : Attempt Failure Accepted := do
  let p ← (Program.ofSource source).adapt .parse
  Accepted.ofProgram p

structure Evaluated where
  value : Value
  warnings : List Warning
deriving DecidableEq

def Evaluated.ofSource (fuel : Nat) (source : String) : Attempt Failure Evaluated := do
  let c ← Accepted.ofSource source
  let v ← (eval c.table fuel .empty c.program.term).adapt (Failure.eval · c.program.span)
  return ⟨v, c.warnings⟩

inductive FileContent where
  | missing
  | unreadable (fault : ReadFault)
  | bytes (content : ByteArray)

def FileContent.source (content : FileContent) (path : String) : Except Failure String :=
  match content with
  | missing => .error (.missing path)
  | unreadable fault => .error (.unreadable path fault)
  | bytes b =>
    match String.fromUTF8? b with
    | some source => .ok source
    | none => .error (.unreadable path .notUtf8)

def Accepted.ofFile (path : String) (content : FileContent) : Attempt Failure Accepted := do
  Accepted.ofSource (← content.source path)

def Evaluated.ofFile (fuel : Nat) (path : String) (content : FileContent) :
    Attempt Failure Evaluated := do
  Evaluated.ofSource fuel (← content.source path)

end Featherweight

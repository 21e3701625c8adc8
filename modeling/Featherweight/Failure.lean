import Featherweight.Evaluation
import Featherweight.Parse.Program
import Featherweight.Typing.Fault

/-!
# Failures of a run

Everything that can end a run early, with the code, the place and the texts by
which it is reported. The message of a failure names the stage it belongs to; a
fault of the class table belongs to the class table wherever it comes up.
-/

namespace Featherweight

inductive ReadFault where
  | directory
  | notUtf8
  | system (reason : String)
deriving DecidableEq

def ReadFault.message : ReadFault → String
  | directory => "Is a directory (os error 21)"
  | notUtf8 => "stream did not contain valid UTF-8"
  | system reason => reason

inductive Failure where
  | missing (path : String)
  | unreadable (path : String) (fault : ReadFault)
  | parse (error : Parse.Error)
  | table (fault : TableFault)
  | type (error : TypeError)
  -- Carries the span of the main term.
  | eval (fault : EvalFault) (span : Span)
deriving DecidableEq

namespace Failure

def span? : Failure → Option Span
  | missing _ | unreadable _ _ | table _ => none
  | parse e => some e.span
  | type e => some e.span
  | eval _ span => some span

def code : Failure → String
  | missing _ | unreadable _ _ => "E0001"
  | parse _ => "E0002"
  | table _ => "E0003"
  | type _ => "E0004"
  | eval _ _ => "E0005"

/-- What is wrong, without the stage. -/
def detail : Failure → String
  | missing path => "can't find file \"" ++ path ++ "\""
  | unreadable path fault => "can't read \"" ++ path ++ "\": " ++ fault.message
  | parse e => e.detail
  | table fault => fault.message
  | type e => e.fault.message
  | eval fault _ => fault.message

def message : Failure → String
  | f@(missing _) | f@(unreadable _ _) => f.detail
  | parse e => e.message
  | table fault | type ⟨.table fault, _⟩ | eval (.table fault) _ => "class table: " ++ fault.message
  | type e => "type check error: " ++ e.fault.message
  | eval fault _ => "evaluation error: " ++ fault.message

def cause? : Failure → Option String
  | missing _ => none
  | unreadable _ fault => some fault.message
  | parse e => some e.message
  | f => some f.detail

end Failure

end Featherweight

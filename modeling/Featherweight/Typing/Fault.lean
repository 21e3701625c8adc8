import Featherweight.Declaration
import Featherweight.Fault

/-!
# Faults and warnings of type checking

Every fault is blamed on one declaration, whose span a `TypeError` carries. A
cast between unrelated classes can never succeed; it is no fault, only a warning.
-/

namespace Featherweight

inductive ConstructorFault where
  | name (constructor cls : String)
  | inheritedCount
  | inheritedParam
  | superArg
  | ownCount
  | ownParam
deriving DecidableEq

def ConstructorFault.message : ConstructorFault → String
  | name C D => "constructor name \"" ++ C ++ "\" does not match class \"" ++ D ++ "\""
  | inheritedCount => "didn't cover all the supertype's fields"
  | inheritedParam => "constructor parameter error"
  | superArg => "constructor super argument error"
  | ownCount => "too many fields or arguments"
  | ownParam => "constructor field parameter error"

inductive TypeFault where
  | unboundVariable (name : String)
  | unboundTypeVar (name : String)
  | boundViolation (arg : Ty) (bound : ClassTy)
  | unknownField (cls : ClassTy) (field : String)
  | unknownMethod (cls : ClassTy) (method : String)
  | argumentCount (expected found : Nat)
  | typeArgumentCount (expected found : Nat)
  | notSubtype (found expected : Ty)
  | invalidOverride (method : String)
  | constructor (fault : ConstructorFault)
  | table (fault : TableFault)
deriving DecidableEq

def TypeFault.message : TypeFault → String
  | unboundVariable x => "unbound variable \"" ++ x ++ "\""
  | unboundTypeVar X => "type variable \"" ++ X ++ "\" is not well formed"
  | boundViolation T N => "type argument " ++ T.text ++ " must be subtype of bound " ++ N.text
  | unknownField N f => "unknown field \"" ++ f ++ "\" in " ++ N.text
  | unknownMethod N m => "unknown method \"" ++ m ++ "\" in " ++ N.text
  | argumentCount expected found =>
    "incorrect number of arguments: expected " ++ toString expected ++ ", found " ++ toString found
  | typeArgumentCount expected found =>
    "incorrect number of type arguments: expected " ++ toString expected ++ ", found " ++
      toString found
  | notSubtype S T => S.text ++ " is not a subtype of " ++ T.text
  | invalidOverride m => "invalid override of method \"" ++ m ++ "\""
  | constructor fault => fault.message
  | table fault => fault.message

instance : MonadLift (Except TableFault) (Except TypeFault) := ⟨Except.mapError .table⟩

structure TypeError where
  fault : TypeFault
  span : Span
deriving DecidableEq

structure Warning where
  source : ClassTy
  target : ClassTy
  span : Span
deriving DecidableEq

def Warning.message (w : Warning) : String :=
  "stupid cast from " ++ w.source.text ++ " to " ++ w.target.text

end Featherweight

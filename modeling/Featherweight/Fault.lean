/-!
# Faults

A computation that fails gives a fault. A check is a sequence of requirements, and
the first that is not met is its fault. A class table has faults of two kinds: what
can be wrong with a list of classes, and what can go wrong in a look-up.

Two computations of this library need not end: running a program, and reading a
token list that stops in the middle. They take fuel and give `none` when it does
not last. A fault is a result.
-/

namespace Featherweight

inductive TableFault where
  | duplicateClass (name : String)
  | redefinedObject
  | unknownClass (name : String)
  | arityMismatch (expected found : Nat)
  | cycle (name : String)
  | duplicateField (name : String)
  | duplicateMethod (name : String)
  | duplicateTypeVar (name : String)
  | unknownMethod (name : String)
deriving DecidableEq

def TableFault.message : TableFault → String
  | duplicateClass C => "duplicate class name \"" ++ C ++ "\""
  | redefinedObject => "cannot define Object"
  | unknownClass C => "unknown class \"" ++ C ++ "\""
  | arityMismatch expected found =>
    "wrong number of type arguments: expected " ++ toString expected ++ ", found " ++ toString found
  | cycle C => "class \"" ++ C ++ "\" introduces a subtyping cycle"
  | duplicateField f => "duplicate field name \"" ++ f ++ "\""
  | duplicateMethod m => "duplicate method name \"" ++ m ++ "\""
  | duplicateTypeVar X => "duplicate type variable \"" ++ X ++ "\""
  | unknownMethod m => "unknown method \"" ++ m ++ "\""

def require {ε : Type} (p : Prop) [Decidable p] (fault : ε) : Except ε Unit :=
  if p then .ok () else .error fault

theorem require_eq_ok_iff {ε : Type} {p : Prop} [Decidable p] {fault : ε} :
    require p fault = .ok () ↔ p := by
  unfold require
  split <;> simp_all

theorem require_eq_error_iff {ε : Type} {p : Prop} [Decidable p] {fault e : ε} :
    require p fault = .error e ↔ ¬ p ∧ fault = e := by
  unfold require
  split <;> simp_all

abbrev Attempt (ε : Type) := ExceptT ε Option

namespace Attempt

def ofExcept {ε α : Type} (x : Except ε α) : Attempt ε α := ExceptT.mk (some x)

def noResult {ε α : Type} : Attempt ε α := ExceptT.mk none

instance {ε : Type} : MonadLift (Except ε) (Attempt ε) := ⟨ofExcept⟩

end Attempt

end Featherweight

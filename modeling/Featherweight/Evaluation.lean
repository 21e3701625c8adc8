import Featherweight.Subtyping
import Featherweight.Value

/-!
# Evaluation

Terms are evaluated by value, receivers before arguments and arguments from left
to right. A call runs the method's body in a new frame on top of the caller's
environment. Only casts look at types, and they compare class types exactly.

Fuel bounds the depth of the evaluation. With enough of it the result does not
depend on it; a term without a result has none for any amount.
-/

namespace Featherweight

inductive EvalFault where
  | badCast (value : Value) (target : ClassTy)
  | unknownVariable (name : String)
  | unknownField (cls : ClassTy) (field : String)
  | argumentCount (expected found : Nat)
  | table (fault : TableFault)
deriving DecidableEq

def EvalFault.message : EvalFault → String
  | badCast v N => "invalid cast of " ++ v.text ++ " to " ++ N.text
  | unknownVariable x => "unknown variable \"" ++ x ++ "\""
  | unknownField N f => "unknown field \"" ++ f ++ "\" in " ++ N.text
  | argumentCount expected found =>
    "incorrect number of arguments: expected " ++ toString expected ++ ", found " ++ toString found
  | table fault => fault.message

instance : MonadLift (Except TableFault) (Except EvalFault) := ⟨Except.mapError .table⟩

def Value.get (t : ClassTable) (v : Value) (f : String) : Except EvalFault Value := do
  match ((← t.fields v.cls).findIdx? (·.name = f)).bind (v.fields[·]?) with
  | some w => return w
  | none => throw (.unknownField v.cls f)

def Value.castTo (t : ClassTable) (v : Value) (N : ClassTy) : Except EvalFault Value := do
  if ← t.subtype .empty v.cls.toTy N.toTy then
    return v
  else
    throw (.badCast v N)

/-- The body that a call of `m` on `v` runs, and the frame it runs in. -/
def Value.invoke (t : ClassTable) (v : Value) (m : String) (Vs : List Ty) (args : List Value) :
    Except EvalFault (Frame × Term) := do
  let b ← t.methodBody m Vs v.cls
  require (args.length = b.params.length) (.argumentCount b.params.length args.length)
  return (b.params.zip args ++ [("this", v)], b.body)

def eval (t : ClassTable) : Nat → Env → Term → Attempt EvalFault Value
  | 0, _, _ => .noResult
  | n + 1, ρ, e =>
    match e with
    | .var x =>
      match ρ.get? x with
      | some v => return v
      | none => throw (.unknownVariable x)
    | .field e f => do
      let v ← eval t n ρ e
      v.get t f
    | .call e m Vs es => do
      let v ← eval t n ρ e
      let vs ← es.mapM (eval t n ρ)
      let (frame, body) ← v.invoke t m Vs vs
      eval t n (ρ.push frame) body
    | .new N es => do
      let vs ← es.mapM (eval t n ρ)
      return ⟨N, vs⟩
    | .cast N e => do
      let v ← eval t n ρ e
      v.castTo t N

end Featherweight

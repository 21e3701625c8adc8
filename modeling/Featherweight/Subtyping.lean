import Featherweight.ClassTable.Basic
import Featherweight.Typing.Fault

/-!
# Subtyping and well-formedness

A type environment gives type variables their bounds. A type variable lies below
its bound, and a class type below every class type it extends; type arguments
are invariant.

A class type is well formed when its arguments are, and each lies below the
bound of its parameter. That bound may mention the other arguments.
-/

namespace Featherweight

/-- Type variables with their bounds, the latest first. -/
structure TypeEnv where
  params : List TypeParam
deriving DecidableEq

namespace TypeEnv

def empty : TypeEnv := ⟨[]⟩

/-- Binds the parameters in turn. A variable bound before is bound anew. -/
def add (Δ : TypeEnv) (Xs : List TypeParam) : TypeEnv := ⟨Xs.reverse ++ Δ.params⟩

def bound? (Δ : TypeEnv) (X : String) : Option ClassTy :=
  (Δ.params.find? (·.name = X)).map TypeParam.bound

/-- The least class type above a type. -/
def bound (Δ : TypeEnv) : Ty → Except TypeFault ClassTy
  | .inst C Ts => .ok ⟨C, Ts⟩
  | .var X =>
    match Δ.bound? X with
    | some N => .ok N
    | none => .error (.unboundTypeVar X)

end TypeEnv

namespace ClassTable

def below (t : ClassTable) (N : ClassTy) (T : Ty) : Except TableFault Bool :=
  if N.toTy = T then
    return true
  else
    return (← t.ancestry N).any (·.superType.toTy = T)

def subtype (t : ClassTable) (Δ : TypeEnv) (S T : Ty) : Except TableFault Bool :=
  if S = T then
    return true
  else
    match S with
    | .inst C Ss => t.below ⟨C, Ss⟩ T
    | .var X =>
      match Δ.bound? X with
      | some N => t.below N T
      | none => return false

def requireBounds (t : ClassTable) (Δ : TypeEnv) (σ : Subst) :
    List Ty → List TypeParam → Except TypeFault Unit
  | T :: Ts, X :: Xs => do
    let N := σ.classTy X.bound
    require (← t.subtype Δ T N.toTy) (.boundViolation T N)
    t.requireBounds Δ σ Ts Xs
  | _, _ => return

mutual

def requireWellFormed (t : ClassTable) (Δ : TypeEnv) : Ty → Except TypeFault Unit
  | .var X =>
    match Δ.bound? X with
    | some _ => return
    | none => throw (.unboundTypeVar X)
  | .inst C Ts =>
    if ClassTy.mk C Ts = .object then
      return
    else do
      t.requireAllWellFormed Δ Ts
      let Xs ← t.typeParams C
      let σ ← Subst.instantiate Xs Ts
      t.requireBounds Δ σ Ts Xs

def requireAllWellFormed (t : ClassTable) (Δ : TypeEnv) : List Ty → Except TypeFault Unit
  | [] => return
  | T :: Ts => do
    t.requireWellFormed Δ T
    t.requireAllWellFormed Δ Ts

end

/-- A method of this type may stand in a subclass of `N` for whatever `m` means
there. The overridden method's type parameters are renamed; then bounds and
parameter types have to be the same, and the result type may be narrower. -/
def allowsOverride (t : ClassTable) (Δ : TypeEnv) (m : String) (N : ClassTy) (new : MethodType) :
    Except TableFault Bool := do
  match ← t.methodType? m N with
  | none => return true
  | some old =>
    if new.typeParams.length ≠ old.typeParams.length ∨
        new.paramTypes.length ≠ old.paramTypes.length then
      return false
    else
      let σ ← Subst.instantiate old.typeParams (new.typeParams.map fun X => .var X.name)
      if new.typeParams.map TypeParam.bound = old.typeParams.map (fun X => σ.classTy X.bound) ∧
          new.paramTypes = old.paramTypes.map σ.ty then
        t.subtype Δ new.returnType (σ.ty old.returnType)
      else
        return false

end ClassTable

end Featherweight

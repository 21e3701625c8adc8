import Featherweight.Subtyping

/-!
# Types of terms

`typeOf` gives a term its type or the first fault met in evaluation order.
Warnings gather on the way and are kept when a fault follows.
-/

namespace Featherweight

/-- Checking fails with `ε` and gathers warnings either way. -/
abbrev CheckM (ε : Type) := ExceptT ε (StateM (List Warning))

instance : MonadLift (Except TypeFault) (CheckM TypeFault) := ⟨fun x => ExceptT.mk (pure x)⟩

abbrev VarEnv := List (String × Ty)

namespace Typing

def requireSubtype (t : ClassTable) (Δ : TypeEnv) (found expected : Ty) :
    Except TypeFault Unit := do
  require (← t.subtype Δ found expected) (.notSubtype found expected)

def fieldType (t : ClassTable) (N : ClassTy) (f : String) : Except TypeFault Ty := do
  match (← t.fields N).find? (·.name = f) with
  | some b => return b.ty
  | none => throw (.unknownField N f)

def callType (t : ClassTable) (Δ : TypeEnv) (N : ClassTy) (m : String) (Vs : List Ty)
    (argCount : Nat) : Except TypeFault (List Ty × Ty) := do
  match ← t.methodType? m N with
  | none => throw (.unknownMethod N m)
  | some T =>
    t.requireAllWellFormed Δ Vs
    require (Vs.length = T.typeParams.length)
      (.typeArgumentCount T.typeParams.length Vs.length)
    let σ ← Subst.instantiate T.typeParams Vs
    t.requireBounds Δ σ Vs T.typeParams
    require (argCount = T.paramTypes.length) (.argumentCount T.paramTypes.length argCount)
    return (T.paramTypes.map σ.ty, σ.ty T.returnType)

def newTypes (t : ClassTable) (Δ : TypeEnv) (N : ClassTy) (argCount : Nat) :
    Except TypeFault (List Ty) := do
  t.requireWellFormed Δ N.toTy
  let fs ← t.fields N
  require (argCount = fs.length) (.argumentCount fs.length argCount)
  return fs.map Binding.ty

def related (t : ClassTable) (Δ : TypeEnv) (M N : ClassTy) : Except TableFault Bool := do
  if ← t.subtype Δ M.toTy N.toTy then
    return true
  else
    t.subtype Δ N.toTy M.toTy

mutual

/-- The type of a term. Warnings carry the span `site`. -/
def typeOf (t : ClassTable) (Δ : TypeEnv) (Γ : VarEnv) (site : Span) : Term → CheckM TypeFault Ty
  | .var x =>
    match Γ.lookup x with
    | some T => return T
    | none => throw (.unboundVariable x)
  | .field e f => do
    let T ← typeOf t Δ Γ site e
    let N ← Δ.bound T
    fieldType t N f
  | .call e m Vs es => do
    let T ← typeOf t Δ Γ site e
    let N ← Δ.bound T
    let (params, result) ← callType t Δ N m Vs es.length
    requireArgs t Δ Γ site es params
    return result
  | .new N es => do
    let params ← newTypes t Δ N es.length
    requireArgs t Δ Γ site es params
    return N.toTy
  | .cast N e => do
    t.requireWellFormed Δ N.toTy
    let T ← typeOf t Δ Γ site e
    let M ← Δ.bound T
    let possible ← related t Δ M N
    modify (· ++ if possible then [] else [⟨M, N, site⟩])
    return N.toTy

def requireArgs (t : ClassTable) (Δ : TypeEnv) (Γ : VarEnv) (site : Span) :
    List Term → List Ty → CheckM TypeFault Unit
  | e :: es, T :: Ts => do
    let S ← typeOf t Δ Γ site e
    requireSubtype t Δ S T
    requireArgs t Δ Γ site es Ts
  | _, _ => return

end

end Typing

end Featherweight

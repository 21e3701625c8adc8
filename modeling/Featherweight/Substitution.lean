import Featherweight.Declaration
import Featherweight.Fault

/-!
# Type substitution

A substitution maps type variables to types and leaves all others alone. It is
applied at once: what it puts in is not substituted again. The calculus has no
binders inside types and terms, so nothing is renamed.
-/

namespace Featherweight

/-- Pairs of a type variable and its type. The first pair for a variable counts. -/
structure Subst where
  pairs : List (String × Ty)
deriving DecidableEq

namespace Subst

/-- Maps type parameters to as many arguments. Of parameters with one name the
last counts. -/
def instantiate (params : List TypeParam) (args : List Ty) : Except TableFault Subst :=
  if params.length = args.length then
    .ok ⟨((params.map TypeParam.name).zip args).reverse⟩
  else
    .error (.arityMismatch params.length args.length)

def isEmpty (σ : Subst) : Bool := σ.pairs.isEmpty

def var (σ : Subst) (X : String) : Ty := (σ.pairs.lookup X).getD (.var X)

mutual

def ty (σ : Subst) : Ty → Ty
  | .var X => σ.var X
  | .inst C Ts => .inst C (σ.tys Ts)

def tys (σ : Subst) : List Ty → List Ty
  | [] => []
  | T :: Ts => σ.ty T :: σ.tys Ts

end

def classTy (σ : Subst) (N : ClassTy) : ClassTy := ⟨N.name, σ.tys N.args⟩

def typeParam (σ : Subst) (X : TypeParam) : TypeParam := ⟨X.name, σ.classTy X.bound⟩

def binding (σ : Subst) (b : Binding) : Binding := ⟨σ.ty b.ty, b.name⟩

/-- The method's own type parameters are not bound here: a pair for one of them
applies to its occurrences too. -/
def methodType (σ : Subst) (T : MethodType) : MethodType :=
  ⟨T.typeParams.map σ.typeParam, T.paramTypes.map σ.ty, σ.ty T.returnType⟩

mutual

def term (σ : Subst) : Term → Term
  | .var x => .var x
  | .field e f => .field (σ.term e) f
  | .call e m Vs es => .call (σ.term e) m (σ.tys Vs) (σ.terms es)
  | .new N es => .new (σ.classTy N) (σ.terms es)
  | .cast N e => .cast (σ.classTy N) (σ.term e)

def terms (σ : Subst) : List Term → List Term
  | [] => []
  | e :: es => σ.term e :: σ.terms es

end

theorem tys_eq_map (σ : Subst) (Ts : List Ty) : σ.tys Ts = Ts.map σ.ty := by
  induction Ts with
  | nil => rfl
  | cons T Ts ih => simp [tys, ih]

theorem terms_eq_map (σ : Subst) (es : List Term) : σ.terms es = es.map σ.term := by
  induction es with
  | nil => rfl
  | cons e es ih => simp [terms, ih]

end Subst

end Featherweight

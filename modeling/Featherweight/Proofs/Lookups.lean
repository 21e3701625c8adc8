import Featherweight.Proofs.Members
import Featherweight.Proofs.Typing

/-!
# Look-ups and capture

Seen from a class type, a method's type has the type arguments of the class put in
under the method's own type parameters, and these are not renamed. A type variable of
the class type that is named like one of them is captured. `Apart` says that a look-up
captures nothing, and `lookups` lists the look-ups that checking makes: one for each
call, in the class type of its receiver, and one for each method, in the supertype of
its class.
-/

namespace Featherweight

/-- No method of the class has a type parameter named like one of the class. -/
def ClassDecl.DistinctScopes (c : ClassDecl) : Prop :=
  ∀ d ∈ c.methods, ∀ P ∈ d.typeParams, P.name ∉ c.typeParams.map TypeParam.name

instance (c : ClassDecl) : Decidable c.DistinctScopes :=
  inferInstanceAs (Decidable (∀ d ∈ c.methods, ∀ P ∈ d.typeParams, _))

namespace ClassTable

variable {t : ClassTable} {N : ClassTy} {a : Ancestor} {m X Y : String} {d : MethodDecl}

/-- No type parameter of the method found occurs in the class type it is looked up in. -/
def Apart (t : ClassTable) (m : String) (N : ClassTy) : Prop :=
  ∀ T, t.methodType? m N = .ok (some T) → ∀ P ∈ T.typeParams, P.name ∉ N.vars

instance (t : ClassTable) (m : String) (N : ClassTy) : Decidable (t.Apart m N) :=
  match h : t.methodType? m N with
  | .ok (some T) => decidable_of_iff (∀ P ∈ T.typeParams, P.name ∉ N.vars)
      ⟨fun hT U hU => by cases h.symm.trans hU; exact hT, fun hap => hap T h⟩
  | .ok none => isTrue fun _ hT => nomatch h.symm.trans hT
  | .error _ => isTrue fun _ hT => nomatch h.symm.trans hT

end ClassTable

namespace Subst

theorem names_methodType (σ : Subst) (d : MethodDecl) :
    (σ.methodType d.type).typeParams.map TypeParam.name = d.typeParams.map TypeParam.name := by
  simp [methodType, typeParam, MethodDecl.type]

theorem instantiate_methodType (σ : Subst) (d : MethodDecl) (Vs : List Ty) :
    instantiate (σ.methodType d.type).typeParams Vs = instantiate d.typeParams Vs :=
  instantiate_congr (names_methodType σ d)

end Subst

namespace ClassTable

variable {t : ClassTable} {N : ClassTy} {a : Ancestor} {m X Y : String} {d : MethodDecl}

theorem Apart.not_mem_vars (hv : t.Valid) (h : t.Apart m N) (hd : t.Finds m N a d)
    (hX : X ∈ d.typeParams.map TypeParam.name) : X ∉ N.vars := by
  rw [← Subst.names_methodType a.subst d] at hX
  obtain ⟨P, hP, rfl⟩ := List.mem_map.1 hX
  exact h _ (hv.methodType?_eq_some_iff.2 ⟨a, d, hd, rfl⟩) P hP

theorem Apart.not_mem (hv : t.Valid) (hs : t.Scoped) (h : t.Apart m N) (hd : t.Finds m N a d)
    (hX : X ∈ a.subst.names) (hY : Y ∈ (a.subst.var X).vars) :
    Y ∉ d.typeParams.map TypeParam.name :=
  fun hYd => h.not_mem_vars hv hd hYd (hd.mem_vars hs hX hY)

section Instance

variable {Vs : List Ty} {κ : Subst} (hs : t.Scoped) (hf : t.Finds m N a d)
  (hκ : Subst.instantiate d.typeParams Vs = .ok κ)
include hs hf hκ

theorem Finds.mem_vars_param
    (hY : Y ∈ a.decl.typeParams.map TypeParam.name ∨ Y ∈ d.typeParams.map TypeParam.name)
    (hX : X ∈ (κ.ty (a.subst.var Y)).vars) : X ∈ N.vars ∨ ∃ V ∈ Vs, X ∈ V.vars := by
  have hnames {Z : String} : Z ∈ κ.names ↔ Z ∈ d.typeParams.map TypeParam.name :=
    Subst.mem_names_of_instantiate hκ
  have harg {Z : String} (hZ : Z ∈ κ.names) : κ.var Z ∈ Vs :=
    Subst.var_mem_of_instantiate hκ (hnames.1 hZ)
  by_cases hYa : Y ∈ a.subst.names
  · obtain ⟨Z, hZ, hXZ⟩ := Subst.mem_vars_ty.1 hX
    by_cases hZκ : Z ∈ κ.names
    · exact .inr ⟨_, harg hZκ, hXZ⟩
    · rw [Subst.var_of_not_mem hZκ] at hXZ
      cases List.mem_singleton.1 hXZ
      exact .inl (hf.mem_vars hs hYa hZ)
  · have hYd := hY.resolve_left fun h => hYa (hf.mem_names.2 h)
    rw [Subst.var_of_not_mem hYa] at hX
    exact .inr ⟨_, harg (hnames.2 hYd), hX⟩

theorem Finds.mem_vars_of_scope {S : Ty}
    (hS : ∀ Y ∈ S.vars,
      Y ∈ a.decl.typeParams.map TypeParam.name ∨ Y ∈ d.typeParams.map TypeParam.name)
    (hX : X ∈ (κ.ty (a.subst.ty S)).vars) : X ∈ N.vars ∨ ∃ V ∈ Vs, X ∈ V.vars := by
  rw [← Subst.ty_andThen] at hX
  obtain ⟨Y, hY, hXY⟩ := Subst.mem_vars_ty.1 hX
  rw [Subst.var_andThen] at hXY
  exact hf.mem_vars_param hs hκ (hS Y hY) hXY

theorem Finds.mem_vars_instance {S : Ty} (hS : t.WellFormed (d.env a.decl) S)
    (hX : X ∈ (κ.ty (a.subst.ty S)).vars) : X ∈ N.vars ∨ ∃ V ∈ Vs, X ∈ V.vars :=
  hf.mem_vars_of_scope hs hκ (fun _ => MethodDecl.mem_typeParams_of_wellFormed hS) hX

theorem Finds.closed_body (hN : N.toTy.Closed) (hVs : ∀ V ∈ Vs, V.Closed)
    (hbody : d.body.AllTypes fun T => ∀ Y ∈ T.vars,
      Y ∈ a.decl.typeParams.map TypeParam.name ∨ Y ∈ d.typeParams.map TypeParam.name) :
    (κ.term (a.subst.term d.body)).AllTypes Ty.Closed := by
  rw [← Subst.term_andThen]
  refine Subst.allTypes_term hbody fun T hT => List.eq_nil_iff_forall_not_mem.2 fun X hX => ?_
  rw [Subst.ty_andThen] at hX
  rcases hf.mem_vars_of_scope hs hκ hT hX with h | ⟨V, hV, h⟩
  · exact absurd h hN.not_mem
  · exact absurd h (hVs V hV).not_mem

end Instance

end ClassTable

namespace Typing

open CheckM

variable {t : ClassTable} {Δ : TypeEnv} {Γ : VarEnv} {N : ClassTy} {e : Term}

/-- The class type in which a call on this term looks its method up. -/
def receiver? (t : ClassTable) (Δ : TypeEnv) (Γ : VarEnv) (e : Term) : Option ClassTy :=
  match ((typeOf t Δ Γ ⟨0, 0⟩ e).run.run []).1 with
  | .ok T => (Δ.bound T).toOption
  | .error _ => none

theorem receiver?_eq_some {S : Ty} (he : HasType t Δ Γ e S) (hN : Δ.bound S = .ok N) :
    receiver? t Δ Γ e = some N := by
  have hgives : ((typeOf t Δ Γ ⟨0, 0⟩ e).run.run []).1 = .ok S := gives_typeOf_iff.2 he
  rw [receiver?, hgives]
  simp [hN, Except.toOption]

mutual

def lookups (t : ClassTable) (Δ : TypeEnv) (Γ : VarEnv) : Term → List (String × ClassTy)
  | .var _ => []
  | .field e _ => lookups t Δ Γ e
  | .call e m _ es =>
    (receiver? t Δ Γ e).toList.map (m, ·) ++ lookups t Δ Γ e ++ lookupsAll t Δ Γ es
  | .new _ es => lookupsAll t Δ Γ es
  | .cast _ e => lookups t Δ Γ e

def lookupsAll (t : ClassTable) (Δ : TypeEnv) (Γ : VarEnv) : List Term → List (String × ClassTy)
  | [] => []
  | e :: es => lookups t Δ Γ e ++ lookupsAll t Δ Γ es

end

theorem mem_lookupsAll {es : List Term} {q : String × ClassTy} :
    q ∈ lookupsAll t Δ Γ es ↔ ∃ e ∈ es, q ∈ lookups t Δ Γ e := by
  induction es with
  | nil => simp [lookupsAll]
  | cons e es ih => simp [lookupsAll, ih]

end Typing

open Typing

def MethodDecl.lookups (t : ClassTable) (c : ClassDecl) (d : MethodDecl) :
    List (String × ClassTy) :=
  (d.name, c.superType) :: Typing.lookups t (d.env c) (methodVars c d) d.body

/-- The look-ups of methods that checking the program makes. -/
def Program.lookups (t : ClassTable) (p : Program) : List (String × ClassTy) :=
  (p.classes.flatMap fun c => c.methods.flatMap fun d => d.lookups t c) ++
    Typing.lookups t .empty [] p.term

end Featherweight

import Featherweight.Proofs.Lookups

/-!
# Overriding

A method is compared with the one it overrides once, where it is declared and with
all type parameters still open. What a caller relies on is the comparison at closed
type arguments and over any number of levels. The step from one to the other is
`Subst.override_instance`. It needs that the look-up of the overridden method meets
no type variable named like one of that method's own type parameters, since such a
variable would be captured.
-/

namespace Featherweight

def MethodType.instantiate (T : MethodType) (Vs : List Ty) : Except TableFault MethodType :=
  return (← Subst.instantiate T.typeParams Vs).methodType T

def MethodType.bounds (T : MethodType) : List ClassTy := T.typeParams.map TypeParam.bound

def MethodType.types (T : MethodType) : List ClassTy × List Ty × Ty :=
  (T.bounds, T.paramTypes, T.returnType)

theorem MethodType.instantiate_eq_ok_iff {T U : MethodType} {Vs : List Ty} :
    T.instantiate Vs = .ok U ↔
      ∃ σ, Subst.instantiate T.typeParams Vs = .ok σ ∧ σ.methodType T = U := by
  simp only [MethodType.instantiate, bind_eq_ok_iff, pure_eq_ok_iff]

namespace Subst

variable {σ τ ω ρ α β : Subst} {S : Ty} {Ys Zs : List TypeParam} {Vs : List Ty}

@[simp] theorem bounds_methodType (σ : Subst) (T : MethodType) :
    (σ.methodType T).bounds = T.bounds.map σ.classTy := by
  simp [methodType, typeParam, MethodType.bounds]

@[simp] theorem length_typeParams_methodType (σ : Subst) (T : MethodType) :
    (σ.methodType T).typeParams.length = T.typeParams.length :=
  List.length_map _

@[simp] theorem length_paramTypes_methodType (σ : Subst) (T : MethodType) :
    (σ.methodType T).paramTypes.length = T.paramTypes.length :=
  List.length_map _

theorem forall_zip_bounds {T : MethodType} {p : Ty → Ty → Prop} :
    (∀ q ∈ Vs.zip (σ.methodType T).bounds, p q.1 q.2.toTy) ↔
      ∀ q ∈ Vs.zip T.typeParams, p q.1 (σ.ty q.2.bound.toTy) := by
  rw [bounds_methodType, MethodType.bounds, List.map_map]
  exact forall_mem_zip_map_right (p := fun V (N : ClassTy) => p V N.toTy)

theorem forall_zip_bounds_twice {T : MethodType} {p : Ty → Ty → Prop} :
    (∀ q ∈ Vs.zip (α.methodType (τ.methodType T)).bounds, p q.1 q.2.toTy) ↔
      ∀ q ∈ Vs.zip T.typeParams, p q.1 (α.ty (τ.ty q.2.bound.toTy)) := by
  rw [forall_zip_bounds]
  exact forall_mem_zip_map_right (p := fun V (P : TypeParam) => p V (α.ty P.bound.toTy))

theorem override_instance (hρ : instantiate Zs (Ys.map fun P => .var P.name) = .ok ρ)
    (hα : instantiate Ys Vs = .ok α) (hβ : instantiate Zs Vs = .ok β)
    (hY : (Ys.map TypeParam.name).Nodup) (hτ : ∀ P ∈ Ys, P.name ∉ τ.names)
    (hS : ∀ X ∈ S.vars, X ∈ ω.names ∨ X ∈ Zs.map TypeParam.name)
    (hcap : ∀ X ∈ ω.names, ∀ Q ∈ (ω.var X).vars, Q ∉ Zs.map TypeParam.name)
    (hclosed : ∀ X ∈ ω.names, (τ.ty (ω.var X)).vars = []) :
    α.ty (τ.ty (ρ.ty (ω.ty S))) = β.ty ((ω.through τ).ty S) := by
  have hmem {X : String} : X ∈ ρ.names ↔ X ∈ Zs.map TypeParam.name := mem_names_of_instantiate hρ
  have hfix : ∀ X ∈ ω.names, (τ.andThen α).ty (ω.var X) = τ.ty (ω.var X) := by
    intro X hX
    rw [ty_andThen]
    exact ty_eq_self (by simp [hclosed X hX])
  have hargs : (Ys.map fun P => Ty.var P.name).map (τ.andThen α).ty = Vs := by
    rw [← map_var_of_instantiate hY hα, List.map_map]
    refine List.map_congr_left fun P hP => ?_
    simp [var_andThen, var_of_not_mem (hτ P hP)]
  have hβρ : ρ.through (τ.andThen α) = β := by
    have h := instantiate_map_ok (τ := τ.andThen α) hρ
    rw [hargs, hβ] at h
    exact (Except.ok.inj h).symm
  have hω : (ω.through (τ.andThen α)).ty S = (ω.through τ).ty S := by
    refine ty_congr fun X _ => ?_
    by_cases hX : X ∈ ω.names
    · rw [var_through hX, var_through hX, hfix X hX]
    · rw [var_of_not_mem (by simpa using hX), var_of_not_mem (by simpa using hX)]
  rw [← ty_andThen, ty_instantiate_comm, hβρ, hω]
  · exact fun X hX => (hS X hX).imp_right hmem.2
  · exact fun X _ hX Q hQ hQρ => hcap X hX Q hQ (hmem.1 hQρ)
  · intro X _ hX
    simp [hfix X hX, hclosed X hX]

end Subst

namespace ClassTable

variable {t : ClassTable} {Δ : TypeEnv} {M N : ClassTy} {a b : Ancestor} {m : String}
  {new old : MethodType}

structure Narrows (t : ClassTable) (Δ : TypeEnv) (new old : MethodType) : Prop where
  bounds : new.bounds = old.bounds
  paramTypes : new.paramTypes = old.paramTypes
  returnType : t.Subtype Δ new.returnType old.returnType

theorem allowsOverride_eq_true_iff (h : t.methodType? m N = .ok (some old)) :
    t.allowsOverride Δ m N new = .ok true ↔
      new.typeParams.length = old.typeParams.length ∧
        new.paramTypes.length = old.paramTypes.length ∧
        ∃ ρ, Subst.instantiate old.typeParams (new.typeParams.map fun P => .var P.name) = .ok ρ ∧
          t.Narrows Δ new (ρ.methodType old) := by
  have hbounds (ρ : Subst) : (ρ.methodType old).bounds =
      old.typeParams.map fun P => ρ.classTy P.bound := by
    rw [Subst.bounds_methodType, MethodType.bounds, List.map_map]
    rfl
  simp only [allowsOverride, h, ok_bind]
  split
  · next hne =>
    simp only [pure_eq_ok_iff, Bool.false_eq_true, false_iff]
    rintro ⟨hX, hP, -⟩
    exact hne.elim (· hX) (· hP)
  · next heq =>
    simp only [not_or, not_not] at heq
    simp only [heq.1, heq.2, true_and, bind_eq_ok_iff]
    refine exists_congr fun ρ => and_congr_right fun _ => ?_
    split
    · next hb => exact ⟨fun hr => ⟨hb.1.trans (hbounds ρ).symm, hb.2, hr⟩, Narrows.returnType⟩
    · next hb =>
      simp only [pure_eq_ok_iff, Bool.false_eq_true, false_iff]
      exact fun hn => hb ⟨hn.bounds.trans (hbounds ρ), hn.paramTypes⟩

theorem allowsOverride_iff_none (h : ∀ old, t.methodType? m N ≠ .ok (some old)) :
    t.allowsOverride Δ m N new = .ok true ↔ t.methodType? m N = .ok none := by
  rw [allowsOverride]
  cases hm : t.methodType? m N with
  | error fault => exact iff_of_false nofun nofun
  | ok o =>
    cases o with
    | none => exact iff_of_true rfl rfl
    | some old => exact absurd hm (h old)

/-- At all type arguments the two method types take the same arguments, and within
the bounds the result of the first fits the result of the second. -/
structure Refines (t : ClassTable) (new old : MethodType) : Prop where
  typeParams : new.typeParams.length = old.typeParams.length
  paramTypes : new.paramTypes.length = old.paramTypes.length
  instances : ∀ Vs : List Ty, Vs.length = old.typeParams.length →
    ∃ new' old', new.instantiate Vs = .ok new' ∧ old.instantiate Vs = .ok old' ∧
      new'.bounds = old'.bounds ∧ new'.paramTypes = old'.paramTypes ∧
      ((∀ p ∈ Vs.zip old'.bounds, t.Subtype .empty p.1 p.2.toTy) →
        t.Subtype .empty new'.returnType old'.returnType)

theorem Refines.refl (t : ClassTable) (T : MethodType) : t.Refines T T where
  typeParams := rfl
  paramTypes := rfl
  instances Vs hlen := by
    obtain ⟨σ, hσ⟩ := Subst.exists_instantiate hlen.symm
    have hT := MethodType.instantiate_eq_ok_iff.2 ⟨σ, hσ, rfl⟩
    exact ⟨_, _, hT, hT, rfl, rfl, fun _ => .refl t _ _⟩

theorem Valid.refines_trans (hv : t.Valid) {T U V : MethodType} (h : t.Refines T U)
    (h' : t.Refines U V) : t.Refines T V where
  typeParams := h.typeParams.trans h'.typeParams
  paramTypes := h.paramTypes.trans h'.paramTypes
  instances Vs hlen := by
    obtain ⟨T', U', hT, hU, hb, hp, hr⟩ := h.instances Vs (hlen.trans h'.typeParams.symm)
    obtain ⟨U'', V', hU', hV, hb', hp', hr'⟩ := h'.instances Vs hlen
    cases hU.symm.trans hU'
    refine ⟨T', V', hT, hV, hb.trans hb', hp.trans hp', fun hbounds => ?_⟩
    exact hv.subtype_trans (hr (hb' ▸ hbounds)) (hr' hbounds)

end ClassTable

namespace ClassTable

variable {t : ClassTable} {Δ : TypeEnv} {M N : ClassTy} {a b : Ancestor} {m : String} {T : Ty}
  {d e : MethodDecl} {Vs : List Ty} {ρ α β : Subst}

theorem WellFormed.vars_eq_nil (h : t.WellFormed .empty T) : T.vars = [] := by
  rw [List.eq_nil_iff_forall_not_mem]
  intro X hX
  obtain ⟨N, hN⟩ := h.exists_bound? hX
  simp at hN

theorem WellFormed.not_mem_vars (h : t.WellFormed .empty N.toTy) (X : String) : X ∉ N.vars := by
  simp [ClassTy.vars, h.vars_eq_nil]

theorem vars_ty_eq_nil (hN : N.vars = []) (ha : t.instantiate N = .ok a)
    (hT : ∀ X ∈ T.vars, X ∈ a.decl.typeParams.map TypeParam.name) : (a.subst.ty T).vars = [] := by
  rw [List.eq_nil_iff_forall_not_mem]
  intro Y hY
  have hYN := mem_vars_ty_of_instantiate ha hT hY
  simp [hN] at hYN

section Method

variable (hv : t.Valid) (hN : t.WellFormed Δ N.toTy) (ha : t.instantiate N = .ok a)
  (hd : d ∈ a.decl.methods) (hα : Subst.instantiate d.typeParams Vs = .ok α)
  (hsep : a.decl.DistinctScopes) (hfree : ∀ X ∈ d.typeParams.map TypeParam.name, X ∉ N.vars)

include ha hα hfree in
theorem ty_ty_of_method (hT : ∀ X ∈ T.vars, X ∈ a.decl.typeParams.map TypeParam.name) :
    α.ty (a.subst.ty T) = a.subst.ty T := by
  apply Subst.ty_eq_self
  intro Y hY
  have hYN := mem_vars_ty_of_instantiate ha hT hY
  exact Subst.var_of_not_mem fun hYα => hfree Y ((Subst.mem_names_of_instantiate hα).1 hYα) hYN

include ha hα hfree in
theorem ty_var_of_method {X : String} (hX : X ∈ a.decl.typeParams.map TypeParam.name) :
    α.ty (a.subst.var X) = a.subst.var X := by
  have hvar := ty_ty_of_method (T := .var X) ha hα hfree (by simpa [Ty.vars] using hX)
  rwa [Subst.ty_var] at hvar

include hv hN ha hd hα hsep hfree

theorem Valid.respects_of_method (hh : t.HeadsWellFormed)
    (hb : ∀ p ∈ Vs.zip d.typeParams, t.Subtype Δ p.1 (α.ty (a.subst.ty p.2.bound.toTy))) :
    t.RespectsBounds (d.env a.decl) Δ (a.subst.andThen α) := by
  have hdecl := decl_mem_of_instantiate ha
  intro X K hK
  rw [Subst.var_andThen, Subst.ty_andThen]
  rcases TypeEnv.bound?_add hK with ⟨P, hP, rfl, rfl⟩ | ⟨hX, hK⟩
  · have hPa : P.name ∉ a.subst.names := fun h => hsep d hd P hP ((names_of_instantiate ha).1 h)
    rw [Subst.var_of_not_mem hPa, Subst.ty_var]
    exact hb _ (Subst.exists_arg (hv.methodTypeParams _ hdecl d hd) hα hP)
  · obtain ⟨P, hP, rfl, rfl⟩ | ⟨-, hK'⟩ := TypeEnv.bound?_add hK
    · rw [ty_var_of_method ha hα hfree (List.mem_map_of_mem hP),
        ty_ty_of_method ha hα hfree ((hh _ hdecl).scoped.bounds P hP)]
      exact (hv.respects_of_wellFormed hN ha).1 P.name P.bound hK
    · cases hK'

theorem Valid.wellFormed_of_method (hw : ∀ V ∈ Vs, t.WellFormed Δ V) (X : String) (K : ClassTy)
    (hK : (d.env a.decl).bound? X = some K) : t.WellFormed Δ ((a.subst.andThen α).var X) := by
  rw [Subst.var_andThen]
  rcases TypeEnv.bound?_add hK with ⟨P, hP, rfl, -⟩ | ⟨-, hK⟩
  · have hPa : P.name ∉ a.subst.names := fun h => hsep d hd P hP ((names_of_instantiate ha).1 h)
    rw [Subst.var_of_not_mem hPa]
    exact hw _ (Subst.var_mem_of_instantiate hα (List.mem_map_of_mem hP))
  · obtain ⟨P, hP, rfl, rfl⟩ | ⟨-, hK'⟩ := TypeEnv.bound?_add hK
    · rw [ty_var_of_method ha hα hfree (List.mem_map_of_mem hP)]
      exact (hv.respects_of_wellFormed hN ha).2 P.name P.bound hK
    · cases hK'

end Method

section Override

variable (hv : t.Valid) (hh : t.HeadsWellFormed)
include hv hh

theorem Valid.override_types (hN : t.WellFormed .empty N.toTy) (ha : t.instantiate N = .ok a)
    (hd : d ∈ a.decl.methods) (hsep : a.decl.DistinctScopes) (hap : t.Apart m a.decl.superType)
    (hf : t.Finds m a.decl.superType b e) (he : e.HeadWellFormed t b.decl)
    (hρ : Subst.instantiate e.typeParams (d.typeParams.map fun P => .var P.name) = .ok ρ)
    (hα : Subst.instantiate d.typeParams Vs = .ok α)
    (hβ : Subst.instantiate e.typeParams Vs = .ok β) :
    (α.methodType (a.subst.methodType (ρ.methodType (b.subst.methodType e.type)))).types =
      (β.methodType ((b.through a.subst).subst.methodType e.type)).types := by
  have hdecl := decl_mem_of_instantiate ha
  have hfree : ∀ P ∈ d.typeParams, P.name ∉ a.subst.names := fun P hP h =>
    hsep d hd P hP ((names_of_instantiate ha).1 h)
  have hclosed : ∀ X ∈ b.subst.names, (a.subst.ty (b.subst.var X)).vars = [] := fun X hX =>
    vars_ty_eq_nil hN.vars_eq_nil ha fun Y hY =>
      (hh _ hdecl).scoped.superType Y (hf.mem_vars hh.scoped hX hY)
  have key {S : Ty} (hS : t.WellFormed (e.env b.decl) S) :
      α.ty (a.subst.ty (ρ.ty (b.subst.ty S))) = β.ty ((b.through a.subst).subst.ty S) :=
    Subst.override_instance hρ hα hβ (hv.methodTypeParams _ hdecl d hd) hfree
      (fun X hX => (MethodDecl.mem_typeParams_of_wellFormed hS hX).imp_left hf.mem_names.2)
      (fun X hX Y hY => hap.not_mem hv hh.scoped hf hX hY) hclosed
  simp only [MethodType.types, Prod.mk.injEq, Subst.bounds_methodType, List.map_map]
  refine ⟨?_, ?_, key he.returnType⟩
  · simp only [MethodType.bounds, MethodDecl.type, List.map_map]
    exact List.map_congr_left fun P hP => ClassTy.toTy_inj.1 (key (he.bounds P hP))
  · simp only [Subst.methodType, MethodDecl.type, List.map_map]
    exact List.map_congr_left fun p hp => key (he.params p hp)

theorem Valid.refines_of_override (hN : t.WellFormed .empty N.toTy) (ha : t.instantiate N = .ok a)
    (hd : d ∈ a.decl.methods) (hsep : a.decl.DistinctScopes)
    (hap : t.Apart m a.decl.superType) (hf : t.Finds m a.decl.superType b e)
    (he : e.HeadWellFormed t b.decl)
    (ho : t.allowsOverride (d.env a.decl) m a.decl.superType d.type = .ok true) :
    t.Refines (a.subst.methodType d.type) ((b.through a.subst).subst.methodType e.type) := by
  have hold := hv.methodType?_eq_some_iff.2 ⟨b, e, hf, rfl⟩
  obtain ⟨hlX, hlP, ρ, hρ, hn⟩ := (allowsOverride_eq_true_iff hold).1 ho
  rw [Subst.instantiate_methodType] at hρ
  refine ⟨by simpa using hlX, by simpa using hlP, fun Vs hlen => ?_⟩
  have hlene : e.typeParams.length = Vs.length := by simpa [MethodDecl.type] using hlen.symm
  have hlend : d.typeParams.length = Vs.length := by simpa [MethodDecl.type, hlene] using hlX
  obtain ⟨α, hα⟩ := Subst.exists_instantiate hlend
  obtain ⟨β, hβ⟩ := Subst.exists_instantiate hlene
  have hty := hv.override_types hh hN ha hd hsep hap hf he hρ hα hβ
  simp only [MethodType.types, Prod.mk.injEq] at hty
  have hbounds : (α.methodType (a.subst.methodType d.type)).bounds =
      (β.methodType ((b.through a.subst).subst.methodType e.type)).bounds := by
    rw [← hty.1]
    simp only [Subst.bounds_methodType α, Subst.bounds_methodType a.subst, hn.bounds]
  refine ⟨_, _, MethodType.instantiate_eq_ok_iff.2 ⟨α, ?_, rfl⟩,
    MethodType.instantiate_eq_ok_iff.2 ⟨β, ?_, rfl⟩, hbounds, ?_, fun hVb => ?_⟩
  · rw [Subst.instantiate_methodType, hα]
  · rw [Subst.instantiate_methodType, hβ]
  · rw [← hty.2.1]
    simp only [Subst.methodType, hn.paramTypes]
  · -- The comparison of the results was made under the bounds, and these hold at `Vs`.
    rw [← hbounds] at hVb
    have hσ := hv.respects_of_method hN ha hd hα hsep (fun X _ => hN.not_mem_vars X) hh
      (Subst.forall_zip_bounds_twice.1 hVb)
    have hsub := hv.subtype_subst hh.scoped hσ hn.returnType
    rw [Subst.ty_andThen, Subst.ty_andThen] at hsub
    rw [← hty.2.2]
    exact hsub

end Override

theorem Valid.refines_of_below (hv : t.Valid) (hwt : t.WellTyped)
    (hsep : ∀ c ∈ t.classes, c.DistinctScopes)
    (hap : ∀ c ∈ t.classes, ∀ d ∈ c.methods, t.Apart d.name c.superType)
    (hN : t.WellFormed .empty N.toTy) (h : t.Below N M) {old : MethodType}
    (hM : t.methodType? m M = .ok (some old)) :
    ∃ new, t.methodType? m N = .ok (some new) ∧ t.Refines new old := by
  have hs := hwt.heads.scoped
  induction h with
  | refl N => exact ⟨old, hM, .refl t old⟩
  | @step N M a hne ha _ ih =>
    have hdecl := decl_mem_of_instantiate ha
    have hup : t.Below N a.superType := .step hne ha (.refl _)
    obtain ⟨mid, hmid, hmo⟩ := ih (hv.wellFormed_of_below hwt.heads hup hN) hM
    obtain ⟨b', e, hf, rfl⟩ := hv.methodType?_eq_some_iff.1 hmid
    cases hd : a.decl.method? m with
    | none => exact ⟨_, hv.methodType?_eq_some_iff.2 ⟨b', e, .above hne ha hd hf, rfl⟩, hmo⟩
    | some d =>
      have hfd : t.Finds m N a d := .here hne ha hd
      obtain ⟨b, hfb, rfl⟩ := Finds.of_classTy hs (N := a.decl.superType) hf
      obtain rfl := hfd.name
      have hdm := ((hwt _ hdecl).methods d hfd.mem)
      have hem := ((hwt _ hfb.decl_mem).methods e hfb.mem)
      refine ⟨_, hv.methodType?_eq_some_iff.2 ⟨a, d, hfd, rfl⟩, hv.refines_trans ?_ hmo⟩
      exact hv.refines_of_override hwt.heads hN ha hfd.mem (hsep _ hdecl)
        (hap _ hdecl d hfd.mem) hfb hem.head hdm.override

end ClassTable

/-- In an accepted program a subtype offers every method of its supertype, at all type
arguments with the same bounds and parameter types, and within the bounds with a
result that fits. -/
theorem Accepted.subtype_refines_methods {source : String} {c : Accepted}
    (hc : (Accepted.ofSource source).Gives c)
    (hsep : ∀ k ∈ c.program.classes, k.DistinctScopes)
    (hap : ∀ k ∈ c.program.classes, ∀ d ∈ k.methods, c.table.Apart d.name k.superType)
    {M N : ClassTy} (hN : c.table.WellFormed .empty N.toTy)
    (h : c.table.Subtype .empty N.toTy M.toTy) {m : String} {old : MethodType}
    (hM : c.table.methodType? m M = .ok (some old)) :
    ∃ new, c.table.methodType? m N = .ok (some new) ∧ c.table.Refines new old := by
  obtain ⟨-, hs⟩ := gives_ofSource hc
  have hclasses : c.table.classes = c.program.classes := by rw [hs.table]
  rw [← hclasses] at hsep hap
  exact hs.valid.refines_of_below hs.wellTyped hsep hap hN (hs.valid.below_of_subtype h) hM

def renamingOverride : String :=
  "class C<X extends Object> extends Object \x7b C() \x7b super(); \x7d " ++
    "<Y extends C<X>> C<X> m(Y y) \x7b return y; \x7d \x7d " ++
  "class D extends C<D> \x7b D() \x7b super(); \x7d " ++
    "<Z extends C<D>> Z m(Z z) \x7b return z; \x7d \x7d " ++
  "new D()"

theorem Accepted.subtype_refines_methods_renaming :
    (Accepted.ofSource renamingOverride).Yields fun c =>
      (∀ k ∈ c.program.classes, k.DistinctScopes) ∧
      (∀ k ∈ c.program.classes, ∀ d ∈ k.methods, c.table.Apart d.name k.superType) ∧
      c.table.WellFormed .empty (.inst "D" []) ∧
      c.table.Subtype .empty (.inst "D" []) (.inst "C" [.inst "D" []]) ∧
      ∃ old, c.table.methodType? "m" ⟨"C", [.inst "D" []]⟩ = .ok (some old) ∧
        ∃ new, c.table.methodType? "m" ⟨"D", []⟩ = .ok (some new) ∧ c.table.Refines new old := by
  have hyps : (Accepted.ofSource renamingOverride).Yields fun c =>
      (∀ k ∈ c.program.classes, k.DistinctScopes) ∧
      (∀ k ∈ c.program.classes, ∀ d ∈ k.methods, c.table.Apart d.name k.superType) ∧
      c.table.WellFormed .empty (.inst "D" []) ∧
      c.table.Subtype .empty (.inst "D" []) (.inst "C" [.inst "D" []]) ∧
      c.table.methodType? "m" ⟨"C", [.inst "D" []]⟩ =
        .ok (some ⟨[⟨"Y", ⟨"C", [.inst "D" []]⟩⟩], [.var "Y"], .inst "C" [.inst "D" []]⟩) := by
    decide +kernel
  obtain ⟨c, hc, hsep, hap, hD, hsub, hm⟩ := hyps
  exact ⟨c, hc, hsep, hap, hD, hsub, _, hm, subtype_refines_methods hc hsep hap
    (M := ⟨"C", [.inst "D" []]⟩) (N := ⟨"D", []⟩) hD hsub hm⟩

def parameterAsResult : String :=
  "class A extends Object \x7b A() \x7b super(); \x7d \x7d " ++
  "class C extends Object \x7b C() \x7b super(); \x7d " ++
    "<Y extends A> A m(Y y) \x7b return y; \x7d \x7d " ++
  "class D extends C \x7b D() \x7b super(); \x7d " ++
    "<Y extends A> Y m(Y y) \x7b return y; \x7d \x7d " ++
  "new A()"

/-- Outside the bounds the results need not fit: with `Object` for `Y`, whose bound is
`A`, the result in `D` is `Object` and the result in `C` is `A`. -/
theorem Accepted.not_refines_outside_bounds :
    (Accepted.ofSource parameterAsResult).Yields fun c =>
      (∀ k ∈ c.program.classes, k.DistinctScopes) ∧
      (∀ k ∈ c.program.classes, ∀ d ∈ k.methods, c.table.Apart d.name k.superType) ∧
      c.table.WellFormed .empty (.inst "D" []) ∧ c.table.WellFormed .empty (.inst "C" []) ∧
      c.table.Subtype .empty (.inst "D" []) (.inst "C" []) ∧
      c.table.methodType? "m" ⟨"C", []⟩ =
        .ok (some ⟨[⟨"Y", ⟨"A", []⟩⟩], [.var "Y"], .inst "A" []⟩) ∧
      c.table.methodType? "m" ⟨"D", []⟩ =
        .ok (some ⟨[⟨"Y", ⟨"A", []⟩⟩], [.var "Y"], .var "Y"⟩) ∧
      (MethodType.mk [⟨"Y", ⟨"A", []⟩⟩] [.var "Y"] (.inst "A" [])).instantiate
        [.inst "Object" []] = .ok ⟨[⟨"Y", ⟨"A", []⟩⟩], [.inst "Object" []], .inst "A" []⟩ ∧
      (MethodType.mk [⟨"Y", ⟨"A", []⟩⟩] [.var "Y"] (.var "Y")).instantiate
        [.inst "Object" []] = .ok ⟨[⟨"Y", ⟨"A", []⟩⟩], [.inst "Object" []], .inst "Object" []⟩ ∧
      ¬ c.table.Subtype .empty (.inst "Object" []) (.inst "A" []) := by
  decide +kernel

end Featherweight

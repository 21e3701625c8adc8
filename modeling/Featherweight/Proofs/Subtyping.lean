import Featherweight.Proofs.Hierarchy
import Featherweight.Subtyping

/-!
# Subtyping and well-formedness under instantiation

In a valid table a type lies below another when they are equal or when the class
type that bounds the first climbs to the second. Hence subtyping is transitive.
If the arguments put in for type variables respect the variables' bounds, then a
substitution preserves both subtyping and well-formedness. What a well-formed
class type extends is then well formed.
-/

namespace Featherweight

namespace TypeEnv

variable {Δ : TypeEnv} {Xs : List TypeParam} {X : String} {N : ClassTy}

@[simp] theorem bound?_empty (X : String) : TypeEnv.empty.bound? X = none := rfl

theorem bound?_add_of_mem (hX : X ∈ Xs.map TypeParam.name) :
    ∃ P ∈ Xs, P.name = X ∧ (Δ.add Xs).bound? X = some P.bound := by
  obtain ⟨Q, hQ, hQX⟩ := List.mem_map.1 hX
  have hsome : (Xs.reverse.find? (·.name = X)).isSome :=
    List.find?_isSome.2 ⟨Q, List.mem_reverse.2 hQ, by simpa using hQX⟩
  obtain ⟨P, hP⟩ := Option.isSome_iff_exists.1 hsome
  refine ⟨P, List.mem_reverse.1 (List.mem_of_find?_eq_some hP), ?_, ?_⟩
  · simpa using List.find?_some hP
  · simp [bound?, add, List.find?_append, hP]

theorem bound?_add_of_not_mem (hX : X ∉ Xs.map TypeParam.name) :
    (Δ.add Xs).bound? X = Δ.bound? X := by
  have hnone : Xs.reverse.find? (·.name = X) = none := by
    rw [List.find?_eq_none]
    intro P hP hPX
    exact hX (List.mem_map.2 ⟨P, List.mem_reverse.1 hP, by simpa using hPX⟩)
  simp [bound?, add, List.find?_append, hnone]

theorem bound?_add (h : (Δ.add Xs).bound? X = some N) :
    (∃ P ∈ Xs, P.name = X ∧ P.bound = N) ∨
      X ∉ Xs.map TypeParam.name ∧ Δ.bound? X = some N := by
  by_cases hX : X ∈ Xs.map TypeParam.name
  · obtain ⟨P, hP, hPX, hb⟩ := bound?_add_of_mem (Δ := Δ) hX
    rw [h] at hb
    cases hb
    exact .inl ⟨P, hP, hPX, rfl⟩
  · exact .inr ⟨hX, bound?_add_of_not_mem hX ▸ h⟩

end TypeEnv

def ClassDecl.env (c : ClassDecl) : TypeEnv := TypeEnv.empty.add c.typeParams

def MethodDecl.env (d : MethodDecl) (c : ClassDecl) : TypeEnv := c.env.add d.typeParams

namespace ClassTable

variable {t : ClassTable} {Δ Δ' : TypeEnv} {S T U : Ty} {M N : ClassTy} {a : Ancestor}
  {σ : Subst} {X : String}

def Subtype (t : ClassTable) (Δ : TypeEnv) (S T : Ty) : Prop := t.subtype Δ S T = .ok true

def WellFormed (t : ClassTable) (Δ : TypeEnv) (T : Ty) : Prop := t.requireWellFormed Δ T = .ok ()

instance (t : ClassTable) (Δ : TypeEnv) (S T : Ty) : Decidable (t.Subtype Δ S T) :=
  inferInstanceAs (Decidable (_ = _))

instance (t : ClassTable) (Δ : TypeEnv) (T : Ty) : Decidable (t.WellFormed Δ T) :=
  inferInstanceAs (Decidable (_ = _))

theorem Subtype.refl (t : ClassTable) (Δ : TypeEnv) (T : Ty) : t.Subtype Δ T T := by
  simp [Subtype, subtype, pure, Except.pure]

theorem Valid.below_eq_ok_true_iff (hv : t.Valid) :
    t.below N T = .ok true ↔ ∃ M, t.Below N M ∧ M.toTy = T := by
  unfold below
  split
  · next h =>
    simp only [pure_eq_ok_iff, true_iff]
    exact ⟨N, .refl N, h⟩
  · next h =>
    simp only [bind_eq_ok_iff, pure_eq_ok_iff, List.any_eq_true, decide_eq_true_eq,
      hv.ancestry_eq_ok_iff]
    constructor
    · rintro ⟨as, has, a, ha, haT⟩
      exact ⟨a.superType, has.below_superType ha, haT⟩
    · rintro ⟨M, hM, rfl⟩
      have hNM : N ≠ M := fun he => h (he ▸ rfl)
      cases hM with
      | refl => exact absurd rfl hNM
      | step hN ha hM =>
        obtain ⟨as, has, -⟩ := hv.exists_chain ha
        rcases (Below.step hN ha hM).eq_or_mem has with he | ⟨b, hb, rfl⟩
        · exact absurd he hNM
        · exact ⟨as, has, b, hb, rfl⟩

theorem Valid.subtype_iff (hv : t.Valid) : t.Subtype Δ S T ↔
    S = T ∨ ∃ N M, Δ.bound S = .ok N ∧ t.Below N M ∧ M.toTy = T := by
  unfold Subtype subtype
  split
  · next h => simp [h, pure_eq_ok_iff]
  · next h =>
    rw [or_iff_right h]
    cases S with
    | inst C Ss => simp [TypeEnv.bound, hv.below_eq_ok_true_iff]
    | var X =>
      simp only [TypeEnv.bound]
      cases Δ.bound? X with
      | none => simp [pure_eq_ok_iff]
      | some N => simp [hv.below_eq_ok_true_iff]

theorem Valid.subtype_of_below (hv : t.Valid) (h : t.Below N M) : t.Subtype Δ N.toTy M.toTy :=
  hv.subtype_iff.2 (.inr ⟨N, M, rfl, h, rfl⟩)

theorem Valid.below_of_subtype (hv : t.Valid) (h : t.Subtype Δ N.toTy M.toTy) : t.Below N M := by
  rcases hv.subtype_iff.1 h with he | ⟨N', M', hN, hM, he⟩
  · rw [ClassTy.toTy_inj.1 he]
    exact .refl M
  · cases hN
    rwa [← ClassTy.toTy_inj.1 he]

theorem Valid.subtype_bound (hv : t.Valid) (h : Δ.bound T = .ok N) : t.Subtype Δ T N.toTy :=
  hv.subtype_iff.2 (.inr ⟨N, N, h, .refl N, rfl⟩)

theorem Valid.subtype_trans (hv : t.Valid) (h : t.Subtype Δ S T) (h' : t.Subtype Δ T U) :
    t.Subtype Δ S U := by
  rcases hv.subtype_iff.1 h with rfl | ⟨N, M, hN, hM, rfl⟩
  · exact h'
  · rcases hv.subtype_iff.1 h' with rfl | ⟨M', K, hM', hK, rfl⟩
    · exact h
    · cases hM'
      exact hv.subtype_iff.2 (.inr ⟨N, K, hN, hM.trans hK, rfl⟩)

theorem requireBounds_eq_ok_iff {Ts : List Ty} {Xs : List TypeParam} :
    t.requireBounds Δ σ Ts Xs = .ok () ↔
      ∀ p ∈ Ts.zip Xs, t.Subtype Δ p.1 (σ.classTy p.2.bound).toTy := by
  induction Ts generalizing Xs with
  | nil => simp [requireBounds, pure_eq_ok_iff]
  | cons T Ts ih =>
    cases Xs with
    | nil => simp [requireBounds, pure_eq_ok_iff]
    | cons P Xs =>
      simp only [requireBounds, bind_eq_ok_iff, liftTable_eq_ok_iff, require_eq_ok_iff,
        exists_unit_iff, ih, List.zip_cons_cons, List.forall_mem_cons]
      constructor
      · rintro ⟨b, hb, rfl, h⟩
        exact ⟨hb, h⟩
      · rintro ⟨hb, h⟩
        exact ⟨true, hb, rfl, h⟩

theorem requireAllWellFormed_eq_ok_iff {Ts : List Ty} :
    t.requireAllWellFormed Δ Ts = .ok () ↔ ∀ T ∈ Ts, t.WellFormed Δ T := by
  induction Ts with
  | nil => simp [requireAllWellFormed, pure_eq_ok_iff]
  | cons T Ts ih =>
    simp only [requireAllWellFormed, bind_eq_ok_iff, exists_unit_iff, ih, List.forall_mem_cons]
    rfl

theorem typeParams_eq_ok_iff {C : String} {Xs : List TypeParam} :
    t.typeParams C = .ok Xs ↔ ∃ c, t.find? C = some c ∧ c.typeParams = Xs := by
  simp only [typeParams, bind_eq_ok_iff, pure_eq_ok_iff, find_eq_ok_iff]

theorem wellFormed_var_iff : t.WellFormed Δ (.var X) ↔ ∃ N, Δ.bound? X = some N := by
  simp only [WellFormed, requireWellFormed]
  cases Δ.bound? X with
  | none => simp [throw_ne_ok]
  | some N => simp [pure_eq_ok_iff]

theorem wellFormed_toTy_iff : t.WellFormed Δ N.toTy ↔ N = .object ∨
    (∀ T ∈ N.args, t.WellFormed Δ T) ∧ ∃ a, t.instantiate N = .ok a ∧
      ∀ p ∈ N.args.zip a.decl.typeParams, t.Subtype Δ p.1 (a.subst.classTy p.2.bound).toTy := by
  obtain ⟨C, Ts⟩ := N
  simp only [WellFormed, ClassTy.toTy, requireWellFormed]
  split
  · next h => simp [h, pure_eq_ok_iff]
  · next h =>
    rw [or_iff_right h]
    simp only [bind_eq_ok_iff, exists_unit_iff, requireAllWellFormed_eq_ok_iff,
      liftTable_eq_ok_iff, requireBounds_eq_ok_iff, typeParams_eq_ok_iff, instantiate_eq_ok_iff]
    refine and_congr_right fun _ => ?_
    constructor
    · rintro ⟨_, ⟨c, hc, rfl⟩, σ, hσ, h⟩
      exact ⟨⟨c, σ⟩, ⟨hc, hσ⟩, h⟩
    · rintro ⟨a, ⟨hc, hσ⟩, h⟩
      exact ⟨_, ⟨a.decl, hc, rfl⟩, a.subst, hσ, h⟩

theorem WellFormed.exists_bound? (h : t.WellFormed Δ T) (hX : X ∈ T.vars) :
    ∃ N, Δ.bound? X = some N := by
  induction T using Ty.induction with
  | var Y =>
    cases List.mem_singleton.1 hX
    exact wellFormed_var_iff.1 h
  | inst C Ts ih =>
    obtain ⟨T, hT, hX⟩ := Ty.mem_vars_inst.1 hX
    have h' : t.WellFormed Δ (ClassTy.mk C Ts).toTy := h
    rcases wellFormed_toTy_iff.1 h' with ho | ⟨hw, -⟩
    · cases ho
      simp at hT
    · exact ih T hT (hw T hT) hX

theorem Valid.exists_chain_of_wellFormed (hv : t.Valid) (h : t.WellFormed Δ N.toTy) :
    ∃ as, t.Chain N as := by
  rcases wellFormed_toTy_iff.1 h with rfl | ⟨-, a, ha, -⟩
  · exact ⟨[], .root⟩
  · obtain ⟨as, has, -⟩ := hv.exists_chain ha
    exact ⟨as, has⟩

theorem Valid.exists_subtype_of_chain (hv : t.Valid) {as : List Ancestor} (has : t.Chain N as)
    (Δ : TypeEnv) (T : Ty) : ∃ b, t.subtype Δ N.toTy T = .ok b := by
  simp only [subtype, ClassTy.toTy, below, hv.ancestry_eq_ok_iff.2 has]
  split
  · exact ⟨true, rfl⟩
  · exact ⟨_, rfl⟩

/-- What the substitution puts in for a variable of `Δ` lies below the variable's bound. -/
def RespectsBounds (t : ClassTable) (Δ Δ' : TypeEnv) (σ : Subst) : Prop :=
  ∀ X N, Δ.bound? X = some N → t.Subtype Δ' (σ.var X) (σ.ty N.toTy)

section Instantiation

variable (hv : t.Valid) (hs : t.Scoped)
include hv hs

theorem Valid.subtype_subst (hσ : t.RespectsBounds Δ Δ' σ) (h : t.Subtype Δ S T) :
    t.Subtype Δ' (σ.ty S) (σ.ty T) := by
  rcases hv.subtype_iff.1 h with rfl | ⟨N, M, hN, hM, rfl⟩
  · exact .refl t Δ' _
  · have hup : t.Subtype Δ' (σ.ty N.toTy) (σ.ty M.toTy) := hv.subtype_of_below (hs.below_classTy hM)
    cases S with
    | inst C Ss =>
      cases hN
      exact hup
    | var X =>
      simp only [TypeEnv.bound] at hN
      split at hN
      · next N' hX =>
        cases hN
        exact hv.subtype_trans (hσ X _ hX) hup
      · cases hN

theorem Valid.wellFormed_subst (hσ : t.RespectsBounds Δ Δ' σ)
    (hw : ∀ X N, Δ.bound? X = some N → t.WellFormed Δ' (σ.var X)) (h : t.WellFormed Δ T) :
    t.WellFormed Δ' (σ.ty T) := by
  induction T using Ty.induction with
  | var X =>
    obtain ⟨N, hN⟩ := wellFormed_var_iff.1 h
    exact hw X N hN
  | inst C Ts ih =>
    have h' : t.WellFormed Δ (ClassTy.mk C Ts).toTy := h
    change t.WellFormed Δ' (σ.classTy ⟨C, Ts⟩).toTy
    rcases wellFormed_toTy_iff.1 h' with ho | ⟨hargs, a, ha, hb⟩
    · exact wellFormed_toTy_iff.2 (.inl (Subst.classTy_eq_object_iff.2 ho))
    · refine wellFormed_toTy_iff.2 (.inr ⟨?_, a.through σ, ?_, ?_⟩)
      · rw [Subst.classTy_args]
        intro U hU
        obtain ⟨T, hT, rfl⟩ := List.mem_map.1 hU
        exact ih T hT (hargs T hT)
      · rw [instantiate_classTy, ha]
        rfl
      · rw [Subst.classTy_args, List.zip_map_left]
        intro q hq
        obtain ⟨⟨T, P⟩, hp, rfl⟩ := List.mem_map.1 hq
        have hP := (List.of_mem_zip hp).2
        have hscope : ∀ X ∈ P.bound.vars, X ∈ a.subst.names := fun X hX =>
          (names_of_instantiate ha).2 ((hs _ (decl_mem_of_instantiate ha)).bounds P hP X hX)
        have hbound : (a.through σ).subst.classTy P.bound = σ.classTy (a.subst.classTy P.bound) :=
          Subst.classTy_through hscope
        change t.Subtype Δ' (σ.ty T) ((a.through σ).subst.classTy P.bound).toTy
        rw [hbound]
        exact hv.subtype_subst hs hσ (hb (T, P) hp)

end Instantiation

section Arguments

variable {Xs : List TypeParam} {Ts : List Ty} (hd : (Xs.map TypeParam.name).Nodup)
  (hσ : Subst.instantiate Xs Ts = .ok σ)
include hd hσ

theorem respectsBounds_of_args
    (hb : ∀ p ∈ Ts.zip Xs, t.Subtype Δ p.1 (σ.classTy p.2.bound).toTy) :
    t.RespectsBounds (TypeEnv.empty.add Xs) Δ σ := by
  intro X N hN
  rcases TypeEnv.bound?_add hN with ⟨P, hP, rfl, rfl⟩ | ⟨-, hN⟩
  · exact hb _ (Subst.exists_arg hd hσ hP)
  · cases hN

theorem wellFormed_of_args (hw : ∀ T ∈ Ts, t.WellFormed Δ T) (N : ClassTy)
    (hN : (TypeEnv.empty.add Xs).bound? X = some N) : t.WellFormed Δ (σ.var X) := by
  rcases TypeEnv.bound?_add hN with ⟨P, hP, rfl, rfl⟩ | ⟨-, hN⟩
  · exact hw _ (List.of_mem_zip (Subst.exists_arg hd hσ hP)).1
  · cases hN

end Arguments

end ClassTable

structure ClassDecl.HeadWellFormed (t : ClassTable) (c : ClassDecl) : Prop where
  bounds : ∀ P ∈ c.typeParams, t.WellFormed c.env P.bound.toTy
  superType : t.WellFormed c.env c.superType.toTy
  fields : ∀ f ∈ c.fields, t.WellFormed c.env f.ty

namespace ClassDecl

variable {t : ClassTable} {c : ClassDecl} {T : Ty} {X : String}

theorem mem_typeParams_of_wellFormed (h : t.WellFormed c.env T) (hX : X ∈ T.vars) :
    X ∈ c.typeParams.map TypeParam.name := by
  obtain ⟨N, hN⟩ := h.exists_bound? hX
  rcases TypeEnv.bound?_add hN with ⟨P, hP, rfl, -⟩ | ⟨-, hN⟩
  · exact List.mem_map_of_mem hP
  · cases hN

theorem HeadWellFormed.scoped (h : c.HeadWellFormed t) : c.Scoped where
  superType _ hX := mem_typeParams_of_wellFormed h.superType hX
  bounds P hP _ hX := mem_typeParams_of_wellFormed (h.bounds P hP) hX
  fields f hf _ hX := mem_typeParams_of_wellFormed (h.fields f hf) hX

end ClassDecl

namespace ClassTable

variable {t : ClassTable} {Δ : TypeEnv} {M N : ClassTy} {a : Ancestor}

def HeadsWellFormed (t : ClassTable) : Prop := ∀ c ∈ t.classes, c.HeadWellFormed t

theorem HeadsWellFormed.scoped (h : t.HeadsWellFormed) : t.Scoped := fun c hc => (h c hc).scoped

section WellFormed

variable (hv : t.Valid)
include hv

theorem Valid.respects_of_wellFormed (h : t.WellFormed Δ N.toTy) (ha : t.instantiate N = .ok a) :
    t.RespectsBounds a.decl.env Δ a.subst ∧
      ∀ X K, a.decl.env.bound? X = some K → t.WellFormed Δ (a.subst.var X) := by
  rcases wellFormed_toTy_iff.1 h with rfl | ⟨hargs, b, hb, hbounds⟩
  · exact absurd rfl (hv.ne_object ha)
  · rw [ha] at hb
    cases hb
    have hd := hv.typeParams _ (decl_mem_of_instantiate ha)
    have hσ := (instantiate_eq_ok_iff.1 ha).2
    exact ⟨respectsBounds_of_args hd hσ hbounds, fun X => wellFormed_of_args hd hσ hargs⟩

theorem Valid.wellFormed_of_below (hh : t.HeadsWellFormed) (hM : t.Below N M)
    (h : t.WellFormed Δ N.toTy) : t.WellFormed Δ M.toTy := by
  induction hM with
  | refl N => exact h
  | step hN ha _ ih =>
    refine ih ?_
    obtain ⟨hσ, hw⟩ := hv.respects_of_wellFormed h ha
    exact hv.wellFormed_subst hh.scoped hσ hw (hh _ (decl_mem_of_instantiate ha)).superType

end WellFormed

end ClassTable

theorem MethodDecl.mem_typeParams_of_wellFormed {t : ClassTable} {c : ClassDecl} {d : MethodDecl}
    {T : Ty} {X : String} (h : t.WellFormed (d.env c) T) (hX : X ∈ T.vars) :
    X ∈ c.typeParams.map TypeParam.name ∨ X ∈ d.typeParams.map TypeParam.name := by
  obtain ⟨N, hN⟩ := h.exists_bound? hX
  rcases TypeEnv.bound?_add hN with ⟨P, hP, rfl, -⟩ | ⟨-, hN⟩
  · exact .inr (List.mem_map_of_mem hP)
  · rcases TypeEnv.bound?_add hN with ⟨P, hP, rfl, -⟩ | ⟨-, hN⟩
    · exact .inl (List.mem_map_of_mem hP)
    · cases hN

end Featherweight

import Featherweight.Proofs.Typing

/-!
# Checking against a larger table

A table is part of another one if that finds every class under its name that the first
finds. Whatever a look-up or a check against the part succeeds with, it succeeds with
against the whole, and a check adds the same warnings. Failures need not stay: the whole
may hold a class that the part lacks.
-/

namespace Featherweight

section Order

variable {ε ε' α β : Type}

/-- Where the first computation succeeds, the second one does, with the same result. -/
def OkWithin (x y : Except ε α) : Prop := ∀ a, x = .ok a → y = .ok a

namespace OkWithin

variable {x y : Except ε α} {f g : α → Except ε β}

theorem refl (x : Except ε α) : OkWithin x x := fun _ h => h

theorem bind (h : OkWithin x y) (hf : ∀ a, OkWithin (f a) (g a)) :
    OkWithin (x >>= f) (y >>= g) := by
  intro b hb
  obtain ⟨a, ha, hb⟩ := bind_eq_ok_iff.1 hb
  exact bind_eq_ok_iff.2 ⟨a, h a ha, hf a b hb⟩

theorem table {x y : Except TableFault α} (h : OkWithin x y) :
    OkWithin (liftM x : Except TypeFault α) (liftM y) :=
  fun a ha => liftTable_eq_ok_iff.2 (h a (liftTable_eq_ok_iff.1 ha))

theorem ite {c : Prop} [Decidable c] {x' y' : Except ε α} (h : OkWithin x y)
    (h' : OkWithin x' y') : OkWithin (if c then x else x') (if c then y else y') := by
  split
  · exact h
  · exact h'

theorem forM {f g : β → Except ε Unit} {bs : List β} (h : ∀ b ∈ bs, OkWithin (f b) (g b)) :
    OkWithin (bs.forM f) (bs.forM g) := fun () hf =>
  forM_eq_ok_iff.2 fun b hb => h b hb () (forM_eq_ok_iff.1 hf b hb)

end OkWithin

namespace CheckM

variable {x y : CheckM ε α} {f g : α → CheckM ε β}

def Within (x y : CheckM ε α) : Prop :=
  ∀ w a w', x.run.run w = (.ok a, w') → y.run.run w = (.ok a, w')

namespace Within

theorem refl (x : CheckM ε α) : x.Within x := fun _ _ _ h => h

theorem bind (h : x.Within y) (hf : ∀ a, (f a).Within (g a)) : Within (x >>= f) (y >>= g) := by
  intro w b w' hb
  obtain ⟨a, w₁, ha, hb⟩ := run_bind_eq_ok_iff.1 hb
  exact run_bind_eq_ok_iff.2 ⟨a, w₁, h w a w₁ ha, hf a w₁ b w' hb⟩

theorem lift {x y : Except TypeFault α} (h : OkWithin x y) :
    Within (liftM x : CheckM TypeFault α) (liftM y) := by
  intro w a w' ha
  obtain ⟨hx, rfl⟩ := Prod.mk.inj ha
  exact Prod.ext (h a hx) rfl

theorem table {x y : Except TableFault α} (h : OkWithin x y) :
    Within (liftM x : CheckM TypeFault α) (liftM y) :=
  lift h.table

theorem adapt {k : ε → ε'} (h : x.Within y) : Within (x.adapt k) (y.adapt k) := by
  intro w a w' ha
  rw [run_adapt] at ha ⊢
  obtain ⟨hx, rfl⟩ := Prod.mk.inj ha
  rw [h w a _ (Prod.ext (mapError_eq_ok_iff.1 hx) rfl)]
  rfl

theorem forM {f g : β → CheckM ε Unit} {bs : List β} (h : ∀ b ∈ bs, (f b).Within (g b)) :
    Within (bs.forM f) (bs.forM g) := by
  induction bs with
  | nil => exact .refl _
  | cons b bs ih =>
    rw [List.forall_mem_cons] at h
    exact h.1.bind fun _ => ih h.2

end Within

end CheckM

end Order

namespace ClassTable

variable {t t' : ClassTable} {N : ClassTy} {as : List Ancestor}

def PartOf (t t' : ClassTable) : Prop := ∀ C c, t.find? C = some c → t'.find? C = some c

theorem PartOf.instantiate (h : t.PartOf t') (N : ClassTy) :
    OkWithin (t.instantiate N) (t'.instantiate N) := fun a ha => by
  rw [instantiate_eq_ok_iff] at ha ⊢
  exact ⟨h _ _ ha.1, ha.2⟩

theorem PartOf.typeParams (h : t.PartOf t') (C : String) :
    OkWithin (t.typeParams C) (t'.typeParams C) := fun Xs hXs => by
  obtain ⟨c, hc, hXs⟩ := typeParams_eq_ok_iff.1 hXs
  exact typeParams_eq_ok_iff.2 ⟨c, h C c hc, hXs⟩

theorem PartOf.chain (h : t.PartOf t') (has : t.Chain N as) : t'.Chain N as := by
  induction has with
  | root => exact .root
  | step hN ha _ ih => exact .step hN (h.instantiate _ _ ha) ih

theorem requireAllWellFormed_within {Δ : TypeEnv} {Ts : List Ty}
    (hTs : ∀ T ∈ Ts, OkWithin (t.requireWellFormed Δ T) (t'.requireWellFormed Δ T)) :
    OkWithin (t.requireAllWellFormed Δ Ts) (t'.requireAllWellFormed Δ Ts) := by
  intro ()
  simp only [requireAllWellFormed_eq_ok_iff]
  exact fun hw T hT => hTs T hT () (hw T hT)

section Checks

variable (h : t.PartOf t') (hv : t'.Valid) (Δ : TypeEnv)
include h hv

theorem PartOf.ancestry (N : ClassTy) : OkWithin (t.ancestry N) (t'.ancestry N) := fun _ has =>
  hv.ancestry_eq_ok_iff.2 (h.chain (climb_eq_ok_iff.1 has).1)

theorem PartOf.fields (N : ClassTy) : OkWithin (t.fields N) (t'.fields N) :=
  (h.ancestry hv N).bind fun _ => .refl _

theorem PartOf.methodType? (m : String) (N : ClassTy) :
    OkWithin (t.methodType? m N) (t'.methodType? m N) :=
  (h.ancestry hv N).bind fun _ => .refl _

theorem PartOf.below (N : ClassTy) (T : Ty) : OkWithin (t.below N T) (t'.below N T) :=
  .ite (.refl _) ((h.ancestry hv N).bind fun _ => .refl _)

theorem PartOf.subtype (S T : Ty) : OkWithin (t.subtype Δ S T) (t'.subtype Δ S T) := by
  refine .ite (.refl _) ?_
  cases S with
  | inst C Ss => exact h.below hv ⟨C, Ss⟩ T
  | var X =>
    dsimp only
    split
    · next N _ => exact h.below hv N T
    · exact .refl _

theorem PartOf.requireBounds (σ : Subst) (Ts : List Ty) (Xs : List TypeParam) :
    OkWithin (t.requireBounds Δ σ Ts Xs) (t'.requireBounds Δ σ Ts Xs) := by
  intro ()
  simp only [requireBounds_eq_ok_iff]
  exact fun hb p hp => h.subtype hv Δ _ _ _ (hb p hp)

theorem PartOf.requireWellFormed (T : Ty) :
    OkWithin (t.requireWellFormed Δ T) (t'.requireWellFormed Δ T) := by
  induction T using Ty.induction with
  | var X => exact .refl _
  | inst C Ts ih =>
    simp only [ClassTable.requireWellFormed]
    refine .ite (.refl _) ((requireAllWellFormed_within ih).bind fun _ => ?_)
    refine (h.typeParams C).table.bind fun Xs => (OkWithin.refl _).bind fun σ => ?_
    exact h.requireBounds hv Δ σ Ts Xs

theorem PartOf.allowsOverride (m : String) (N : ClassTy) (T : MethodType) :
    OkWithin (t.allowsOverride Δ m N T) (t'.allowsOverride Δ m N T) := by
  refine (h.methodType? hv m N).bind fun r => ?_
  cases r with
  | none => exact .refl _
  | some U =>
    refine .ite (.refl _) ((OkWithin.refl _).bind fun σ => .ite ?_ (.refl _))
    exact h.subtype hv Δ _ _

end Checks

end ClassTable

namespace Typing

open CheckM

variable {t t' : ClassTable} (h : t.PartOf t') (hv : t'.Valid) (Δ : TypeEnv)
include h hv

theorem requireSubtype_within (S T : Ty) :
    OkWithin (requireSubtype t Δ S T) (requireSubtype t' Δ S T) :=
  (h.subtype hv Δ S T).table.bind fun _ => .refl _

theorem fieldType_within (N : ClassTy) (f : String) :
    OkWithin (fieldType t N f) (fieldType t' N f) :=
  (h.fields hv N).table.bind fun _ => .refl _

theorem callType_within (N : ClassTy) (m : String) (Vs : List Ty) (k : Nat) :
    OkWithin (callType t Δ N m Vs k) (callType t' Δ N m Vs k) := by
  refine (h.methodType? hv m N).table.bind fun r => ?_
  cases r with
  | none => exact .refl _
  | some U =>
    have hVs : OkWithin (t.requireAllWellFormed Δ Vs) (t'.requireAllWellFormed Δ Vs) :=
      ClassTable.requireAllWellFormed_within fun V _ => h.requireWellFormed hv Δ V
    refine hVs.bind fun _ => (OkWithin.refl _).bind fun _ => (OkWithin.refl _).bind fun σ => ?_
    exact (h.requireBounds hv Δ σ Vs U.typeParams).bind fun _ => .refl _

theorem newTypes_within (N : ClassTy) (k : Nat) :
    OkWithin (newTypes t Δ N k) (newTypes t' Δ N k) :=
  (h.requireWellFormed hv Δ N.toTy).bind fun _ => (h.fields hv N).table.bind fun _ => .refl _

theorem related_within (M N : ClassTy) : OkWithin (related t Δ M N) (related t' Δ M N) :=
  (h.subtype hv Δ _ _).bind fun _ => .ite (.refl _) (h.subtype hv Δ _ _)

variable (Γ : VarEnv) (site : Span)

theorem requireArgs_within {es : List Term} (Ps : List Ty)
    (hes : ∀ e ∈ es, (typeOf t Δ Γ site e).Within (typeOf t' Δ Γ site e)) :
    (requireArgs t Δ Γ site es Ps).Within (requireArgs t' Δ Γ site es Ps) := by
  induction es generalizing Ps with
  | nil => exact .refl _
  | cons e es ih =>
    cases Ps with
    | nil => exact .refl _
    | cons P Ps =>
      rw [List.forall_mem_cons] at hes
      rw [requireArgs, requireArgs]
      refine hes.1.bind fun S => ?_
      exact (Within.lift (requireSubtype_within h hv Δ S P)).bind fun _ => ih Ps hes.2

theorem typeOf_within (e : Term) : (typeOf t Δ Γ site e).Within (typeOf t' Δ Γ site e) := by
  induction e using Term.induction with
  | var x => exact .refl _
  | field e f ih =>
    rw [typeOf, typeOf]
    refine ih.bind fun T => (Within.refl _).bind fun N => ?_
    exact .lift (fieldType_within h hv N f)
  | call e m Vs es ih ihs =>
    rw [typeOf, typeOf]
    refine ih.bind fun T => (Within.refl _).bind fun N => ?_
    refine (Within.lift (callType_within h hv Δ N m Vs es.length)).bind fun q => ?_
    exact (requireArgs_within h hv Δ Γ site q.1 ihs).bind fun _ => .refl _
  | new N es ihs =>
    rw [typeOf, typeOf]
    refine (Within.lift (newTypes_within h hv Δ N es.length)).bind fun Ps => ?_
    exact (requireArgs_within h hv Δ Γ site Ps ihs).bind fun _ => .refl _
  | cast N e ih =>
    rw [typeOf, typeOf]
    refine (Within.lift (h.requireWellFormed hv Δ N.toTy)).bind fun _ => ih.bind fun T => ?_
    refine (Within.refl _).bind fun M => ?_
    exact (Within.table (related_within h hv Δ M N)).bind fun b => .refl _

omit Δ Γ site

theorem requireConstructor_within (c : ClassDecl) :
    OkWithin (requireConstructor t c) (requireConstructor t' c) :=
  (OkWithin.refl _).bind fun _ => (h.fields hv _).table.bind fun _ => .refl _

theorem requireHeader_within (c : ClassDecl) :
    OkWithin (requireHeader t c) (requireHeader t' c) := by
  refine (OkWithin.forM fun X _ => h.requireWellFormed hv _ _).bind fun _ => ?_
  refine (h.requireWellFormed hv _ _).bind fun _ => ?_
  refine (OkWithin.forM fun f _ => h.requireWellFormed hv _ _).bind fun _ => ?_
  exact requireConstructor_within h hv c

theorem requireHead_within (Δ : TypeEnv) (d : MethodDecl) :
    OkWithin (requireHead t Δ d) (requireHead t' Δ d) := by
  refine (OkWithin.forM fun X _ => h.requireWellFormed hv _ _).bind fun _ => ?_
  refine (h.requireWellFormed hv _ _).bind fun _ => ?_
  exact .forM fun p _ => h.requireWellFormed hv _ _

theorem requireMethod_within (c : ClassDecl) (d : MethodDecl) :
    (requireMethod t c d).Within (requireMethod t' c d) := by
  refine (Within.lift (requireHead_within h hv _ d)).bind fun _ => ?_
  refine (typeOf_within h hv _ _ _ d.body).bind fun T => ?_
  refine (Within.lift (requireSubtype_within h hv _ T d.returnType)).bind fun _ => .lift ?_
  exact (h.allowsOverride hv _ _ _ _).table.bind fun _ => .refl _

theorem requireClass_within (c : ClassDecl) : (requireClass t c).Within (requireClass t' c) :=
  (Within.lift (requireHeader_within h hv c)).adapt.bind fun _ =>
    .forM fun d _ => (requireMethod_within h hv c d).adapt

theorem typeOfProgram_within (p : Program) : (typeOfProgram t p).Within (typeOfProgram t' p) :=
  (Within.forM fun c _ => requireClass_within h hv c).bind fun _ =>
    (typeOf_within h hv _ _ _ p.term).adapt

end Typing

end Featherweight

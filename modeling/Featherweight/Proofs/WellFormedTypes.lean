import Featherweight.Proofs.Overriding
import Featherweight.Proofs.RuntimeTypes

/-!
# Well-formed types

Checking looks at declared types only, each over the type parameters around it. All other
types that a program reaches are instances of these: supertypes, types of inherited fields
and results of calls. Instances are well formed if the type arguments are and lie within
the bounds, which may mention the parameters themselves. A term then has a well-formed
type, provided that the look-ups of its calls capture no type variable.
-/

namespace Featherweight

namespace ClassTable

variable {t : ClassTable} {Δ : TypeEnv} {N : ClassTy} {S T : Ty} {m : String}

def BoundsWellFormed (t : ClassTable) (Δ : TypeEnv) : Prop :=
  ∀ X N, Δ.bound? X = some N → t.WellFormed Δ N.toTy

theorem BoundsWellFormed.bound (hΔ : t.BoundsWellFormed Δ) (hS : t.WellFormed Δ S)
    (hN : Δ.bound S = .ok N) : t.WellFormed Δ N.toTy := by
  cases S with
  | inst C Ss =>
    cases hN
    exact hS
  | var X =>
    simp only [TypeEnv.bound] at hN
    split at hN
    · next hX =>
      cases hN
      exact hΔ X N hX
    · cases hN

section Reached

variable (hv : t.Valid) (hh : t.HeadsWellFormed)
include hv hh

theorem Valid.wellFormed_of_subtype (hΔ : t.BoundsWellFormed Δ) (hS : t.WellFormed Δ S)
    (h : t.Subtype Δ S T) : t.WellFormed Δ T := by
  rcases hv.subtype_iff.1 h with rfl | ⟨N, M, hN, hM, rfl⟩
  · exact hS
  · exact hv.wellFormed_of_below hh hM (hΔ.bound hS hN)

theorem Valid.wellFormed_of_fields (hN : t.WellFormed Δ N.toTy) {fs : List Binding}
    (hfs : t.fields N = .ok fs) {b : Binding} (hb : b ∈ fs) : t.WellFormed Δ b.ty := by
  obtain ⟨M, a, hNM, hM, f, hf, rfl⟩ := exists_declared_field hfs hb
  obtain ⟨hσ, hw⟩ := hv.respects_of_wellFormed (hv.wellFormed_of_below hh hNM hN) hM
  exact hv.wellFormed_subst hh.scoped hσ hw ((hh _ (decl_mem_of_instantiate hM)).fields f hf)

theorem Valid.wellFormed_of_fieldType (hN : t.WellFormed Δ N.toTy) {f : String}
    (hf : Typing.fieldType t N f = .ok T) : t.WellFormed Δ T := by
  obtain ⟨fs, b, hfs, hb, rfl⟩ := Typing.fieldType_eq_ok_iff.1 hf
  exact hv.wellFormed_of_fields hh hN hfs (List.mem_of_find?_eq_some hb)

theorem Valid.wellFormed_of_callType (hmh : t.MethodHeads)
    (hsep : ∀ c ∈ t.classes, c.DistinctScopes) (hap : t.Apart m N) (hN : t.WellFormed Δ N.toTy)
    {Vs Ps : List Ty} {k : Nat} (hm : Typing.callType t Δ N m Vs k = .ok (Ps, T)) :
    t.WellFormed Δ T := by
  obtain ⟨U, α, hcall, -, -, rfl⟩ := Typing.callType_eq_ok_iff.1 hm
  obtain ⟨a, d, hf, rfl⟩ := hv.methodType?_eq_some_iff.1 hcall.found
  obtain ⟨M, hNM, ha⟩ := hf.exists_instantiate
  have hM := hv.wellFormed_of_below hh hNM hN
  have hα : Subst.instantiate d.typeParams Vs = .ok α := by
    rw [← Subst.instantiate_methodType a.subst d]
    exact hcall.subst
  have hb : ∀ p ∈ Vs.zip d.typeParams, t.Subtype Δ p.1 (α.ty (a.subst.ty p.2.bound.toTy)) :=
    (forall_mem_zip_map_right (p := fun V (P : TypeParam) =>
      t.Subtype Δ V (α.ty P.bound.toTy))).1 hcall.bounds
  -- The ancestor's type arguments come from `N`, so they have no variable that `N` has not.
  have hfree : ∀ X ∈ d.typeParams.map TypeParam.name, X ∉ M.vars := fun X hX hXM =>
    hap.not_mem_vars hv hf hX (hh.scoped.mem_vars_of_below hNM hXM)
  have hsepa := hsep _ hf.decl_mem
  have hσ := hv.respects_of_method hM ha hf.mem hα hsepa hfree hh hb
  have hw := hv.wellFormed_of_method hM ha hf.mem hα hsepa hfree hcall.wellFormed
  have hT := hv.wellFormed_subst hh.scoped hσ hw (hmh _ hf.decl_mem d hf.mem).returnType
  rwa [Subst.ty_andThen] at hT

end Reached

end ClassTable

open ClassTable

theorem Typing.HasType.wellFormed {t : ClassTable} {Δ : TypeEnv} {Γ : VarEnv} {e : Term} {T : Ty}
    (hv : t.Valid) (hwt : t.WellTyped) (hsep : ∀ c ∈ t.classes, c.DistinctScopes)
    (hap : ∀ m N, t.WellFormed Δ N.toTy → t.Apart m N) (hΔ : t.BoundsWellFormed Δ)
    (hΓ : ∀ x S, Γ.lookup x = some S → t.WellFormed Δ S) (h : HasType t Δ Γ e T) :
    t.WellFormed Δ T := by
  induction h with
  | var hx => exact hΓ _ _ hx
  | field _ hN hf ih => exact hv.wellFormed_of_fieldType hwt.heads (hΔ.bound ih hN) hf
  | @call _ m _ _ _ _ N _ _ _ hN hm _ _ _ ih _ =>
    have hwf := hΔ.bound ih hN
    exact hv.wellFormed_of_callType hwt.heads hwt.methodHeads hsep (hap m N hwf) hwf hm
  | new hN _ _ _ _ => exact (newTypes_eq_ok_iff.1 hN).1
  | cast hN _ _ _ _ => exact hN

/-- Subtypes and well-formed types over a list of type parameters stay so when well-formed
types within the bounds are put in for the parameters. -/
theorem Program.subtype_wellFormed_subst {source : String} {p : Program} {t : ClassTable}
    (hp : (ofSource source).Gives p) (ht : ClassTable.ofClasses p.classes = .ok t)
    {Ps : List TypeParam} {As : List Ty} {σ : Subst} {Δ : TypeEnv}
    (hd : (Ps.map TypeParam.name).Nodup) (hσ : Subst.instantiate Ps As = .ok σ)
    (hw : ∀ A ∈ As, t.WellFormed Δ A)
    (hb : ∀ q ∈ As.zip Ps, t.Subtype Δ q.1 (σ.classTy q.2.bound).toTy) :
    (∀ S T, t.Subtype (TypeEnv.empty.add Ps) S T → t.Subtype Δ (σ.ty S) (σ.ty T)) ∧
    ∀ S, t.WellFormed (TypeEnv.empty.add Ps) S → t.WellFormed Δ (σ.ty S) := by
  obtain ⟨rfl, hv⟩ := ClassTable.ofClasses_eq_ok_iff.1 ht
  have hr : ClassTable.Resolved ⟨p.classes⟩ := (resolved_of_ofSource hp).classes
  have hbounds := respectsBounds_of_args hd hσ hb
  have hargs := fun X => wellFormed_of_args (X := X) hd hσ hw
  constructor
  · intro S T h
    exact hv.subtype_subst hr.scoped hbounds h
  · intro S h
    exact hv.wellFormed_subst hr.scoped hbounds hargs h

def sortedBoxes : List String :=
  ["class Ord<T extends Ord<T>> extends Object ", "\x7b Ord() \x7b super(); \x7d \x7d ",
    "class Num extends Ord<Num> \x7b ", "Num() \x7b super(); \x7d \x7d ",
    "class Box<T extends Object> extends Object ",
    "\x7b T f; Box(T f) \x7b super(); this.f = f; \x7d \x7d ",
    "class Sorted<T extends Ord<T>> ", "extends Box<Box<T>> \x7b ",
    "Sorted(Box<T> f) \x7b super(f); \x7d ", "<U extends Box<T>> Box<U> put(U u) ",
    "\x7b return new Box<U>(u); \x7d \x7d ", "new Sorted<Num>(new Box<Num>(new Num()))",
    ".put<Box<Num>>(new Box<Num>(new Num()))"]

theorem Program.subtype_wellFormed_subst_sortedBoxes :
    (ofSource (String.join sortedBoxes)).Yields fun p =>
      ∃ t, ClassTable.ofClasses p.classes = .ok t ∧
        let num : Ty := .inst "Num" []
        let Ps : List TypeParam :=
          [⟨"X", ⟨"Ord", [.var "X"]⟩⟩, ⟨"Y", ⟨"Sorted", [.var "X"]⟩⟩]
        let Δ := TypeEnv.empty.add [⟨"Z", ⟨"Sorted", [num]⟩⟩]
        ∃ σ, Subst.instantiate Ps [num, .var "Z"] = .ok σ ∧
          t.WellFormed Δ num ∧ t.WellFormed Δ (.var "Z") ∧
          t.Subtype Δ num (.inst "Ord" [num]) ∧
          t.Subtype Δ (.var "Z") (.inst "Sorted" [num]) ∧
          t.Subtype (TypeEnv.empty.add Ps) (.var "Y") (.inst "Box" [.inst "Box" [.var "X"]]) ∧
          t.Subtype Δ (.var "Z") (.inst "Box" [.inst "Box" [num]]) ∧
          t.WellFormed (TypeEnv.empty.add Ps) (.inst "Sorted" [.var "X"]) ∧
          t.WellFormed Δ (.inst "Sorted" [num]) := by
  let num : Ty := .inst "Num" []
  let Ps : List TypeParam := [⟨"X", ⟨"Ord", [.var "X"]⟩⟩, ⟨"Y", ⟨"Sorted", [.var "X"]⟩⟩]
  let Δ := TypeEnv.empty.add [⟨"Z", ⟨"Sorted", [num]⟩⟩]
  let σ : Subst := ⟨[("Y", .var "Z"), ("X", num)]⟩
  have hyps : (ofSource (String.join sortedBoxes)).Yields fun p =>
      ClassTable.ofClasses p.classes = .ok ⟨p.classes⟩ ∧
      (∀ A ∈ [num, .var "Z"], WellFormed ⟨p.classes⟩ Δ A) ∧
      (∀ q ∈ [num, .var "Z"].zip Ps,
        ClassTable.Subtype ⟨p.classes⟩ Δ q.1 (σ.classTy q.2.bound).toTy) ∧
      ClassTable.Subtype ⟨p.classes⟩ (TypeEnv.empty.add Ps) (.var "Y")
        (.inst "Box" [.inst "Box" [.var "X"]]) ∧
      WellFormed ⟨p.classes⟩ (TypeEnv.empty.add Ps) (.inst "Sorted" [.var "X"]) := by
    rw [ofSource, tokenize_join]
    decide +kernel
  obtain ⟨p, hp, ht, hw, hb, hsub, hwf⟩ := hyps
  have hσ : Subst.instantiate Ps [num, .var "Z"] = .ok σ := by decide
  obtain ⟨hsubs, hwfs⟩ := subtype_wellFormed_subst hp ht (by decide) hσ hw hb
  exact ⟨p, hp, _, ht, σ, hσ, hw num List.mem_cons_self, hw _ (by simp),
    hb (num, _) List.mem_cons_self, hb (.var "Z", _) (List.mem_cons_of_mem _ List.mem_cons_self),
    hsub, hsubs _ _ hsub, hwf, hwfs _ hwf⟩

/-- From well-formed types an accepted program reaches only well-formed types, upwards and
through fields. Its term has a closed and well-formed type unless a method's type parameter
shadows one of its class. -/
theorem Accepted.reaches_wellFormed {source : String} {c : Accepted}
    (hc : (Accepted.ofSource source).Gives c) :
    (∀ Δ, c.table.BoundsWellFormed Δ →
      (∀ S T, c.table.WellFormed Δ S → c.table.Subtype Δ S T → c.table.WellFormed Δ T) ∧
      ∀ N : ClassTy, c.table.WellFormed Δ N.toTy →
        ∃ fs, c.table.fields N = .ok fs ∧ ∀ b ∈ fs, c.table.WellFormed Δ b.ty) ∧
    ((∀ k ∈ c.program.classes, k.DistinctScopes) →
      c.ty.Closed ∧ c.table.WellFormed .empty c.ty) := by
  obtain ⟨-, hs⟩ := gives_ofSource hc
  have hv := hs.valid
  have hh := hs.wellTyped.heads
  constructor
  · intro Δ hΔ
    refine ⟨fun S T => hv.wellFormed_of_subtype hh hΔ, fun N hN => ?_⟩
    obtain ⟨as, has⟩ := hv.exists_chain_of_wellFormed hN
    have hfs := hv.fields_eq_ok_iff.2 ⟨as, has, rfl⟩
    exact ⟨_, hfs, fun b => hv.wellFormed_of_fields hh hN hfs⟩
  · intro hsep
    have hclasses : c.table.classes = c.program.classes := by rw [hs.table]
    rw [← hclasses] at hsep
    have hty : c.table.WellFormed .empty c.ty := by
      apply hs.term.wellFormed hv hs.wellTyped hsep
      · exact fun m N hN T _ P _ => hN.not_mem_vars P.name
      · simp [BoundsWellFormed]
      · simp
    exact ⟨hty.vars_eq_nil, hty⟩

theorem Accepted.reaches_wellFormed_sortedBoxes :
    (Accepted.ofSource (String.join sortedBoxes)).Yields fun c =>
      let num : Ty := .inst "Num" []
      let box : Ty := .inst "Box" [.inst "Box" [num]]
      let sorted : ClassTy := ⟨"Sorted", [num]⟩
      let Δ := TypeEnv.empty.add [⟨"Z", sorted⟩]
      c.table.BoundsWellFormed Δ ∧ c.table.WellFormed Δ (.var "Z") ∧
        c.table.Subtype Δ (.var "Z") box ∧ c.table.WellFormed Δ box ∧
        c.table.WellFormed Δ sorted.toTy ∧
        (∃ fs, c.table.fields sorted = .ok fs ∧ ∀ b ∈ fs, c.table.WellFormed Δ b.ty) ∧
        (∀ k ∈ c.program.classes, k.DistinctScopes) ∧ c.ty = box ∧ c.ty.Closed ∧
        c.table.WellFormed .empty c.ty := by
  let num : Ty := .inst "Num" []
  let box : Ty := .inst "Box" [.inst "Box" [num]]
  let sorted : ClassTy := ⟨"Sorted", [num]⟩
  let Δ := TypeEnv.empty.add [⟨"Z", sorted⟩]
  have hyps : (Accepted.ofSource (String.join sortedBoxes)).Yields fun c =>
      c.table.WellFormed Δ sorted.toTy ∧ c.table.WellFormed Δ (.var "Z") ∧
      c.table.Subtype Δ (.var "Z") box ∧
      (∀ k ∈ c.program.classes, k.DistinctScopes) ∧ c.ty = box := by
    rw [ofSource, Program.ofSource, tokenize_join]
    decide +kernel
  obtain ⟨c, hc, hsorted, hZ, hsub, hsep, hty⟩ := hyps
  obtain ⟨hreach, hterm⟩ := reaches_wellFormed hc
  have hΔ : c.table.BoundsWellFormed Δ := by
    intro X N hN
    rcases TypeEnv.bound?_add hN with ⟨P, hP, -, rfl⟩ | ⟨-, hN⟩
    · cases List.mem_singleton.1 hP
      exact hsorted
    · cases hN
  obtain ⟨hup, hfields⟩ := hreach Δ hΔ
  obtain ⟨hclosed, hwf⟩ := hterm hsep
  exact ⟨c, hc, hΔ, hZ, hsub, hup _ _ hZ hsub, hsorted, hfields _ hsorted, hsep, hty, hclosed,
    hwf⟩

end Featherweight

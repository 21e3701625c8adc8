import Featherweight.ClassTable.Validation
import Featherweight.Proofs.Results
import Featherweight.Proofs.Substitution
import Mathlib.Data.List.Nodup

/-!
# The class hierarchy of a valid table

A valid table is one that passes `requireValid`. In it every climb from a class
type with the right number of arguments ends at the root: the climb looks only at
names and numbers of arguments, and validation has made it once for each class.
`Chain` is a climb step by step and `Below` forgets what was met on the way. The
arguments may grow at every step, so both are inductions on steps and not on types.
-/

namespace Featherweight

theorem firstRepeat?_eq_none_iff {seen xs : List String} :
    firstRepeat? seen xs = none ↔ xs.Nodup ∧ ∀ x ∈ xs, x ∉ seen := by
  induction xs generalizing seen with
  | nil => simp [firstRepeat?]
  | cons x xs ih =>
    simp only [firstRepeat?, List.nodup_cons, List.forall_mem_cons]
    split
    · next h => simp [h]
    · next h =>
      rw [ih]
      simp only [List.mem_cons, not_or]
      constructor
      · rintro ⟨hd, hx⟩
        exact ⟨⟨fun hm => (hx x hm).1 rfl, hd⟩, h, fun y hy => (hx y hy).2⟩
      · rintro ⟨⟨hm, hd⟩, -, hx⟩
        exact ⟨hd, fun y hy => ⟨fun he => hm (he ▸ hy), hx y hy⟩⟩

theorem requireDistinct_eq_ok_iff {fault : String → TableFault} {names : List String} :
    requireDistinct fault names = .ok () ↔ names.Nodup := by
  have h : firstRepeat? [] names = none ↔ _ := firstRepeat?_eq_none_iff
  unfold requireDistinct
  split
  · next x hx =>
    rw [hx] at h
    simp only [reduceCtorEq, List.not_mem_nil, not_false_eq_true, implies_true, and_true,
      false_iff] at h
    simp [h, throw_ne_ok]
  · next hx =>
    simpa [hx, pure_eq_ok_iff] using h

namespace ClassTable

variable {t : ClassTable} {C : String} {c : ClassDecl} {M N : ClassTy} {a : Ancestor}
  {as bs : List Ancestor} {σ : Subst} {n : Nat}

theorem find_eq_ok_iff : t.find C = .ok c ↔ t.find? C = some c := by
  unfold find
  split
  · next h => simp [h]
  · next h => simp [h]

theorem mem_of_find? (h : t.find? C = some c) : c ∈ t.classes := List.mem_of_find?_eq_some h

theorem name_of_find? (h : t.find? C = some c) : c.name = C := by
  simpa using List.find?_some h

theorem find?_of_nodup (hn : (t.classes.map ClassDecl.name).Nodup) (hc : c ∈ t.classes) :
    t.find? c.name = some c := by
  have hsome : (t.find? c.name).isSome := List.find?_isSome.2 ⟨c, hc, by simp⟩
  obtain ⟨c', hc'⟩ := Option.isSome_iff_exists.1 hsome
  rw [hc', List.inj_on_of_nodup_map hn (mem_of_find? hc') hc (name_of_find? hc')]

theorem instantiate_eq_ok_iff : t.instantiate N = .ok a ↔
    t.find? N.name = some a.decl ∧ Subst.instantiate a.decl.typeParams N.args = .ok a.subst := by
  simp only [instantiate, bind_eq_ok_iff, pure_eq_ok_iff, find_eq_ok_iff]
  constructor
  · rintro ⟨c, hc, τ, hτ, rfl⟩
    exact ⟨hc, hτ⟩
  · rintro ⟨hc, hτ⟩
    exact ⟨_, hc, _, hτ, rfl⟩

/-- The classes met on the way up from a class type. -/
inductive Chain (t : ClassTable) : ClassTy → List Ancestor → Prop where
  | root : Chain t .object []
  | step {N : ClassTy} {a : Ancestor} {as : List Ancestor} (hN : N ≠ .object)
      (ha : t.instantiate N = .ok a) (has : Chain t a.superType as) : Chain t N (a :: as)

theorem climb_object (t : ClassTable) (n : Nat) : t.climb n .object = .ok [] := by
  unfold climb
  rfl

theorem climb_of_error {e : TableFault} (hN : N ≠ .object) (h : t.instantiate N = .error e) :
    t.climb n N = .error e := by
  rw [climb, if_neg hN, h]
  rfl

theorem climb_succ (hN : N ≠ .object) (ha : t.instantiate N = .ok a) :
    t.climb (n + 1) N = (t.climb n a.superType).map (a :: ·) := by
  rw [climb, if_neg hN, ha]
  rfl

theorem climb_eq_ok_iff : t.climb n N = .ok as ↔ t.Chain N as ∧ as.length ≤ n := by
  constructor
  · intro h
    induction n generalizing N as with
    | zero =>
      by_cases hN : N = .object
      · subst hN
        rw [climb_object] at h
        cases h
        exact ⟨.root, Nat.le_refl _⟩
      · rw [climb, if_neg hN, bind_eq_ok_iff] at h
        obtain ⟨a, -, h⟩ := h
        exact absurd h throw_ne_ok
    | succ n ih =>
      by_cases hN : N = .object
      · subst hN
        rw [climb_object] at h
        cases h
        exact ⟨.root, Nat.zero_le _⟩
      · rw [climb, if_neg hN, bind_eq_ok_iff] at h
        obtain ⟨a, ha, h⟩ := h
        simp only [bind_eq_ok_iff, pure_eq_ok_iff] at h
        obtain ⟨as, has, rfl⟩ := h
        obtain ⟨hc, hl⟩ := ih has
        exact ⟨.step hN ha hc, Nat.succ_le_succ hl⟩
  · rintro ⟨h, hl⟩
    induction h generalizing n with
    | root => exact climb_object t n
    | step hN ha _ ih =>
      cases n with
      | zero => simp at hl
      | succ n =>
        rw [climb_succ hN ha, ih (Nat.le_of_succ_le_succ hl)]
        rfl

theorem Chain.exists_step (h : t.Chain N as) (hN : N ≠ .object) :
    ∃ a as', as = a :: as' ∧ t.instantiate N = .ok a ∧ t.Chain a.superType as' := by
  cases h with
  | root => exact absurd rfl hN
  | step _ ha has => exact ⟨_, _, rfl, ha, has⟩

theorem Chain.eq (h : t.Chain N as) (h' : t.Chain N bs) : as = bs := by
  induction h generalizing bs with
  | root =>
    cases h' with
    | root => rfl
    | step hN _ _ => exact absurd rfl hN
  | step hN ha _ ih =>
    cases h' with
    | root => exact absurd rfl hN
    | step _ ha' has' =>
      rw [ha] at ha'
      cases ha'
      rw [ih has']

theorem Chain.exists_of_arity (h : t.Chain N as) (hname : M.name = N.name)
    (hargs : M.args.length = N.args.length) : ∃ bs, t.Chain M bs ∧ bs.length = as.length := by
  induction h generalizing M with
  | root =>
    have hM : M = .object := by
      cases M
      simp_all [ClassTy.object]
    exact ⟨[], hM ▸ .root, rfl⟩
  | @step N a as hN ha _ ih =>
    obtain ⟨hc, hτ⟩ := instantiate_eq_ok_iff.1 ha
    have hl := (Subst.instantiate_eq_ok_iff.1 hτ).1
    obtain ⟨τ, hτ'⟩ := Subst.exists_instantiate (hl.trans hargs.symm)
    have hb : t.instantiate M = .ok ⟨a.decl, τ⟩ := instantiate_eq_ok_iff.2 ⟨hname ▸ hc, hτ'⟩
    have hM : M ≠ .object := by
      rintro rfl
      have hnil : N.args = [] := List.length_eq_zero_iff.1 hargs.symm
      cases N
      simp_all [ClassTy.object]
    obtain ⟨bs, hbs, hlen⟩ := ih (M := (⟨a.decl, τ⟩ : Ancestor).superType) rfl
      (by simp [Ancestor.superType])
    exact ⟨_ :: bs, .step hM hb hbs, by simp [hlen]⟩

/-- What `requireValid` checks. -/
@[mk_iff]
structure Valid (t : ClassTable) : Prop where
  names : (t.classes.map ClassDecl.name).Nodup
  object : ClassTy.object.name ∉ t.classes.map ClassDecl.name
  superTypes : ∀ c ∈ t.classes, c.superType = .object ∨ (t.find? c.superType.name).isSome
  acyclic : ∀ c ∈ t.classes, t.reaches c.name t.classes.length c.superType = false
  methods : ∀ c ∈ t.classes, (c.methods.map MethodDecl.name).Nodup
  typeParams : ∀ c ∈ t.classes, (c.typeParams.map TypeParam.name).Nodup
  methodTypeParams : ∀ c ∈ t.classes, ∀ d ∈ c.methods, (d.typeParams.map TypeParam.name).Nodup
  fields : ∀ c ∈ t.classes, ∃ fs, t.fields c.thisType = .ok fs ∧ (fs.map Binding.name).Nodup

theorem requireNames_eq_ok_iff {seen names : List String} : requireNames seen names = .ok () ↔
    ClassTy.object.name ∉ names ∧ names.Nodup ∧ ∀ x ∈ names, x ∉ seen := by
  induction names generalizing seen with
  | nil => simp [requireNames, pure_eq_ok_iff]
  | cons x xs ih =>
    simp only [requireNames, bind_eq_ok_iff, require_eq_ok_iff, ih, List.mem_cons, not_or,
      List.nodup_cons, exists_unit_iff]
    grind

theorem requireMembers_eq_ok_iff : t.requireMembers c = .ok () ↔
    (c.methods.map MethodDecl.name).Nodup ∧ (c.typeParams.map TypeParam.name).Nodup ∧
      (∀ d ∈ c.methods, (d.typeParams.map TypeParam.name).Nodup) ∧
      ∃ fs, t.fields c.thisType = .ok fs ∧ (fs.map Binding.name).Nodup := by
  simp only [requireMembers, bind_eq_ok_iff, requireDistinct_eq_ok_iff, forM_eq_ok_iff,
    exists_unit_iff]

theorem requireValid_eq_ok_iff : t.requireValid = .ok () ↔ t.Valid := by
  simp only [requireValid, bind_eq_ok_iff, requireNames_eq_ok_iff, forM_eq_ok_iff, exists_unit_iff,
    requireSuperType, requireAcyclic, require_eq_ok_iff, requireMembers_eq_ok_iff]
  constructor
  · rintro ⟨⟨ho, hn, -⟩, hs, ha, hm⟩
    exact ⟨hn, ho, hs, ha, fun c hc => (hm c hc).1, fun c hc => (hm c hc).2.1,
      fun c hc => (hm c hc).2.2.1, fun c hc => (hm c hc).2.2.2⟩
  · intro h
    exact ⟨⟨h.object, h.names, by simp⟩, h.superTypes, h.acyclic, fun c hc =>
      ⟨h.methods c hc, h.typeParams c hc, h.methodTypeParams c hc, h.fields c hc⟩⟩

theorem ofClasses_eq_ok_iff {classes : List ClassDecl} :
    ofClasses classes = .ok t ↔ t = ⟨classes⟩ ∧ t.Valid := by
  simp only [ofClasses, bind_eq_ok_iff, pure_eq_ok_iff, exists_unit_iff, requireValid_eq_ok_iff]
  constructor
  · rintro ⟨h, rfl⟩
    exact ⟨rfl, h⟩
  · rintro ⟨rfl, h⟩
    exact ⟨h, rfl⟩

section Valid

variable (hv : t.Valid)
include hv

theorem Valid.find?_name (hc : c ∈ t.classes) : t.find? c.name = some c :=
  find?_of_nodup hv.names hc

theorem Valid.instantiate_of_mem (hc : c ∈ t.classes) {Ts : List Ty}
    (hσ : Subst.instantiate c.typeParams Ts = .ok σ) :
    t.instantiate ⟨c.name, Ts⟩ = .ok ⟨c, σ⟩ :=
  instantiate_eq_ok_iff.2 ⟨hv.find?_name hc, hσ⟩

theorem Valid.name_ne_object {C : String} (hc : t.find? C = some c) :
    C ≠ ClassTy.object.name := by
  rintro rfl
  exact hv.object (name_of_find? hc ▸ List.mem_map_of_mem (mem_of_find? hc))

theorem Valid.ne_object (ha : t.instantiate N = .ok a) : N ≠ .object := by
  rintro rfl
  exact hv.name_ne_object (instantiate_eq_ok_iff.1 ha).1 rfl

theorem Valid.classTy_thisType (ha : t.instantiate N = .ok a) :
    a.subst.classTy a.decl.thisType = N := by
  obtain ⟨hc, hτ⟩ := instantiate_eq_ok_iff.1 ha
  have hargs := Subst.map_var_of_instantiate (hv.typeParams _ (mem_of_find? hc)) hτ
  obtain ⟨C, Ts⟩ := N
  simp only [Subst.classTy, ClassDecl.thisType, Subst.tys_eq_map, List.map_map, ClassTy.mk.injEq]
  exact ⟨name_of_find? hc, hargs⟩

theorem Valid.chain_thisType (hc : c ∈ t.classes) :
    ∃ as, t.Chain c.thisType as ∧ as.length ≤ t.classes.length := by
  obtain ⟨fs, hfs, -⟩ := hv.fields c hc
  simp only [ClassTable.fields, bind_eq_ok_iff] at hfs
  obtain ⟨as, has, -⟩ := hfs
  exact ⟨as, climb_eq_ok_iff.1 has⟩

theorem Valid.exists_chain (ha : t.instantiate N = .ok a) :
    ∃ as, t.Chain N as ∧ as.length ≤ t.classes.length := by
  obtain ⟨hc, hτ⟩ := instantiate_eq_ok_iff.1 ha
  obtain ⟨as, has, hl⟩ := hv.chain_thisType (mem_of_find? hc)
  have hargs : N.args.length = a.decl.thisType.args.length := by
    simp [ClassDecl.thisType, (Subst.instantiate_eq_ok_iff.1 hτ).1]
  obtain ⟨bs, hbs, hlen⟩ := has.exists_of_arity (M := N) (name_of_find? hc).symm hargs
  exact ⟨bs, hbs, hlen ▸ hl⟩

theorem Valid.ancestry_eq_ok_iff : t.ancestry N = .ok as ↔ t.Chain N as := by
  rw [ancestry, climb_eq_ok_iff, and_iff_left_iff_imp]
  intro h
  cases h with
  | root => exact Nat.zero_le _
  | step hN ha has =>
    obtain ⟨bs, hbs, hl⟩ := hv.exists_chain ha
    rwa [(Chain.step hN ha has).eq hbs]

end Valid

/-- The second class type is the first or one that it extends. -/
inductive Below (t : ClassTable) : ClassTy → ClassTy → Prop where
  | refl (N : ClassTy) : Below t N N
  | step {N M : ClassTy} {a : Ancestor} (hN : N ≠ .object) (ha : t.instantiate N = .ok a)
      (h : Below t a.superType M) : Below t N M

theorem Below.trans {K : ClassTy} (h : t.Below N M) (h' : t.Below M K) : t.Below N K := by
  induction h with
  | refl N => exact h'
  | step hN ha _ ih => exact .step hN ha (ih h')

theorem Chain.below_superType (h : t.Chain N as) (ha : a ∈ as) : t.Below N a.superType := by
  induction h with
  | root => simp at ha
  | step hN hb _ ih =>
    rcases List.mem_cons.1 ha with rfl | ha
    · exact .step hN hb (.refl _)
    · exact .step hN hb (ih ha)

theorem Below.chain_append (h : t.Below N M) (has : t.Chain N as) :
    ∃ pre bs, as = pre ++ bs ∧ t.Chain M bs := by
  induction h generalizing as with
  | refl N => exact ⟨[], as, rfl, has⟩
  | step hN ha _ ih =>
    cases has with
    | root => exact absurd rfl hN
    | step _ ha' has' =>
      rw [ha] at ha'
      cases ha'
      obtain ⟨pre, bs, rfl, hbs⟩ := ih has'
      exact ⟨_ :: pre, bs, rfl, hbs⟩

theorem Below.eq_or_mem (h : t.Below N M) (has : t.Chain N as) :
    N = M ∨ ∃ a ∈ as, a.superType = M := by
  induction h generalizing as with
  | refl N => exact .inl rfl
  | step hN ha _ ih =>
    cases has with
    | root => exact absurd rfl hN
    | step _ ha' has' =>
      rw [ha] at ha'
      cases ha'
      rcases ih has' with h | ⟨b, hb, h⟩
      · exact .inr ⟨_, List.mem_cons_self, h⟩
      · exact .inr ⟨b, List.mem_cons_of_mem _ hb, h⟩

end ClassTable

/-- The types in the head of a class mention only its own type parameters. -/
structure ClassDecl.Scoped (c : ClassDecl) : Prop where
  superType : ∀ X ∈ c.superType.vars, X ∈ c.typeParams.map TypeParam.name
  bounds : ∀ P ∈ c.typeParams, ∀ X ∈ P.bound.vars, X ∈ c.typeParams.map TypeParam.name
  fields : ∀ f ∈ c.fields, ∀ X ∈ f.ty.vars, X ∈ c.typeParams.map TypeParam.name

def Ancestor.through (a : Ancestor) (σ : Subst) : Ancestor := ⟨a.decl, a.subst.through σ⟩

namespace ClassTable

variable {t : ClassTable} {M N : ClassTy} {a : Ancestor} {as : List Ancestor} {σ : Subst}

def Scoped (t : ClassTable) : Prop := ∀ c ∈ t.classes, c.Scoped

theorem names_of_instantiate (ha : t.instantiate N = .ok a) {X : String} :
    X ∈ a.subst.names ↔ X ∈ a.decl.typeParams.map TypeParam.name :=
  Subst.mem_names_of_instantiate (instantiate_eq_ok_iff.1 ha).2

theorem decl_mem_of_instantiate (ha : t.instantiate N = .ok a) : a.decl ∈ t.classes :=
  mem_of_find? (instantiate_eq_ok_iff.1 ha).1

theorem instantiate_classTy (t : ClassTable) (σ : Subst) (N : ClassTy) :
    t.instantiate (σ.classTy N) = (t.instantiate N).map (·.through σ) := by
  simp only [instantiate, Subst.classTy_name, Subst.classTy_args]
  cases t.find N.name with
  | error f => rfl
  | ok c =>
    rw [ok_bind, ok_bind, Subst.instantiate_map]
    cases Subst.instantiate c.typeParams N.args <;> rfl

section Scoped

variable (hs : t.Scoped)
include hs

theorem Scoped.superType_through (ha : t.instantiate N = .ok a) :
    (a.through σ).superType = σ.classTy a.superType := by
  refine Subst.classTy_through fun X hX => ?_
  exact (names_of_instantiate ha).2 ((hs _ (decl_mem_of_instantiate ha)).superType X hX)

theorem Scoped.climb_classTy (n : Nat) (σ : Subst) (N : ClassTy) :
    t.climb n (σ.classTy N) = (t.climb n N).map (List.map (·.through σ)) := by
  induction n generalizing N with
  | zero =>
    unfold climb
    simp only [Subst.classTy_eq_object_iff, instantiate_classTy]
    split
    · rfl
    · cases t.instantiate N <;> rfl
  | succ n ih =>
    by_cases hN : N = .object
    · subst hN
      rw [Subst.classTy_object, climb_object]
      rfl
    · have hN' : σ.classTy N ≠ .object := fun h => hN (Subst.classTy_eq_object_iff.1 h)
      cases ha : t.instantiate N with
      | error f =>
        rw [climb, if_neg hN', instantiate_classTy, ha, climb, if_neg hN, ha]
        rfl
      | ok a =>
        have ha' : t.instantiate (σ.classTy N) = .ok (a.through σ) := by
          rw [instantiate_classTy, ha]
          rfl
        rw [climb_succ hN ha, climb_succ hN' ha', hs.superType_through ha, ih]
        cases t.climb n a.superType <;> rfl

theorem Scoped.ancestry_classTy (σ : Subst) (N : ClassTy) :
    t.ancestry (σ.classTy N) = (t.ancestry N).map (List.map (·.through σ)) :=
  hs.climb_classTy _ σ N

theorem Scoped.below_classTy (h : t.Below N M) : t.Below (σ.classTy N) (σ.classTy M) := by
  induction h with
  | refl N => exact .refl _
  | step hN ha _ ih =>
    rw [← hs.superType_through ha] at ih
    refine .step (fun h => hN (Subst.classTy_eq_object_iff.1 h)) ?_ ih
    rw [instantiate_classTy, ha]
    rfl

end Scoped

end ClassTable

end Featherweight

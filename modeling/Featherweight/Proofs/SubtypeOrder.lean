import Featherweight.Proofs.Subtyping
import Mathlib.Order.Defs.Unbundled

/-!
# The order of types

`Sub` is the subtype relation by its rules, transitivity among them. The algorithm
climbs from the bound of a type and never goes back, and still decides this relation.

The relation is a partial order. A climb that starts again at a class it has met
would pass the same number of classes once more, whatever the arguments have grown
to; so no class type lies strictly below another of the same class, and a type has
at most one supertype of each class.
-/

namespace Featherweight

namespace ClassTable

variable {t : ClassTable} {Δ : TypeEnv} {S T : Ty} {K M N : ClassTy} {a : Ancestor}
  {as bs : List Ancestor}

inductive Sub (t : ClassTable) (Δ : TypeEnv) : Ty → Ty → Prop where
  | refl (T : Ty) : Sub t Δ T T
  | trans {S T U : Ty} (h : Sub t Δ S T) (h' : Sub t Δ T U) : Sub t Δ S U
  | bound {X : String} {N : ClassTy} (hX : Δ.bound? X = some N) : Sub t Δ (.var X) N.toTy
  | super {c : ClassDecl} {Ts : List Ty} {σ : Subst} (hc : c ∈ t.classes)
      (hσ : Subst.instantiate c.typeParams Ts = .ok σ) :
      Sub t Δ (.inst c.name Ts) (σ.classTy c.superType).toTy

theorem Below.sub (h : t.Below N M) : t.Sub Δ N.toTy M.toTy := by
  induction h with
  | refl N => exact .refl _
  | @step N M a _ ha _ ih =>
    obtain ⟨hc, hσ⟩ := instantiate_eq_ok_iff.1 ha
    have hN : N.toTy = .inst a.decl.name N.args := by rw [name_of_find? hc]; rfl
    rw [hN]
    exact .trans (.super (mem_of_find? hc) hσ) ih

theorem Sub.of_bound (h : Δ.bound S = .ok N) : t.Sub Δ S N.toTy := by
  cases S with
  | inst C Ss =>
    cases h
    exact .refl _
  | var X =>
    simp only [TypeEnv.bound] at h
    split at h
    · next N' hX =>
      cases h
      exact .bound hX
    · cases h

theorem Valid.subtype_iff_sub (hv : t.Valid) : t.Subtype Δ S T ↔ t.Sub Δ S T := by
  constructor
  · intro h
    rcases hv.subtype_iff.1 h with rfl | ⟨N, M, hN, hM, rfl⟩
    · exact .refl S
    · exact .trans (.of_bound hN) hM.sub
  · intro h
    induction h with
    | refl T => exact .refl t Δ T
    | trans _ _ ih ih' => exact hv.subtype_trans ih ih'
    | bound hX =>
      refine hv.subtype_bound ?_
      simp only [TypeEnv.bound, hX]
    | super hc hσ =>
      have ha := hv.instantiate_of_mem hc hσ
      exact hv.subtype_of_below (.step (hv.ne_object ha) ha (.refl _))

theorem Valid.subtype_toTy_iff (hv : t.Valid) :
    t.Subtype Δ S M.toTy ↔ ∃ N, Δ.bound S = .ok N ∧ t.Below N M := by
  rw [hv.subtype_iff]
  constructor
  · rintro (rfl | ⟨N, M', hN, hM, he⟩)
    · exact ⟨M, rfl, .refl M⟩
    · rw [ClassTy.toTy_inj.1 he] at hM
      exact ⟨N, hN, hM⟩
  · rintro ⟨N, hN, hM⟩
    exact .inr ⟨N, M, hN, hM, rfl⟩

theorem Below.length_lt (h : t.Below N M) (hne : N ≠ M) (has : t.Chain N as)
    (hbs : t.Chain M bs) : bs.length < as.length := by
  cases h with
  | refl => exact absurd rfl hne
  | step hN ha hM =>
    cases has with
    | root => exact absurd rfl hN
    | step _ ha' has =>
      cases ha.symm.trans ha'
      obtain ⟨pre, bs', rfl, hbs'⟩ := hM.chain_append has
      cases hbs.eq hbs'
      simp only [List.length_cons, List.length_append]
      omega

theorem Valid.object_of_name (hv : t.Valid) (has : t.Chain N as)
    (hN : N.name = ClassTy.object.name) : N = .object := by
  cases has with
  | root => rfl
  | step _ ha _ =>
    have hc := (instantiate_eq_ok_iff.1 ha).1
    have hmem := List.mem_map_of_mem (f := ClassDecl.name) (mem_of_find? hc)
    rw [name_of_find? hc, hN] at hmem
    exact absurd hmem hv.object

theorem Valid.length_eq_of_name (hv : t.Valid) (has : t.Chain N as) (hbs : t.Chain M bs)
    (hname : N.name = M.name) : as.length = bs.length := by
  cases has with
  | root =>
    cases hv.object_of_name hbs hname.symm
    rw [hbs.eq .root]
  | @step N a as hN ha has =>
    have hM : M ≠ .object := by
      rintro rfl
      exact hN (hv.object_of_name (.step hN ha has) hname)
    cases hbs with
    | root => exact absurd rfl hM
    | @step M b bs _ hb hbs =>
      obtain ⟨hc, hσ⟩ := instantiate_eq_ok_iff.1 ha
      obtain ⟨hd, hτ⟩ := instantiate_eq_ok_iff.1 hb
      rw [hname, hd] at hc
      have hdecl : b.decl = a.decl := Option.some.inj hc
      have hargs : M.args.length = N.args.length := by
        rw [← (Subst.instantiate_eq_ok_iff.1 hσ).1, ← (Subst.instantiate_eq_ok_iff.1 hτ).1, hdecl]
      obtain ⟨cs, hcs, hlen⟩ := (Chain.step hN ha has).exists_of_arity hname.symm hargs
      rw [← hlen, (Chain.step hM hb hbs).eq hcs]

theorem Valid.exists_chain_of_below (hv : t.Valid) (h : t.Below N M) (hne : N ≠ M) :
    ∃ as bs, t.Chain N as ∧ t.Chain M bs := by
  cases h with
  | refl => exact absurd rfl hne
  | step hN ha hM =>
    obtain ⟨as, has, -⟩ := hv.exists_chain ha
    obtain ⟨-, bs, -, hbs⟩ := (Below.step hN ha hM).chain_append has
    exact ⟨as, bs, has, hbs⟩

theorem Valid.below_antisymm (hv : t.Valid) (h : t.Below N M) (h' : t.Below M N) : N = M := by
  by_contra hne
  obtain ⟨as, bs, has, hbs⟩ := hv.exists_chain_of_below h hne
  have hlt := h.length_lt hne has hbs
  have hgt := h'.length_lt (Ne.symm hne) hbs has
  omega

theorem Valid.eq_of_below (hv : t.Valid) (h : t.Below N M) (hname : N.name = M.name) : N = M := by
  by_contra hne
  obtain ⟨as, bs, has, hbs⟩ := hv.exists_chain_of_below h hne
  have hlt := h.length_lt hne has hbs
  have heq := hv.length_eq_of_name has hbs hname
  omega

theorem Below.total (h : t.Below N M) (h' : t.Below N K) : t.Below M K ∨ t.Below K M := by
  induction h with
  | refl N => exact .inl h'
  | step hN ha hM ih =>
    cases h' with
    | refl => exact .inr (.step hN ha hM)
    | step _ ha' hK =>
      cases ha.symm.trans ha'
      exact ih hK

theorem Valid.subtype_antisymm (hv : t.Valid) (h : t.Subtype Δ S T) (h' : t.Subtype Δ T S) :
    S = T := by
  rcases hv.subtype_iff.1 h with he | ⟨N, M, hN, hM, rfl⟩
  · exact he
  · rcases hv.subtype_iff.1 h' with he | ⟨M', K, hM', hK, rfl⟩
    · exact he.symm
    · cases hM'
      cases hN
      exact congrArg ClassTy.toTy (hv.below_antisymm hM hK)

theorem Valid.args_unique (hv : t.Valid) {D : String} {Ts Us : List Ty}
    (h : t.Subtype Δ S (.inst D Ts)) (h' : t.Subtype Δ S (.inst D Us)) : Ts = Us := by
  obtain ⟨N, hN, hM⟩ := (hv.subtype_toTy_iff (M := ⟨D, Ts⟩)).1 h
  obtain ⟨N', hN', hK⟩ := (hv.subtype_toTy_iff (M := ⟨D, Us⟩)).1 h'
  cases hN.symm.trans hN'
  rcases hM.total hK with hle | hle
  · exact congrArg ClassTy.args (hv.eq_of_below hle rfl)
  · exact congrArg ClassTy.args (hv.eq_of_below hle rfl).symm

/-- In a valid table `subtype` decides the relation of the rules, for all types. The
relation is a partial order, and a type has at most one supertype of each class. -/
theorem subtype_decides_order {classes : List ClassDecl} (ht : ofClasses classes = .ok t)
    (Δ : TypeEnv) :
    (∀ S T, t.subtype Δ S T = .ok true ↔ t.Sub Δ S T) ∧ IsPartialOrder Ty (t.Sub Δ) ∧
      (∀ S T, t.subtype Δ S T = .ok true → t.subtype Δ T S = .ok true → S = T) ∧
      ∀ S D Ts Us, t.subtype Δ S (.inst D Ts) = .ok true →
        t.subtype Δ S (.inst D Us) = .ok true → Ts = Us := by
  obtain ⟨-, hv⟩ := ofClasses_eq_ok_iff.1 ht
  have hiff {S T : Ty} : t.Subtype Δ S T ↔ t.Sub Δ S T := hv.subtype_iff_sub
  refine ⟨fun S T => hiff, ?_, fun S T => hv.subtype_antisymm, fun S D Ts Us => hv.args_unique⟩
  exact
    { refl := .refl
      trans := fun _ _ _ => .trans
      antisymm := fun _ _ h h' => hv.subtype_antisymm (hiff.2 h) (hiff.2 h') }

def expansiveClasses : List ClassDecl :=
  let ctor (C : String) : Constructor := ⟨C, [], [], []⟩
  let C (T : Ty) : Ty := .inst "C" [T]
  [⟨"D", [⟨"X", .object⟩], .object, [], ctor "D", [], ⟨0, 0⟩⟩,
   ⟨"C", [⟨"X", ⟨"D", [.var "X"]⟩⟩], ⟨"D", [C (C (.var "X"))]⟩, [], ctor "C", [], ⟨0, 0⟩⟩]

theorem subtype_decides_order_expansive :
    ∃ t, ofClasses expansiveClasses = .ok t ∧
      let Δ := TypeEnv.empty.add [⟨"Z", ⟨"C", [.var "Z"]⟩⟩]
      t.Sub Δ (.var "Z") (.inst "D" [.inst "C" [.inst "C" [.var "Z"]]]) ∧
        ¬ t.Sub Δ (.inst "D" [.inst "C" [.inst "C" [.var "Z"]]]) (.var "Z") ∧
        ∀ Us, t.subtype Δ (.var "Z") (.inst "D" Us) = .ok true →
          Us = [.inst "C" [.inst "C" [.var "Z"]]] := by
  have ht : ofClasses expansiveClasses = .ok ⟨expansiveClasses⟩ := by decide
  let Δ := TypeEnv.empty.add [⟨"Z", ⟨"C", [.var "Z"]⟩⟩]
  obtain ⟨hiff, -, -, hunique⟩ := subtype_decides_order ht Δ
  have hsub : (⟨expansiveClasses⟩ : ClassTable).subtype Δ (.var "Z")
      (.inst "D" [.inst "C" [.inst "C" [.var "Z"]]]) = .ok true := by decide
  refine ⟨_, ht, (hiff _ _).1 hsub, fun h => ?_, fun Us hUs => hunique _ _ _ _ hUs hsub⟩
  exact absurd ((hiff _ _).2 h) (by decide)

end ClassTable

end Featherweight

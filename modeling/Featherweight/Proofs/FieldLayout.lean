import Featherweight.Proofs.Fuel
import Featherweight.Proofs.TotalLookups
import Featherweight.Proofs.Values

/-!
# Fields of values

A value keeps its fields in the order in which its class type lists them, and an access
looks a field's place up by name. No two fields of a class type have the same name, so a
name has one place. The fields of a supertype come first, instantiated alike, however many
classes lie between; so a field has the same place whether or not the value is cast.
-/

namespace Featherweight

theorem findIdx?_name_of_nodup {fs : List Binding} {b : Binding} {i : Nat}
    (hd : (fs.map Binding.name).Nodup) (hb : fs[i]? = some b) :
    fs.findIdx? (·.name = b.name) = some i := by
  obtain ⟨hi, rfl⟩ := List.getElem?_eq_some_iff.1 hb
  rw [List.findIdx?_eq_some_iff_getElem]
  refine ⟨hi, by simp, fun j hj => ?_⟩
  have hne := List.pairwise_iff_getElem.1 hd j i (by simp; omega) (by simpa using hi) hj
  simpa using hne

namespace ClassTable

open Attempt

variable {t : ClassTable} {M N : ClassTy} {ρ : Env} {e : Term} {v w : Value} {vs : List Value}
  {x f : String} {fs gs : List Binding}

theorem Returns.var (h : ρ.get? x = some v) : t.Returns ρ (.var x) (.ok v) := by
  refine ⟨1, ?_⟩
  rw [eval, h]
  rfl

theorem Returns.field (h : t.Returns ρ e (.ok v)) (hw : v.get t f = .ok w) :
    t.Returns ρ (.field e f) (.ok w) := by
  obtain ⟨n, hn⟩ := h
  exact ⟨n + 1, gives_bind_iff.2 ⟨v, hn, gives_lift_iff.2 hw⟩⟩

theorem Returns.cast (h : t.Returns ρ e (.ok v)) (hw : v.castTo t N = .ok w) :
    t.Returns ρ (.cast N e) (.ok w) := by
  obtain ⟨n, hn⟩ := h
  exact ⟨n + 1, gives_bind_iff.2 ⟨v, hn, gives_lift_iff.2 hw⟩⟩

/-- An access by the name of the field at a place gives the value stored at that place. -/
def ReadsBack (t : ClassTable) (ρ : Env) (e : Term) (fs : List Binding) (vs : List Value) : Prop :=
  ∀ (i : Nat) (b : Binding), fs[i]? = some b →
    ∃ v, vs[i]? = some v ∧ t.Returns ρ (.field e b.name) (.ok v)

theorem ReadsBack.shorten (h : t.ReadsBack ρ e fs vs) (hpre : gs <+: fs) :
    t.ReadsBack ρ e gs vs := by
  intro i b hb
  apply h i b
  obtain ⟨hi, rfl⟩ := List.getElem?_eq_some_iff.1 hb
  rw [hpre.getElem hi]
  exact List.getElem?_eq_getElem _

theorem Valid.readsBack (hv : t.Valid) (hfs : t.fields N = .ok fs) (hlen : vs.length = fs.length)
    (he : t.Returns ρ e (.ok ⟨N, vs⟩)) : t.ReadsBack ρ e fs vs := by
  intro i b hb
  have hi : i < vs.length := by
    have hifs := (List.getElem?_eq_some_iff.1 hb).1
    omega
  have hvs := List.getElem?_eq_getElem hi
  have hplace := findIdx?_name_of_nodup (hv.nodup_names_fields hfs) hb
  exact ⟨vs[i], hvs, he.field (Value.get_eq_ok_iff.2 ⟨fs, i, hfs, hplace, hvs⟩)⟩

/-- The fields of a supertype begin those of a declared class type, with the same names and
types. A value that holds as many values as its class type has fields gives each of them
back under its field's name, also when it is cast to the supertype. -/
theorem field_layout_stable {classes : List ClassDecl} (ht : ofClasses classes = .ok t)
    (hN : t.Declares N) {Δ : TypeEnv} (hNM : t.subtype Δ N.toTy M.toTy = .ok true) :
    ∃ fs gs, t.fields N = .ok fs ∧ t.fields M = .ok gs ∧ gs <+: fs ∧
      ∀ (vs : List Value) (ρ : Env) (x : String), vs.length = fs.length →
        ρ.get? x = some ⟨N, vs⟩ →
          t.ReadsBack ρ (.var x) fs vs ∧ t.ReadsBack ρ (.cast M (.var x)) gs vs := by
  obtain ⟨-, hv⟩ := ofClasses_eq_ok_iff.1 ht
  have hbelow := hv.below_of_subtype hNM
  obtain ⟨as, has, -⟩ := hv.exists_chain_of_declares hN
  have hfs := hv.fields_eq_ok_iff.2 ⟨as, has, rfl⟩
  obtain ⟨gs, hgs, hpre⟩ := hv.fields_prefix hbelow hfs
  refine ⟨_, gs, hfs, hgs, hpre, fun vs ρ x hlen hx => ?_⟩
  have hcast : Value.castTo t ⟨N, vs⟩ M = .ok ⟨N, vs⟩ :=
    Value.castTo_eq_ok_iff.2 ⟨hv.subtype_of_below hbelow, rfl⟩
  constructor
  · exact hv.readsBack hfs hlen (.var hx)
  · exact (hv.readsBack hfs hlen ((Returns.var hx).cast hcast)).shorten hpre

def layeredClasses : List ClassDecl :=
  let cls (C : String) (Xs : List TypeParam) (N : ClassTy) (f : Binding) : ClassDecl :=
    ⟨C, Xs, N, [f], ⟨C, [], [], []⟩, [], ⟨0, 0⟩⟩
  [cls "Box" [⟨"X", .object⟩] .object ⟨.var "X", "f"⟩,
   cls "Sub" [⟨"X", .object⟩] ⟨"Box", [.inst "Box" [.var "X"]]⟩ ⟨.var "X", "g"⟩,
   cls "Leaf" [] ⟨"Sub", [.inst "Leaf" []]⟩ ⟨.inst "Object" [], "h"⟩]

theorem field_layout_stable_layered :
    ∃ t, ofClasses layeredClasses = .ok t ∧
      let leaf : ClassTy := ⟨"Leaf", []⟩
      let box : ClassTy := ⟨"Box", [.inst "Box" [leaf.toTy]]⟩
      t.Declares leaf ∧ t.subtype .empty leaf.toTy box.toTy = .ok true ∧
        ∀ u v w ρ x, ρ.get? x = some ⟨leaf, [u, v, w]⟩ →
          t.Returns ρ (.field (.var x) "h") (.ok w) ∧
          t.Returns ρ (.field (.cast box (.var x)) "f") (.ok u) := by
  have ht : ofClasses layeredClasses = .ok ⟨layeredClasses⟩ := by decide
  have hleaf : Declares ⟨layeredClasses⟩ ⟨"Leaf", []⟩ :=
    .applied (List.mem_cons_of_mem _ (List.mem_cons_of_mem _ List.mem_cons_self)) rfl
  have hsub : subtype ⟨layeredClasses⟩ .empty (ClassTy.mk "Leaf" []).toTy
      (ClassTy.mk "Box" [.inst "Box" [.inst "Leaf" []]]).toTy = .ok true := by decide
  obtain ⟨fs, gs, hfs, hgs, -, hread⟩ := field_layout_stable ht hleaf hsub
  cases hfs
  cases hgs
  refine ⟨_, ht, hleaf, hsub, fun u v w ρ x hx => ?_⟩
  obtain ⟨hplain, hcast⟩ := hread [u, v, w] ρ x rfl hx
  constructor
  · obtain ⟨_, hw, h⟩ := hplain 2 _ rfl
    cases hw
    exact h
  · obtain ⟨_, hu, h⟩ := hcast 0 _ rfl
    cases hu
    exact h

end ClassTable

end Featherweight

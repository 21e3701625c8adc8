import Featherweight.Proofs.Members
import Featherweight.Proofs.Typing

/-!
# What depends on class heads only

`mapMethods` changes the methods of each class of a table and leaves the heads of the
classes alone. Instantiation, climbing, fields, subtyping and well-formedness do not
look at methods, so they stay as they are. If the methods keep their names, then a
search for a method ends in the same class as before, at the changed declaration.
-/

namespace Featherweight

def ClassDecl.mapMethods (g : MethodDecl → MethodDecl) (c : ClassDecl) : ClassDecl :=
  { c with methods := c.methods.map g }

def Ancestor.mapMethods (G : ClassDecl → MethodDecl → MethodDecl) (a : Ancestor) : Ancestor :=
  ⟨a.decl.mapMethods (G a.decl), a.subst⟩

namespace ClassTable

def mapMethods (G : ClassDecl → MethodDecl → MethodDecl) (t : ClassTable) : ClassTable :=
  ⟨t.classes.map fun c => c.mapMethods (G c)⟩

variable {t : ClassTable} {G : ClassDecl → MethodDecl → MethodDecl} {N : ClassTy} {a : Ancestor}
  {m : String}

theorem find?_mapMethods (t : ClassTable) (G : ClassDecl → MethodDecl → MethodDecl) (C : String) :
    (t.mapMethods G).find? C = (t.find? C).map fun c => c.mapMethods (G c) :=
  List.find?_map

theorem instantiate_mapMethods (t : ClassTable) (G : ClassDecl → MethodDecl → MethodDecl)
    (N : ClassTy) :
    (t.mapMethods G).instantiate N = (t.instantiate N).map (·.mapMethods G) := by
  simp only [instantiate, find, find?_mapMethods]
  cases t.find? N.name with
  | none => rfl
  | some c =>
    simp only [Option.map_some, ok_bind]
    have hparams : (c.mapMethods (G c)).typeParams = c.typeParams := rfl
    rw [hparams]
    cases Subst.instantiate c.typeParams N.args <;> rfl

theorem climb_mapMethods (t : ClassTable) (G : ClassDecl → MethodDecl → MethodDecl) (n : Nat)
    (N : ClassTy) :
    (t.mapMethods G).climb n N = (t.climb n N).map (List.map (·.mapMethods G)) := by
  induction n generalizing N with
  | zero =>
    unfold climb
    rw [instantiate_mapMethods]
    split
    · rfl
    · cases t.instantiate N <;> rfl
  | succ n ih =>
    unfold climb
    rw [instantiate_mapMethods]
    split
    · rfl
    · cases t.instantiate N with
      | error f => rfl
      | ok a =>
        have hsuper : (a.mapMethods G).superType = a.superType := rfl
        simp only [Except.map, ok_bind, hsuper, ih]
        cases t.climb n a.superType <;> rfl

theorem ancestry_mapMethods (t : ClassTable) (G : ClassDecl → MethodDecl → MethodDecl)
    (N : ClassTy) :
    (t.mapMethods G).ancestry N = (t.ancestry N).map (List.map (·.mapMethods G)) := by
  have hlen : (t.mapMethods G).classes.length = t.classes.length := List.length_map _
  rw [ancestry, hlen, climb_mapMethods]
  rfl

@[simp] theorem fields_mapMethods (t : ClassTable) (G : ClassDecl → MethodDecl → MethodDecl)
    (N : ClassTy) : (t.mapMethods G).fields N = t.fields N := by
  rw [fields, fields, ancestry_mapMethods]
  cases t.ancestry N with
  | error f => rfl
  | ok as =>
    refine congrArg Except.ok ?_
    rw [← List.map_reverse, List.flatMap_map]
    rfl

theorem below_mapMethods (t : ClassTable) (G : ClassDecl → MethodDecl → MethodDecl) (N : ClassTy)
    (T : Ty) : (t.mapMethods G).below N T = t.below N T := by
  rw [below, below, ancestry_mapMethods]
  cases t.ancestry N with
  | error f => rfl
  | ok as =>
    simp only [Except.map, ok_bind, List.any_map]
    rfl

@[simp] theorem subtype_mapMethods (t : ClassTable) (G : ClassDecl → MethodDecl → MethodDecl)
    (Δ : TypeEnv) (S T : Ty) : (t.mapMethods G).subtype Δ S T = t.subtype Δ S T := by
  simp only [subtype, below_mapMethods]

theorem subtype_mapMethods_iff {Δ : TypeEnv} {S T : Ty} :
    (t.mapMethods G).Subtype Δ S T ↔ t.Subtype Δ S T := by
  rw [Subtype, Subtype, subtype_mapMethods]

theorem wellFormed_mapMethods_iff {Δ : TypeEnv} {T : Ty} :
    (t.mapMethods G).WellFormed Δ T ↔ t.WellFormed Δ T := by
  induction T using Ty.induction with
  | var X => rw [wellFormed_var_iff, wellFormed_var_iff]
  | inst C Ts ih =>
    change (t.mapMethods G).WellFormed Δ (ClassTy.mk C Ts).toTy ↔
      t.WellFormed Δ (ClassTy.mk C Ts).toTy
    rw [wellFormed_toTy_iff, wellFormed_toTy_iff]
    refine or_congr_right (and_congr (forall₂_congr ih) ?_)
    rw [instantiate_mapMethods]
    cases t.instantiate ⟨C, Ts⟩ with
    | error f => simp [Except.map]
    | ok a =>
      simp only [Except.map, Except.ok.injEq, exists_eq_left', subtype_mapMethods_iff]
      rfl

theorem reaches_mapMethods (t : ClassTable) (G : ClassDecl → MethodDecl → MethodDecl) (C : String)
    (n : Nat) (N : ClassTy) : (t.mapMethods G).reaches C n N = t.reaches C n N := by
  induction n generalizing N with
  | zero => rfl
  | succ n ih =>
    rw [reaches, reaches, find?_mapMethods]
    cases t.find? N.name with
    | none => rfl
    | some c =>
      have hsuper : (c.mapMethods (G c)).superType = c.superType := rfl
      simp only [Option.map_some, Option.any_some, hsuper, ih]

section Names

variable (hG : ∀ c d, (G c d).name = d.name)
include hG

theorem method?_mapMethods (c : ClassDecl) (m : String) :
    (c.mapMethods (G c)).method? m = (c.method? m).map (G c) := by
  have hname : (fun d : MethodDecl => decide (d.name = m)) ∘ G c = fun d => decide (d.name = m) :=
    funext fun d => by simp [hG c d]
  rw [ClassDecl.method?, ClassDecl.method?, ClassDecl.mapMethods, List.find?_map, hname]

theorem Finds.mapMethods {d : MethodDecl} (h : t.Finds m N a d) :
    (t.mapMethods G).Finds m N (a.mapMethods G) (G a.decl d) := by
  induction h with
  | @here N a d hN ha hd =>
    refine .here hN ?_ ?_
    · rw [instantiate_mapMethods, ha]
      rfl
    · exact (method?_mapMethods hG a.decl m).trans (congrArg _ hd)
  | @above N a b d hN hb hno _ ih =>
    refine .above (b := b.mapMethods G) hN ?_ ?_ ih
    · rw [instantiate_mapMethods, hb]
      rfl
    · exact (method?_mapMethods hG b.decl m).trans (congrArg _ hno)

theorem Finds.of_mapMethods {a' : Ancestor} {d' : MethodDecl}
    (h : (t.mapMethods G).Finds m N a' d') :
    ∃ a d, t.Finds m N a d ∧ a' = a.mapMethods G ∧ d' = G a.decl d := by
  induction h with
  | here hN ha hd =>
    rw [instantiate_mapMethods, map_eq_ok_iff] at ha
    obtain ⟨a, ha, rfl⟩ := ha
    obtain ⟨d, hd', rfl⟩ :=
      Option.map_eq_some_iff.1 ((method?_mapMethods hG a.decl m).symm.trans hd)
    exact ⟨a, d, .here hN ha hd', rfl, rfl⟩
  | above hN hb hno _ ih =>
    rw [instantiate_mapMethods, map_eq_ok_iff] at hb
    obtain ⟨b, hb, rfl⟩ := hb
    obtain ⟨a, d, hd, rfl, rfl⟩ := ih
    have hno' := Option.map_eq_none_iff.1 ((method?_mapMethods hG b.decl m).symm.trans hno)
    exact ⟨a, d, .above hN hb hno' hd, rfl, rfl⟩

theorem valid_mapMethods_iff (hparams : ∀ c ∈ t.classes, ∀ d ∈ c.methods,
      ((G c d).typeParams.map TypeParam.name).Nodup ↔ (d.typeParams.map TypeParam.name).Nodup) :
    (t.mapMethods G).Valid ↔ t.Valid := by
  have hnames : (t.mapMethods G).classes.map ClassDecl.name = t.classes.map ClassDecl.name := by
    rw [mapMethods, List.map_map]
    rfl
  have hlen : (t.mapMethods G).classes.length = t.classes.length := List.length_map _
  have hmem {p : ClassDecl → Prop} : (∀ c ∈ (t.mapMethods G).classes, p c) ↔
      ∀ c ∈ t.classes, p (c.mapMethods (G c)) := List.forall_mem_map
  have hfind (C : String) : ((t.mapMethods G).find? C).isSome = (t.find? C).isSome := by
    rw [find?_mapMethods, Option.isSome_map]
  have hmethods (c : ClassDecl) : (c.mapMethods (G c)).methods.map MethodDecl.name =
      c.methods.map MethodDecl.name := by
    rw [ClassDecl.mapMethods, List.map_map]
    exact List.map_congr_left fun d _ => hG c d
  have hdistinct : (∀ c ∈ t.classes, ∀ d ∈ (c.mapMethods (G c)).methods,
      (d.typeParams.map TypeParam.name).Nodup) ↔
        ∀ c ∈ t.classes, ∀ d ∈ c.methods, (d.typeParams.map TypeParam.name).Nodup := by
    refine forall₂_congr fun c hc => ?_
    rw [ClassDecl.mapMethods, List.forall_mem_map]
    exact forall₂_congr (hparams c hc)
  simp only [valid_iff, hnames, hlen, hmem, hfind, hmethods, hdistinct, reaches_mapMethods,
    fields_mapMethods]
  rfl

end Names

end ClassTable

end Featherweight

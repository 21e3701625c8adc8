import Featherweight.Proofs.Hierarchy

/-!
# Fields and methods seen from a class type

The fields of a supertype come first among those of a subtype. `Finds m N a d`
says that a search for the method `m` which starts at `N` ends at the declaration
`d`, in the class `a`. Fields and searches commute with substitution.
-/

namespace Featherweight

namespace ClassTable

variable {t : ClassTable} {M N : ClassTy} {a b : Ancestor} {as : List Ancestor} {σ : Subst}
  {X Y : String} {fs : List Binding}

theorem Chain.exists_instantiate (h : t.Chain N as) (ha : a ∈ as) :
    ∃ M, t.Below N M ∧ t.instantiate M = .ok a := by
  induction h with
  | root => simp at ha
  | @step N b as hN hb _ ih =>
    rcases List.mem_cons.1 ha with rfl | ha
    · exact ⟨N, .refl N, hb⟩
    · obtain ⟨M, hM, hMa⟩ := ih ha
      exact ⟨M, .step hN hb hM, hMa⟩

theorem Valid.fields_eq_ok_iff (hv : t.Valid) :
    t.fields N = .ok fs ↔ ∃ as, t.Chain N as ∧ as.reverse.flatMap Ancestor.fields = fs := by
  simp only [ClassTable.fields, bind_eq_ok_iff, pure_eq_ok_iff, hv.ancestry_eq_ok_iff]

theorem Valid.fields_prefix (hv : t.Valid) (h : t.Below N M) (hfs : t.fields N = .ok fs) :
    ∃ gs, t.fields M = .ok gs ∧ gs <+: fs := by
  obtain ⟨as, has, rfl⟩ := hv.fields_eq_ok_iff.1 hfs
  obtain ⟨pre, bs, rfl, hbs⟩ := h.chain_append has
  refine ⟨_, hv.fields_eq_ok_iff.2 ⟨bs, hbs, rfl⟩, ?_⟩
  rw [List.reverse_append, List.flatMap_append]
  exact List.prefix_append _ _

theorem mem_vars_of_instantiate (ha : t.instantiate N = .ok a) (hX : X ∈ a.subst.names)
    (hY : Y ∈ (a.subst.var X).vars) : Y ∈ N.vars :=
  ClassTy.mem_vars.2 ⟨_, Subst.var_mem_of_instantiate (instantiate_eq_ok_iff.1 ha).2
    ((names_of_instantiate ha).1 hX), hY⟩

theorem mem_vars_ty_of_instantiate {T : Ty} (ha : t.instantiate N = .ok a)
    (hT : ∀ X ∈ T.vars, X ∈ a.decl.typeParams.map TypeParam.name)
    (hY : Y ∈ (a.subst.ty T).vars) : Y ∈ N.vars := by
  obtain ⟨X, hX, hYX⟩ := Subst.mem_vars_ty.1 hY
  exact mem_vars_of_instantiate ha ((names_of_instantiate ha).2 (hT X hX)) hYX

theorem exists_declared_field {b : Binding} (hfs : t.fields N = .ok fs) (hb : b ∈ fs) :
    ∃ M a, t.Below N M ∧ t.instantiate M = .ok a ∧ ∃ f ∈ a.decl.fields, a.subst.binding f = b := by
  simp only [fields, bind_eq_ok_iff, pure_eq_ok_iff] at hfs
  obtain ⟨as, has, rfl⟩ := hfs
  obtain ⟨a, ha, hba⟩ := List.mem_flatMap.1 hb
  obtain ⟨M, hNM, hM⟩ := (climb_eq_ok_iff.1 has).1.exists_instantiate (List.mem_reverse.1 ha)
  exact ⟨M, a, hNM, hM, List.mem_map.1 hba⟩

section Scoped

variable (hs : t.Scoped)
include hs

theorem Scoped.fields_through (ha : t.instantiate N = .ok a) :
    (a.through σ).fields = a.fields.map σ.binding := by
  simp only [Ancestor.fields, Ancestor.through, List.map_map]
  refine List.map_congr_left fun f hf => ?_
  have hscope : ∀ X ∈ f.ty.vars, X ∈ a.subst.names := fun X hX =>
    (names_of_instantiate ha).2 ((hs _ (decl_mem_of_instantiate ha)).fields f hf X hX)
  simp [Subst.binding, Subst.ty_through hscope]

theorem Scoped.fields_classTy (σ : Subst) (N : ClassTy) :
    t.fields (σ.classTy N) = (t.fields N).map (List.map σ.binding) := by
  simp only [ClassTable.fields, hs.ancestry_classTy]
  cases hN : t.ancestry N with
  | error f => rfl
  | ok as =>
    have has := (climb_eq_ok_iff.1 hN).1
    have hfields : (as.map (·.through σ)).reverse.flatMap Ancestor.fields =
        (as.reverse.flatMap Ancestor.fields).map σ.binding := by
      rw [← List.map_reverse, List.flatMap_map, List.map_flatMap]
      refine List.flatMap_congr fun a ha => ?_
      obtain ⟨M, -, hM⟩ := has.exists_instantiate (List.mem_reverse.1 ha)
      exact hs.fields_through hM
    exact congrArg Except.ok hfields

theorem Scoped.mem_vars_of_below (h : t.Below N M) (hX : X ∈ M.vars) : X ∈ N.vars := by
  induction h with
  | refl N => exact hX
  | step hN ha _ ih =>
    exact mem_vars_ty_of_instantiate ha (hs _ (decl_mem_of_instantiate ha)).superType (ih hX)

theorem Scoped.mem_vars_of_fields {b : Binding}
    (hfs : t.fields N = .ok fs) (hb : b ∈ fs) (hX : X ∈ b.ty.vars) : X ∈ N.vars := by
  obtain ⟨M, a, hNM, hM, f, hf, rfl⟩ := exists_declared_field hfs hb
  have hscope := (hs _ (decl_mem_of_instantiate hM)).fields f hf
  exact hs.mem_vars_of_below hNM (mem_vars_ty_of_instantiate hM hscope hX)

end Scoped

/-- Searching upwards from the class type finds the method in the ancestor. -/
inductive Finds (t : ClassTable) (m : String) : ClassTy → Ancestor → MethodDecl → Prop where
  | here {N : ClassTy} {a : Ancestor} {d : MethodDecl} (hN : N ≠ .object)
      (ha : t.instantiate N = .ok a) (hd : a.decl.method? m = some d) : Finds t m N a d
  | above {N : ClassTy} {a b : Ancestor} {d : MethodDecl} (hN : N ≠ .object)
      (hb : t.instantiate N = .ok b) (hno : b.decl.method? m = none)
      (h : Finds t m b.superType a d) : Finds t m N a d

section Finds

variable {m : String} {d : MethodDecl}

theorem Finds.exists_instantiate (h : t.Finds m N a d) :
    ∃ M, t.Below N M ∧ t.instantiate M = .ok a := by
  induction h with
  | @here N a d hN ha _ => exact ⟨N, .refl N, ha⟩
  | above hN hb _ _ ih =>
    obtain ⟨M, hM, hMa⟩ := ih
    exact ⟨M, .step hN hb hM, hMa⟩

theorem Finds.method? (h : t.Finds m N a d) : a.decl.method? m = some d := by
  induction h with
  | here _ _ hd => exact hd
  | above _ _ _ _ ih => exact ih

theorem Finds.decl_mem (h : t.Finds m N a d) : a.decl ∈ t.classes := by
  obtain ⟨M, -, hM⟩ := h.exists_instantiate
  exact decl_mem_of_instantiate hM

theorem Finds.mem (h : t.Finds m N a d) : d ∈ a.decl.methods :=
  List.mem_of_find?_eq_some h.method?

theorem Finds.name (h : t.Finds m N a d) : d.name = m := by
  simpa using List.find?_some h.method?

theorem Finds.mem_names (h : t.Finds m N a d) :
    X ∈ a.subst.names ↔ X ∈ a.decl.typeParams.map TypeParam.name := by
  obtain ⟨M, -, hM⟩ := h.exists_instantiate
  exact names_of_instantiate hM

theorem Finds.mem_vars (hs : t.Scoped) (h : t.Finds m N a d) (hX : X ∈ a.subst.names)
    (hY : Y ∈ (a.subst.var X).vars) : Y ∈ N.vars := by
  obtain ⟨M, hNM, hM⟩ := h.exists_instantiate
  exact hs.mem_vars_of_below hNM (mem_vars_of_instantiate hM hX hY)

theorem Finds.classTy (hs : t.Scoped) (h : t.Finds m N a d) :
    t.Finds m (σ.classTy N) (a.through σ) d := by
  induction h with
  | here hN ha hd =>
    refine .here (fun h => hN (Subst.classTy_eq_object_iff.1 h)) ?_ hd
    rw [instantiate_classTy, ha]
    rfl
  | @above N a b d hN hb hno _ ih =>
    rw [← hs.superType_through hb] at ih
    refine .above (b := b.through σ) (fun h => hN (Subst.classTy_eq_object_iff.1 h)) ?_ hno ih
    rw [instantiate_classTy, hb]
    rfl

theorem Finds.of_classTy (hs : t.Scoped) (h : t.Finds m (σ.classTy N) b d) :
    ∃ a, t.Finds m N a d ∧ b = a.through σ := by
  generalize hK : σ.classTy N = K at h
  induction h generalizing N with
  | here hN ha hd =>
    subst hK
    rw [instantiate_classTy, map_eq_ok_iff] at ha
    obtain ⟨a, ha, rfl⟩ := ha
    exact ⟨a, .here (fun h => hN (Subst.classTy_eq_object_iff.2 h)) ha hd, rfl⟩
  | above hN hb hno _ ih =>
    subst hK
    rw [instantiate_classTy, map_eq_ok_iff] at hb
    obtain ⟨b, hb, rfl⟩ := hb
    obtain ⟨a, ha, rfl⟩ := ih (hs.superType_through hb).symm
    exact ⟨a, .above (fun h => hN (Subst.classTy_eq_object_iff.2 h)) hb hno ha, rfl⟩

theorem Chain.findSome?_eq_some_iff (h : t.Chain N as) :
    (as.findSome? fun a => (a.decl.method? m).map (a, ·)) = some (a, d) ↔ t.Finds m N a d := by
  induction h with
  | root =>
    simp only [List.findSome?_nil, reduceCtorEq, false_iff]
    intro h
    cases h with
    | here hN _ _ => exact hN rfl
    | above hN _ _ _ => exact hN rfl
  | @step N b as hN hb _ ih =>
    simp only [List.findSome?_cons]
    cases he : b.decl.method? m with
    | some e =>
      simp only [Option.map_some, Option.some.injEq, Prod.mk.injEq]
      constructor
      · rintro ⟨rfl, rfl⟩
        exact .here hN hb he
      · intro h
        cases h with
        | here _ ha hd => simp_all
        | above _ hb' hno _ => simp_all
    | none =>
      simp only [Option.map_none, ih]
      constructor
      · exact fun h => .above hN hb he h
      · intro h
        cases h with
        | here _ ha hd => simp_all
        | above _ hb' hno h =>
          rw [hb] at hb'
          cases hb'
          exact h

theorem findSome?_methodType? (as : List Ancestor) (m : String) :
    as.findSome? (·.methodType? m) =
      (as.findSome? fun a => (a.decl.method? m).map (a, ·)).map
        fun q => q.1.subst.methodType q.2.type := by
  induction as with
  | nil => rfl
  | cons a as ih =>
    simp only [List.findSome?_cons, Ancestor.methodType?]
    cases a.decl.method? m with
    | none => exact ih
    | some d => rfl

theorem Valid.exists_chain_of_finds (hv : t.Valid) (h : t.Finds m N a d) :
    ∃ as, t.Chain N as := by
  cases h with
  | here _ ha _ => exact (hv.exists_chain ha).imp fun _ h => h.1
  | above _ hb _ _ => exact (hv.exists_chain hb).imp fun _ h => h.1

theorem Finds.unique {e : MethodDecl} (h : t.Finds m N a d) (h' : t.Finds m N b e) :
    a = b ∧ d = e := by
  induction h with
  | here _ ha hd =>
    cases h' with
    | here _ hb he => simp_all
    | above _ hb hno _ => simp_all
  | above _ ha hno _ ih =>
    cases h' with
    | here _ hb he => simp_all
    | above _ hb _ h' =>
      cases ha.symm.trans hb
      exact ih h'

theorem Valid.finds_own (hv : t.Valid) {c : ClassDecl} (hc : c ∈ t.classes) (hd : d ∈ c.methods)
    {Ts : List Ty} (hσ : Subst.instantiate c.typeParams Ts = .ok σ) :
    t.Finds d.name ⟨c.name, Ts⟩ ⟨c, σ⟩ d := by
  have ha := hv.instantiate_of_mem hc hσ
  have hsome : (c.method? d.name).isSome := List.find?_isSome.2 ⟨d, hd, by simp⟩
  obtain ⟨e, he⟩ := Option.isSome_iff_exists.1 hsome
  have hname : e.name = d.name := by simpa using List.find?_some he
  rw [List.inj_on_of_nodup_map (hv.methods c hc) (List.mem_of_find?_eq_some he) hd hname] at he
  exact .here (hv.ne_object ha) ha he

theorem Valid.methodType?_eq_some_iff (hv : t.Valid) {T : MethodType} :
    t.methodType? m N = .ok (some T) ↔ ∃ a d, t.Finds m N a d ∧ a.subst.methodType d.type = T := by
  simp only [ClassTable.methodType?, bind_eq_ok_iff, pure_eq_ok_iff, hv.ancestry_eq_ok_iff,
    findSome?_methodType?, Option.map_eq_some_iff, Prod.exists]
  constructor
  · rintro ⟨as, has, a, d, hd, h⟩
    exact ⟨a, d, has.findSome?_eq_some_iff.1 hd, h⟩
  · rintro ⟨a, d, hd, h⟩
    obtain ⟨as, has⟩ := hv.exists_chain_of_finds hd
    exact ⟨as, has, a, d, has.findSome?_eq_some_iff.2 hd, h⟩

theorem Valid.methodBody_eq_ok_iff (hv : t.Valid) {Vs : List Ty} {b : MethodBody} :
    t.methodBody m Vs N = .ok b ↔ ∃ a d α, t.Finds m N a d ∧
      Subst.instantiate d.typeParams Vs = .ok α ∧
        ⟨d.paramNames, α.term (a.subst.term d.body)⟩ = b := by
  simp only [ClassTable.methodBody, bind_eq_ok_iff, hv.ancestry_eq_ok_iff]
  constructor
  · rintro ⟨as, has, h⟩
    split at h
    · next a d hd =>
      obtain ⟨α, hα, h⟩ := bind_eq_ok_iff.1 h
      exact ⟨a, d, α, has.findSome?_eq_some_iff.1 hd, hα, pure_eq_ok_iff.1 h⟩
    · exact absurd h throw_ne_ok
  · rintro ⟨a, d, α, hd, hα, rfl⟩
    obtain ⟨as, has⟩ := hv.exists_chain_of_finds hd
    refine ⟨as, has, ?_⟩
    rw [has.findSome?_eq_some_iff.2 hd]
    exact bind_eq_ok_iff.2 ⟨α, hα, rfl⟩

end Finds

end ClassTable

end Featherweight

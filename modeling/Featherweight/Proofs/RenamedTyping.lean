import Featherweight.Proofs.RenamedMethods

/-!
# Typing with renamed methods

Renaming a method's type parameters leaves the typing of the whole program as it is. A
call has the renamed type, since the look-up captures none of the renamed names. The
rules then hold for a renamed term exactly where they hold for the term itself, and
with the same static types up to the renaming.
-/

namespace Featherweight

open Typing

namespace ClassTable

variable {t : ClassTable} {f : String → String} {R : List String}
  {g : ClassDecl → MethodDecl → String → String} {c : ClassDecl} {d : MethodDecl} {X : String}
  {Δ Δ' : TypeEnv} {Γ Γ' : VarEnv} {r κ κ' : Subst} {N : ClassTy} {a : Ancestor} {m : String}
  {S T T' : Ty} {Vs Ps Ps' : List Ty} {e : Term} {k : Nat}

theorem Finds.off_instance {W : List String} (hs : t.Scoped) (hf : t.Finds m N a d)
    (hκ : Subst.instantiate d.typeParams Vs = .ok κ) (hN : N.vars.Disjoint W)
    (hVs : ∀ V ∈ Vs, V.vars.Disjoint W) (hd : d.HeadWellFormed t a.decl) :
    (κ.methodType (a.subst.methodType d.type)).Off W := by
  have key {S : Ty} (hS : t.WellFormed (d.env a.decl) S) :
      (κ.ty (a.subst.ty S)).vars.Disjoint W := by
    intro X hX
    rcases hf.mem_vars_instance hs hκ hS hX with hX | ⟨V, hV, hX⟩
    · exact hN hX
    · exact hVs V hV hX
  refine ⟨?_, ?_, key hd.returnType⟩
  · rw [Subst.bounds_methodType, Subst.bounds_methodType]
    simp only [MethodType.bounds, MethodDecl.type, List.forall_mem_map]
    exact fun P hP => key (hd.bounds P hP)
  · simp only [Subst.methodType, MethodDecl.type, List.forall_mem_map]
    exact fun b hb => key (hd.params b hb)

section Scoped

variable (hs : t.Scoped)
include hs

theorem Scoped.fieldType_iff {x : String} : fieldType (t.relabel g) (r.classTy N) x = .ok T' ↔
    ∃ T, fieldType t N x = .ok T ∧ r.ty T = T' := by
  have hname : (fun b : Binding => decide (b.name = x)) ∘ r.binding =
      fun b => decide (b.name = x) := rfl
  simp only [fieldType_eq_ok_iff, fields_relabel, hs.fields_classTy, map_eq_ok_iff]
  constructor
  · rintro ⟨_, b, ⟨fs, hfs, rfl⟩, hb, rfl⟩
    rw [List.find?_map, hname, Option.map_eq_some_iff] at hb
    obtain ⟨b, hb, rfl⟩ := hb
    exact ⟨b.ty, ⟨fs, b, hfs, hb, rfl⟩, rfl⟩
  · rintro ⟨_, ⟨fs, b, hfs, hb, rfl⟩, rfl⟩
    refine ⟨_, r.binding b, ⟨fs, hfs, rfl⟩, ?_, rfl⟩
    rw [List.find?_map, hname, hb]
    rfl

variable {W : List String} (hr : r.Renames W) (hΔ : TypeEnv.Renamed r W Δ Δ')
include hr hΔ

theorem Scoped.newTypes_iff (hN : N.vars.Disjoint W) :
    newTypes (t.relabel g) Δ' (r.classTy N) k = .ok Ps' ↔
      ∃ Ps, newTypes t Δ N k = .ok Ps ∧ Ps.map r.ty = Ps' := by
  simp only [newTypes_eq_ok_iff, fields_relabel, hs.fields_classTy, map_eq_ok_iff,
    wellFormed_relabel_iff, Subst.toTy_classTy, hs.wellFormed_rename_iff hr hΔ hN]
  constructor
  · rintro ⟨hw, _, ⟨fs, hfs, rfl⟩, hk, rfl⟩
    exact ⟨_, ⟨hw, fs, hfs, by simpa using hk, rfl⟩, by simp [Subst.binding]⟩
  · rintro ⟨_, ⟨hw, fs, hfs, hk, rfl⟩, rfl⟩
    exact ⟨hw, _, ⟨fs, hfs, rfl⟩, by simpa using hk, by simp [Subst.binding]⟩

theorem Scoped.bounds_rename_iff {U U' : MethodType} (hVs : ∀ V ∈ Vs, V.vars.Disjoint W)
    (hU : (κ.methodType U).Off W)
    (hb : (κ'.methodType U').bounds = (κ.methodType U).bounds.map r.classTy) :
    (∀ p ∈ (Vs.map r.ty).zip U'.typeParams,
        (t.relabel g).Subtype Δ' p.1 (κ'.ty p.2.bound.toTy)) ↔
      ∀ p ∈ Vs.zip U.typeParams, t.Subtype Δ p.1 (κ.ty p.2.bound.toTy) := by
  rw [← Subst.forall_zip_bounds, ← Subst.forall_zip_bounds, hb, List.zip_map, List.forall_mem_map]
  refine forall₂_congr fun p hp => ?_
  have hmem := List.of_mem_zip hp
  rw [subtype_relabel_iff, Prod.map_fst, Prod.map_snd, Subst.toTy_classTy,
    hs.subtype_rename_iff hr hΔ (hVs _ hmem.1) (hU.bounds _ hmem.2)]

theorem Scoped.narrows_rename_iff {new old new' old' : MethodType} (hnew : new.Off W)
    (hold : old.Off W) (h : new'.types = (r.methodType new).types)
    (h' : old'.types = (r.methodType old).types) :
    (t.relabel g).Narrows Δ' new' old' ↔ t.Narrows Δ new old := by
  simp only [MethodType.types, Prod.mk.injEq, Subst.bounds_methodType] at h h'
  have hb : new'.bounds = old'.bounds ↔ new.bounds = old.bounds := by
    rw [h.1, h'.1, hr.map_classTy_eq_iff hnew.bounds hold.bounds]
  have hp : new'.paramTypes = old'.paramTypes ↔ new.paramTypes = old.paramTypes := by
    rw [h.2.1, h'.2.1]
    exact hr.map_ty_eq_iff hnew.paramTypes hold.paramTypes
  have hT : (t.relabel g).Subtype Δ' new'.returnType old'.returnType ↔
      t.Subtype Δ new.returnType old.returnType := by
    rw [h.2.2, h'.2.2, subtype_relabel_iff]
    exact hs.subtype_rename_iff hr hΔ hnew.returnType hold.returnType
  constructor
  · exact fun hn => ⟨hb.1 hn.bounds, hp.1 hn.paramTypes, hT.1 hn.returnType⟩
  · exact fun hn => ⟨hb.2 hn.bounds, hp.2 hn.paramTypes, hT.2 hn.returnType⟩

end Scoped

section Relabeling

variable (hg : t.Relabeling f R g) (hv : t.Valid) (hs : t.Scoped)
include hg hv hs

theorem Relabeling.methodType?_eq_some_iff {U : MethodType} :
    (t.relabel g).methodType? m (r.classTy N) = .ok (some U) ↔ ∃ a d, t.Finds m N a d ∧
      (a.subst.through r).methodType (d.renamed (g a.decl d)).type = U := by
  rw [(hg.valid_iff.2 hv).methodType?_eq_some_iff]
  constructor
  · rintro ⟨a', d', hf', rfl⟩
    obtain ⟨b, d, hf, rfl, rfl⟩ := hf'.of_mapMethods (name_renamed g)
    obtain ⟨a, hfa, rfl⟩ := hf.of_classTy hs
    exact ⟨a, d, hfa, rfl⟩
  · rintro ⟨a, d, hf, rfl⟩
    exact ⟨_, _, (hf.classTy hs).mapMethods (name_renamed g), rfl⟩

variable (hh : t.MethodHeads) (hr : r.Relabels f R)
  (hΔ : TypeEnv.Renamed r (R.map f) Δ Δ') (hN : N.vars.Disjoint (R.map f))
  (hVs : ∀ V ∈ Vs, V.vars.Disjoint (R.map f)) (hap : t.ApartOn R m N)
include hh hr hΔ hN hVs hap

theorem Relabeling.callable_iff (hf : t.Finds m N a d)
    (hκ : Subst.instantiate d.typeParams Vs = .ok κ)
    (hκ' : Subst.instantiate (d.renamed (g a.decl d)).typeParams (Vs.map r.ty) = .ok κ') :
    Callable (t.relabel g) Δ' (r.classTy N) m (Vs.map r.ty)
        ((a.subst.through r).methodType (d.renamed (g a.decl d)).type) κ' ↔
      Callable t Δ N m Vs (a.subst.methodType d.type) κ := by
  have hr' := hr.renames hg.inj
  have hd := hh a.decl hf.decl_mem d hf.mem
  have hw : (∀ V ∈ Vs.map r.ty, (t.relabel g).WellFormed Δ' V) ↔ ∀ V ∈ Vs, t.WellFormed Δ V := by
    rw [List.forall_mem_map]
    refine forall₂_congr fun V hV => ?_
    rw [wellFormed_relabel_iff, hs.wellFormed_rename_iff hr' hΔ (hVs V hV)]
  have hty := hg.types_instance hv hs hr hN hap hf hκ hκ' hd
  simp only [MethodType.types, Prod.mk.injEq, Subst.bounds_methodType r] at hty
  have hsub := hs.bounds_rename_iff (g := g) hr' hΔ hVs (hf.off_instance hs hκ hN hVs hd) hty.1
  constructor
  · intro h
    exact ⟨hv.methodType?_eq_some_iff.2 ⟨a, d, hf, rfl⟩, hw.1 h.wellFormed,
      by rw [Subst.instantiate_methodType, hκ], hsub.1 h.bounds⟩
  · intro h
    exact ⟨(hg.methodType?_eq_some_iff hv hs).2 ⟨a, d, hf, rfl⟩, hw.2 h.wellFormed,
      by rw [Subst.instantiate_methodType, hκ'], hsub.2 h.bounds⟩

theorem Relabeling.callType_iff :
    callType (t.relabel g) Δ' (r.classTy N) m (Vs.map r.ty) k = .ok (Ps', T') ↔
      ∃ Ps T, callType t Δ N m Vs k = .ok (Ps, T) ∧ Ps.map r.ty = Ps' ∧ r.ty T = T' := by
  simp only [callType_eq_ok_iff]
  constructor
  · rintro ⟨U', κ', hcall, hk, rfl, rfl⟩
    obtain ⟨a, d, hf, rfl⟩ := (hg.methodType?_eq_some_iff hv hs).1 hcall.found
    have hκ' := hcall.subst
    rw [Subst.instantiate_methodType] at hκ'
    have hlen := (Subst.instantiate_eq_ok_iff.1 hκ').1
    simp only [MethodDecl.renamed, List.length_map] at hlen
    obtain ⟨κ, hκ⟩ := Subst.exists_instantiate hlen
    have hty := hg.types_instance hv hs hr hN hap hf hκ hκ' (hh _ hf.decl_mem d hf.mem)
    simp only [MethodType.types, Prod.mk.injEq] at hty
    refine ⟨_, _, ⟨_, κ, (hg.callable_iff hv hs hh hr hΔ hN hVs hap hf hκ hκ').1 hcall, ?_, rfl,
      rfl⟩, hty.2.1.symm, hty.2.2.symm⟩
    simpa [Subst.methodType, MethodDecl.type, MethodDecl.renamed] using hk
  · rintro ⟨_, _, ⟨U, κ, hcall, hk, rfl, rfl⟩, rfl, rfl⟩
    obtain ⟨a, d, hf, rfl⟩ := hv.methodType?_eq_some_iff.1 hcall.found
    have hκ := hcall.subst
    rw [Subst.instantiate_methodType] at hκ
    have hlen : (d.renamed (g a.decl d)).typeParams.length = (Vs.map r.ty).length := by
      simpa [MethodDecl.renamed] using (Subst.instantiate_eq_ok_iff.1 hκ).1
    obtain ⟨κ', hκ'⟩ := Subst.exists_instantiate hlen
    have hty := hg.types_instance hv hs hr hN hap hf hκ hκ' (hh _ hf.decl_mem d hf.mem)
    simp only [MethodType.types, Prod.mk.injEq] at hty
    refine ⟨_, κ', (hg.callable_iff hv hs hh hr hΔ hN hVs hap hf hκ hκ').2 hcall, ?_, hty.2.1,
      hty.2.2⟩
    simpa [Subst.methodType, MethodDecl.type, MethodDecl.renamed] using hk

end Relabeling

section Disjoint

variable {W : List String} (hs : t.Scoped)
include hs

theorem Scoped.disjoint_of_newTypes (hN : N.vars.Disjoint W) (h : newTypes t Δ N k = .ok Ps) :
    ∀ P ∈ Ps, P.vars.Disjoint W := by
  obtain ⟨-, fs, hfs, -, rfl⟩ := newTypes_eq_ok_iff.1 h
  rw [List.forall_mem_map]
  exact fun b hb X hX => hN (hs.mem_vars_of_fields hfs hb hX)

variable (hv : t.Valid) (hh : t.MethodHeads)
include hv hh

theorem Scoped.disjoint_of_callType (hN : N.vars.Disjoint W) (hVs : ∀ V ∈ Vs, V.vars.Disjoint W)
    (h : callType t Δ N m Vs k = .ok (Ps, T)) :
    (∀ P ∈ Ps, P.vars.Disjoint W) ∧ T.vars.Disjoint W := by
  obtain ⟨U, κ, hcall, -, rfl, rfl⟩ := callType_eq_ok_iff.1 h
  obtain ⟨a, d, hf, rfl⟩ := hv.methodType?_eq_some_iff.1 hcall.found
  have hκ := hcall.subst
  rw [Subst.instantiate_methodType] at hκ
  have hoff := hf.off_instance hs hκ hN hVs (hh _ hf.decl_mem d hf.mem)
  exact ⟨hoff.paramTypes, hoff.returnType⟩

theorem Scoped.disjoint_of_hasType
    (hΔ : ∀ T N, T.vars.Disjoint W → Δ.bound T = .ok N → N.vars.Disjoint W)
    (hΓ : ∀ x T, Γ.lookup x = some T → T.vars.Disjoint W) (h : HasType t Δ Γ e T)
    (he : e.tyVars.Disjoint W) : T.vars.Disjoint W := by
  induction h with
  | var hx => exact hΓ _ _ hx
  | field _ hN hf ih =>
    obtain ⟨fs, b, hfs, hb, rfl⟩ := fieldType_eq_ok_iff.1 hf
    have hoff := hΔ _ _ (ih he) hN
    exact fun X hX => hoff (hs.mem_vars_of_fields hfs (List.mem_of_find?_eq_some hb) hX)
  | call _ hN hm _ _ _ ih _ =>
    rw [Term.tyVars, List.disjoint_append_left, List.disjoint_append_left] at he
    have hoff := hΔ _ _ (ih he.1.1) hN
    exact (hs.disjoint_of_callType hv hh hoff
      (fun V hV X hX => he.1.2 (Ty.mem_varsAll.2 ⟨V, hV, hX⟩)) hm).2
  | new _ _ _ _ _ =>
    rw [Term.tyVars, List.disjoint_append_left] at he
    exact he.1
  | cast _ _ _ _ _ =>
    rw [Term.tyVars, List.disjoint_append_left] at he
    exact he.1

end Disjoint

structure RenamedVars (r : Subst) (W : List String) (Γ Γ' : VarEnv) : Prop where
  lookup : ∀ x, Γ'.lookup x = (Γ.lookup x).map r.ty
  off : ∀ x T, Γ.lookup x = some T → T.vars.Disjoint W

/-- The renamed term has a type exactly if the term has one, and then the renamed type. -/
def Follows (t : ClassTable) (g : ClassDecl → MethodDecl → String → String) (r : Subst)
    (Δ Δ' : TypeEnv) (Γ Γ' : VarEnv) (e : Term) : Prop :=
  ∀ T', HasType (t.relabel g) Δ' Γ' (r.term e) T' ↔ ∃ T, HasType t Δ Γ e T ∧ r.ty T = T'

section HasType

variable {es : List Term} (hg : t.Relabeling f R g) (hv : t.Valid) (hs : t.Scoped)
  (hh : t.MethodHeads) (hr : r.Relabels f R) (hΔ : TypeEnv.Renamed r (R.map f) Δ Δ')
  (hΓ : RenamedVars r (R.map f) Γ Γ')
include hg hv hs hh hr hΔ hΓ

omit hg hr in
theorem RenamedVars.disjoint_of_hasType (he : e.tyVars.Disjoint (R.map f))
    (hS : HasType t Δ Γ e S) : S.vars.Disjoint (R.map f) :=
  hs.disjoint_of_hasType hv hh (fun _ _ => hΔ.disjoint_bound) hΓ.off hS he

theorem Relabeling.argsFit_iff (he : (Term.tyVarsAll es).Disjoint (R.map f))
    (ih : ∀ e ∈ es, Follows t g r Δ Δ' Γ Γ' e) (hPs : ∀ P ∈ Ps, P.vars.Disjoint (R.map f))
    (hlen : es.length = Ps.length) :
    ArgsFit (t.relabel g) Δ' Γ' (es.map r.term) (Ps.map r.ty) ↔ ArgsFit t Δ Γ es Ps := by
  induction es generalizing Ps with
  | nil => exact iff_of_true argsFit_nil argsFit_nil
  | cons e es ihs =>
    cases Ps with
    | nil => simp at hlen
    | cons P Ps =>
      rw [List.forall_mem_cons] at ih hPs
      rw [Term.tyVarsAll, List.disjoint_append_left] at he
      have hsub {S : Ty} (hS : HasType t Δ Γ e S) :
          (t.relabel g).Subtype Δ' (r.ty S) (r.ty P) ↔ t.Subtype Δ S P := by
        rw [subtype_relabel_iff, hs.subtype_rename_iff (hr.renames hg.inj) hΔ
          (hΓ.disjoint_of_hasType hv hs hh hΔ he.1 hS) hPs.1]
      rw [List.map_cons, List.map_cons, argsFit_cons_iff, argsFit_cons_iff,
        ihs he.2 ih.2 hPs.2 (Nat.succ.inj hlen)]
      refine and_congr_left fun _ => ?_
      constructor
      · rintro ⟨_, hS', hP⟩
        obtain ⟨S, hS, rfl⟩ := (ih.1 _).1 hS'
        exact ⟨S, hS, (hsub hS).1 hP⟩
      · rintro ⟨S, hS, hP⟩
        exact ⟨_, (ih.1 _).2 ⟨S, hS, rfl⟩, (hsub hS).2 hP⟩

theorem Relabeling.follows_field {x : String} (he : e.tyVars.Disjoint (R.map f))
    (ih : Follows t g r Δ Δ' Γ Γ' e) : Follows t g r Δ Δ' Γ Γ' (.field e x) := by
  intro T'
  have hr' := hr.renames hg.inj
  have hoff {S : Ty} (hS : HasType t Δ Γ e S) := hΓ.disjoint_of_hasType hv hs hh hΔ he hS
  simp only [Subst.term_field, hasType_field_iff, ih _]
  constructor
  · rintro ⟨_, ⟨S, hS, rfl⟩, N', hN', hx⟩
    obtain ⟨N, hN, rfl⟩ := hΔ.exists_bound hr' (hoff hS) hN'
    obtain ⟨T, hT, rfl⟩ := hs.fieldType_iff.1 hx
    exact ⟨T, ⟨S, hS, N, hN, hT⟩, rfl⟩
  · rintro ⟨T, ⟨S, hS, N, hN, hT⟩, rfl⟩
    exact ⟨_, ⟨S, hS, rfl⟩, _, hΔ.bound_eq hr' (hoff hS) hN, hs.fieldType_iff.2 ⟨T, hT, rfl⟩⟩

theorem Relabeling.follows_call (he : (Term.call e m Vs es).tyVars.Disjoint (R.map f))
    (ih : Follows t g r Δ Δ' Γ Γ' e) (ihs : ∀ e ∈ es, Follows t g r Δ Δ' Γ Γ' e)
    (hap : ∀ N, receiver? t Δ Γ e = some N → t.ApartOn R m N) :
    Follows t g r Δ Δ' Γ Γ' (.call e m Vs es) := by
  intro T'
  rw [Term.tyVars, List.disjoint_append_left, List.disjoint_append_left] at he
  have hr' := hr.renames hg.inj
  have hoff {S : Ty} (hS : HasType t Δ Γ e S) := hΓ.disjoint_of_hasType hv hs hh hΔ he.1.1 hS
  have hVs : ∀ V ∈ Vs, V.vars.Disjoint (R.map f) := fun V hV X hX =>
    he.1.2 (Ty.mem_varsAll.2 ⟨V, hV, hX⟩)
  have hcall {S : Ty} {N : ClassTy} {Ps' : List Ty} (hS : HasType t Δ Γ e S)
      (hN : Δ.bound S = .ok N) :
      callType (t.relabel g) Δ' (r.classTy N) m (Vs.map r.ty) es.length = .ok (Ps', T') ↔
        ∃ Ps T, callType t Δ N m Vs es.length = .ok (Ps, T) ∧ Ps.map r.ty = Ps' ∧ r.ty T = T' :=
    hg.callType_iff hv hs hh hr hΔ (hΔ.disjoint_bound (hoff hS) hN) hVs
      (hap N (receiver?_eq_some hS hN))
  have hargs {S T : Ty} {N : ClassTy} {Ps : List Ty} (hS : HasType t Δ Γ e S)
      (hN : Δ.bound S = .ok N) (hm : callType t Δ N m Vs es.length = .ok (Ps, T)) :=
    hg.argsFit_iff hv hs hh hr hΔ hΓ he.2 ihs (hs.disjoint_of_callType hv hh
      (hΔ.disjoint_bound (hoff hS) hN) hVs hm).1 (length_of_callType hm)
  simp only [Subst.term_call, hasType_call_iff, ih _, List.length_map]
  constructor
  · rintro ⟨_, ⟨S, hS, rfl⟩, N', hN', Ps', hm, hfit⟩
    obtain ⟨N, hN, rfl⟩ := hΔ.exists_bound hr' (hoff hS) hN'
    obtain ⟨Ps, T, hPs, rfl, rfl⟩ := (hcall hS hN).1 hm
    exact ⟨T, ⟨S, hS, N, hN, Ps, hPs, (hargs hS hN hPs).1 hfit⟩, rfl⟩
  · rintro ⟨T, ⟨S, hS, N, hN, Ps, hm, hfit⟩, hT⟩
    exact ⟨_, ⟨S, hS, rfl⟩, _, hΔ.bound_eq hr' (hoff hS) hN, _,
      (hcall hS hN).2 ⟨Ps, T, hm, rfl, hT⟩, (hargs hS hN hm).2 hfit⟩

theorem Relabeling.follows_new (he : (Term.new N es).tyVars.Disjoint (R.map f))
    (ihs : ∀ e ∈ es, Follows t g r Δ Δ' Γ Γ' e) : Follows t g r Δ Δ' Γ Γ' (.new N es) := by
  intro T'
  rw [Term.tyVars, List.disjoint_append_left] at he
  have hargs {Ps : List Ty} (hN : newTypes t Δ N es.length = .ok Ps) :=
    hg.argsFit_iff hv hs hh hr hΔ hΓ he.2 ihs (hs.disjoint_of_newTypes he.1 hN)
      (length_of_newTypes hN)
  simp only [Subst.term_new, hasType_new_iff, List.length_map,
    hs.newTypes_iff (hr.renames hg.inj) hΔ he.1]
  constructor
  · rintro ⟨_, ⟨Ps, hN, rfl⟩, hfit, rfl⟩
    exact ⟨_, ⟨Ps, hN, (hargs hN).1 hfit, rfl⟩, rfl⟩
  · rintro ⟨_, ⟨Ps, hN, hfit, rfl⟩, rfl⟩
    exact ⟨_, ⟨Ps, hN, rfl⟩, (hargs hN).2 hfit, rfl⟩

theorem Relabeling.follows_cast (he : (Term.cast N e).tyVars.Disjoint (R.map f))
    (ih : Follows t g r Δ Δ' Γ Γ' e) : Follows t g r Δ Δ' Γ Γ' (.cast N e) := by
  intro T'
  rw [Term.tyVars, List.disjoint_append_left] at he
  have hr' := hr.renames hg.inj
  have hoff {S : Ty} (hS : HasType t Δ Γ e S) := hΓ.disjoint_of_hasType hv hs hh hΔ he.2 hS
  have hrel {S : Ty} {M : ClassTy} (hS : HasType t Δ Γ e S) (hM : Δ.bound S = .ok M) :
      related (t.relabel g) Δ' (r.classTy M) (r.classTy N) = related t Δ M N := by
    rw [← hs.related_rename hr' hΔ (hΔ.disjoint_bound (hoff hS) hM) he.1]
    simp only [related, subtype_relabel]
  simp only [Subst.term_cast, hasType_cast_iff, ih _, wellFormed_relabel_iff,
    Subst.toTy_classTy, hs.wellFormed_rename_iff hr' hΔ he.1]
  constructor
  · rintro ⟨hN, _, ⟨S, hS, rfl⟩, M', hM', ⟨b, hb⟩, rfl⟩
    obtain ⟨M, hM, rfl⟩ := hΔ.exists_bound hr' (hoff hS) hM'
    exact ⟨_, ⟨hN, S, hS, M, hM, ⟨b, (hrel hS hM).symm.trans hb⟩, rfl⟩, rfl⟩
  · rintro ⟨_, ⟨hN, S, hS, M, hM, ⟨b, hb⟩, rfl⟩, rfl⟩
    exact ⟨hN, _, ⟨S, hS, rfl⟩, _, hΔ.bound_eq hr' (hoff hS) hM,
      ⟨b, (hrel hS hM).trans hb⟩, rfl⟩

theorem Relabeling.follows (he : e.tyVars.Disjoint (R.map f))
    (hap : ∀ q ∈ lookups t Δ Γ e, t.ApartOn R q.1 q.2) : Follows t g r Δ Δ' Γ Γ' e := by
  induction e using Term.induction with
  | var x =>
    intro T'
    simp only [Subst.term_var, hasType_var_iff, hΓ.lookup, Option.map_eq_some_iff]
  | field e x ih => exact hg.follows_field hv hs hh hr hΔ hΓ he (ih he hap)
  | call e m Vs es ih ihs =>
    rw [lookups, List.forall_mem_append, List.forall_mem_append] at hap
    have hoff := he
    rw [Term.tyVars, List.disjoint_append_left, List.disjoint_append_left] at hoff
    refine hg.follows_call hv hs hh hr hΔ hΓ he (ih hoff.1.1 hap.1.2) (fun e hmem => ?_) ?_
    · exact ihs e hmem (fun X hX => hoff.2 (Term.mem_tyVarsAll.2 ⟨e, hmem, hX⟩))
        fun q hq => hap.2 q (mem_lookupsAll.2 ⟨e, hmem, hq⟩)
    · exact fun N hN => hap.1.1 (m, N) (by simp [hN])
  | new N es ihs =>
    rw [lookups] at hap
    have hoff := he
    rw [Term.tyVars, List.disjoint_append_left] at hoff
    refine hg.follows_new hv hs hh hr hΔ hΓ he fun e hmem => ?_
    exact ihs e hmem (fun X hX => hoff.2 (Term.mem_tyVarsAll.2 ⟨e, hmem, hX⟩))
      fun q hq => hap q (mem_lookupsAll.2 ⟨e, hmem, hq⟩)
  | cast N e ih =>
    have hoff := he
    rw [Term.tyVars, List.disjoint_append_left] at hoff
    exact hg.follows_cast hv hs hh hr hΔ hΓ he (ih hoff.2 hap)

end HasType

section WellTyped

theorem methodType?_relabel_eq_none_iff :
    (t.relabel g).methodType? m N = .ok none ↔ t.methodType? m N = .ok none := by
  have hnone (a : Ancestor) : (a.mapMethods fun c d => d.renamed (g c d)).methodType? m = none ↔
      a.methodType? m = none := by
    have hmethod := method?_mapMethods (name_renamed g) a.decl m
    simp only [Ancestor.methodType?, Option.map_eq_none_iff]
    exact hmethod ▸ Option.map_eq_none_iff
  rw [methodType?, methodType?, relabel, ancestry_mapMethods]
  cases t.ancestry N with
  | error fault => exact Iff.rfl
  | ok as =>
    simp only [Except.map, ok_bind, pure_eq_ok_iff, List.findSome?_eq_none_iff,
      List.forall_mem_map, hnone]

variable (hg : t.Relabeling f R g) (hv : t.Valid) (hs : t.Scoped) (hc : c ∈ t.classes)
  (hd : d ∈ c.methods)
include hg hv hs hc hd

theorem Relabeling.methodHead_iff :
    (d.renamed (g c d)).HeadWellFormed (t.relabel g) (c.mapMethods fun d => d.renamed (g c d)) ↔
      d.HeadWellFormed t c := by
  have hoff := (hg.off c hc).methods d hd
  have hr := (Subst.relabels_relabel (hg.picks c d) d).renames hg.inj
  have hw {T : Ty} (hT : T.vars.Disjoint (R.map f)) :
      (t.relabel g).WellFormed ((d.renamed (g c d)).env c) ((d.relabel (g c d)).ty T) ↔
        t.WellFormed (d.env c) T := by
    rw [wellFormed_relabel_iff, hs.wellFormed_rename_iff hr (hg.env_renamed hc hd hv hs) hT]
  constructor
  · rintro ⟨hb, hT, hp⟩
    simp only [MethodDecl.renamed, List.forall_mem_map] at hb hp
    exact ⟨fun P hP => (hw (hoff.bounds P hP)).1 (hb P hP), (hw hoff.returnType).1 hT,
      fun b hb => (hw (hoff.params b hb)).1 (hp b hb)⟩
  · rintro ⟨hb, hT, hp⟩
    refine ⟨?_, (hw hoff.returnType).2 hT, ?_⟩
    · simp only [MethodDecl.renamed, List.forall_mem_map]
      exact fun P hP => (hw (hoff.bounds P hP)).2 (hb P hP)
    · simp only [MethodDecl.renamed, List.forall_mem_map]
      exact fun b hb => (hw (hoff.params b hb)).2 (hp b hb)

omit hv hs in
theorem Relabeling.renamedVars :
    RenamedVars (d.relabel (g c d)) (R.map f) (methodVars c d)
      (methodVars (c.mapMethods fun d => d.renamed (g c d)) (d.renamed (g c d))) := by
  have hthis : ∀ X ∈ c.thisType.toTy.vars, X ∈ c.typeParams.map TypeParam.name := by
    intro X hX
    obtain ⟨T, hT, hXT⟩ := ClassTy.mem_vars.1 hX
    obtain ⟨P, hP, rfl⟩ := List.mem_map.1 hT
    cases List.mem_singleton.1 hXT
    exact List.mem_map_of_mem hP
  have hvars : methodVars (c.mapMethods fun d => d.renamed (g c d)) (d.renamed (g c d)) =
      (methodVars c d).map fun p => (p.1, (d.relabel (g c d)).ty p.2) := by
    have hfix := hg.ty_of_classVars hc hd hthis
    simp only [methodVars, MethodDecl.renamed, List.map_cons, hfix, List.map_map, List.map_reverse]
    rfl
  constructor
  · intro x
    rw [hvars, Subst.lookup_map_snd]
  · intro x T hx
    rcases List.mem_cons.1 (mem_of_lookup hx) with h | h
    · cases h
      exact fun X hX => (hg.off c hc).names (hthis X hX)
    · obtain ⟨b, hb, h⟩ := List.mem_map.1 (List.mem_reverse.1 h)
      cases h
      exact ((hg.off c hc).methods d hd).params b hb

variable (hh : t.MethodHeads)
include hh

omit hv hh in
theorem Relabeling.classTy_superType : (d.relabel (g c d)).classTy c.superType = c.superType :=
  ClassTy.toTy_inj.1 (hg.ty_of_classVars hc hd (hs c hc).superType)

theorem Relabeling.allowsOverride_found_iff (hap : t.ApartOn R d.name c.superType)
    {e : MethodDecl} (hf : t.Finds d.name c.superType a e) :
    (t.relabel g).allowsOverride ((d.renamed (g c d)).env c) d.name c.superType
        (d.renamed (g c d)).type = .ok true ↔
      t.allowsOverride (d.env c) d.name c.superType d.type = .ok true := by
  have hr := Subst.relabels_relabel (hg.picks c d) d
  have hr' := hr.renames hg.inj
  have hoff := (hg.off c hc).methods d hd
  have hN := (hg.off c hc).superType
  have he := hh a.decl hf.decl_mem e hf.mem
  have hfound := (hg.methodType?_eq_some_iff hv hs (r := d.relabel (g c d))).2 ⟨a, e, hf, rfl⟩
  rw [hg.classTy_superType hs hc hd] at hfound
  rw [allowsOverride_eq_true_iff hfound,
    allowsOverride_eq_true_iff (hv.methodType?_eq_some_iff.2 ⟨a, e, hf, rfl⟩)]
  simp only [Subst.length_typeParams_methodType, Subst.length_paramTypes_methodType,
    MethodDecl.length_typeParams_renamed, MethodDecl.length_paramTypes_renamed]
  refine and_congr_right fun hl => and_congr_right fun _ => ?_
  obtain ⟨κ, hκ⟩ : ∃ κ, Subst.instantiate e.typeParams (d.typeParams.map fun P => .var P.name) =
      .ok κ := Subst.exists_instantiate (by simpa [MethodDecl.type] using hl.symm)
  obtain ⟨κ', hκ'⟩ : ∃ κ', Subst.instantiate (e.renamed (g a.decl e)).typeParams
      ((d.typeParams.map fun P => .var P.name).map (d.relabel (g c d)).ty) = .ok κ' :=
    Subst.exists_instantiate (by simpa [MethodDecl.type, MethodDecl.renamed] using hl.symm)
  have hty := hg.types_instance hv hs hr hN hap hf hκ hκ' he
  simp only [Subst.instantiate_methodType]
  simp only [MethodDecl.type, MethodDecl.ownVars_renamed, hκ, hκ', Except.ok.injEq, exists_eq_left']
  exact hs.narrows_rename_iff hr' (hg.env_renamed hc hd hv hs) hoff.type
    (hf.off_instance hs hκ hN hoff.ownVars he) (MethodDecl.types_renamed _ d) hty

theorem Relabeling.allowsOverride_iff (hap : t.ApartOn R d.name c.superType) :
    (t.relabel g).allowsOverride ((d.renamed (g c d)).env c) d.name c.superType
        (d.renamed (g c d)).type = .ok true ↔
      t.allowsOverride (d.env c) d.name c.superType d.type = .ok true := by
  by_cases hf : ∃ a e, t.Finds d.name c.superType a e
  · obtain ⟨a, e, hf⟩ := hf
    exact hg.allowsOverride_found_iff hv hs hc hd hh hap hf
  · rw [allowsOverride_iff_none, allowsOverride_iff_none, methodType?_relabel_eq_none_iff]
    · intro U hU
      obtain ⟨a, e, h, -⟩ := hv.methodType?_eq_some_iff.1 hU
      exact hf ⟨a, e, h⟩
    · intro U hU
      rw [← hg.classTy_superType hs hc hd] at hU
      obtain ⟨a, e, h, -⟩ := (hg.methodType?_eq_some_iff hv hs).1 hU
      exact hf ⟨a, e, h⟩

theorem Relabeling.method_wellTyped_iff (hap : ∀ q ∈ d.lookups t c, t.ApartOn R q.1 q.2) :
    (d.renamed (g c d)).WellTyped (t.relabel g) (c.mapMethods fun d => d.renamed (g c d)) ↔
      d.WellTyped t c := by
  have hr := Subst.relabels_relabel (hg.picks c d) d
  have hoff := (hg.off c hc).methods d hd
  have hΔ := hg.env_renamed hc hd hv hs
  have hΓ := hg.renamedVars hc hd
  rw [MethodDecl.lookups, List.forall_mem_cons] at hap
  have hbody := hg.follows hv hs hh hr hΔ hΓ hoff.body hap.2
  have hsub {T : Ty} (hT : HasType t (d.env c) (methodVars c d) d.body T) :
      (t.relabel g).Subtype ((d.renamed (g c d)).env c) ((d.relabel (g c d)).ty T)
          (d.renamed (g c d)).returnType ↔ t.Subtype (d.env c) T d.returnType := by
    rw [subtype_relabel_iff]
    refine hs.subtype_rename_iff (hr.renames hg.inj) hΔ ?_ hoff.returnType
    exact hΓ.disjoint_of_hasType hv hs hh hΔ hoff.body hT
  have hover := hg.allowsOverride_iff hv hs hc hd hh hap.1
  constructor
  · rintro ⟨hhead, ⟨T', hT', hfit⟩, ho⟩
    obtain ⟨T, hT, rfl⟩ := (hbody T').1 hT'
    exact ⟨(hg.methodHead_iff hv hs hc hd).1 hhead, ⟨T, hT, (hsub hT).1 hfit⟩, hover.1 ho⟩
  · rintro ⟨hhead, ⟨T, hT, hfit⟩, ho⟩
    exact ⟨(hg.methodHead_iff hv hs hc hd).2 hhead, ⟨_, (hbody _).2 ⟨T, hT, rfl⟩, (hsub hT).2 hfit⟩,
      hover.2 ho⟩

end WellTyped

theorem headWellFormed_relabel_iff {h : MethodDecl → MethodDecl} :
    (c.mapMethods h).HeadWellFormed (t.relabel g) ↔ c.HeadWellFormed t := by
  constructor
  · rintro ⟨hb, hN, hf⟩
    exact ⟨fun P hP => wellFormed_relabel_iff.1 (hb P hP), wellFormed_relabel_iff.1 hN,
      fun b hb => wellFormed_relabel_iff.1 (hf b hb)⟩
  · rintro ⟨hb, hN, hf⟩
    exact ⟨fun P hP => wellFormed_relabel_iff.2 (hb P hP), wellFormed_relabel_iff.2 hN,
      fun b hb => wellFormed_relabel_iff.2 (hf b hb)⟩

theorem requireConstructor_relabel (h : MethodDecl → MethodDecl) :
    requireConstructor (t.relabel g) (c.mapMethods h) = requireConstructor t c := by
  simp only [requireConstructor, fields_relabel]
  rfl

theorem Relabeling.wellTyped_iff (hg : t.Relabeling f R g) (hv : t.Valid)
    (hap : ∀ c ∈ t.classes, ∀ d ∈ c.methods, ∀ q ∈ d.lookups t c, t.ApartOn R q.1 q.2) :
    (t.relabel g).WellTyped ↔ t.WellTyped := by
  have hclasses : (t.relabel g).WellTyped ↔ ∀ c ∈ t.classes,
      (c.mapMethods fun d => d.renamed (g c d)).WellTyped (t.relabel g) := List.forall_mem_map
  rw [hclasses]
  constructor
  · -- Heads come first: without them the types of bodies could mention anything.
    intro h
    have hs : t.Scoped := fun c hc => (headWellFormed_relabel_iff.1 (h c hc).head).scoped
    have hmethods (c) (hc : c ∈ t.classes) := List.forall_mem_map.1 (h c hc).methods
    have hh : t.MethodHeads := fun c hc d hd =>
      (hg.methodHead_iff hv hs hc hd).1 (hmethods c hc d hd).head
    exact fun c hc => ⟨headWellFormed_relabel_iff.1 (h c hc).head,
      (requireConstructor_relabel _).symm.trans (h c hc).constructor, fun d hd =>
      (hg.method_wellTyped_iff hv hs hc hd hh (hap c hc d hd)).1 (hmethods c hc d hd)⟩
  · intro h
    have hs : t.Scoped := h.heads.scoped
    have hh := h.methodHeads
    exact fun c hc => ⟨headWellFormed_relabel_iff.2 (h c hc).head,
      (requireConstructor_relabel _).trans (h c hc).constructor, List.forall_mem_map.2 fun d hd =>
      (hg.method_wellTyped_iff hv hs hc hd hh (hap c hc d hd)).2 ((h c hc).methods d hd)⟩

theorem Relabeling.closed_hasType_iff (hg : t.Relabeling f R g) (hv : t.Valid) (hwt : t.WellTyped)
    (he : e.tyVars.Disjoint (R.map f))
    (hap : ∀ q ∈ lookups t .empty [] e, t.ApartOn R q.1 q.2) :
    HasType (t.relabel g) .empty [] e T ↔ HasType t .empty [] e T := by
  have hΔ : TypeEnv.Renamed .empty (R.map f) .empty .empty := ⟨fun _ _ _ _ => rfl, nofun⟩
  have hΓ : RenamedVars .empty (R.map f) [] [] := ⟨fun _ => rfl, nofun⟩
  have h := hg.follows hv hwt.heads.scoped hwt.methodHeads (Subst.relabels_empty f R) hΔ hΓ he hap T
  simpa only [Subst.term_empty, Subst.ty_empty, exists_eq_right] using h

end ClassTable

end Featherweight

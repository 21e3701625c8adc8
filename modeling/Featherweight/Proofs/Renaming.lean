import Featherweight.Proofs.Members
import Featherweight.Proofs.Typing
import Mathlib.Data.List.Lattice

/-!
# Renaming type variables

A substitution that maps variables to variables, different ones to different ones, can
be undone, so every question that the checker asks about types has the same answer
before and after it. The names in `W` are left out of this: a renaming may map another
name to one of them, and so the types considered do not mention them.
-/

namespace Featherweight

/-- Variables other than those in `W` are mapped to variables, different ones to
different ones. -/
structure Subst.Renames (r : Subst) (W : List String) : Prop where
  var : ∀ X ∉ W, ∃ Y, r.var X = .var Y
  inj : ∀ X ∉ W, ∀ Y ∉ W, r.var X = r.var Y → X = Y

structure TypeEnv.Renamed (r : Subst) (W : List String) (Δ Δ' : TypeEnv) : Prop where
  bound? : ∀ X ∉ W, ∀ Y, r.var X = .var Y → Δ'.bound? Y = (Δ.bound? X).map r.classTy
  off : ∀ X N, Δ.bound? X = some N → N.vars.Disjoint W

namespace Subst

variable {r : Subst} {W : List String} {S T : Ty} {M N : ClassTy}

theorem map_inj_of_mem {α β : Type} {f : α → β} {as bs : List α}
    (hf : ∀ a ∈ as, ∀ b ∈ bs, f a = f b → a = b) (h : as.map f = bs.map f) : as = bs := by
  have hlen : as.length = bs.length := by simpa using congrArg List.length h
  refine List.ext_getElem hlen fun i ha hb => ?_
  have hi := List.getElem_of_eq h (by simpa using ha)
  rw [List.getElem_map, List.getElem_map] at hi
  exact hf _ (List.getElem_mem ha) _ (List.getElem_mem hb) hi

theorem Renames.ty_inj (hr : r.Renames W) (hS : S.vars.Disjoint W) (hT : T.vars.Disjoint W)
    (h : r.ty S = r.ty T) : S = T := by
  induction S using Ty.induction generalizing T with
  | var X =>
    have hX : X ∉ W := hS (List.mem_singleton.2 rfl)
    obtain ⟨X', hX'⟩ := hr.var X hX
    cases T with
    | inst C Ts =>
      rw [ty_var, hX', ty_inst] at h
      cases h
    | var Y => rw [hr.inj X hX Y (hT (List.mem_singleton.2 rfl)) h]
  | inst C Ss ih =>
    cases T with
    | var Y =>
      obtain ⟨Y', hY'⟩ := hr.var Y (hT (List.mem_singleton.2 rfl))
      rw [ty_var, hY', ty_inst] at h
      cases h
    | inst D Ts =>
      rw [ty_inst, ty_inst, Ty.inst.injEq] at h
      have hargs : Ss = Ts := by
        refine map_inj_of_mem (fun S hSs T hTs hST => ih S hSs ?_ ?_ hST) h.2
        · exact fun X hX => hS (Ty.mem_vars_inst.2 ⟨S, hSs, hX⟩)
        · exact fun X hX => hT (Ty.mem_vars_inst.2 ⟨T, hTs, hX⟩)
      rw [h.1, hargs]

theorem Renames.ty_eq_iff (hr : r.Renames W) (hS : S.vars.Disjoint W) (hT : T.vars.Disjoint W) :
    r.ty S = r.ty T ↔ S = T :=
  ⟨hr.ty_inj hS hT, fun h => h ▸ rfl⟩

theorem Renames.map_ty_eq_iff (hr : r.Renames W) {Ss Ts : List Ty}
    (hS : ∀ S ∈ Ss, S.vars.Disjoint W) (hT : ∀ T ∈ Ts, T.vars.Disjoint W) :
    Ss.map r.ty = Ts.map r.ty ↔ Ss = Ts :=
  ⟨map_inj_of_mem fun S hSs T hTs => hr.ty_inj (hS S hSs) (hT T hTs), fun h => h ▸ rfl⟩

theorem Renames.map_classTy_eq_iff (hr : r.Renames W) {Ms Ns : List ClassTy}
    (hM : ∀ M ∈ Ms, M.vars.Disjoint W) (hN : ∀ N ∈ Ns, N.vars.Disjoint W) :
    Ms.map r.classTy = Ns.map r.classTy ↔ Ms = Ns := by
  refine ⟨map_inj_of_mem fun M hMs N hNs h => ?_, fun h => h ▸ rfl⟩
  exact ClassTy.toTy_inj.1 (hr.ty_inj (hM M hMs) (hN N hNs) (ClassTy.toTy_inj.2 h))

end Subst

namespace TypeEnv

variable {r : Subst} {W : List String} {Δ Δ' : TypeEnv} {T : Ty} {N : ClassTy}

theorem Renamed.bound_eq (hΔ : TypeEnv.Renamed r W Δ Δ') (hr : r.Renames W)
    (hT : T.vars.Disjoint W) (hN : Δ.bound T = .ok N) : Δ'.bound (r.ty T) = .ok (r.classTy N) := by
  cases T with
  | inst C Ts =>
    cases hN
    simp [TypeEnv.bound, Subst.classTy, Subst.tys_eq_map]
  | var X =>
    have hX : X ∉ W := hT (List.mem_singleton.2 rfl)
    obtain ⟨Y, hY⟩ := hr.var X hX
    have hb := hΔ.bound? X hX Y hY
    rw [TypeEnv.bound] at hN
    cases hXN : Δ.bound? X with
    | none => simp [hXN] at hN
    | some K =>
      simp only [hXN, Except.ok.injEq] at hN
      simp [hY, TypeEnv.bound, hb, hXN, hN]

theorem Renamed.exists_bound (hΔ : TypeEnv.Renamed r W Δ Δ') (hr : r.Renames W)
    (hT : T.vars.Disjoint W) {N' : ClassTy} (hN : Δ'.bound (r.ty T) = .ok N') :
    ∃ N, Δ.bound T = .ok N ∧ N' = r.classTy N := by
  cases hb : Δ.bound T with
  | ok N => exact ⟨N, rfl, Except.ok.inj (hN.symm.trans (hΔ.bound_eq hr hT hb))⟩
  | error f =>
    cases T with
    | inst C Ts => cases hb
    | var X =>
      have hX : X ∉ W := hT (List.mem_singleton.2 rfl)
      obtain ⟨Y, hY⟩ := hr.var X hX
      have hbX := hΔ.bound? X hX Y hY
      cases hXN : Δ.bound? X with
      | none => simp [hY, TypeEnv.bound, hbX, hXN] at hN
      | some K => simp [TypeEnv.bound, hXN] at hb

theorem Renamed.disjoint_bound (hΔ : TypeEnv.Renamed r W Δ Δ') (hT : T.vars.Disjoint W)
    (hN : Δ.bound T = .ok N) : N.vars.Disjoint W := by
  cases T with
  | inst C Ts =>
    cases hN
    exact hT
  | var X =>
    rw [TypeEnv.bound] at hN
    cases hXN : Δ.bound? X with
    | none => simp [hXN] at hN
    | some K =>
      simp only [hXN, Except.ok.injEq] at hN
      exact hN ▸ hΔ.off X K hXN

end TypeEnv

namespace ClassTable

variable {t : ClassTable} {r : Subst} {W : List String} {Δ Δ' : TypeEnv} {S T : Ty}
  {M N : ClassTy}

section Renames

variable (hs : t.Scoped) (hr : r.Renames W)
include hs hr

theorem Scoped.below_rename (hN : N.vars.Disjoint W) (hT : T.vars.Disjoint W) :
    t.below (r.classTy N) (r.ty T) = t.below N T := by
  have hself : (r.classTy N).toTy = r.ty T ↔ N.toTy = T := hr.ty_eq_iff hN hT
  simp only [below, hself, hs.ancestry_classTy]
  cases has : t.ancestry N with
  | error f => rfl
  | ok as =>
    have hchain := (climb_eq_ok_iff.1 has).1
    have hany : (as.map (·.through r)).any (·.superType.toTy = r.ty T) =
        as.any (·.superType.toTy = T) := by
      rw [List.any_map, Bool.eq_iff_iff, List.any_eq_true, List.any_eq_true]
      refine exists_congr fun a => and_congr_right fun ha => ?_
      obtain ⟨M, -, hM⟩ := hchain.exists_instantiate ha
      have hoff : a.superType.vars.Disjoint W := fun X hX =>
        hN (hs.mem_vars_of_below (hchain.below_superType ha) hX)
      simp only [Function.comp_apply, hs.superType_through hM, decide_eq_true_eq]
      exact hr.ty_eq_iff hoff hT
    simp only [Except.map, ok_bind, hany]

theorem Scoped.subtype_rename (hΔ : TypeEnv.Renamed r W Δ Δ') (hS : S.vars.Disjoint W)
    (hT : T.vars.Disjoint W) : t.subtype Δ' (r.ty S) (r.ty T) = t.subtype Δ S T := by
  simp only [subtype, hr.ty_eq_iff hS hT]
  cases S with
  | inst C Ss =>
    rw [Subst.ty_inst]
    have hbelow := hs.below_rename hr (N := ⟨C, Ss⟩) hS hT
    rw [Subst.classTy, Subst.tys_eq_map] at hbelow
    simp only [hbelow]
  | var X =>
    have hX : X ∉ W := hS (List.mem_singleton.2 rfl)
    obtain ⟨Y, hY⟩ := hr.var X hX
    simp only [Subst.ty_var, hY, hΔ.bound? X hX Y hY]
    cases hXN : Δ.bound? X with
    | none => rfl
    | some N => simp only [Option.map_some, hs.below_rename hr (hΔ.off X N hXN) hT]

theorem Scoped.subtype_rename_iff (hΔ : TypeEnv.Renamed r W Δ Δ') (hS : S.vars.Disjoint W)
    (hT : T.vars.Disjoint W) : t.Subtype Δ' (r.ty S) (r.ty T) ↔ t.Subtype Δ S T := by
  rw [Subtype, Subtype, hs.subtype_rename hr hΔ hS hT]

theorem Scoped.related_rename (hΔ : TypeEnv.Renamed r W Δ Δ') (hM : M.vars.Disjoint W)
    (hN : N.vars.Disjoint W) :
    Typing.related t Δ' (r.classTy M) (r.classTy N) = Typing.related t Δ M N := by
  have hMN := hs.subtype_rename hr hΔ (S := M.toTy) (T := N.toTy) hM hN
  have hNM := hs.subtype_rename hr hΔ (S := N.toTy) (T := M.toTy) hN hM
  simp only [Typing.related, Subst.toTy_classTy, hMN, hNM]

theorem Scoped.wellFormed_rename_iff (hΔ : TypeEnv.Renamed r W Δ Δ') (hT : T.vars.Disjoint W) :
    t.WellFormed Δ' (r.ty T) ↔ t.WellFormed Δ T := by
  induction T using Ty.induction with
  | var X =>
    have hX : X ∉ W := hT (List.mem_singleton.2 rfl)
    obtain ⟨Y, hY⟩ := hr.var X hX
    rw [Subst.ty_var, hY, wellFormed_var_iff, wellFormed_var_iff, hΔ.bound? X hX Y hY]
    cases Δ.bound? X <;> simp
  | inst C Ts ih =>
    change t.WellFormed Δ' (r.classTy ⟨C, Ts⟩).toTy ↔ t.WellFormed Δ (ClassTy.mk C Ts).toTy
    have hargs : ∀ T ∈ Ts, T.vars.Disjoint W := fun T hTs X hX =>
      hT (Ty.mem_vars_inst.2 ⟨T, hTs, hX⟩)
    rw [wellFormed_toTy_iff, wellFormed_toTy_iff, Subst.classTy_eq_object_iff, Subst.classTy_args,
      List.forall_mem_map]
    refine or_congr_right (and_congr (forall₂_congr fun T hTs => ih T hTs (hargs T hTs)) ?_)
    rw [instantiate_classTy]
    cases ha : t.instantiate ⟨C, Ts⟩ with
    | error f => simp [Except.map]
    | ok a =>
      simp only [Except.map, Except.ok.injEq, exists_eq_left', List.zip_map_left,
        List.forall_mem_map]
      refine forall₂_congr fun p hp => ?_
      have hP := (List.of_mem_zip hp).2
      have hscope : ∀ X ∈ p.2.bound.vars, X ∈ a.subst.names := fun X hX =>
        (names_of_instantiate ha).2 ((hs _ (decl_mem_of_instantiate ha)).bounds _ hP X hX)
      have hoff : (a.subst.classTy p.2.bound).vars.Disjoint W := by
        intro X hX
        obtain ⟨Y, hY, hXY⟩ := Subst.mem_vars_classTy.1 hX
        exact hT (mem_vars_of_instantiate ha (hscope Y hY) hXY)
      have hbound : (a.through r).subst.classTy p.2.bound = r.classTy (a.subst.classTy p.2.bound) :=
        Subst.classTy_through hscope
      rw [Prod.map_fst, Prod.map_snd, id_eq, hbound]
      exact hs.subtype_rename_iff hr hΔ (hargs _ (List.of_mem_zip hp).1) hoff

end Renames

end ClassTable

end Featherweight

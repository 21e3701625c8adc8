import Featherweight.Substitution

/-!
# Laws of type substitution

A substitution acts on a type only through the type's variables, so every law
comes down to what happens to single variables. Two substitutions compose without
conditions in `andThen`. `through` maps the range of a substitution and keeps its
domain; this is how the arguments of an instantiated class are substituted.
-/

namespace Featherweight

theorem getElem_mem_zip {α β : Type} {as : List α} {bs : List β} {i : Nat} (ha : i < as.length)
    (hb : i < bs.length) : (as[i], bs[i]) ∈ as.zip bs := by
  have hi : i < (as.zip bs).length := by
    rw [List.length_zip]
    omega
  exact List.mem_iff_getElem.2 ⟨i, hi, List.getElem_zip⟩

theorem forall_mem_zip_trans {α β γ : Type} {p : α → β → Prop} {q : β → γ → Prop}
    {r : α → γ → Prop} {as : List α} {bs : List β} {cs : List γ} (hlen : as.length = bs.length)
    (hp : ∀ x ∈ as.zip bs, p x.1 x.2) (hq : ∀ x ∈ bs.zip cs, q x.1 x.2)
    (h : ∀ a b c, p a b → q b c → r a c) : ∀ x ∈ as.zip cs, r x.1 x.2 := by
  intro x hx
  obtain ⟨i, hi, rfl⟩ := List.mem_iff_getElem.1 hx
  have ha : i < as.length := by simp at hi; omega
  have hc : i < cs.length := by simp at hi; omega
  have hb : i < bs.length := hlen ▸ ha
  rw [List.getElem_zip]
  exact h _ _ _ (hp _ (getElem_mem_zip ha hb)) (hq _ (getElem_mem_zip hb hc))

theorem forall_mem_zip_map_right {α β γ : Type} {f : β → γ} {p : α → γ → Prop} {as : List α}
    {bs : List β} :
    (∀ q ∈ as.zip (bs.map f), p q.1 q.2) ↔ ∀ q ∈ as.zip bs, p q.1 (f q.2) := by
  rw [List.zip_map_right, List.forall_mem_map]
  rfl

theorem mem_of_lookup {α : Type} {ps : List (String × α)} {x : String} {a : α}
    (h : ps.lookup x = some a) : (x, a) ∈ ps := by
  obtain ⟨l₁, l₂, hl, -⟩ := List.lookup_eq_some_iff.1 h
  simp [hl]

namespace Ty

mutual

def vars : Ty → List String
  | .var X => [X]
  | .inst _ Ts => varsAll Ts

def varsAll : List Ty → List String
  | [] => []
  | T :: Ts => T.vars ++ varsAll Ts

end

theorem mem_varsAll {X : String} {Ts : List Ty} : X ∈ varsAll Ts ↔ ∃ T ∈ Ts, X ∈ T.vars := by
  induction Ts with
  | nil => simp [varsAll]
  | cons T Ts ih => simp [varsAll, ih]

theorem varsAll_eq_nil_iff {Ts : List Ty} : varsAll Ts = [] ↔ ∀ T ∈ Ts, T.vars = [] := by
  induction Ts with
  | nil => simp [varsAll]
  | cons T Ts ih => simp [varsAll, ih]

def Closed (T : Ty) : Prop := T.vars = []

theorem Closed.not_mem {T : Ty} {X : String} (h : T.Closed) : X ∉ T.vars := by
  rw [show T.vars = [] from h]
  exact List.not_mem_nil

theorem mem_vars_inst {X C : String} {Ts : List Ty} :
    X ∈ (Ty.inst C Ts).vars ↔ ∃ T ∈ Ts, X ∈ T.vars := by
  simp only [vars, mem_varsAll]

end Ty

namespace ClassTy

def vars (N : ClassTy) : List String := N.toTy.vars

theorem mem_vars {X : String} {N : ClassTy} : X ∈ N.vars ↔ ∃ T ∈ N.args, X ∈ T.vars :=
  Ty.mem_vars_inst

theorem toTy_inj {M N : ClassTy} : M.toTy = N.toTy ↔ M = N := by
  cases M
  cases N
  simp [toTy]

end ClassTy

namespace Term

mutual

def tyVars : Term → List String
  | .var _ => []
  | .field e _ => e.tyVars
  | .call e _ Vs es => e.tyVars ++ Ty.varsAll Vs ++ tyVarsAll es
  | .new N es => N.vars ++ tyVarsAll es
  | .cast N e => N.vars ++ e.tyVars

def tyVarsAll : List Term → List String
  | [] => []
  | e :: es => e.tyVars ++ tyVarsAll es

end

theorem mem_tyVarsAll {X : String} {es : List Term} :
    X ∈ tyVarsAll es ↔ ∃ e ∈ es, X ∈ e.tyVars := by
  induction es with
  | nil => simp [tyVarsAll]
  | cons e es ih => simp [tyVarsAll, ih]

theorem tyVarsAll_eq_nil_iff {es : List Term} : tyVarsAll es = [] ↔ ∀ e ∈ es, e.tyVars = [] := by
  induction es with
  | nil => simp [tyVarsAll]
  | cons e es ih => simp [tyVarsAll, ih]

inductive AllTypes (P : Ty → Prop) : Term → Prop where
  | var (x : String) : AllTypes P (.var x)
  | field {e : Term} {f : String} (he : AllTypes P e) : AllTypes P (.field e f)
  | call {e : Term} {m : String} {Vs : List Ty} {es : List Term} (he : AllTypes P e)
      (hVs : ∀ V ∈ Vs, P V) (hes : ∀ a ∈ es, AllTypes P a) : AllTypes P (.call e m Vs es)
  | new {N : ClassTy} {es : List Term} (hN : P N.toTy) (hes : ∀ a ∈ es, AllTypes P a) :
      AllTypes P (.new N es)
  | cast {N : ClassTy} {e : Term} (hN : P N.toTy) (he : AllTypes P e) : AllTypes P (.cast N e)

theorem AllTypes.mono {P Q : Ty → Prop} {e : Term} (h : e.AllTypes P) (hPQ : ∀ T, P T → Q T) :
    e.AllTypes Q := by
  induction h with
  | var x => exact .var x
  | field _ ih => exact .field ih
  | call _ hVs _ ih ihs => exact .call ih (fun V hV => hPQ V (hVs V hV)) ihs
  | new hN _ ihs => exact .new (hPQ _ hN) ihs
  | cast hN _ ih => exact .cast (hPQ _ hN) ih

theorem AllTypes.exists_type {P : Ty → Prop} {e : Term} {X : String} (h : e.AllTypes P)
    (hX : X ∈ e.tyVars) : ∃ T, P T ∧ X ∈ T.vars := by
  have hargs {es : List Term} (ihs : ∀ a ∈ es, X ∈ a.tyVars → ∃ T, P T ∧ X ∈ T.vars)
      (hX : X ∈ tyVarsAll es) : ∃ T, P T ∧ X ∈ T.vars := by
    obtain ⟨a, ha, hXa⟩ := mem_tyVarsAll.1 hX
    exact ihs a ha hXa
  induction h with
  | var x => simp [tyVars] at hX
  | field _ ih => exact ih hX
  | call _ hVs _ ih ihs =>
    rw [tyVars, List.mem_append, List.mem_append] at hX
    rcases hX with (hX | hX) | hX
    · exact ih hX
    · obtain ⟨V, hV, hX⟩ := Ty.mem_varsAll.1 hX
      exact ⟨V, hVs V hV, hX⟩
    · exact hargs ihs hX
  | new hN _ ihs => exact (List.mem_append.1 hX).elim (fun hX => ⟨_, hN, hX⟩) (hargs ihs)
  | cast hN _ ih => exact (List.mem_append.1 hX).elim (fun hX => ⟨_, hN, hX⟩) ih

theorem allTypes_of_tyVars {e : Term} (h : e.tyVars = []) : e.AllTypes Ty.Closed := by
  induction e using Term.induction with
  | var x => exact .var x
  | field e f ih => exact .field (ih h)
  | call e m Vs es ih ihs =>
    simp only [tyVars, List.append_eq_nil_iff] at h
    exact .call (ih h.1.1) (Ty.varsAll_eq_nil_iff.1 h.1.2)
      fun a ha => ihs a ha (tyVarsAll_eq_nil_iff.1 h.2 a ha)
  | new N es ihs =>
    simp only [tyVars, List.append_eq_nil_iff] at h
    exact .new h.1 fun a ha => ihs a ha (tyVarsAll_eq_nil_iff.1 h.2 a ha)
  | cast N e ih =>
    simp only [tyVars, List.append_eq_nil_iff] at h
    exact .cast h.1 (ih h.2)

end Term

namespace Subst

variable {σ τ : Subst} {S T : Ty} {N : ClassTy} {X : String}

def empty : Subst := ⟨[]⟩

def names (σ : Subst) : List String := σ.pairs.map Prod.fst

@[simp] theorem ty_var (σ : Subst) (X : String) : σ.ty (.var X) = σ.var X := rfl

@[simp] theorem ty_inst (σ : Subst) (C : String) (Ts : List Ty) :
    σ.ty (.inst C Ts) = .inst C (Ts.map σ.ty) := by
  rw [ty, tys_eq_map]

@[simp] theorem classTy_name (σ : Subst) (N : ClassTy) : (σ.classTy N).name = N.name := rfl

@[simp] theorem classTy_args (σ : Subst) (N : ClassTy) :
    (σ.classTy N).args = N.args.map σ.ty := by
  rw [classTy, tys_eq_map]

@[simp] theorem toTy_classTy (σ : Subst) (N : ClassTy) : (σ.classTy N).toTy = σ.ty N.toTy := rfl

@[simp] theorem classTy_object (σ : Subst) : σ.classTy .object = .object := rfl

theorem classTy_eq_object_iff : σ.classTy N = .object ↔ N = .object := by
  cases N
  simp [classTy, tys_eq_map, ClassTy.object]

theorem var_of_lookup (h : σ.pairs.lookup X = some T) : σ.var X = T := by
  simp [var, h]

theorem var_of_not_mem (h : X ∉ σ.names) : σ.var X = .var X := by
  have hX : σ.pairs.lookup X = none := by
    rw [List.lookup_eq_none_iff]
    intro p hp
    have hne : p.1 ≠ X := fun he => h (he ▸ List.mem_map_of_mem hp)
    simpa using hne.symm
  simp [var, hX]

theorem exists_lookup_of_mem (h : X ∈ σ.names) : ∃ T, σ.pairs.lookup X = some T := by
  obtain ⟨p, hp, rfl⟩ := List.mem_map.1 h
  exact Option.isSome_iff_exists.1 (List.lookup_isSome_iff.2 ⟨p, hp, by simp⟩)

theorem ty_congr (h : ∀ X ∈ T.vars, σ.var X = τ.var X) : σ.ty T = τ.ty T := by
  induction T using Ty.induction with
  | var X => exact h X (by simp [Ty.vars])
  | inst C Ts ih =>
    rw [ty_inst, ty_inst]
    congr 1
    refine List.map_congr_left fun T hT => ih T hT fun X hX => ?_
    exact h X (Ty.mem_vars_inst.2 ⟨T, hT, hX⟩)

@[simp] theorem ty_empty (T : Ty) : empty.ty T = T := by
  induction T using Ty.induction with
  | var X => rfl
  | inst C Ts ih => rw [ty_inst, List.map_congr_left ih, List.map_id']

theorem ty_eq_self (h : ∀ X ∈ T.vars, σ.var X = .var X) : σ.ty T = T :=
  (ty_congr h).trans (ty_empty T)

theorem mem_vars_ty : X ∈ (σ.ty T).vars ↔ ∃ Y ∈ T.vars, X ∈ (σ.var Y).vars := by
  induction T using Ty.induction with
  | var Y => simp [Ty.vars]
  | inst C Ts ih =>
    rw [ty_inst, Ty.mem_vars_inst]
    constructor
    · rintro ⟨_, hU, hX⟩
      obtain ⟨T, hT, rfl⟩ := List.mem_map.1 hU
      obtain ⟨Y, hY, hX⟩ := (ih T hT).1 hX
      exact ⟨Y, Ty.mem_vars_inst.2 ⟨T, hT, hY⟩, hX⟩
    · rintro ⟨Y, hY, hX⟩
      obtain ⟨T, hT, hY⟩ := Ty.mem_vars_inst.1 hY
      exact ⟨σ.ty T, List.mem_map_of_mem hT, (ih T hT).2 ⟨Y, hY, hX⟩⟩

theorem mem_vars_classTy : X ∈ (σ.classTy N).vars ↔ ∃ Y ∈ N.vars, X ∈ (σ.var Y).vars :=
  mem_vars_ty (T := N.toTy)

theorem classTy_congr (h : ∀ X ∈ N.vars, σ.var X = τ.var X) : σ.classTy N = τ.classTy N :=
  ClassTy.toTy_inj.1 (ty_congr h)

theorem classTy_eq_self (h : ∀ X ∈ N.vars, σ.var X = .var X) : σ.classTy N = N :=
  ClassTy.toTy_inj.1 (ty_eq_self h)

theorem ty_eq_iff : σ.ty T = τ.ty T ↔ ∀ X ∈ T.vars, σ.var X = τ.var X := by
  refine ⟨fun h => ?_, ty_congr⟩
  induction T using Ty.induction with
  | var Y => simpa [Ty.vars] using h
  | inst C Ts ih =>
    intro X hX
    obtain ⟨T, hT, hX⟩ := Ty.mem_vars_inst.1 hX
    rw [ty_inst, ty_inst, Ty.inst.injEq, List.map_inj_left] at h
    exact ih T hT (h.2 T hT) X hX

theorem classTy_eq_iff : σ.classTy N = τ.classTy N ↔ ∀ X ∈ N.vars, σ.var X = τ.var X :=
  ClassTy.toTy_inj.symm.trans (ty_eq_iff (T := N.toTy))

def andThen (σ τ : Subst) : Subst := ⟨σ.pairs.map (fun p => (p.1, τ.ty p.2)) ++ τ.pairs⟩

/-- `τ` applied to what `σ` puts in. -/
def through (σ τ : Subst) : Subst := ⟨σ.pairs.map fun p => (p.1, τ.ty p.2)⟩

theorem lookup_map_snd (ps : List (String × Ty)) (f : Ty → Ty) (X : String) :
    (ps.map fun p => (p.1, f p.2)).lookup X = (ps.lookup X).map f := by
  induction ps with
  | nil => rfl
  | cons p ps ih =>
    obtain ⟨Y, T⟩ := p
    by_cases h : X = Y
    · simp [h]
    · have hb : (X == Y) = false := by simpa using h
      simp [List.lookup_cons, hb, ih]

theorem var_andThen (σ τ : Subst) (X : String) : (σ.andThen τ).var X = τ.ty (σ.var X) := by
  simp only [var, andThen, List.lookup_append, lookup_map_snd]
  cases σ.pairs.lookup X with
  | none => simp [var]
  | some T => simp

theorem ty_andThen (σ τ : Subst) (T : Ty) : (σ.andThen τ).ty T = τ.ty (σ.ty T) := by
  induction T using Ty.induction with
  | var X => exact var_andThen σ τ X
  | inst C Ts ih =>
    simp only [ty_inst, List.map_map, Ty.inst.injEq, true_and]
    exact List.map_congr_left ih

theorem classTy_andThen (σ τ : Subst) (N : ClassTy) :
    (σ.andThen τ).classTy N = τ.classTy (σ.classTy N) :=
  ClassTy.toTy_inj.1 (ty_andThen σ τ N.toTy)

@[simp] theorem names_through (σ τ : Subst) : (σ.through τ).names = σ.names := by
  simp [names, through, Function.comp_def]

theorem var_through (h : X ∈ σ.names) : (σ.through τ).var X = τ.ty (σ.var X) := by
  obtain ⟨T, hT⟩ := exists_lookup_of_mem h
  simp [var, through, lookup_map_snd, hT]

@[simp] theorem through_empty (σ : Subst) : σ.through empty = σ := by
  simp [through]

theorem ty_through (h : ∀ X ∈ T.vars, X ∈ σ.names) : (σ.through τ).ty T = τ.ty (σ.ty T) := by
  rw [← ty_andThen]
  refine ty_congr fun X hX => ?_
  rw [var_through (h X hX), var_andThen]

theorem classTy_through (h : ∀ X ∈ N.vars, X ∈ σ.names) :
    (σ.through τ).classTy N = τ.classTy (σ.classTy N) :=
  ClassTy.toTy_inj.1 (ty_through h)

/-- A declared type is instantiated twice, by `ω` at the class and by `κ` at the
method. A further substitution moves inside both unless a variable that `ω` put in
is one of the method's, before or after that substitution. -/
theorem ty_instantiate_comm {ω κ : Subst} (hT : ∀ X ∈ T.vars, X ∈ ω.names ∨ X ∈ κ.names)
    (hω : ∀ X ∈ T.vars, X ∈ ω.names → ∀ Y ∈ (ω.var X).vars, Y ∉ κ.names)
    (hσ : ∀ X ∈ T.vars, X ∈ ω.names → ∀ Y ∈ (σ.ty (ω.var X)).vars, Y ∉ κ.names) :
    σ.ty (κ.ty (ω.ty T)) = (κ.through σ).ty ((ω.through σ).ty T) := by
  rw [← ty_andThen, ← ty_andThen, ← ty_andThen]
  refine ty_congr fun X hX => ?_
  rw [var_andThen, var_andThen, ty_andThen]
  by_cases hXω : X ∈ ω.names
  · have hκ : κ.ty (ω.var X) = ω.var X :=
      ty_eq_self fun Y hY => var_of_not_mem (hω X hX hXω Y hY)
    have hκσ : (κ.through σ).ty (σ.ty (ω.var X)) = σ.ty (ω.var X) :=
      ty_eq_self fun Y hY => var_of_not_mem (by simpa using hσ X hX hXω Y hY)
    rw [hκ, var_through hXω, hκσ]
  · have hXκ : X ∈ κ.names := (hT X hX).resolve_left hXω
    rw [var_of_not_mem hXω, var_of_not_mem (by simpa using hXω), ty_var, ty_var, var_through hXκ]

section Terms

variable {e : Term}

@[simp] theorem term_var (σ : Subst) (x : String) : σ.term (.var x) = .var x := rfl

@[simp] theorem term_field (σ : Subst) (e : Term) (f : String) :
    σ.term (.field e f) = .field (σ.term e) f := rfl

@[simp] theorem term_call (σ : Subst) (e : Term) (m : String) (Vs : List Ty) (es : List Term) :
    σ.term (.call e m Vs es) = .call (σ.term e) m (Vs.map σ.ty) (es.map σ.term) := by
  rw [term, tys_eq_map, terms_eq_map]

@[simp] theorem term_new (σ : Subst) (N : ClassTy) (es : List Term) :
    σ.term (.new N es) = .new (σ.classTy N) (es.map σ.term) := by
  rw [term, terms_eq_map]

@[simp] theorem term_cast (σ : Subst) (N : ClassTy) (e : Term) :
    σ.term (.cast N e) = .cast (σ.classTy N) (σ.term e) := rfl

theorem term_congr (h : ∀ X ∈ e.tyVars, σ.var X = τ.var X) : σ.term e = τ.term e := by
  induction e using Term.induction with
  | var x => rfl
  | field e f ih => simp [ih h]
  | call e m Vs es ih ihs =>
    simp only [Term.tyVars, List.mem_append, Ty.mem_varsAll, Term.mem_tyVarsAll] at h
    simp only [term_call, Term.call.injEq, true_and]
    refine ⟨ih fun X hX => h X (.inl (.inl hX)), List.map_congr_left fun T hT => ?_,
      List.map_congr_left fun a ha => ?_⟩
    · exact ty_congr fun X hX => h X (.inl (.inr ⟨T, hT, hX⟩))
    · exact ihs a ha fun X hX => h X (.inr ⟨a, ha, hX⟩)
  | new N es ihs =>
    simp only [Term.tyVars, List.mem_append, Term.mem_tyVarsAll] at h
    simp only [term_new, Term.new.injEq]
    refine ⟨classTy_congr fun X hX => h X (.inl hX), List.map_congr_left fun a ha => ?_⟩
    exact ihs a ha fun X hX => h X (.inr ⟨a, ha, hX⟩)
  | cast N e ih =>
    simp only [Term.tyVars, List.mem_append] at h
    simp only [term_cast, Term.cast.injEq]
    exact ⟨classTy_congr fun X hX => h X (.inl hX), ih fun X hX => h X (.inr hX)⟩

theorem term_eq_iff : σ.term e = τ.term e ↔ ∀ X ∈ e.tyVars, σ.var X = τ.var X := by
  refine ⟨fun h => ?_, term_congr⟩
  induction e using Term.induction with
  | var x => simp [Term.tyVars]
  | field e f ih =>
    simp only [term_field, Term.field.injEq] at h
    exact ih h.1
  | call e m Vs es ih ihs =>
    simp only [term_call, Term.call.injEq, List.map_inj_left, true_and] at h
    obtain ⟨he, hVs, hes⟩ := h
    intro X hX
    simp only [Term.tyVars, List.mem_append, Ty.mem_varsAll, Term.mem_tyVarsAll] at hX
    rcases hX with (hX | ⟨V, hV, hX⟩) | ⟨a, ha, hX⟩
    · exact ih he X hX
    · exact ty_eq_iff.1 (hVs V hV) X hX
    · exact ihs a ha (hes a ha) X hX
  | new N es ihs =>
    simp only [term_new, Term.new.injEq, List.map_inj_left] at h
    intro X hX
    simp only [Term.tyVars, List.mem_append, Term.mem_tyVarsAll] at hX
    rcases hX with hX | ⟨a, ha, hX⟩
    · exact classTy_eq_iff.1 h.1 X hX
    · exact ihs a ha (h.2 a ha) X hX
  | cast N e ih =>
    simp only [term_cast, Term.cast.injEq] at h
    intro X hX
    rcases List.mem_append.1 hX with hX | hX
    · exact classTy_eq_iff.1 h.1 X hX
    · exact ih h.2 X hX

theorem term_andThen (σ τ : Subst) (e : Term) : (σ.andThen τ).term e = τ.term (σ.term e) := by
  induction e using Term.induction with
  | var x => rfl
  | field e f ih => simp [ih]
  | call e m Vs es ih ihs =>
    simp only [term_call, List.map_map, Term.call.injEq, true_and]
    exact ⟨ih, List.map_congr_left fun T _ => ty_andThen σ τ T, List.map_congr_left ihs⟩
  | new N es ihs =>
    simp only [term_new, List.map_map, Term.new.injEq]
    exact ⟨classTy_andThen σ τ N, List.map_congr_left ihs⟩
  | cast N e ih =>
    simp only [term_cast, Term.cast.injEq]
    exact ⟨classTy_andThen σ τ N, ih⟩

theorem allTypes_term {P Q : Ty → Prop} (he : e.AllTypes P) (hσ : ∀ T, P T → Q (σ.ty T)) :
    (σ.term e).AllTypes Q := by
  induction he with
  | var x => exact .var x
  | field _ ih => exact .field ih
  | call _ hVs _ ih ihs =>
    rw [term_call]
    exact .call ih (List.forall_mem_map.2 fun V hV => hσ V (hVs V hV)) (List.forall_mem_map.2 ihs)
  | new hN _ ihs =>
    rw [term_new]
    exact .new (hσ _ hN) (List.forall_mem_map.2 ihs)
  | cast hN _ ih =>
    rw [term_cast]
    exact .cast (hσ _ hN) ih

@[simp] theorem classTy_empty (N : ClassTy) : empty.classTy N = N :=
  ClassTy.toTy_inj.1 (ty_empty N.toTy)

@[simp] theorem term_empty (e : Term) : empty.term e = e := by
  have hid : (empty.ty : Ty → Ty) = id := funext ty_empty
  induction e using Term.induction with
  | var x => rfl
  | field e f ih => simp [ih]
  | call e m Vs es ih ihs => simp [ih, hid, List.map_congr_left ihs]
  | new N es ihs => simp [List.map_congr_left ihs]
  | cast N e ih => simp [ih]

end Terms

section Instantiate

variable {Xs Ys : List TypeParam} {Ts : List Ty}

theorem instantiate_eq_ok_iff : instantiate Xs Ts = .ok σ ↔
    Xs.length = Ts.length ∧ σ = ⟨((Xs.map TypeParam.name).zip Ts).reverse⟩ := by
  unfold instantiate
  split
  · next h => simp [h, eq_comm]
  · next h => simp [h]

theorem instantiate_eq_error_iff {e : TableFault} : instantiate Xs Ts = .error e ↔
    Xs.length ≠ Ts.length ∧ .arityMismatch Xs.length Ts.length = e := by
  unfold instantiate
  split
  · next h => simp [h]
  · next h => simp [h]

theorem exists_instantiate (h : Xs.length = Ts.length) : ∃ σ, instantiate Xs Ts = .ok σ :=
  ⟨_, instantiate_eq_ok_iff.2 ⟨h, rfl⟩⟩

theorem instantiate_congr (h : Xs.map TypeParam.name = Ys.map TypeParam.name) :
    instantiate Xs Ts = instantiate Ys Ts := by
  have hl : Xs.length = Ys.length := by simpa using congrArg List.length h
  rw [instantiate, instantiate, h, hl]

theorem names_of_instantiate (h : instantiate Xs Ts = .ok σ) :
    σ.names = (Xs.map TypeParam.name).reverse := by
  obtain ⟨hl, rfl⟩ := instantiate_eq_ok_iff.1 h
  rw [names, List.map_reverse, List.map_fst_zip (by simp [hl])]

theorem mem_names_of_instantiate (h : instantiate Xs Ts = .ok σ) :
    X ∈ σ.names ↔ X ∈ Xs.map TypeParam.name := by
  rw [names_of_instantiate h, List.mem_reverse]

theorem var_mem_of_instantiate (h : instantiate Xs Ts = .ok σ)
    (hX : X ∈ Xs.map TypeParam.name) : σ.var X ∈ Ts := by
  obtain ⟨T, hT⟩ := exists_lookup_of_mem ((mem_names_of_instantiate h).2 hX)
  obtain ⟨-, rfl⟩ := instantiate_eq_ok_iff.1 h
  rw [var_of_lookup hT]
  exact (List.of_mem_zip (List.mem_reverse.1 (mem_of_lookup hT))).2

theorem instantiate_map (τ : Subst) (Xs : List TypeParam) (Ts : List Ty) :
    instantiate Xs (Ts.map τ.ty) = (instantiate Xs Ts).map (·.through τ) := by
  unfold instantiate
  rw [List.length_map]
  split
  · simp [Except.map, through, List.zip_map_right, Prod.map]
  · rfl

theorem instantiate_map_ok (h : instantiate Xs Ts = .ok σ) :
    instantiate Xs (Ts.map τ.ty) = .ok (σ.through τ) := by
  rw [instantiate_map, h]
  rfl

theorem var_of_mem_zip (hd : (Xs.map TypeParam.name).Nodup) (h : instantiate Xs Ts = .ok σ)
    {p : TypeParam × Ty} (hp : p ∈ Xs.zip Ts) : σ.var p.1.name = p.2 := by
  obtain ⟨hl, rfl⟩ := instantiate_eq_ok_iff.1 h
  refine var_of_lookup ?_
  clear h hl
  induction Xs generalizing Ts with
  | nil => simp at hp
  | cons X Xs ih =>
    cases Ts with
    | nil => simp at hp
    | cons T Ts =>
      simp only [List.map_cons, List.nodup_cons] at hd
      simp only [List.map_cons, List.zip_cons_cons, List.reverse_cons, List.lookup_append]
      rcases List.mem_cons.1 hp with rfl | hp
      · have hX : (((Xs.map TypeParam.name).zip Ts).reverse).lookup X.name = none := by
          rw [List.lookup_eq_none_iff]
          intro q hq
          have hmem := (List.of_mem_zip (List.mem_reverse.1 hq)).1
          have hne : X.name ≠ q.1 := fun he => hd.1 (he ▸ hmem)
          simpa using hne
        simp [hX]
      · simp [ih hd.2 hp]

theorem exists_arg (hd : (Xs.map TypeParam.name).Nodup) (h : instantiate Xs Ts = .ok σ)
    {P : TypeParam} (hP : P ∈ Xs) : (σ.var P.name, P) ∈ Ts.zip Xs := by
  obtain ⟨i, hi, rfl⟩ := List.mem_iff_getElem.1 hP
  have hT : i < Ts.length := (instantiate_eq_ok_iff.1 h).1 ▸ hi
  rw [var_of_mem_zip hd h (getElem_mem_zip hi hT)]
  exact getElem_mem_zip hT hi

theorem map_var_of_instantiate (hd : (Xs.map TypeParam.name).Nodup)
    (h : instantiate Xs Ts = .ok σ) : (Xs.map fun X => σ.var X.name) = Ts := by
  have hl := (instantiate_eq_ok_iff.1 h).1
  refine List.ext_getElem (by simpa using hl) fun i hi hj => ?_
  have hX : i < Xs.length := by simpa using hi
  simpa using var_of_mem_zip hd h (getElem_mem_zip hX hj)

end Instantiate

end Subst

end Featherweight

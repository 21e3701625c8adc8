import Featherweight.Proofs.Overriding
import Featherweight.Proofs.Parameters

/-!
# Type soundness

Evaluating a term that has a type gives a value that fits the type, unless a cast is
refused. Bodies are checked with their type variables open and run with these replaced,
so the statement is about a term under a substitution that closes its type variables
and an environment whose values fit the closed types. The proof follows the fuel; a
call moves to the body of the method that the receiver's own class has, and its type
refines the one that the checker saw.
-/

namespace Featherweight

namespace Attempt

variable {α β : Type} {x : Attempt EvalFault α} {f : α → Attempt EvalFault β} {p : α → Prop}
  {q : β → Prop}

/-- Any result is a value in `p` or a refused cast. -/
def Safe (x : Attempt EvalFault α) (p : α → Prop) : Prop :=
  ∀ r, x.run = some r → (∃ v N, r = .error (.badCast v N)) ∨ ∃ a, r = .ok a ∧ p a

theorem Safe.noResult : Safe (noResult : Attempt EvalFault α) p :=
  nofun

theorem Safe.lift_ok {y : Except EvalFault α} {a : α} (hy : y = .ok a) (ha : p a) :
    Safe (liftM y : Attempt EvalFault α) p := by
  subst hy
  intro r hr
  cases hr
  exact .inr ⟨a, rfl, ha⟩

theorem Safe.pure {a : α} (ha : p a) : Safe (pure a : Attempt EvalFault α) p :=
  .lift_ok rfl ha

theorem Safe.lift_badCast {y : Except EvalFault α} {v : Value} {N : ClassTy}
    (hy : y = .error (.badCast v N)) : Safe (liftM y : Attempt EvalFault α) p := by
  subst hy
  intro r hr
  cases hr
  exact .inl ⟨v, N, rfl⟩

theorem Safe.bind (hx : Safe x p) (hf : ∀ a, p a → Safe (f a) q) : Safe (x >>= f) q := by
  intro r hr
  rw [ExceptT.run_bind] at hr
  obtain ⟨s, hs, hr⟩ := Option.bind_eq_some_iff.1 hr
  rcases hx s hs with ⟨v, N, rfl⟩ | ⟨a, rfl, ha⟩
  · cases hr
    exact .inl ⟨v, N, rfl⟩
  · exact hf a ha r hr

theorem Safe.mono {p' : α → Prop} (hx : Safe x p) (h : ∀ a, p a → p' a) : Safe x p' := by
  intro r hr
  rcases hx r hr with hbad | ⟨a, ha, hp⟩
  · exact .inl hbad
  · exact .inr ⟨a, ha, h a hp⟩

theorem Safe.mapM {g : β → Attempt EvalFault α} {γ : Type} {P : α → γ → Prop} {bs : List β}
    {cs : List γ} (hlen : bs.length = cs.length)
    (h : ∀ q ∈ bs.zip cs, Safe (g q.1) (P · q.2)) :
    Safe (bs.mapM g) fun as => as.length = cs.length ∧ ∀ q ∈ as.zip cs, P q.1 q.2 := by
  induction bs generalizing cs with
  | nil =>
    cases cs with
    | nil => exact .pure ⟨rfl, by simp⟩
    | cons c cs => simp at hlen
  | cons b bs ih =>
    cases cs with
    | nil => simp at hlen
    | cons c cs =>
      rw [List.zip_cons_cons, List.forall_mem_cons] at h
      rw [List.mapM_cons]
      refine h.1.bind fun a ha => (ih (Nat.succ.inj hlen) h.2).bind fun as has => .pure ?_
      refine ⟨by simp [has.1], ?_⟩
      rw [List.zip_cons_cons, List.forall_mem_cons]
      exact ⟨ha, has.2⟩

end Attempt

namespace ClassTable

variable {t : ClassTable} {Δ : TypeEnv} {σ κ α : Subst} {M N : ClassTy} {a : Ancestor}
  {d : MethodDecl} {m X : String} {S T : Ty} {Vs : List Ty}

/-- The substitution puts closed types within the bounds in for the variables of `Δ`, and
nothing in for others. -/
structure Closes (t : ClassTable) (Δ : TypeEnv) (σ : Subst) : Prop where
  bounds : t.RespectsBounds Δ .empty σ
  wellFormed : ∀ X N, Δ.bound? X = some N → t.WellFormed .empty (σ.var X)
  other : ∀ X, Δ.bound? X = none → σ.var X = .var X

theorem Closes.empty (t : ClassTable) : t.Closes .empty .empty where
  bounds := nofun
  wellFormed := nofun
  other _ _ := rfl

theorem Closes.mem_vars (h : t.Closes Δ σ) (hX : X ∈ (σ.ty T).vars) : X ∈ T.vars := by
  obtain ⟨Y, hY, hXY⟩ := Subst.mem_vars_ty.1 hX
  cases hΔ : Δ.bound? Y with
  | some N => simp [(h.wellFormed Y N hΔ).vars_eq_nil] at hXY
  | none =>
    rw [h.other Y hΔ] at hXY
    cases List.mem_singleton.1 hXY
    exact hY

theorem Closes.methodType_comm (h : t.Closes Δ σ) (hv : t.Valid) (hs : t.Scoped)
    (hap : t.Apart m N) (hf : t.Finds m N a d) (hd : d.HeadWellFormed t a.decl)
    (hκ : Subst.instantiate d.typeParams Vs = .ok κ) :
    (κ.through σ).methodType ((a.through σ).subst.methodType d.type) =
      σ.methodType (κ.methodType (a.subst.methodType d.type)) := by
  have hmem {Y : String} : Y ∈ κ.names ↔ Y ∈ d.typeParams.map TypeParam.name :=
    Subst.mem_names_of_instantiate hκ
  have hfree : ∀ X ∈ a.subst.names, ∀ Y ∈ (a.subst.var X).vars, Y ∉ κ.names :=
    fun X hX Y hY hYκ => hap.not_mem hv hs hf hX hY (hmem.1 hYκ)
  have key : ∀ S : Ty, t.WellFormed (d.env a.decl) S →
      (κ.through σ).ty ((a.through σ).subst.ty S) = σ.ty (κ.ty (a.subst.ty S)) := by
    intro S hS
    refine (Subst.ty_instantiate_comm ?_ ?_ ?_).symm
    · exact fun X hX => (MethodDecl.mem_typeParams_of_wellFormed hS hX).imp hf.mem_names.2 hmem.2
    · exact fun X _ hX => hfree X hX
    · exact fun X _ hX Y hY => hfree X hX Y (h.mem_vars hY)
  simp only [Subst.methodType, MethodDecl.type, List.map_map, MethodType.mk.injEq]
  refine ⟨List.map_congr_left fun P hP => ?_, List.map_congr_left fun p hp => ?_, ?_⟩
  · have hbound := key _ (hd.bounds P hP)
    simp only [← Subst.toTy_classTy, ClassTy.toTy_inj] at hbound
    simp [Subst.typeParam, hbound]
  · exact key _ (hd.params p hp)
  · exact key _ hd.returnType

section Body

variable (hv : t.Valid) (hh : t.HeadsWellFormed) (hM : t.WellFormed .empty M.toTy)
  (ha : t.instantiate M = .ok a) (hα : Subst.instantiate d.typeParams Vs = .ok α)
include hv hM ha hα

theorem Valid.closes_of_method (hh : t.HeadsWellFormed) (hd : d ∈ a.decl.methods)
    (hsep : a.decl.DistinctScopes) (hw : ∀ V ∈ Vs, t.WellFormed .empty V)
    (hb : ∀ p ∈ Vs.zip d.typeParams, t.Subtype .empty p.1 (α.ty (a.subst.ty p.2.bound.toTy))) :
    t.Closes (d.env a.decl) (a.subst.andThen α) where
  bounds := hv.respects_of_method hM ha hd hα hsep (fun X _ => hM.not_mem_vars X) hh hb
  wellFormed := hv.wellFormed_of_method hM ha hd hα hsep (fun X _ => hM.not_mem_vars X) hw
  other X hX := by
    have hXd : X ∉ d.typeParams.map TypeParam.name := by
      intro hmem
      obtain ⟨P, -, -, hP⟩ := TypeEnv.bound?_add_of_mem (Δ := a.decl.env) hmem
      cases hX.symm.trans hP
    have hXa : X ∉ a.decl.typeParams.map TypeParam.name := by
      intro hmem
      obtain ⟨P, -, -, hP⟩ := TypeEnv.bound?_add_of_mem (Δ := .empty) hmem
      rw [MethodDecl.env, TypeEnv.bound?_add_of_not_mem hXd] at hX
      cases hX.symm.trans hP
    rw [Subst.var_andThen, Subst.var_of_not_mem (mt (names_of_instantiate ha).1 hXa)]
    exact Subst.var_of_not_mem (mt (Subst.mem_names_of_instantiate hα).1 hXd)

omit hα in
theorem Valid.ty_thisType (α : Subst) :
    (a.subst.andThen α).ty a.decl.thisType.toTy = M.toTy := by
  rw [Subst.ty_andThen, ← Subst.toTy_classTy, hv.classTy_thisType ha]
  exact Subst.ty_eq_self (by simp [hM.vars_eq_nil])

end Body

end ClassTable

open Typing

theorem MethodDecl.frame_fits {t : ClassTable} {c : ClassDecl} {d : MethodDecl} {σ : Subst}
    {args : List Value} {v : Value} (hagree : d.ParamsAgree) (hthis : "this" ∉ d.paramNames)
    (hlen : args.length = d.params.length)
    (hargs : ∀ q ∈ args.zip d.params, q.1.Fits t (σ.ty q.2.ty))
    (hv : v.Fits t (σ.ty c.thisType.toTy)) {x : String} {T : Ty}
    (hx : (methodVars c d).lookup x = some T) :
    ∃ w, (d.frame args v).lookup x = some w ∧ w.Fits t (σ.ty T) := by
  by_cases hxt : x = "this"
  · subst hxt
    cases (lookup_methodVars_this c d).symm.trans hx
    exact ⟨v, lookup_frame_this hthis, hv⟩
  · have hmem : x ∈ d.paramNames := by
      rw [lookup_methodVars hxt, Option.map_eq_some_iff] at hx
      obtain ⟨b, hb, -⟩ := hx
      have hname : b.name = x := by simpa using List.find?_some hb
      exact hname ▸ List.mem_map_of_mem (List.mem_reverse.1 (List.mem_of_find?_eq_some hb))
    obtain ⟨i, b, w, hty, hb, hw, hlook⟩ := hagree.resolves (c := c) (v := v) hlen hmem hxt
    cases hty.symm.trans hx
    obtain ⟨hid, rfl⟩ := List.getElem?_eq_some_iff.1 hb
    obtain ⟨hia, rfl⟩ := List.getElem?_eq_some_iff.1 hw
    exact ⟨_, hlook, hargs _ (getElem_mem_zip hia hid)⟩

namespace ClassTable

variable {t : ClassTable} {Δ : TypeEnv} {Γ : VarEnv} {σ κ : Subst} {N : ClassTy} {m : String}
  {Vs : List Ty} {U : MethodType} {v : Value} {args : List Value}

/-- What soundness asks of the classes of a program. -/
structure Disciplined (t : ClassTable) : Prop where
  valid : t.Valid
  wellTyped : t.WellTyped
  scopes : ∀ c ∈ t.classes, c.DistinctScopes
  params : ∀ c ∈ t.classes, ∀ d ∈ c.methods, d.ParamsAgree
  this : ∀ c ∈ t.classes, ∀ d ∈ c.methods, "this" ∉ d.paramNames
  apart : ∀ c ∈ t.classes, ∀ d ∈ c.methods, ∀ q ∈ d.lookups t c, t.Apart q.1 q.2

theorem Disciplined.exists_finds (ht : t.Disciplined) (hσ : t.Closes Δ σ)
    (hcall : Callable t Δ N m Vs U κ) (hap : t.Apart m N) (hfit : v.Fits t (σ.ty N.toTy)) :
    ∃ a d α, t.Finds m v.cls a d ∧ Subst.instantiate d.typeParams (Vs.map σ.ty) = .ok α ∧
      (∀ p ∈ (Vs.map σ.ty).zip (α.methodType (a.subst.methodType d.type)).bounds,
        t.Subtype .empty p.1 p.2.toTy) ∧
      t.Narrows .empty (α.methodType (a.subst.methodType d.type))
        (σ.methodType (κ.methodType U)) := by
  have hv := ht.valid
  have hh := ht.wellTyped.heads
  obtain ⟨a₀, d₀, hf₀, rfl⟩ := hv.methodType?_eq_some_iff.1 hcall.found
  have hκ := hcall.subst
  rw [Subst.instantiate_methodType] at hκ
  have hd₀ := ((ht.wellTyped _ hf₀.decl_mem).methods d₀ hf₀.mem).head
  have hclosed := hσ.methodType_comm hv hh.scoped hap hf₀ hd₀ hκ
  have hbelow : t.Below v.cls (σ.classTy N) := hv.below_of_subtype hfit.subtype
  have hfound := hv.methodType?_eq_some_iff.2 ⟨_, d₀, hf₀.classTy (σ := σ) hh.scoped, rfl⟩
  -- The class of the value may override what the checker found, and then refines it.
  obtain ⟨new, hnew, href⟩ := hv.refines_of_below ht.wellTyped ht.scopes
    (fun c hc d hd => ht.apart c hc d hd _ List.mem_cons_self) hfit.typed.wellFormed hbelow hfound
  obtain ⟨a, d, hf, rfl⟩ := hv.methodType?_eq_some_iff.1 hnew
  have hlenV : (Vs.map σ.ty).length =
      ((a₀.through σ).subst.methodType d₀.type).typeParams.length := by
    simpa [Subst.methodType, MethodDecl.type] using (Subst.instantiate_eq_ok_iff.1 hκ).1.symm
  obtain ⟨new', old', hnew', hold', hb, hp, hr⟩ := href.instances _ hlenV
  obtain ⟨α, hα, rfl⟩ := MethodType.instantiate_eq_ok_iff.1 hnew'
  obtain ⟨β, hβ, rfl⟩ := MethodType.instantiate_eq_ok_iff.1 hold'
  rw [Subst.instantiate_methodType] at hα hβ
  cases hβ.symm.trans (Subst.instantiate_map_ok hκ)
  rw [hclosed] at hb hp hr
  -- The type arguments stay within the bounds when both are closed.
  have hbounds : ∀ p ∈ (Vs.map σ.ty).zip
      (σ.methodType (κ.methodType (a₀.subst.methodType d₀.type))).bounds,
      t.Subtype .empty p.1 p.2.toTy := by
    refine Subst.forall_zip_bounds_twice.2 fun q hq => ?_
    rw [List.zip_map_left] at hq
    obtain ⟨p, hp, rfl⟩ := List.mem_map.1 hq
    exact hv.subtype_subst hh.scoped hσ.bounds (hcall.bounds p hp)
  exact ⟨a, d, α, hf, hα, hb ▸ hbounds, hb, hp, hr hbounds⟩

/-- A call that the checker allowed runs a body whose variables, closed, all have fitting
values and whose declared result fits the type of the call. -/
theorem Disciplined.invoke (ht : t.Disciplined) (hσ : t.Closes Δ σ)
    (hcall : Callable t Δ N m Vs U κ) (hap : t.Apart m N) (hfit : v.Fits t (σ.ty N.toTy))
    (hlen : args.length = U.paramTypes.length)
    (hargs : ∀ q ∈ args.zip (U.paramTypes.map κ.ty), q.1.Fits t (σ.ty q.2)) :
    ∃ c ∈ t.classes, ∃ d ∈ c.methods, ∃ τ, t.Closes (d.env c) τ ∧
      v.invoke t m (Vs.map σ.ty) args = .ok (d.frame args v, τ.term d.body) ∧
      (∀ x T, (methodVars c d).lookup x = some T →
        ∃ w, (d.frame args v).lookup x = some w ∧ w.Fits t (τ.ty T)) ∧
      t.Subtype .empty (τ.ty d.returnType) (σ.ty (κ.ty U.returnType)) := by
  have hv := ht.valid
  have hh := ht.wellTyped.heads
  obtain ⟨a, d, α, hf, hα, hb, hn⟩ := ht.exists_finds hσ hcall hap hfit
  obtain ⟨M, hvM, hMa⟩ := hf.exists_instantiate
  have hM := hv.wellFormed_of_below hh hvM hfit.typed.wellFormed
  have hw : ∀ V ∈ Vs.map σ.ty, t.WellFormed .empty V := by
    rw [List.forall_mem_map]
    exact fun V hV => hv.wellFormed_subst hh.scoped hσ.bounds hσ.wellFormed (hcall.wellFormed V hV)
  have hparams : d.params.map (fun b => (a.subst.andThen α).ty b.ty) =
      (U.paramTypes.map κ.ty).map σ.ty := by
    simpa [Subst.methodType, MethodDecl.type, Subst.ty_andThen, Function.comp_def]
      using hn.paramTypes
  have hlend : args.length = d.params.length := by
    have hl := congrArg List.length hparams
    simp only [List.length_map] at hl
    exact hlen.trans hl.symm
  refine ⟨a.decl, hf.decl_mem, d, hf.mem, a.subst.andThen α, hv.closes_of_method hM hMa hα hh hf.mem
    (ht.scopes _ hf.decl_mem) hw (Subst.forall_zip_bounds_twice.1 hb), ?_, ?_, ?_⟩
  · rw [Subst.term_andThen]
    exact (Value.invoke_eq_ok_iff hv).2 ⟨a, d, α, hf, hα, hlend, rfl, rfl⟩
  · intro x T hx
    refine MethodDecl.frame_fits (ht.params _ hf.decl_mem d hf.mem)
      (ht.this _ hf.decl_mem d hf.mem) hlend ?_ ?_ hx
    · have hfits := (forall_mem_zip_map_right (p := Value.Fits t)).2 hargs
      rw [← hparams] at hfits
      exact forall_mem_zip_map_right.1 hfits
    · rw [hv.ty_thisType hM hMa]
      exact ⟨hfit.typed, hv.subtype_of_below hvM⟩
  · rw [Subst.ty_andThen]
    exact hn.returnType

def Fills (t : ClassTable) (σ : Subst) (Γ : VarEnv) (ρ : Env) : Prop :=
  ∀ x T, Γ.lookup x = some T → ∃ v, ρ.get? x = some v ∧ v.Fits t (σ.ty T)

def SafeWith (t : ClassTable) (n : Nat) : Prop :=
  ∀ {Δ : TypeEnv} {Γ : VarEnv} {σ : Subst} {ρ : Env} {e : Term} {T : Ty}, t.Closes Δ σ →
    HasType t Δ Γ e T → t.Fills σ Γ ρ → (∀ q ∈ lookups t Δ Γ e, t.Apart q.1 q.2) →
      (eval t n ρ (σ.term e)).Safe fun v => v.Fits t (σ.ty T)

section Step

variable {n : Nat} {ρ : Env} {e : Term} {es : List Term} {S T : Ty} {Ps : List Ty} {f : String}
  (ht : t.Disciplined) (ih : t.SafeWith n) (hσ : t.Closes Δ σ) (hρ : t.Fills σ Γ ρ)
include ht ih hσ hρ

theorem SafeWith.arguments (hfit : ArgsFit t Δ Γ es Ps)
    (hap : ∀ q ∈ lookupsAll t Δ Γ es, t.Apart q.1 q.2) :
    ((es.map σ.term).mapM (eval t n ρ)).Safe fun vs =>
      vs.length = es.length ∧ ∀ q ∈ vs.zip Ps, q.1.Fits t (σ.ty q.2) := by
  have hv := ht.valid
  obtain ⟨Ss, hlen, hes, hsub⟩ := hfit
  have hsafe : ∀ q ∈ (es.map σ.term).zip Ss,
      (eval t n ρ q.1).Safe fun v => v.Fits t (σ.ty q.2) := by
    intro q hq
    rw [List.zip_map_left] at hq
    obtain ⟨p, hp, rfl⟩ := List.mem_map.1 hq
    exact ih hσ (hes p hp) hρ fun k hk =>
      hap k (mem_lookupsAll.2 ⟨p.1, (List.of_mem_zip hp).1, hk⟩)
  have hlenσ : (es.map σ.term).length = Ss.length := by simpa using hlen
  refine (Attempt.Safe.mapM (P := fun v S => v.Fits t (σ.ty S)) hlenσ hsafe).mono ?_
  rintro vs ⟨hvs, hfits⟩
  have hstep (v : Value) (S P : Ty) (hS : v.Fits t (σ.ty S)) (hP : t.Subtype Δ S P) :
      v.Fits t (σ.ty P) :=
    hS.mono hv (hv.subtype_subst ht.wellTyped.heads.scoped hσ.bounds hP)
  exact ⟨hvs.trans hlen.symm, forall_mem_zip_trans hvs hfits hsub hstep⟩

theorem SafeWith.receiver (he : HasType t Δ Γ e S) (hN : Δ.bound S = .ok N)
    (hap : ∀ q ∈ lookups t Δ Γ e, t.Apart q.1 q.2) :
    (eval t n ρ (σ.term e)).Safe fun v => v.Fits t (σ.ty N.toTy) := by
  have hv := ht.valid
  exact (ih hσ he hρ hap).mono fun v hfit => hfit.mono hv
    (hv.subtype_subst ht.wellTyped.heads.scoped hσ.bounds (hv.subtype_bound hN))

theorem SafeWith.field (he : HasType t Δ Γ e S) (hN : Δ.bound S = .ok N)
    (hf : fieldType t N f = .ok T) (hap : ∀ q ∈ lookups t Δ Γ e, t.Apart q.1 q.2) :
    (eval t (n + 1) ρ (σ.term (.field e f))).Safe fun v => v.Fits t (σ.ty T) := by
  obtain ⟨fs, b, hfs, hb, rfl⟩ := fieldType_eq_ok_iff.1 hf
  refine (ih.receiver ht hσ hρ he hN hap).bind fun v hfit => ?_
  have hfsσ : t.fields (σ.classTy N) = .ok (fs.map σ.binding) := by
    rw [ht.wellTyped.heads.scoped.fields_classTy, hfs]
    rfl
  have hbσ : (fs.map σ.binding).find? (·.name = f) = some (σ.binding b) := by
    rw [List.find?_map]
    exact congrArg (Option.map σ.binding) hb
  obtain ⟨w, hw, hfitw⟩ := Value.Fits.get (N := σ.classTy N) ht.valid hfit hfsσ hbσ
  exact .lift_ok hw hfitw

theorem SafeWith.call (he : HasType t Δ Γ e S) (hN : Δ.bound S = .ok N)
    (hm : callType t Δ N m Vs es.length = .ok (Ps, T)) (hfit : ArgsFit t Δ Γ es Ps)
    (hap : ∀ q ∈ lookups t Δ Γ (.call e m Vs es), t.Apart q.1 q.2) :
    (eval t (n + 1) ρ (σ.term (.call e m Vs es))).Safe fun v => v.Fits t (σ.ty T) := by
  have hv := ht.valid
  obtain ⟨U, κ, hcall, hk, rfl, rfl⟩ := callType_eq_ok_iff.1 hm
  rw [lookups, List.forall_mem_append, List.forall_mem_append] at hap
  have hapN : t.Apart m N := hap.1.1 (m, N) (by simp [receiver?_eq_some he hN])
  rw [Subst.term_call]
  refine (ih.receiver ht hσ hρ he hN hap.1.2).bind fun v hfitN => ?_
  refine (ih.arguments ht hσ hρ hfit hap.2).bind fun vs hvs => ?_
  obtain ⟨c, hc, d, hd, τ, hτ, hinvoke, hframe, hret⟩ :=
    ht.invoke hσ hcall hapN hfitN (hvs.1.trans hk) hvs.2
  refine (Attempt.Safe.lift_ok (p := (· = (d.frame vs v, τ.term d.body))) hinvoke rfl).bind ?_
  rintro _ rfl
  obtain ⟨R, hR, hRsub⟩ := ((ht.wellTyped c hc).methods d hd).body
  have hρ' : t.Fills τ (methodVars c d) (ρ.push (d.frame vs v)) := by
    intro x T hx
    obtain ⟨w, hw, hfitw⟩ := hframe x T hx
    exact ⟨w, by simp [Env.push, Env.get?, hw], hfitw⟩
  have hbody := ih hτ hR hρ' fun q hq => ht.apart c hc d hd q (List.mem_cons_of_mem _ hq)
  refine hbody.mono fun w hw => ?_
  exact (hw.mono hv (hv.subtype_subst ht.wellTyped.heads.scoped hτ.bounds hRsub)).mono hv hret

theorem SafeWith.new (hN : newTypes t Δ N es.length = .ok Ps) (hfit : ArgsFit t Δ Γ es Ps)
    (hap : ∀ q ∈ lookupsAll t Δ Γ es, t.Apart q.1 q.2) :
    (eval t (n + 1) ρ (σ.term (.new N es))).Safe fun v => v.Fits t (σ.ty N.toTy) := by
  have hs := ht.wellTyped.heads.scoped
  obtain ⟨hwf, fs, hfs, hk, rfl⟩ := newTypes_eq_ok_iff.1 hN
  have hfsσ : t.fields (σ.classTy N) = .ok (fs.map σ.binding) := by
    rw [hs.fields_classTy, hfs]
    rfl
  rw [Subst.term_new]
  refine (ih.arguments ht hσ hρ hfit hap).bind fun vs hvs => .pure ?_
  have hlenfs : vs.length = (fs.map σ.binding).length := by simpa [hvs.1] using hk
  have hfits : ∀ q ∈ vs.zip (fs.map σ.binding), q.1.Fits t q.2.ty :=
    (forall_mem_zip_map_right (p := fun (v : Value) (b : Binding) => v.Fits t b.ty)).2
      ((forall_mem_zip_map_right (p := fun (v : Value) T => v.Fits t (σ.ty T))).1 hvs.2)
  have hwfσ := ht.valid.wellFormed_subst hs hσ.bounds hσ.wellFormed hwf
  refine ⟨.mk hwfσ hfsσ hlenfs (fun v hmem => ?_) fun q hq => (hfits q hq).subtype, .refl t _ _⟩
  obtain ⟨i, hi, rfl⟩ := List.mem_iff_getElem.1 hmem
  exact (hfits _ (getElem_mem_zip hi (hlenfs ▸ hi))).typed

theorem SafeWith.cast (he : HasType t Δ Γ e S)
    (hap : ∀ q ∈ lookups t Δ Γ e, t.Apart q.1 q.2) :
    (eval t (n + 1) ρ (σ.term (.cast N e))).Safe fun v => v.Fits t (σ.ty N.toTy) := by
  rw [Subst.term_cast]
  refine (ih hσ he hρ hap).bind fun v hfit => ?_
  rcases hfit.typed.castTo ht.valid (σ.classTy N) with hbad | ⟨hok, hfitN⟩
  · exact .lift_badCast hbad
  · exact .lift_ok hok hfitN

end Step

theorem Disciplined.safeWith (ht : t.Disciplined) (n : Nat) : t.SafeWith n := by
  induction n with
  | zero => exact fun _ _ _ _ => .noResult
  | succ n ih =>
    intro Δ Γ σ ρ e T hσ hT hρ hap
    cases hT with
    | var hx =>
      obtain ⟨v, hv, hfit⟩ := hρ _ _ hx
      simp only [Subst.term_var, eval, hv]
      exact .pure hfit
    | field he hN hf => exact ih.field ht hσ hρ he hN hf hap
    | call he hN hm hlen hes hsub => exact ih.call ht hσ hρ he hN hm ⟨_, hlen, hes, hsub⟩ hap
    | new hN hlen hes hsub => exact ih.new ht hσ hρ hN ⟨_, hlen, hes, hsub⟩ hap
    | cast hN he hM hb => exact ih.cast ht hσ hρ he hap

end ClassTable

theorem Accepted.disciplined {source : String} {c : Accepted}
    (hc : (Accepted.ofSource source).Gives c)
    (hparams : ∀ k ∈ c.program.classes, ∀ d ∈ k.methods, d.paramNames.Nodup)
    (hscopes : ∀ k ∈ c.program.classes, k.DistinctScopes)
    (hap : ∀ q ∈ c.program.lookups c.table, c.table.Apart q.1 q.2) : c.table.Disciplined := by
  obtain ⟨hparsed, hs⟩ := gives_ofSource hc
  have hclasses : c.table.classes = c.program.classes := by rw [hs.table]
  refine ⟨hs.valid, hs.wellTyped, ?_, ?_, ?_, ?_⟩ <;> rw [hclasses]
  · exact hscopes
  · exact fun k hk d hd => MethodDecl.paramsAgree_of_nodup (hparams k hk d hd)
  · exact fun k hk d hd => Program.this_not_mem_paramNames hparsed hk hd
  · intro k hk d hd q hq
    refine hap q (List.mem_append_left _ ?_)
    exact List.mem_flatMap.2 ⟨k, hk, List.mem_flatMap.2 ⟨d, hd, hq⟩⟩

/-- If the main term of an accepted program has a result, then this is a refused cast or a
typed value of a subtype of the term's type. The parameters of each method have distinct
names, no method's type parameter repeats one of its class, and no look-up of the checker
captures a type variable. -/
theorem Accepted.eval_sound {source : String} {c : Accepted}
    (hc : (Accepted.ofSource source).Gives c)
    (hparams : ∀ k ∈ c.program.classes, ∀ d ∈ k.methods, d.paramNames.Nodup)
    (hscopes : ∀ k ∈ c.program.classes, k.DistinctScopes)
    (hap : ∀ q ∈ c.program.lookups c.table, c.table.Apart q.1 q.2) {fuel : Nat}
    {r : Except EvalFault Value} (hr : (eval c.table fuel .empty c.program.term).run = some r) :
    (∃ v N, r = .error (.badCast v N)) ∨
      ∃ v, r = .ok v ∧ c.table.Subtype .empty v.cls.toTy c.ty ∧ v.Typed c.table := by
  have ht := disciplined hc hparams hscopes hap
  have hsafe := ht.safeWith fuel (ρ := .empty) (.empty c.table) (gives_ofSource hc).2.term
    nofun fun q hq => hap q (List.mem_append_right _ hq)
  rw [Subst.term_empty] at hsafe
  rcases hsafe r hr with hbad | ⟨v, hr, hfits⟩
  · exact .inl hbad
  · exact .inr ⟨v, hr, by simpa using hfits.subtype, hfits.typed⟩

def boxInBox : String :=
  "class B<X extends Object> extends Object \x7b X f; B(X f) \x7b super(); this.f = f; \x7d " ++
    "<Y extends Object> B<Y> put(Y y) \x7b return new B<Y>(y); \x7d \x7d " ++
  "new B<Object>(new Object()).put<B<Object>>(new B<Object>(new Object())).f"

theorem Accepted.eval_sound_boxInBox :
    (Accepted.ofSource boxInBox).Yields fun c =>
      (∀ k ∈ c.program.classes, ∀ d ∈ k.methods, d.paramNames.Nodup) ∧
      (∀ k ∈ c.program.classes, k.DistinctScopes) ∧
      (∀ q ∈ c.program.lookups c.table, c.table.Apart q.1 q.2) ∧
      c.program.lookups c.table =
        [("put", .object), ("put", ⟨"B", [.inst "Object" []]⟩)] ∧
      ∃ v, (eval c.table 5 .empty c.program.term).Gives v ∧
        c.table.Subtype .empty v.cls.toTy c.ty ∧ v.Typed c.table := by
  have hyps : (Accepted.ofSource boxInBox).Yields fun c =>
      (∀ k ∈ c.program.classes, ∀ d ∈ k.methods, d.paramNames.Nodup) ∧
      (∀ k ∈ c.program.classes, k.DistinctScopes) ∧
      (∀ q ∈ c.program.lookups c.table, c.table.Apart q.1 q.2) ∧
      c.program.lookups c.table =
        [("put", .object), ("put", ⟨"B", [.inst "Object" []]⟩)] ∧
      (eval c.table 5 .empty c.program.term).Yields fun _ => True := by
    decide +kernel
  obtain ⟨c, hc, hparams, hscopes, hap, hlookups, v, hv, -⟩ := hyps
  refine ⟨c, hc, hparams, hscopes, hap, hlookups, v, hv, ?_⟩
  rcases eval_sound hc hparams hscopes hap hv with ⟨w, N, hbad⟩ | ⟨w, hw, h⟩
  · cases hbad
  · cases hw
    exact h

end Featherweight

import Featherweight.Proofs.Fuel
import Featherweight.Proofs.Parameters

/-!
# Closing terms over environments

A call runs its body in a frame on top of the caller's environment. The caller's
variables stay visible there, but a body that mentions only its own parameters and
`this` never looks further than its frame. So evaluation in an environment, of any
depth, is evaluation of the closed term: each variable replaced by the term that
creates its value.

An evaluation that ends in the environment ends on the closed term too, with more
fuel: a variable takes one step, the term that creates its value as many as the
value is deep. The other direction needs no more fuel than it has.
-/

namespace Featherweight

namespace Term

mutual

def vars : Term → List String
  | .var x => [x]
  | .field e _ => e.vars
  | .call e _ _ es => e.vars ++ varsAll es
  | .new _ es => varsAll es
  | .cast _ e => e.vars

def varsAll : List Term → List String
  | [] => []
  | e :: es => e.vars ++ varsAll es

end

mutual

/-- The term with the values of the environment written in. -/
def close (ρ : Env) : Term → Term
  | .var x =>
    match ρ.get? x with
    | some v => v.toTerm
    | none => .var x
  | .field e f => .field (e.close ρ) f
  | .call e m Vs es => .call (e.close ρ) m Vs (closeAll ρ es)
  | .new N es => .new N (closeAll ρ es)
  | .cast N e => .cast N (e.close ρ)

def closeAll (ρ : Env) : List Term → List Term
  | [] => []
  | e :: es => e.close ρ :: closeAll ρ es

end

theorem mem_varsAll {x : String} {es : List Term} : x ∈ varsAll es ↔ ∃ e ∈ es, x ∈ e.vars := by
  induction es with
  | nil => simp [varsAll]
  | cons e es ih => simp [varsAll, ih]

theorem closeAll_eq_map (ρ : Env) (es : List Term) : closeAll ρ es = es.map (close ρ) := by
  induction es with
  | nil => rfl
  | cons e es ih => simp [closeAll, ih]

theorem vars_subst (σ : Subst) (e : Term) : (σ.term e).vars = e.vars := by
  have hall {es : List Term} (ih : ∀ e ∈ es, (σ.term e).vars = e.vars) :
      varsAll (es.map σ.term) = varsAll es := by
    induction es with
    | nil => rfl
    | cons e es ihs =>
      rw [List.forall_mem_cons] at ih
      simp [varsAll, ih.1, ihs ih.2]
  induction e using Term.induction with
  | var x => rfl
  | field e f ih => exact ih
  | call e m Vs es ih ihs => rw [Subst.term_call, vars, vars, ih, hall ihs]
  | new N es ihs => rw [Subst.term_new, vars, vars, hall ihs]
  | cast N e ih => exact ih

end Term

theorem Value.toTerms_eq_map (vs : List Value) : Value.toTerms vs = vs.map Value.toTerm := by
  induction vs with
  | nil => rfl
  | cons v vs ih => simp [Value.toTerms, ih]

namespace Env

def Binds (ρ : Env) (xs : List String) : Prop := ∀ x ∈ xs, ∃ v, ρ.get? x = some v

theorem get?_push_of_lookup {ρ : Env} {frame : Frame} {x : String} {v : Value}
    (h : frame.lookup x = some v) : (ρ.push frame).get? x = some v := by
  simp [push, get?, h]

end Env

/-- The method's body mentions no variable but its parameters and `this`. -/
def MethodDecl.BodyScoped (d : MethodDecl) : Prop :=
  ∀ x ∈ d.body.vars, x ∈ d.paramNames ∨ x = "this"

def ClassTable.BodiesScoped (t : ClassTable) : Prop :=
  ∀ c ∈ t.classes, ∀ d ∈ c.methods, d.BodyScoped

section Checked

open Typing

variable {t : ClassTable} {Δ : TypeEnv} {Γ : VarEnv} {e : Term} {T : Ty} {x : String}
  {c : ClassDecl} {d : MethodDecl}

theorem Typing.HasType.exists_lookup (h : HasType t Δ Γ e T) (hx : x ∈ e.vars) :
    ∃ S, Γ.lookup x = some S := by
  have hargs {es : List Term} {Ss : List Ty} (hlen : es.length = Ss.length)
      (ih : ∀ q ∈ es.zip Ss, x ∈ q.1.vars → ∃ S, Γ.lookup x = some S)
      (hx : x ∈ Term.varsAll es) : ∃ S, Γ.lookup x = some S := by
    obtain ⟨e, he, hx⟩ := Term.mem_varsAll.1 hx
    obtain ⟨i, hi, rfl⟩ := List.mem_iff_getElem.1 he
    exact ih _ (getElem_mem_zip hi (hlen ▸ hi)) hx
  induction h with
  | var hy =>
    cases List.mem_singleton.1 hx
    exact ⟨_, hy⟩
  | field _ _ _ ih => exact ih hx
  | call _ _ _ hlen _ _ ih ihs =>
    rw [Term.vars, List.mem_append] at hx
    rcases hx with hx | hx
    · exact ih hx
    · exact hargs hlen ihs hx
  | new _ hlen _ _ ihs => exact hargs hlen ihs hx
  | cast _ _ _ _ ih => exact ih hx

theorem MethodDecl.mem_paramNames_of_lookup (h : (methodVars c d).lookup x = some T)
    (hx : x ≠ "this") : x ∈ d.paramNames := by
  rw [lookup_methodVars hx, Option.map_eq_some_iff] at h
  obtain ⟨b, hb, -⟩ := h
  have hname : b.name = x := by simpa using List.find?_some hb
  exact hname ▸ List.mem_map_of_mem (List.mem_reverse.1 (List.mem_of_find?_eq_some hb))

theorem MethodDecl.WellTyped.bodyScoped (h : d.WellTyped t c) : d.BodyScoped := by
  obtain ⟨T, hT, -⟩ := h.body
  intro x hx
  obtain ⟨S, hS⟩ := hT.exists_lookup hx
  by_cases hthis : x = "this"
  · exact .inr hthis
  · exact .inl (mem_paramNames_of_lookup hS hthis)

end Checked

namespace ClassTable

open Attempt

variable {t : ClassTable} {ρ ρ' : Env} {e : Term} {v : Value} {m : String} {Vs : List Ty}
  {args : List Value} {frame : Frame} {body : Term} {n : Nat}

theorem lookup_frame_of_bodyScoped {d : MethodDecl} (hd : d.BodyScoped)
    (hlen : args.length = d.params.length) {x : String} (hx : x ∈ d.body.vars) :
    ∃ w, (d.frame args v).lookup x = some w := by
  by_cases hp : x ∈ d.paramNames
  · obtain ⟨-, -, w, -, -, -, hw⟩ := MethodDecl.lookup_frame (v := v) hlen hp
    exact ⟨w, hw⟩
  · cases (hd x hx).resolve_left hp
    exact ⟨v, MethodDecl.lookup_frame_this hp⟩

theorem BodiesScoped.lookup_frame (hb : t.BodiesScoped) (hv : t.Valid)
    (h : v.invoke t m Vs args = .ok (frame, body)) {x : String} (hx : x ∈ body.vars) :
    ∃ w, frame.lookup x = some w := by
  obtain ⟨a, d, α, hf, -, hlen, rfl, rfl⟩ := (Value.invoke_eq_ok_iff hv).1 h
  rw [Term.vars_subst, Term.vars_subst] at hx
  exact lookup_frame_of_bodyScoped (hb _ hf.decl_mem d hf.mem) hlen hx

theorem BodiesScoped.eval_congr (hb : t.BodiesScoped) (hv : t.Valid)
    (h : ∀ x ∈ e.vars, ρ.get? x = ρ'.get? x) : eval t n ρ e = eval t n ρ' e := by
  suffices hagree : (eval t n ρ e).Agree (eval t n ρ' e) (fun _ => True) fun _ => True from
    hagree.1
  induction n generalizing ρ ρ' e with
  | zero => exact ⟨rfl, nofun⟩
  | succ n ih =>
    have hargs {es : List Term} (hes : ∀ x ∈ Term.varsAll es, ρ.get? x = ρ'.get? x) :
        (es.mapM (eval t n ρ)).Agree (es.mapM (eval t n ρ')) (fun _ => True) fun _ => True :=
      ⟨(Agree.mapM fun a ha => ih fun x hx => hes x (Term.mem_varsAll.2 ⟨a, ha, hx⟩)).1, .trivial⟩
    cases e with
    | var x =>
      simp only [eval, h x (List.mem_singleton_self x)]
      exact .refl _
    | field e f => exact (ih (e := e) h).bind fun v _ => .refl _
    | call e m Vs es =>
      simp only [Term.vars, List.forall_mem_append] at h
      refine (ih h.1).bind fun v _ => (hargs h.2).bind fun vs _ => ?_
      refine (Agree.lift (p := fun q => ∀ x ∈ q.2.vars, ∃ w, q.1.lookup x = some w) rfl
        (meets_of_ok fun q hq x hx => hb.lookup_frame hv hq hx)).bind fun q hq => ih fun x hx => ?_
      obtain ⟨w, hw⟩ := hq x hx
      rw [Env.get?_push_of_lookup hw, Env.get?_push_of_lookup hw]
    | new N es => exact (hargs h).bind fun vs _ => .refl _
    | cast N e => exact (ih (e := e) h).bind fun v _ => .refl _

theorem BodiesScoped.eval_push (hb : t.BodiesScoped) (hv : t.Valid)
    (h : v.invoke t m Vs args = .ok (frame, body)) (ρ ρ' : Env) (n : Nat) :
    eval t n (ρ.push frame) body = eval t n (ρ'.push frame) body := by
  refine hb.eval_congr hv fun x hx => ?_
  obtain ⟨w, hw⟩ := hb.lookup_frame hv h hx
  rw [Env.get?_push_of_lookup hw, Env.get?_push_of_lookup hw]

theorem exists_bound_of_forall {α : Type} {p : α → Nat → Prop} {as : List α}
    (hmono : ∀ a n k, n ≤ k → p a n → p a k) (h : ∀ a ∈ as, ∃ n, p a n) :
    ∃ n, ∀ a ∈ as, p a n := by
  induction as with
  | nil => exact ⟨0, by simp⟩
  | cons a as ih =>
    rw [List.forall_mem_cons] at h
    obtain ⟨n, hn⟩ := h.1
    obtain ⟨k, hk⟩ := ih h.2
    refine ⟨max n k, List.forall_mem_cons.2 ⟨hmono a n _ (Nat.le_max_left n k) hn, ?_⟩⟩
    exact fun b hb => hmono b k _ (Nat.le_max_right n k) (hk b hb)

theorem exists_gives_toTerm (t : ClassTable) (v : Value) :
    ∃ n, (eval t n .empty v.toTerm).Gives v := by
  induction v using Value.induction with
  | mk N vs ih =>
    obtain ⟨n, hn⟩ := exists_bound_of_forall
      (fun w n k hnk => eval_within hnk t .empty w.toTerm (.ok w)) ih
    refine ⟨n + 1, ?_⟩
    rw [Value.toTerm, Value.toTerms_eq_map]
    exact gives_bind_iff.2 ⟨vs, gives_mapM_map hn, rfl⟩

theorem exists_fuel_toTerm (t : ClassTable) (ρ : Env) (xs : List String) :
    ∃ k, ∀ x ∈ xs, ∀ v, ρ.get? x = some v → (eval t k .empty v.toTerm).Gives v := by
  refine exists_bound_of_forall (fun x n k hnk h v hv => eval_within hnk t _ _ _ (h v hv))
    fun x _ => ?_
  cases hx : ρ.get? x with
  | none => exact ⟨0, nofun⟩
  | some v =>
    obtain ⟨n, hn⟩ := exists_gives_toTerm t v
    refine ⟨n, fun w hw => ?_⟩
    cases hw
    exact hn

theorem eval_close_within (hb : t.BodiesScoped) (hv : t.Valid) (he : ρ.Binds e.vars) :
    (eval t n .empty (e.close ρ)).Within (eval t n ρ e) := by
  induction n generalizing e with
  | zero => exact .noResult
  | succ n ih =>
    have hargs {es : List Term} (hes : ρ.Binds (Term.varsAll es)) :
        ((es.map (Term.close ρ)).mapM (eval t n .empty)).Within (es.mapM (eval t n ρ)) := by
      rw [List.mapM_map]
      exact .mapM fun a ha => ih fun x hx => hes x (Term.mem_varsAll.2 ⟨a, ha, hx⟩)
    cases e with
    | var x =>
      obtain ⟨v, hx⟩ := he x (List.mem_singleton_self x)
      intro r hr
      have hclosed : Term.close ρ (.var x) = v.toTerm := by simp only [Term.close, hx]
      rw [hclosed] at hr
      obtain ⟨k, hk⟩ := exists_gives_toTerm t v
      cases Returns.unique ⟨n + 1, hr⟩ ⟨k, hk⟩
      simp only [eval, hx]
      rfl
    | field e f => exact (ih (e := e) he).bind fun v _ => .refl _
    | call e m Vs es =>
      rw [Env.Binds, Term.vars, List.forall_mem_append] at he
      rw [Term.close, Term.closeAll_eq_map]
      refine (ih he.1).bind fun v _ => (hargs he.2).bind fun vs _ => ?_
      refine (Within.refl _).bind fun (frame, body) hq => ?_
      show (eval t n (Env.empty.push frame) body).Within (eval t n (ρ.push frame) body)
      rw [hb.eval_push hv (gives_lift_iff.1 hq) .empty ρ]
      exact .refl _
    | new N es =>
      rw [Term.close, Term.closeAll_eq_map]
      exact (hargs he).bind fun vs _ => .refl _
    | cast N e => exact (ih (e := e) he).bind fun v _ => .refl _

theorem eval_within_close (hb : t.BodiesScoped) (hv : t.Valid) (he : ρ.Binds e.vars) {k : Nat}
    (hk : ∀ x ∈ e.vars, ∀ v, ρ.get? x = some v → (eval t k .empty v.toTerm).Gives v) :
    (eval t n ρ e).Within (eval t (n + k) .empty (e.close ρ)) := by
  induction n generalizing e with
  | zero => exact .noResult
  | succ n ih =>
    have hargs {es : List Term} (hes : ρ.Binds (Term.varsAll es))
        (hks : ∀ x ∈ Term.varsAll es, ∀ v, ρ.get? x = some v →
          (eval t k .empty v.toTerm).Gives v) :
        (es.mapM (eval t n ρ)).Within
          ((es.map (Term.close ρ)).mapM (eval t (n + k) .empty)) := by
      rw [List.mapM_map]
      refine .mapM fun a ha => ih (fun x hx => ?_) fun x hx => ?_
      · exact hes x (Term.mem_varsAll.2 ⟨a, ha, hx⟩)
      · exact hks x (Term.mem_varsAll.2 ⟨a, ha, hx⟩)
    rw [Nat.succ_add]
    cases e with
    | var x =>
      obtain ⟨v, hx⟩ := he x (List.mem_singleton_self x)
      intro r hr
      have hval : (eval t (n + 1) ρ (.var x)).Gives v := by
        simp only [eval, hx]
        rfl
      cases Option.some.inj (hr.symm.trans hval)
      have hclosed : Term.close ρ (.var x) = v.toTerm := by simp only [Term.close, hx]
      rw [hclosed]
      have hle : k ≤ n + k + 1 := by omega
      exact eval_within hle t _ _ _ (hk x (List.mem_singleton_self x) v hx)
    | field e f => exact (ih (e := e) he hk).bind fun v _ => .refl _
    | call e m Vs es =>
      rw [Env.Binds, Term.vars, List.forall_mem_append] at he
      rw [Term.vars, List.forall_mem_append] at hk
      rw [Term.close, Term.closeAll_eq_map]
      refine (ih he.1 hk.1).bind fun v _ => (hargs he.2 hk.2).bind fun vs _ => ?_
      refine (Within.refl _).bind fun (frame, body) hq => ?_
      -- The body runs in the same frame, whatever lies below it.
      show (eval t n (ρ.push frame) body).Within (eval t (n + k) (Env.empty.push frame) body)
      rw [hb.eval_push hv (gives_lift_iff.1 hq) ρ .empty]
      exact eval_within (Nat.le_add_right n k) t _ _
    | new N es =>
      rw [Term.close, Term.closeAll_eq_map]
      exact (hargs he hk).bind fun vs _ => .refl _
    | cast N e => exact (ih (e := e) he hk).bind fun v _ => .refl _

/-- Checking a program makes sure that method bodies mention only their parameters and
`this`. Then evaluation in an environment is evaluation of the closed term, and what lies
below the frame of a call does not matter to the body. -/
theorem returns_iff_returns_close {classes : List ClassDecl} (ht : ofClasses classes = .ok t) :
    (∀ p T w, p.classes = classes → CheckM.Gives (Typing.typeOfProgram t p) w T →
      t.BodiesScoped) ∧
    (t.BodiesScoped →
      (∀ ρ e, ρ.Binds e.vars → ∀ r, t.Returns ρ e r ↔ t.Returns .empty (e.close ρ) r) ∧
      ∀ (v : Value) m Vs args frame body, v.invoke t m Vs args = .ok (frame, body) →
        ∀ (ρ ρ' : Env) n, eval t n (ρ.push frame) body = eval t n (ρ'.push frame) body) := by
  obtain ⟨rfl, hv⟩ := ofClasses_eq_ok_iff.1 ht
  constructor
  · rintro p T w rfl hp c hc d hd
    exact (((Typing.gives_typeOfProgram_iff.1 hp).1 c hc).methods d hd).bodyScoped
  · intro hb
    refine ⟨fun ρ e he r => ⟨.of_within fun n => ?_, .of_within fun n => ?_⟩, ?_⟩
    · obtain ⟨k, hk⟩ := exists_fuel_toTerm ⟨classes⟩ ρ e.vars
      exact ⟨n + k, eval_within_close hb hv he hk⟩
    · exact ⟨n, eval_close_within hb hv he⟩
    · exact fun v m Vs args frame body h => hb.eval_push hv h

def swapClasses : List ClassDecl :=
  let ctor (C : String) : Constructor := ⟨C, [], [], []⟩
  let params : List Binding := [⟨.inst "Object" [], "x"⟩, ⟨.inst "Object" [], "y"⟩]
  let method (m : String) (body : Term) : MethodDecl :=
    ⟨[], .inst "Object" [], m, params, body, ⟨0, 0⟩⟩
  [⟨"A", [], .object, [], ctor "A", [], ⟨0, 0⟩⟩,
   ⟨"P", [], .object, [], ctor "P",
    [method "second" (.call (.var "this") "first" [] [.var "y", .var "x"]),
     method "first" (.var "x")], ⟨0, 0⟩⟩]

theorem returns_iff_returns_close_swap :
    ∃ t, ofClasses swapClasses = .ok t ∧
      let ρ : Env := ⟨[[("x", ⟨.object, []⟩)], [("x", ⟨⟨"A", []⟩, []⟩), ("y", ⟨⟨"A", []⟩, []⟩)]]⟩
      let e : Term := .call (.new ⟨"P", []⟩ []) "second" [] [.var "x", .var "y"]
      t.Returns ρ e (.ok ⟨⟨"A", []⟩, []⟩) ∧
        t.Returns .empty (.call (.new ⟨"P", []⟩ []) "second" []
          [.new .object [], .new ⟨"A", []⟩ []]) (.ok ⟨⟨"A", []⟩, []⟩) := by
  have ht : ofClasses swapClasses = .ok ⟨swapClasses⟩ := by decide
  obtain ⟨hscoped, hclose⟩ := returns_iff_returns_close ht
  have hb : (⟨swapClasses⟩ : ClassTable).BodiesScoped :=
    hscoped ⟨swapClasses, .new .object [], ⟨0, 0⟩⟩ (.inst "Object" []) [] rfl rfl
  let ρ : Env := ⟨[[("x", ⟨.object, []⟩)], [("x", ⟨⟨"A", []⟩, []⟩), ("y", ⟨⟨"A", []⟩, []⟩)]]⟩
  let e : Term := .call (.new ⟨"P", []⟩ []) "second" [] [.var "x", .var "y"]
  have hbinds : ρ.Binds e.vars := by
    intro x hx
    rcases List.mem_pair.1 hx with rfl | rfl
    · exact ⟨_, rfl⟩
    · exact ⟨_, rfl⟩
  have hreturns : (⟨swapClasses⟩ : ClassTable).Returns ρ e (.ok ⟨⟨"A", []⟩, []⟩) := ⟨4, by decide⟩
  exact ⟨_, ht, hreturns, ((hclose hb).1 ρ e hbinds _).1 hreturns⟩

end ClassTable

end Featherweight

import Featherweight.Proofs.RuntimeTypes

/-!
# Type variables while checking

Checking complains of a type variable that has no bound. In a program read from source every
type is resolved in the scope of its place, and checking a place binds just the variables of
that scope. Types that checking computes stay in scope: fields and results of calls mention
only variables of the class type they are looked up in and of the type arguments, captured
and shadowed ones included. So the complaint is never made.
-/

namespace Featherweight

def TypeFault.VarsBound : TypeFault → Prop
  | unboundTypeVar _ => False
  | _ => True

theorem meets_liftTable {α : Type} (x : Except TableFault α) :
    Meets (fun a => x = .ok a) TypeFault.VarsBound (liftM x : Except TypeFault α) := by
  cases x with
  | ok a => exact rfl
  | error fault => trivial

namespace CheckM

variable {ε ε' α β : Type} {x : CheckM ε α} {f : α → CheckM ε β} {p : α → Prop} {p' : β → Prop}
  {q : ε → Prop}

def Meets (x : CheckM ε α) (p : α → Prop) (q : ε → Prop) : Prop :=
  ∀ w, Featherweight.Meets p q (x.run.run w).1

namespace Meets

theorem pure {a : α} (ha : p a) : Meets (pure a : CheckM ε α) p q := fun _ => ha

theorem throw {e : ε} (he : q e) : Meets (throw e : CheckM ε α) p q := fun _ => he

theorem modify (g : List Warning → List Warning) :
    Meets (modify g : CheckM ε Unit) (fun _ => True) q := fun _ => trivial

theorem lift {y : Except TypeFault α} {q : TypeFault → Prop} (hy : Featherweight.Meets p q y) :
    Meets (liftM y : CheckM TypeFault α) p q := fun _ => hy

theorem bind (hx : x.Meets p q) (hf : ∀ a, p a → (f a).Meets p' q) :
    Meets (x >>= f) p' q := by
  intro w
  have hw := hx w
  rw [ExceptT.run_bind, StateT.run_bind]
  cases hr : x.run.run w with
  | mk r u =>
    rw [hr] at hw
    cases r with
    | ok a => exact hf a hw u
    | error e => exact hw

theorem adapt {k : ε → ε'} {q' : ε' → Prop} (hx : x.Meets p q) (hk : ∀ e, q e → q' (k e)) :
    Meets (x.adapt k) p q' := by
  intro w
  rw [run_adapt]
  exact (hx w).mapError hk

theorem forM {f : β → CheckM ε Unit} {bs : List β} (h : ∀ b ∈ bs, (f b).Meets (fun _ => True) q) :
    Meets (bs.forM f) (fun _ => True) q := by
  induction bs with
  | nil => exact .pure trivial
  | cons b bs ih =>
    rw [List.forall_mem_cons] at h
    exact h.1.bind fun _ _ => ih h.2

end Meets

end CheckM

namespace TypeEnv

variable {Δ : TypeEnv} {Xs : List TypeParam} {T : Ty}

/-- Every variable of the type has a bound. -/
def Covers (Δ : TypeEnv) (T : Ty) : Prop := ∀ X ∈ T.vars, ∃ N, Δ.bound? X = some N

def Closed (Δ : TypeEnv) : Prop := ∀ X N, Δ.bound? X = some N → Δ.Covers N.toTy

theorem covers_add (h : ∀ X ∈ T.vars, X ∈ Xs.map TypeParam.name ∨ ∃ N, Δ.bound? X = some N) :
    (Δ.add Xs).Covers T := by
  intro X hX
  by_cases hXs : X ∈ Xs.map TypeParam.name
  · obtain ⟨P, -, -, hP⟩ := bound?_add_of_mem (Δ := Δ) hXs
    exact ⟨P.bound, hP⟩
  · rw [bound?_add_of_not_mem hXs]
    exact (h X hX).resolve_left hXs

theorem Covers.add (h : Δ.Covers T) (Xs : List TypeParam) : (Δ.add Xs).Covers T :=
  covers_add fun X hX => .inr (h X hX)

theorem Closed.add (hΔ : Δ.Closed) (hXs : ∀ P ∈ Xs, (Δ.add Xs).Covers P.bound.toTy) :
    (Δ.add Xs).Closed := by
  intro X N hN
  rcases bound?_add hN with ⟨P, hP, -, rfl⟩ | ⟨-, hN⟩
  · exact hXs P hP
  · exact (hΔ X N hN).add Xs

theorem closed_empty : TypeEnv.empty.Closed := by
  intro X N hN
  simp at hN

theorem meets_bound (hΔ : Δ.Closed) (hT : Δ.Covers T) :
    Meets (fun N => Δ.Covers N.toTy) TypeFault.VarsBound (Δ.bound T) := by
  cases T with
  | inst C Ts => exact hT
  | var X =>
    obtain ⟨N, hN⟩ := hT X (by simp [Ty.vars])
    simp only [bound, hN]
    exact hΔ X N hN

end TypeEnv

namespace ClassTable

open Typing

variable {t : ClassTable} {Δ : TypeEnv} {N : ClassTy} {T : Ty} {Vs : List Ty} {m f : String}
  {k : Nat}

theorem requireBounds_meets (t : ClassTable) (Δ : TypeEnv) (σ : Subst) (Ts : List Ty)
    (Xs : List TypeParam) :
    Meets (fun _ => True) TypeFault.VarsBound (t.requireBounds Δ σ Ts Xs) := by
  induction Ts generalizing Xs with
  | nil => trivial
  | cons T Ts ih =>
    cases Xs with
    | nil => trivial
    | cons P Xs =>
      rw [requireBounds]
      exact (meets_liftTable _).bind fun b _ => (meets_require trivial).bind fun _ _ => ih Xs

theorem requireAllWellFormed_meets
    (h : ∀ T ∈ Vs, Meets (fun _ => True) TypeFault.VarsBound (t.requireWellFormed Δ T)) :
    Meets (fun _ => True) TypeFault.VarsBound (t.requireAllWellFormed Δ Vs) := by
  induction Vs with
  | nil => trivial
  | cons T Ts ih =>
    rw [List.forall_mem_cons] at h
    rw [requireAllWellFormed]
    exact h.1.bind fun _ _ => ih h.2

theorem requireWellFormed_meets (h : Δ.Covers T) :
    Meets (fun _ => True) TypeFault.VarsBound (t.requireWellFormed Δ T) := by
  induction T using Ty.induction with
  | var X =>
    obtain ⟨N, hN⟩ := h X (by simp [Ty.vars])
    simp only [requireWellFormed, hN]
    trivial
  | inst C Ts ih =>
    have hargs : ∀ T ∈ Ts, Δ.Covers T := by
      intro T hT X hX
      exact h X (Ty.mem_vars_inst.2 ⟨T, hT, hX⟩)
    rw [requireWellFormed]
    split
    · trivial
    · apply (requireAllWellFormed_meets fun T hT => ih T hT (hargs T hT)).bind
      intro _ _
      apply (meets_liftTable _).bind
      intro Xs _
      apply (meets_liftTable _).bind
      intro σ _
      exact requireBounds_meets t Δ σ Ts Xs

theorem Scoped.meets_fieldType (hs : t.Scoped) (hN : Δ.Covers N.toTy) :
    Meets Δ.Covers TypeFault.VarsBound (fieldType t N f) := by
  rw [fieldType]
  apply (meets_liftTable _).bind
  intro fs hfs
  split
  · next b hb =>
    intro X hX
    exact hN X (hs.mem_vars_of_fields hfs (List.mem_of_find?_eq_some hb) hX)
  · trivial

theorem newTypes_meets (hN : Δ.Covers N.toTy) :
    Meets (fun _ => True) TypeFault.VarsBound (newTypes t Δ N k) := by
  rw [newTypes]
  apply (requireWellFormed_meets hN).bind
  intro _ _
  apply (meets_liftTable _).bind
  intro fs _
  exact (meets_require trivial).bind fun _ _ => trivial

theorem Resolved.meets_callType (hr : t.Resolved) (hv : t.Valid) (hN : Δ.Covers N.toTy)
    (hVs : ∀ V ∈ Vs, Δ.Covers V) :
    Meets (fun q => Δ.Covers q.2) TypeFault.VarsBound (callType t Δ N m Vs k) := by
  rw [callType]
  apply (meets_liftTable _).bind
  intro r hU
  cases r with
  | none => trivial
  | some U =>
    apply (requireAllWellFormed_meets fun V hV => requireWellFormed_meets (hVs V hV)).bind
    intro _ _
    apply (meets_require trivial).bind
    intro _ _
    apply (meets_liftTable _).bind
    intro κ hκ
    apply (requireBounds_meets t Δ κ Vs U.typeParams).bind
    intro _ _
    apply (meets_require trivial).bind
    intro _ _ X hX
    obtain ⟨a, d, hf, rfl⟩ := hv.methodType?_eq_some_iff.1 hU
    rw [Subst.instantiate_methodType] at hκ
    have hscope := ((hr _ hf.decl_mem).methods d hf.mem).returnType
    rcases hf.mem_vars_of_scope hr.scoped hκ
      (fun Y hY => (List.mem_append.1 (hscope.mem_scope hY)).symm) hX with hX | ⟨V, hV, hX⟩
    · exact hN X hX
    · exact hVs V hV X hX

end ClassTable

namespace Typing

open ClassTable

variable {t : ClassTable} {Δ : TypeEnv} {Γ : VarEnv} {site : Span} {c : ClassDecl} {d : MethodDecl}
  {p : Program}

theorem requireSubtype_meets (t : ClassTable) (Δ : TypeEnv) (S T : Ty) :
    Meets (fun _ => True) TypeFault.VarsBound (requireSubtype t Δ S T) := by
  rw [requireSubtype]
  exact (meets_liftTable _).bind fun _ _ => meets_require trivial

theorem requireArgs_meets {es : List Term}
    (hes : ∀ e ∈ es, (typeOf t Δ Γ site e).Meets Δ.Covers TypeFault.VarsBound) (Ps : List Ty) :
    (requireArgs t Δ Γ site es Ps).Meets (fun _ => True) TypeFault.VarsBound := by
  induction es generalizing Ps with
  | nil => exact .pure trivial
  | cons e es ih =>
    cases Ps with
    | nil => exact .pure trivial
    | cons P Ps =>
      rw [List.forall_mem_cons] at hes
      rw [requireArgs]
      apply hes.1.bind
      intro S _
      apply (CheckM.Meets.lift (requireSubtype_meets t Δ S P)).bind
      intro _ _
      exact ih hes.2 Ps

theorem meets_typeOf (hv : t.Valid) (hr : t.Resolved) (hΔ : Δ.Closed)
    (hΓ : ∀ x S, Γ.lookup x = some S → Δ.Covers S) {e : Term} (he : e.AllTypes Δ.Covers) :
    (typeOf t Δ Γ site e).Meets Δ.Covers TypeFault.VarsBound := by
  induction he with
  | var x =>
    rw [typeOf]
    split
    · next T hT => exact .pure (hΓ x T hT)
    · exact .throw trivial
  | field _ ih =>
    rw [typeOf]
    apply ih.bind
    intro T hT
    apply (CheckM.Meets.lift (TypeEnv.meets_bound hΔ hT)).bind
    intro N hN
    exact .lift (hr.scoped.meets_fieldType hN)
  | call _ hVs _ ih ihs =>
    rw [typeOf]
    apply ih.bind
    intro T hT
    apply (CheckM.Meets.lift (TypeEnv.meets_bound hΔ hT)).bind
    intro N hN
    apply (CheckM.Meets.lift (hr.meets_callType hv hN hVs)).bind
    intro q hq
    exact (requireArgs_meets ihs q.1).bind fun _ _ => .pure hq
  | new hN _ ihs =>
    rw [typeOf]
    apply (CheckM.Meets.lift (newTypes_meets hN)).bind
    intro Ps _
    exact (requireArgs_meets ihs Ps).bind fun _ _ => .pure hN
  | cast hN _ ih =>
    rw [typeOf]
    apply (CheckM.Meets.lift (requireWellFormed_meets hN)).bind
    intro _ _
    apply ih.bind
    intro T hT
    apply (CheckM.Meets.lift (TypeEnv.meets_bound hΔ hT)).bind
    intro M _
    apply (CheckM.Meets.lift (meets_liftTable (related t Δ M _))).bind
    intro b _
    exact (CheckM.Meets.modify _).bind fun _ _ => .pure hN

theorem covers_of_resolved {T : Ty} (hT : T.Resolved c.scope) : c.env.Covers T :=
  TypeEnv.covers_add fun _ hX => .inl (hT.mem_scope hX)

theorem closed_env (hc : c.Resolved) : c.env.Closed :=
  TypeEnv.closed_empty.add fun P hP => covers_of_resolved (hc.bounds P hP)

theorem method_covers_of_resolved {T : Ty} (hT : T.Resolved (d.scope c.scope)) :
    (d.env c).Covers T := by
  apply TypeEnv.covers_add
  intro X hX
  rcases List.mem_append.1 (hT.mem_scope hX) with hd | hc
  · exact .inl hd
  · obtain ⟨P, -, -, hP⟩ := TypeEnv.bound?_add_of_mem (Δ := .empty) hc
    exact .inr ⟨P.bound, hP⟩

theorem method_closed_env (hc : c.Resolved) (hd : d.Resolved c.scope) : (d.env c).Closed :=
  (closed_env hc).add fun P hP => method_covers_of_resolved (hd.bounds P hP)

theorem covers_thisType (c : ClassDecl) : c.env.Covers c.thisType.toTy := by
  apply TypeEnv.covers_add
  intro X hX
  obtain ⟨T, hT, hXT⟩ := Ty.mem_vars_inst.1 hX
  obtain ⟨P, hP, rfl⟩ := List.mem_map.1 hT
  cases List.mem_singleton.1 hXT
  exact .inl (List.mem_map_of_mem hP)

theorem covers_methodVars (hd : d.Resolved c.scope) {x : String} {S : Ty}
    (hx : (methodVars c d).lookup x = some S) : (d.env c).Covers S := by
  rcases List.mem_cons.1 (mem_of_lookup hx) with hthis | hparam
  · cases hthis
    exact (covers_thisType c).add d.typeParams
  · obtain ⟨b, hb, hbx⟩ := List.mem_map.1 (List.mem_reverse.1 hparam)
    cases hbx
    exact method_covers_of_resolved (hd.params b hb)

theorem meets_requireHead (hd : d.Resolved c.scope) :
    Meets (fun _ => True) TypeFault.VarsBound (requireHead t (d.env c) d) := by
  rw [requireHead]
  apply (Meets.forM fun P hP =>
    requireWellFormed_meets (method_covers_of_resolved (hd.bounds P hP))).bind
  intro _ _
  apply (requireWellFormed_meets (method_covers_of_resolved hd.returnType)).bind
  intro _ _
  exact .forM fun b hb => requireWellFormed_meets (method_covers_of_resolved (hd.params b hb))

theorem meets_requireMethod (hv : t.Valid) (hr : t.Resolved) (hc : c.Resolved)
    (hd : d.Resolved c.scope) :
    (requireMethod t c d).Meets (fun _ => True) TypeFault.VarsBound := by
  have hbody : d.body.AllTypes (d.env c).Covers := hd.body.mono fun T => method_covers_of_resolved
  apply (CheckM.Meets.lift (meets_requireHead hd)).bind
  intro _ _
  apply (meets_typeOf hv hr (method_closed_env hc hd) (fun x S => covers_methodVars hd) hbody).bind
  intro T _
  apply (CheckM.Meets.lift (requireSubtype_meets t _ T d.returnType)).bind
  intro _ _
  exact .lift ((meets_liftTable _).bind fun _ _ => meets_require trivial)

theorem requireConstructor_meets (t : ClassTable) (c : ClassDecl) :
    Meets (fun _ => True) TypeFault.VarsBound (requireConstructor t c) := by
  apply (meets_require trivial).bind
  intro _ _
  apply (meets_liftTable _).bind
  intro inherited _
  exact (meets_of_ok fun _ _ => trivial).mapError fun _ _ => trivial

theorem meets_requireHeader (hc : c.Resolved) :
    Meets (fun _ => True) TypeFault.VarsBound (requireHeader t c) := by
  apply (Meets.forM fun P hP =>
    requireWellFormed_meets (covers_of_resolved (hc.bounds P hP))).bind
  intro _ _
  apply (requireWellFormed_meets (covers_of_resolved hc.superType)).bind
  intro _ _
  apply (Meets.forM fun b hb =>
    requireWellFormed_meets (covers_of_resolved (hc.fields b hb))).bind
  intro _ _
  exact requireConstructor_meets t c

theorem meets_blame {α : Type} {x : CheckM TypeFault α} {q : α → Prop} (span : Span)
    (hx : x.Meets q TypeFault.VarsBound) :
    (blame span x).Meets q fun e => e.fault.VarsBound :=
  hx.adapt fun _ h => h

theorem meets_requireClass (hv : t.Valid) (hr : t.Resolved) (hc : c.Resolved) :
    (requireClass t c).Meets (fun _ => True) fun e => e.fault.VarsBound := by
  apply (meets_blame c.span (.lift (meets_requireHeader hc))).bind
  intro _ _
  apply CheckM.Meets.forM
  intro d hd
  exact meets_blame d.span (meets_requireMethod hv hr hc (hc.methods d hd))

theorem meets_typeOfProgram (hv : t.Valid) (hr : t.Resolved) (hp : p.Resolved) :
    (typeOfProgram t p).Meets TypeEnv.empty.Covers fun e => e.fault.VarsBound := by
  have hterm : p.term.AllTypes TypeEnv.empty.Covers := by
    apply hp.term.mono
    intro T hT X hX
    exact absurd (hT.mem_scope hX) List.not_mem_nil
  apply (CheckM.Meets.forM fun c hc => meets_requireClass hv hr (hp.classes c hc)).bind
  intro _ _
  exact meets_blame p.span (meets_typeOf hv hr TypeEnv.closed_empty (by simp) hterm)

end Typing

theorem Accepted.varsBound_of_ofProgram {p : Program} (hp : p.Resolved) {e : TypeError}
    (h : Accepted.ofProgram p = .error (.type e)) : e.fault.VarsBound := by
  rw [ofProgram, bind_eq_error_iff] at h
  rcases h with h | ⟨t, ht, h⟩
  · cases htable : ClassTable.ofClasses p.classes with
    | ok t =>
      rw [htable] at h
      cases h
    | error fault =>
      rw [htable] at h
      cases h
  · obtain ⟨rfl, hv⟩ := ClassTable.ofClasses_eq_ok_iff.1 (mapError_eq_ok_iff.1 ht)
    have hmeets := Typing.meets_typeOfProgram hv hp.classes hp []
    split at h
    · cases h
    · next e' w hrun =>
      rw [hrun] at hmeets
      cases h
      exact hmeets

/-- In a program read from source a name in a type is a variable exactly if a type parameter
of that name is in scope. So checking source never meets a type variable without a bound. -/
theorem Program.typeVars_resolved (source : String) :
    (∀ p, (Program.ofSource source).Gives p → p.Resolved ∧ p.term.tyVars = []) ∧
      ∀ X span, (Accepted.ofSource source).run ≠
        some (.error (.type ⟨.unboundTypeVar X, span⟩)) := by
  constructor
  · intro p hp
    have hresolved := resolved_of_ofSource hp
    refine ⟨hresolved, List.eq_nil_iff_forall_not_mem.2 fun X hX => ?_⟩
    obtain ⟨T, hT, hXT⟩ := hresolved.term.exists_type hX
    exact absurd (hT.mem_scope hXT) List.not_mem_nil
  · intro X span h
    have hadapt : ((Program.ofSource source).adapt Failure.parse).run =
        (Program.ofSource source).run.map (Except.mapError .parse) := rfl
    rw [Accepted.ofSource, ExceptT.run_bind, hadapt] at h
    cases hp : (Program.ofSource source).run with
    | none =>
      rw [hp] at h
      cases h
    | some r =>
      rw [hp] at h
      cases r with
      | error e => cases h
      | ok p =>
        have hcheck : Accepted.ofProgram p = .error (.type ⟨.unboundTypeVar X, span⟩) :=
          Option.some.inj h
        exact Accepted.varsBound_of_ofProgram (resolved_of_ofSource hp) hcheck

def shadowedPair : List String :=
  ["class Box<X extends Object> extends Object ",
    "\x7b X f; Box(X f) \x7b super(); this.f = f; \x7d \x7d ",
    "class Pair<X extends Box<Y>, ", "Y extends Object> extends Box<X> \x7b ",
    "Pair(X f) \x7b super(f); \x7d ", "<X extends Box<Y>> Y get(X x) ",
    "\x7b return new Pair<X,Y>(x).f.f; \x7d \x7d ",
    "new Pair<Box<Object>,Object>", "(new Box<Object>(new Object()))"]

theorem Program.typeVars_resolved_shadowedPair :
    (Program.ofSource (String.join shadowedPair)).Yields fun p =>
      (∃ c ∈ p.classes, c.typeParams = [⟨"X", ⟨"Box", [.var "Y"]⟩⟩, ⟨"Y", .object⟩] ∧
        ∃ d ∈ c.methods, d.typeParams = [⟨"X", ⟨"Box", [.var "Y"]⟩⟩]) ∧
      p.Resolved ∧ p.term.tyVars = [] ∧
      ∀ X span, (Accepted.ofSource (String.join shadowedPair)).run ≠
        some (.error (.type ⟨.unboundTypeVar X, span⟩)) := by
  have hyps : (Program.ofSource (String.join shadowedPair)).Yields fun p =>
      ∃ c ∈ p.classes, c.typeParams = [⟨"X", ⟨"Box", [.var "Y"]⟩⟩, ⟨"Y", .object⟩] ∧
        ∃ d ∈ c.methods, d.typeParams = [⟨"X", ⟨"Box", [.var "Y"]⟩⟩] := by
    rw [ofSource, tokenize_join]
    decide +kernel
  obtain ⟨p, hp, hclass⟩ := hyps
  obtain ⟨hresolved, hcheck⟩ := typeVars_resolved (String.join shadowedPair)
  obtain ⟨hp', hterm⟩ := hresolved p hp
  exact ⟨p, hp, hclass, hp', hterm, hcheck⟩

end Featherweight

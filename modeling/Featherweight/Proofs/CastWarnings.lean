import Featherweight.Proofs.Casts
import Featherweight.Proofs.Warnings

/-!
# What is warned about

Checking goes through the casts of a program class by class and method by method, then
through the main term; within a term inner casts come before outer ones and the others from
left to right. `castSites` lists the casts in this order, each with what is in scope at its
place. `Warned` relates a list of casts to the warnings about them by the typing rules alone:
one for each cast between unrelated class types. A program that is accepted is warned about
in just this way. A checker that is used again only puts its warnings behind the earlier ones.
-/

namespace Featherweight

namespace Term

mutual

def casts : Term → List (Term × ClassTy)
  | .var _ => []
  | .field e _ => e.casts
  | .call e _ _ es => e.casts ++ castsAll es
  | .new _ es => castsAll es
  | .cast N e => e.casts ++ [(e, N)]

def castsAll : List Term → List (Term × ClassTy)
  | [] => []
  | e :: es => e.casts ++ castsAll es

end

end Term

/-- A cast at its place, where these variables have bounds and types, and where a warning
carries this span. -/
structure CastSite where
  env : TypeEnv
  vars : VarEnv
  span : Span
  operand : Term
  target : ClassTy

def CastSite.ofCasts (Δ : TypeEnv) (Γ : VarEnv) (span : Span) (casts : List (Term × ClassTy)) :
    List CastSite :=
  casts.map fun q => ⟨Δ, Γ, span, q.1, q.2⟩

def MethodDecl.castSites (c : ClassDecl) (d : MethodDecl) : List CastSite :=
  CastSite.ofCasts (d.env c) (Typing.methodVars c d) d.span d.body.casts

def Program.castSites (p : Program) : List CastSite :=
  (p.classes.flatMap fun c => c.methods.flatMap fun d => d.castSites c) ++
    CastSite.ofCasts .empty [] p.span p.term.casts

open Typing

def CastSite.Source (t : ClassTable) (s : CastSite) (M : ClassTy) : Prop :=
  ∃ S, HasType t s.env s.vars s.operand S ∧ s.env.bound S = .ok M

inductive Warned (t : ClassTable) : List CastSite → List Warning → Prop where
  | nil : Warned t [] []
  | unrelated {s : CastSite} {M : ClassTy} {ss : List CastSite} {ws : List Warning}
      (hM : s.Source t M) (hup : t.subtype s.env M.toTy s.target.toTy = .ok false)
      (hdown : t.subtype s.env s.target.toTy M.toTy = .ok false) (h : Warned t ss ws) :
      Warned t (s :: ss) (⟨M, s.target, s.span⟩ :: ws)
  | related {s : CastSite} {M : ClassTy} {ss : List CastSite} {ws : List Warning}
      (hM : s.Source t M) (hrel : t.subtype s.env M.toTy s.target.toTy = .ok true ∨
        t.subtype s.env s.target.toTy M.toTy = .ok true) (h : Warned t ss ws) :
      Warned t (s :: ss) ws

section Warned

variable {t : ClassTable} {s : CastSite} {ss ss' : List CastSite} {ws ws' : List Warning}
  {M M' : ClassTy}

theorem CastSite.Source.unique (h : s.Source t M) (h' : s.Source t M') : M = M' := by
  obtain ⟨S, hS, hM⟩ := h
  obtain ⟨S', hS', hM'⟩ := h'
  cases hS.unique hS'
  exact Except.ok.inj (hM.symm.trans hM')

theorem Warned.append (h : Warned t ss ws) (h' : Warned t ss' ws') :
    Warned t (ss ++ ss') (ws ++ ws') := by
  induction h with
  | nil => exact h'
  | unrelated hM hup hdown _ ih => exact .unrelated hM hup hdown ih
  | related hM hrel _ ih => exact .related hM hrel ih

theorem Warned.unique (h : Warned t ss ws) (h' : Warned t ss ws') : ws = ws' := by
  induction h generalizing ws' with
  | nil =>
    cases h'
    rfl
  | unrelated hM hup hdown _ ih =>
    cases h' with
    | unrelated hM' _ _ h' =>
      cases hM.unique hM'
      rw [ih h']
    | related hM' hrel _ =>
      cases hM.unique hM'
      simp [hup, hdown] at hrel
  | related hM hrel _ ih =>
    cases h' with
    | unrelated hM' hup hdown _ =>
      cases hM.unique hM'
      simp [hup, hdown] at hrel
    | related _ _ h' => exact ih h'

end Warned

namespace CheckM

variable {ε ε' α β : Type} {t : ClassTable} {x : CheckM ε α} {f : α → CheckM ε β}
  {ss ss' : List CastSite}

/-- If the check succeeds, it puts the warnings about these casts behind the earlier ones. -/
def Reports (t : ClassTable) (x : CheckM ε α) (ss : List CastSite) : Prop :=
  ∀ w a w', x.run.run w = (.ok a, w') → ∃ ws, Warned t ss ws ∧ w' = w ++ ws

namespace Reports

theorem pure (a : α) : Reports t (pure a : CheckM ε α) [] := by
  intro w b w' h
  cases h
  exact ⟨[], .nil, (List.append_nil w).symm⟩

theorem throw (e : ε) : Reports t (throw e : CheckM ε α) ss := by
  intro w b w' h
  cases h

theorem lift (y : Except TypeFault α) : Reports t (liftM y : CheckM TypeFault α) [] := by
  intro w b w' h
  obtain ⟨-, rfl⟩ := Prod.mk.inj h
  exact ⟨[], .nil, (List.append_nil w).symm⟩

theorem bind (hx : Reports t x ss) (hf : ∀ w a, x.Gives w a → Reports t (f a) ss') :
    Reports t (x >>= f) (ss ++ ss') := by
  intro w b w' h
  obtain ⟨a, w₁, hrun, hb⟩ := run_bind_eq_ok_iff.1 h
  obtain ⟨ws, hws, rfl⟩ := hx w a w₁ hrun
  obtain ⟨ws', hws', rfl⟩ := hf w a (congrArg Prod.fst hrun) _ b w' hb
  exact ⟨ws ++ ws', hws.append hws', List.append_assoc w ws ws'⟩

theorem bind_quiet (hx : Reports t x ss) (hf : ∀ a, Reports t (f a) []) :
    Reports t (x >>= f) ss := by
  rw [← List.append_nil ss]
  exact hx.bind fun _ a _ => hf a

theorem adapt {k : ε → ε'} (hx : Reports t x ss) : Reports t (x.adapt k) ss := by
  intro w a w' h
  rw [run_adapt] at h
  obtain ⟨ha, hw⟩ := Prod.mk.inj h
  exact hx w a w' (Prod.ext (mapError_eq_ok_iff.1 ha) hw)

theorem forM {f : β → CheckM ε Unit} {g : β → List CastSite} {bs : List β}
    (h : ∀ b ∈ bs, Reports t (f b) (g b)) : Reports t (bs.forM f) (bs.flatMap g) := by
  induction bs with
  | nil => exact .pure ()
  | cons b bs ih =>
    rw [List.forall_mem_cons] at h
    rw [List.flatMap_cons]
    exact h.1.bind fun _ _ _ => ih h.2

end Reports

end CheckM

namespace Typing

open CheckM

variable {t : ClassTable} {Δ : TypeEnv} {Γ : VarEnv} {site : Span}

theorem reports_verdict {e : Term} {S : Ty} {M N : ClassTy} {b : Bool} (he : HasType t Δ Γ e S)
    (hM : Δ.bound S = .ok M) (hb : related t Δ M N = .ok b) :
    Reports t (modify (· ++ if b then [] else [⟨M, N, site⟩]) : CheckM TypeFault Unit)
      [⟨Δ, Γ, site, e, N⟩] := by
  intro w u w' h
  cases h
  refine ⟨_, ?_, rfl⟩
  have hsource : CastSite.Source t ⟨Δ, Γ, site, e, N⟩ M := ⟨S, he, hM⟩
  cases b with
  | false =>
    obtain ⟨hup, hdown⟩ := related_eq_false_iff.1 hb
    exact .unrelated hsource hup hdown .nil
  | true => exact .related hsource (subtype_or_of_related hb) .nil

theorem requireArgs_reports {es : List Term} {Ps : List Ty} (hlen : es.length = Ps.length)
    (hes : ∀ e ∈ es, Reports t (typeOf t Δ Γ site e) (CastSite.ofCasts Δ Γ site e.casts)) :
    Reports t (requireArgs t Δ Γ site es Ps) (CastSite.ofCasts Δ Γ site (Term.castsAll es)) := by
  induction es generalizing Ps with
  | nil => exact .pure ()
  | cons e es ih =>
    cases Ps with
    | nil => simp at hlen
    | cons P Ps =>
      rw [List.forall_mem_cons] at hes
      rw [requireArgs, Term.castsAll, CastSite.ofCasts, List.map_append]
      apply hes.1.bind
      intro _ S _
      apply (Reports.lift _).bind
      intro _ _ _
      exact ih (Nat.succ.inj hlen) hes.2

theorem typeOf_reports (e : Term) :
    Reports t (typeOf t Δ Γ site e) (CastSite.ofCasts Δ Γ site e.casts) := by
  induction e using Term.induction with
  | var x =>
    rw [typeOf]
    split
    · exact .pure _
    · exact .throw _
  | field e f ih =>
    rw [typeOf]
    exact ih.bind_quiet fun T => (Reports.lift _).bind_quiet fun N => .lift _
  | call e m Vs es ih ihs =>
    rw [typeOf, Term.casts, CastSite.ofCasts, List.map_append]
    apply ih.bind
    intro _ T _
    apply (Reports.lift _).bind
    intro _ N _
    apply (Reports.lift _).bind
    intro _ q hq
    exact (requireArgs_reports (length_of_callType hq) ihs).bind_quiet fun _ => .pure _
  | new N es ihs =>
    rw [typeOf, Term.casts]
    apply (Reports.lift _).bind
    intro _ Ps hPs
    exact (requireArgs_reports (length_of_newTypes hPs) ihs).bind_quiet fun _ => .pure _
  | cast N e ih =>
    rw [typeOf, Term.casts, CastSite.ofCasts, List.map_append]
    apply (Reports.lift _).bind
    intro _ _ _
    apply ih.bind
    intro _ T hT
    apply (Reports.lift _).bind
    intro _ M hM
    apply (Reports.lift (liftM (related t Δ M N))).bind
    intro _ b hb
    have he := gives_typeOf_iff.1 hT
    exact (reports_verdict he hM (gives_liftTable_iff.1 hb)).bind_quiet fun _ => .pure _

theorem requireMethod_reports (c : ClassDecl) (d : MethodDecl) :
    Reports t (requireMethod t c d) (d.castSites c) := by
  apply (Reports.lift _).bind
  intro _ _ _
  exact (typeOf_reports d.body).bind_quiet fun T => (Reports.lift _).bind_quiet fun _ => .lift _

theorem requireClass_reports (c : ClassDecl) :
    Reports t (requireClass t c) (c.methods.flatMap fun d => d.castSites c) := by
  apply (Reports.lift _).adapt.bind
  intro _ _ _
  exact .forM fun d _ => (requireMethod_reports c d).adapt

theorem typeOfProgram_reports (t : ClassTable) (p : Program) :
    Reports t (typeOfProgram t p) p.castSites := by
  apply (Reports.forM fun c _ => requireClass_reports c).bind
  intro _ _ _
  exact (typeOf_reports p.term).adapt

def check (t : ClassTable) (p : Program) : Except TypeError Ty × List Warning :=
  (typeOfProgram t p).run.run []

/-- One checker for all programs, which keeps the warnings also where a program fails. -/
def checkEach (t : ClassTable) (ps : List Program) :
    StateM (List Warning) (List (Except TypeError Ty)) :=
  ps.mapM fun p => (typeOfProgram t p).run

theorem run_checkEach (t : ClassTable) (ps : List Program) (w : List Warning) :
    (checkEach t ps).run w =
      (ps.map fun p => (check t p).1, w ++ ps.flatMap fun p => (check t p).2) := by
  induction ps generalizing w with
  | nil => exact Prod.ext rfl (List.append_nil w).symm
  | cons p ps ih =>
    have hp : (typeOfProgram t p).run.run w = ((check t p).1, w ++ (check t p).2) :=
      typeOfProgram_appends t p w
    rw [checkEach, List.mapM_cons, StateT.run_bind, hp]
    change (checkEach t ps >>= fun rs => pure ((check t p).1 :: rs)).run _ = _
    rw [StateT.run_bind, ih, List.append_assoc]
    rfl

/-- A checker that is used again gives every program the result that a new one gives it, and
gathers what the new ones warn about. For a program that it accepts, a new checker warns about
the casts between unrelated class types, in the order of the program, and about nothing else. -/
theorem warnings_exact (t : ClassTable) :
    (∀ ps w, (checkEach t ps).run w =
      (ps.map fun p => (check t p).1, w ++ ps.flatMap fun p => (check t p).2)) ∧
    ∀ p T ws, check t p = (.ok T, ws) → ∀ ws', Warned t p.castSites ws' ↔ ws = ws' := by
  refine ⟨run_checkEach t, fun p T ws h => ?_⟩
  obtain ⟨ws₁, hws, rfl⟩ := typeOfProgram_reports t p [] T ws h
  intro ws'
  constructor
  · exact hws.unique
  · rintro rfl
    exact hws

def crossCasts : List String :=
  ["class A extends Object \x7b ", "A() \x7b super(); \x7d \x7d ",
    "class B extends Object \x7b ", "B() \x7b super(); \x7d ",
    "A m(A x, Object y) ", "\x7b return (A) (B) x; \x7d \x7d ",
    "(B) new B().m((A) new Object(), ", "(Object) new A())"]

def crossFailing : Program :=
  ⟨[], .field (.cast ⟨"A", []⟩ (.new ⟨"B", []⟩ [])) "f", ⟨0, 9⟩⟩

theorem warnings_exact_crossCasts :
    (Accepted.ofSource (String.join crossCasts)).Yields fun a =>
      let A : ClassTy := ⟨"A", []⟩
      let B : ClassTy := ⟨"B", []⟩
      ∃ c ∈ a.program.classes, ∃ d ∈ c.methods,
        let ws : List Warning := [⟨A, B, d.span⟩, ⟨B, A, d.span⟩, ⟨A, B, a.program.span⟩]
        check a.table a.program = (.ok B.toTy, ws) ∧ a.program.castSites.length = 5 ∧
          Warned a.table a.program.castSites ws ∧
          (checkEach a.table [crossFailing, a.program]).run [] =
            ([.error ⟨.unknownField A "f", ⟨0, 9⟩⟩, .ok B.toTy], ⟨B, A, ⟨0, 9⟩⟩ :: ws) := by
  let A : ClassTy := ⟨"A", []⟩
  let B : ClassTy := ⟨"B", []⟩
  have hyps : (Accepted.ofSource (String.join crossCasts)).Yields fun a =>
      ∃ c ∈ a.program.classes, ∃ d ∈ c.methods,
        check a.table a.program =
          (.ok B.toTy, [⟨A, B, d.span⟩, ⟨B, A, d.span⟩, ⟨A, B, a.program.span⟩]) ∧
        a.program.castSites.length = 5 ∧
        check a.table crossFailing =
          (.error ⟨.unknownField A "f", ⟨0, 9⟩⟩, [⟨B, A, ⟨0, 9⟩⟩]) := by
    rw [Accepted.ofSource, Program.ofSource, tokenize_join]
    decide +kernel
  obtain ⟨a, ha, c, hc, d, hd, hcheck, hlen, hfail⟩ := hyps
  obtain ⟨heach, hexact⟩ := warnings_exact a.table
  refine ⟨a, ha, c, hc, d, hd, hcheck, hlen, ?_, ?_⟩
  · exact (hexact _ _ _ hcheck _).2 rfl
  · rw [heach]
    simp only [List.map_cons, List.map_nil, List.flatMap_cons, List.flatMap_nil, hcheck, hfail]
    rfl

end Typing

end Featherweight

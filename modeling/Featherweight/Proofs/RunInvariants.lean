import Featherweight.Proofs.Subevaluation
import Featherweight.Proofs.Values

/-!
# What holds of the types in a run

Evaluation takes types from the term it evaluates and from the bodies of methods. So what
holds of the types in the term, and of those in a body once the types of a call have been
put in, holds of all types in the run. Two tables that give the same answers about such
types run the term alike.
-/

namespace Featherweight

namespace ClassTable

variable {t t' : ClassTable} {P : Ty → Prop} {n : Nat} {ρ ρ' : Env} {e e' : Term} {v : Value}
  {m : String} {Vs : List Ty} {args : List Value}

/-- About class types in `P` the second table gives the answers of the first, and the bodies
of methods found there keep to `P`. -/
structure RunsAlike (t t' : ClassTable) (P : Ty → Prop) : Prop where
  fields : ∀ N : ClassTy, P N.toTy → t'.fields N = t.fields N
  subtype : ∀ (N : ClassTy) T, P N.toTy → t'.subtype .empty N.toTy T = t.subtype .empty N.toTy T
  methodBody : ∀ m Vs (N : ClassTy), P N.toTy → t'.methodBody m Vs N = t.methodBody m Vs N
  body : ∀ m Vs (N : ClassTy) b, P N.toTy → (∀ V ∈ Vs, P V) → t.methodBody m Vs N = .ok b →
    b.body.AllTypes P

namespace RunsAlike

variable (h : t.RunsAlike t' P)
include h

theorem get_eq (hv : v.AllTypes P) (f : String) : v.get t' f = v.get t f := by
  rw [Value.get, Value.get, h.fields _ hv.cls]

theorem castTo_eq (hv : v.AllTypes P) (N : ClassTy) : v.castTo t' N = v.castTo t N := by
  rw [Value.castTo, Value.castTo, h.subtype _ _ hv.cls]

theorem invoke_eq (hv : v.AllTypes P) : v.invoke t' m Vs args = v.invoke t m Vs args := by
  rw [Value.invoke, Value.invoke, h.methodBody _ _ _ hv.cls]

omit h in
theorem get_meets (hv : v.AllTypes P) (f : String) :
    Meets (Value.AllTypes P) (EvalFault.AllTypes P) (v.get t f) := by
  cases hw : v.get t f with
  | ok w => exact hv.get hw
  | error fault =>
    rcases bind_eq_error_iff.1 hw with hfs | ⟨fs, -, hw⟩
    · obtain ⟨_, rfl⟩ := exists_table_of_liftEval hfs
      trivial
    · split at hw
      · cases hw
      · cases hw
        exact hv.cls

omit h in
theorem castTo_meets {N : ClassTy} (hv : v.AllTypes P) (hN : P N.toTy) :
    Meets (Value.AllTypes P) (EvalFault.AllTypes P) (v.castTo t N) := by
  cases hw : v.castTo t N with
  | ok w =>
    cases (Value.castTo_eq_ok_iff.1 hw).2
    exact hv
  | error fault =>
    rcases bind_eq_error_iff.1 hw with hb | ⟨b, -, hw⟩
    · obtain ⟨_, rfl⟩ := exists_table_of_liftEval hb
      trivial
    · cases b with
      | true => cases hw
      | false =>
        cases hw
        exact ⟨hv, hN⟩

theorem invoke_meets (hv : v.AllTypes P) (hVs : ∀ V ∈ Vs, P V)
    (hargs : ∀ w ∈ args, w.AllTypes P) :
    Meets (fun q => (∀ b ∈ q.1, b.2.AllTypes P) ∧ q.2.AllTypes P) (EvalFault.AllTypes P)
      (v.invoke t m Vs args) := by
  cases hq : v.invoke t m Vs args with
  | ok q =>
    obtain ⟨b, hb, hq⟩ := bind_eq_ok_iff.1 hq
    obtain ⟨_, -, hq⟩ := bind_eq_ok_iff.1 hq
    cases pure_eq_ok_iff.1 hq
    exact ⟨allTypes_frame hargs hv, h.body m Vs _ b hv.cls hVs (liftEval_eq_ok_iff.1 hb)⟩
  | error fault =>
    rcases bind_eq_error_iff.1 hq with hb | ⟨b, -, hq⟩
    · obtain ⟨_, rfl⟩ := exists_table_of_liftEval hb
      trivial
    · rcases bind_eq_error_iff.1 hq with hq | ⟨_, -, hq⟩
      · cases (require_eq_error_iff.1 hq).2
        trivial
      · cases hq

theorem eval_agree (n : Nat) (hρ : ρ.AllTypes P) (he : e.AllTypes P) :
    (eval t' n ρ e).Agree (eval t n ρ e) (Value.AllTypes P) (EvalFault.AllTypes P) := by
  induction n generalizing ρ e with
  | zero => exact ⟨rfl, .noResult⟩
  | succ n ih =>
    have hargs {es : List Term} (hes : ∀ a ∈ es, a.AllTypes P) :
        (es.mapM (eval t' n ρ)).Agree (es.mapM (eval t n ρ))
          (fun vs => ∀ v ∈ vs, v.AllTypes P) (EvalFault.AllTypes P) :=
      .mapM fun a ha => ih hρ (hes a ha)
    cases he with
    | var x =>
      simp only [eval]
      cases hx : ρ.get? x with
      | none => exact .throw trivial
      | some v => exact .pure (hρ x v hx)
    | field he =>
      exact (ih hρ he).bind fun v hv => .lift (h.get_eq hv _) (get_meets hv _)
    | call he hVs hes =>
      refine (ih hρ he).bind fun v hv => (hargs hes).bind fun vs hvs => ?_
      exact (Attempt.Agree.lift (h.invoke_eq hv) (h.invoke_meets hv hVs hvs)).bind fun q hq =>
        ih (hρ.push hq.1) hq.2
    | new hN hes => exact (hargs hes).bind fun vs hvs => .pure (.mk hN hvs)
    | cast hN he =>
      exact (ih hρ he).bind fun v hv => .lift (h.castTo_eq hv _) (castTo_meets hv hN)

theorem returns_meets {r : Except EvalFault Value} (hρ : ρ.AllTypes P) (he : e.AllTypes P)
    (hr : t.Returns ρ e r) : Meets (Value.AllTypes P) (EvalFault.AllTypes P) r := by
  obtain ⟨n, hn⟩ := hr
  exact (h.eval_agree n hρ he).2 r hn

theorem allTypes_of_returnsAll {es : List Term} {vs : List Value} (hρ : ρ.AllTypes P)
    (hes : ∀ a ∈ es, a.AllTypes P) (hvs : t.ReturnsAll ρ es vs) : ∀ v ∈ vs, v.AllTypes P := by
  obtain ⟨n, hn⟩ := hvs
  exact (Attempt.Agree.mapM fun a ha => h.eval_agree n hρ (hes a ha)).2 _ hn

theorem hands (hands : t.Hands ρ e ρ' e') (hρ : ρ.AllTypes P) (he : e.AllTypes P) :
    ρ'.AllTypes P ∧ e'.AllTypes P := by
  cases hands with
  | field =>
    cases he with
    | field he => exact ⟨hρ, he⟩
  | receiver =>
    cases he with
    | call he _ _ => exact ⟨hρ, he⟩
  | argument _ ha =>
    cases he with
    | call _ _ hes => exact ⟨hρ, hes _ ha.mem⟩
  | @body _ _ m _ _ _ _ _ hv hvs hb =>
    cases he with
    | call he hVs hes =>
      have hinvoke := h.invoke_meets (m := m) (h.returns_meets hρ he hv) hVs
        (h.allTypes_of_returnsAll hρ hes hvs)
      rw [hb] at hinvoke
      exact ⟨hρ.push hinvoke.1, hinvoke.2⟩
  | fieldValue ha =>
    cases he with
    | new _ hes => exact ⟨hρ, hes _ ha.mem⟩
  | cast =>
    cases he with
    | cast _ he => exact ⟨hρ, he⟩

theorem visits (hvisits : t.Visits ρ e ρ' e') (hρ : ρ.AllTypes P) (he : e.AllTypes P) :
    ρ'.AllTypes P ∧ e'.AllTypes P := by
  induction hvisits with
  | start => exact ⟨hρ, he⟩
  | step _ hands ih => exact h.hands hands ih.1 ih.2

end RunsAlike

end ClassTable

end Featherweight

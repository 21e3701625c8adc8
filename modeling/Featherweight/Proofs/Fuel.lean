import Featherweight.Proofs.Results

/-!
# Evaluation and fuel

More fuel keeps every result. So a term has at most one result in an environment,
whatever the amount of fuel that shows it, and `Returns` leaves the amount out.
-/

namespace Featherweight

namespace Attempt

variable {ε α β : Type} {x y : Attempt ε α} {f g : α → Attempt ε β}

/-- Every result of the first attempt is one of the second. -/
def Within (x y : Attempt ε α) : Prop := ∀ r, x.run = some r → y.run = some r

theorem Within.refl (x : Attempt ε α) : x.Within x := fun _ h => h

theorem Within.noResult : Within (noResult : Attempt ε α) y := nofun

theorem Within.bind (h : x.Within y) (hf : ∀ a, x.Gives a → (f a).Within (g a)) :
    Within (x >>= f) (y >>= g) := by
  intro r hr
  rw [ExceptT.run_bind] at hr ⊢
  obtain ⟨s, hs, hr⟩ := Option.bind_eq_some_iff.1 hr
  refine Option.bind_eq_some_iff.2 ⟨s, h s hs, ?_⟩
  cases s with
  | error e => exact hr
  | ok a => exact hf a hs r hr

theorem Within.mapM {f g : β → Attempt ε α} {bs : List β} (h : ∀ b ∈ bs, (f b).Within (g b)) :
    (bs.mapM f).Within (bs.mapM g) := by
  induction bs with
  | nil => exact .refl _
  | cons b bs ih =>
    rw [List.forall_mem_cons] at h
    rw [List.mapM_cons, List.mapM_cons]
    exact h.1.bind fun a _ => (ih h.2).bind fun as _ => .refl _

theorem gives_mapM_map {f : β → Attempt ε α} {k : α → β} {as : List α}
    (h : ∀ a ∈ as, (f (k a)).Gives a) : ((as.map k).mapM f).Gives as := by
  induction as with
  | nil => rfl
  | cons a as ih =>
    rw [List.forall_mem_cons] at h
    rw [List.map_cons, List.mapM_cons]
    exact gives_bind_iff.2 ⟨a, h.1, gives_bind_iff.2 ⟨as, ih h.2, rfl⟩⟩

end Attempt

open Attempt

variable {t : ClassTable} {n m : Nat} {ρ : Env} {e : Term} {r s : Except EvalFault Value}

theorem eval_within_succ (t : ClassTable) (n : Nat) (ρ : Env) (e : Term) :
    (eval t n ρ e).Within (eval t (n + 1) ρ e) := by
  induction n generalizing ρ e with
  | zero => exact .noResult
  | succ n ih =>
    have hargs (es : List Term) : (es.mapM (eval t n ρ)).Within (es.mapM (eval t (n + 1) ρ)) :=
      .mapM fun a _ => ih ρ a
    cases e with
    | var x => exact .refl _
    | field e f => exact (ih ρ e).bind fun v _ => .refl _
    | call e m Vs es =>
      refine (ih ρ e).bind fun v _ => (hargs es).bind fun vs _ => ?_
      exact (Within.refl _).bind fun q _ => ih _ _
    | new N es => exact (hargs es).bind fun vs _ => .refl _
    | cast N e => exact (ih ρ e).bind fun v _ => .refl _

theorem eval_within (h : n ≤ m) (t : ClassTable) (ρ : Env) (e : Term) :
    (eval t n ρ e).Within (eval t m ρ e) := by
  induction h with
  | refl => exact .refl _
  | step _ ih => exact fun r hr => eval_within_succ t _ ρ e r (ih r hr)

namespace ClassTable

/-- Evaluation of the term in this environment ends with this value or fault. -/
def Returns (t : ClassTable) (ρ : Env) (e : Term) (r : Except EvalFault Value) : Prop :=
  ∃ n, (eval t n ρ e).run = some r

theorem Returns.unique (h : t.Returns ρ e r) (h' : t.Returns ρ e s) : r = s := by
  obtain ⟨n, hn⟩ := h
  obtain ⟨m, hm⟩ := h'
  have hr := eval_within (Nat.le_max_left n m) t ρ e r hn
  have hs := eval_within (Nat.le_max_right n m) t ρ e s hm
  exact Option.some.inj (hr.symm.trans hs)

theorem Returns.of_within {ρ' : Env} {e' : Term}
    (h : ∀ n, ∃ m, (eval t n ρ e).Within (eval t m ρ' e')) (hr : t.Returns ρ e r) :
    t.Returns ρ' e' r := by
  obtain ⟨n, hn⟩ := hr
  obtain ⟨m, hm⟩ := h n
  exact ⟨m, hm r hn⟩

end ClassTable

end Featherweight

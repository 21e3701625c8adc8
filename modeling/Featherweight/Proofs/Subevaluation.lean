import Featherweight.Proofs.Fuel

/-!
# The evaluations that an evaluation starts

To evaluate a term, evaluation hands itself other terms: a receiver, an argument, the
body of a method. `Hands` lists them and says when each one's turn comes. With one more
unit of fuel evaluation ends exactly if all that it hands to itself ends without that
unit, so the list is complete and every entry on it is needed.
-/

namespace Featherweight

namespace Attempt

variable {ε α β : Type} {x y z : Attempt ε α} {f : α → Attempt ε β}

def Ended (x : Attempt ε α) : Prop := ∃ r, x.run = some r

theorem Ended.lift (y : Except ε α) : Ended (liftM y : Attempt ε α) := ⟨y, rfl⟩

theorem Ended.pure (a : α) : Ended (pure a : Attempt ε α) := ⟨.ok a, rfl⟩

theorem ended_bind_iff : Ended (x >>= f) ↔ Ended x ∧ ∀ a, x.Gives a → Ended (f a) := by
  unfold Ended Gives
  rw [ExceptT.run_bind]
  cases hx : x.run with
  | none =>
    change (∃ r, none = some r) ↔ _
    simp
  | some r =>
    cases r with
    | error e =>
      change (∃ r, some (Except.error e) = some r) ↔ _
      simp
    | ok a =>
      change (∃ r, (f a).run = some r) ↔ _
      simp

theorem Ended.gives {a : α} (h : x.Ended) (hxz : x.Within z) (hyz : y.Within z) (hy : y.Gives a) :
    x.Gives a := by
  obtain ⟨r, hr⟩ := h
  have heq := (hxz r hr).symm.trans (hyz _ hy)
  rwa [Option.some.inj heq] at hr

end Attempt

open Attempt

namespace ClassTable

variable {t : ClassTable} {n : Nat} {ρ ρ' : Env} {a b e e' : Term} {es : List Term} {v : Value}
  {vs : List Value}

def ReturnsAll (t : ClassTable) (ρ : Env) (es : List Term) (vs : List Value) : Prop :=
  ∃ n, (es.mapM (eval t n ρ)).Gives vs

/-- An argument whose turn comes, since all arguments before it have values. -/
inductive Reached (t : ClassTable) (ρ : Env) : List Term → Term → Prop where
  | head {a : Term} {es : List Term} : Reached t ρ (a :: es) a
  | tail {a b : Term} {es : List Term} {v : Value} (hv : t.Returns ρ b (.ok v))
      (h : Reached t ρ es a) : Reached t ρ (b :: es) a

/-- Evaluation of the first term in the first environment hands the second term and
environment to itself. -/
inductive Hands (t : ClassTable) : Env → Term → Env → Term → Prop where
  | field {ρ : Env} {e : Term} {f : String} : Hands t ρ (.field e f) ρ e
  | receiver {ρ : Env} {e : Term} {m : String} {Vs : List Ty} {es : List Term} :
      Hands t ρ (.call e m Vs es) ρ e
  | argument {ρ : Env} {e a : Term} {m : String} {Vs : List Ty} {es : List Term} {v : Value}
      (hv : t.Returns ρ e (.ok v)) (ha : t.Reached ρ es a) : Hands t ρ (.call e m Vs es) ρ a
  | body {ρ : Env} {e b : Term} {m : String} {Vs : List Ty} {es : List Term} {v : Value}
      {vs : List Value} {frame : Frame} (hv : t.Returns ρ e (.ok v))
      (hvs : t.ReturnsAll ρ es vs) (hb : v.invoke t m Vs vs = .ok (frame, b)) :
      Hands t ρ (.call e m Vs es) (ρ.push frame) b
  | fieldValue {ρ : Env} {N : ClassTy} {es : List Term} {a : Term} (ha : t.Reached ρ es a) :
      Hands t ρ (.new N es) ρ a
  | cast {ρ : Env} {N : ClassTy} {e : Term} : Hands t ρ (.cast N e) ρ e

theorem Reached.mem (h : t.Reached ρ es a) : a ∈ es := by
  induction h with
  | head => exact List.mem_cons_self
  | tail _ _ ih => exact List.mem_cons_of_mem _ ih

theorem Returns.gives (hv : t.Returns ρ e (.ok v)) (h : (eval t n ρ e).Ended) :
    (eval t n ρ e).Gives v := by
  obtain ⟨m, hm⟩ := hv
  exact h.gives (eval_within (Nat.le_max_left n m) t ρ e)
    (eval_within (Nat.le_max_right n m) t ρ e) hm

theorem ReturnsAll.gives (hvs : t.ReturnsAll ρ es vs) (h : (es.mapM (eval t n ρ)).Ended) :
    (es.mapM (eval t n ρ)).Gives vs := by
  obtain ⟨m, hm⟩ := hvs
  exact h.gives (.mapM fun a _ => eval_within (Nat.le_max_left n m) t ρ a)
    (.mapM fun a _ => eval_within (Nat.le_max_right n m) t ρ a) hm

theorem ended_mapM_iff :
    (es.mapM (eval t n ρ)).Ended ↔ ∀ a, t.Reached ρ es a → (eval t n ρ a).Ended := by
  induction es with
  | nil => exact ⟨fun _ => nofun, fun _ => .pure []⟩
  | cons b es ih =>
    rw [List.mapM_cons, ended_bind_iff]
    constructor
    · intro ⟨hb, hes⟩ a ha
      cases ha with
      | head => exact hb
      | tail hv ha => exact ih.1 (ended_bind_iff.1 (hes _ (hv.gives hb))).1 a ha
    · intro h
      refine ⟨h b .head, fun v hv => ended_bind_iff.2 ⟨ih.2 fun a ha => ?_, fun vs _ => .pure _⟩⟩
      exact h a (.tail ⟨n, hv⟩ ha)

/-- The fuel for a term is one more than all that it hands over takes. -/
theorem ended_succ_iff : (eval t (n + 1) ρ e).Ended ↔
    ∀ ρ' e', t.Hands ρ e ρ' e' → (eval t n ρ' e').Ended := by
  cases e with
  | var x =>
    refine ⟨fun _ => nofun, fun _ => ?_⟩
    rw [eval]
    split
    · exact .pure _
    · exact ⟨_, rfl⟩
  | field e f =>
    rw [eval, ended_bind_iff]
    constructor
    · intro h ρ' e' hands
      cases hands
      exact h.1
    · exact fun h => ⟨h ρ e .field, fun v _ => .lift _⟩
  | call e m Vs es =>
    rw [eval, ended_bind_iff]
    simp only [ended_bind_iff (f := fun vs => _ >>= _), ended_mapM_iff]
    constructor
    · intro ⟨he, h⟩ ρ' e' hands
      cases hands with
      | receiver => exact he
      | argument hv ha => exact (h _ (hv.gives he)).1 _ ha
      | body hv hvs hb =>
        have hargs := h _ (hv.gives he)
        exact (ended_bind_iff.1 (hargs.2 _ (hvs.gives (ended_mapM_iff.2 hargs.1)))).2 _
          (gives_lift_iff.2 hb)
    · intro h
      refine ⟨h ρ e .receiver, fun v hv => ⟨fun a ha => h ρ a (.argument ⟨n, hv⟩ ha), ?_⟩⟩
      refine fun vs hvs => ended_bind_iff.2 ⟨.lift _, fun (frame, body) hb => ?_⟩
      exact h _ _ (.body ⟨n, hv⟩ ⟨n, hvs⟩ (gives_lift_iff.1 hb))
  | new N es =>
    rw [eval, ended_bind_iff, ended_mapM_iff]
    constructor
    · intro ⟨h, _⟩ ρ' e' hands
      cases hands with
      | fieldValue ha => exact h _ ha
    · exact fun h => ⟨fun a ha => h ρ a (.fieldValue ha), fun vs _ => .pure _⟩
  | cast N e =>
    rw [eval, ended_bind_iff]
    constructor
    · intro h ρ' e' hands
      cases hands
      exact h.1
    · exact fun h => ⟨h ρ e .cast, fun v _ => .lift _⟩

/-- Evaluation of the first term in the first environment gets to evaluating the second. -/
inductive Visits (t : ClassTable) (ρ : Env) (e : Term) : Env → Term → Prop where
  | start : Visits t ρ e ρ e
  | step {ρ₁ ρ₂ : Env} {e₁ e₂ : Term} (h : Visits t ρ e ρ₁ e₁) (hands : t.Hands ρ₁ e₁ ρ₂ e₂) :
      Visits t ρ e ρ₂ e₂

end ClassTable

end Featherweight

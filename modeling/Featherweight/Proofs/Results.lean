import Featherweight.Evaluation
import Featherweight.Typing.Fault

/-!
# When a computation succeeds

A computation that may fail succeeds when each of its steps does. The lemmas take
such a computation apart, one for each way to put it together.
-/

namespace Featherweight

variable {ε ε' α β : Type}

theorem ok_bind (a : α) (f : α → Except ε β) : (.ok a >>= f) = f a := rfl

theorem bind_eq_ok_iff {x : Except ε α} {f : α → Except ε β} {b : β} :
    (x >>= f) = .ok b ↔ ∃ a, x = .ok a ∧ f a = .ok b := by
  cases x with
  | ok a =>
    constructor
    · exact fun h => ⟨a, rfl, h⟩
    · rintro ⟨_, ha, h⟩
      cases ha
      exact h
  | error e =>
    constructor
    · exact nofun
    · rintro ⟨_, ha, _⟩
      cases ha

theorem bind_eq_error_iff {x : Except ε α} {f : α → Except ε β} {e : ε} :
    (x >>= f) = .error e ↔ x = .error e ∨ ∃ a, x = .ok a ∧ f a = .error e := by
  cases x with
  | ok a =>
    change f a = .error e ↔ _
    simp
  | error e' =>
    change Except.error e' = .error e ↔ _
    simp

theorem bind_pure_eq_error_iff {x : Except ε α} {f : α → β} {e : ε} :
    (x >>= fun a => pure (f a)) = .error e ↔ x = .error e := by
  rw [bind_eq_error_iff]
  refine or_iff_left ?_
  rintro ⟨a, -, ha⟩
  cases ha

theorem exists_unit_iff {p : Unit → Prop} : (∃ u, p u) ↔ p () :=
  ⟨fun ⟨(), h⟩ => h, fun h => ⟨(), h⟩⟩

theorem pure_eq_ok_iff {a b : α} : (pure a : Except ε α) = .ok b ↔ a = b := by
  simp [pure, Except.pure]

theorem mapError_eq_ok_iff {f : ε → ε'} {x : Except ε α} {a : α} :
    x.mapError f = .ok a ↔ x = .ok a := by
  cases x with
  | error fault =>
    change Except.error (f fault) = .ok a ↔ _
    simp
  | ok b =>
    change Except.ok b = .ok a ↔ _
    simp

theorem map_eq_ok_iff {f : α → β} {x : Except ε α} {b : β} :
    x.map f = .ok b ↔ ∃ a, x = .ok a ∧ f a = b := by
  cases x <;> simp [Except.map]

theorem map_eq_error_iff {f : α → β} {x : Except ε α} {e : ε} :
    x.map f = .error e ↔ x = .error e := by
  cases x <;> simp [Except.map]

theorem throw_ne_ok {e : ε} {a : α} : (throw e : Except ε α) ≠ .ok a :=
  nofun

theorem throw_eq_error_iff {e e' : ε} : (throw e : Except ε α) = .error e' ↔ e = e' := by
  change Except.error e = .error e' ↔ _
  simp

theorem liftTable_eq_ok_iff {x : Except TableFault α} {a : α} :
    (liftM x : Except TypeFault α) = .ok a ↔ x = .ok a :=
  mapError_eq_ok_iff

theorem liftEval_eq_ok_iff {x : Except TableFault α} {a : α} :
    (liftM x : Except EvalFault α) = .ok a ↔ x = .ok a :=
  mapError_eq_ok_iff

theorem exists_table_of_liftEval {x : Except TableFault α} {e : EvalFault}
    (h : (liftM x : Except EvalFault α) = .error e) : ∃ fault, e = .table fault := by
  cases x with
  | error fault => exact ⟨fault, (Except.error.inj h).symm⟩
  | ok a => cases h

theorem forM_eq_ok_iff {f : α → Except ε Unit} {as : List α} :
    as.forM f = .ok () ↔ ∀ a ∈ as, f a = .ok () := by
  induction as with
  | nil => simp [pure_eq_ok_iff]
  | cons a as ih =>
    change (f a >>= fun _ => as.forM f) = .ok () ↔ _
    rw [bind_eq_ok_iff, exists_unit_iff, List.forall_mem_cons, ih]

theorem forM_eq_error_iff {f : α → Except ε Unit} {as : List α} {e : ε} :
    as.forM f = .error e ↔
      ∃ pre a post, as = pre ++ a :: post ∧ (∀ b ∈ pre, f b = .ok ()) ∧ f a = .error e := by
  induction as with
  | nil =>
    change Except.ok () = .error e ↔ _
    simp
  | cons a as ih =>
    change (f a >>= fun _ => as.forM f) = .error e ↔ _
    rw [bind_eq_error_iff, exists_unit_iff, ih]
    constructor
    · rintro (h | ⟨ha, pre, b, post, rfl, hpre, hb⟩)
      · exact ⟨[], a, as, rfl, by simp, h⟩
      · exact ⟨a :: pre, b, post, rfl, List.forall_mem_cons.2 ⟨ha, hpre⟩, hb⟩
    · rintro ⟨pre, b, post, has, hpre, hb⟩
      cases pre with
      | nil =>
        cases has
        exact .inl hb
      | cons c pre =>
        cases has
        rw [List.forall_mem_cons] at hpre
        exact .inr ⟨hpre.1, pre, b, post, rfl, hpre.2, hb⟩

/-- The result is a value in `p` or a fault in `q`. -/
def Meets (p : α → Prop) (q : ε → Prop) : Except ε α → Prop
  | .ok a => p a
  | .error e => q e

theorem meets_of_ok {p : α → Prop} {x : Except ε α} (h : ∀ a, x = .ok a → p a) :
    Meets p (fun _ => True) x := by
  cases x with
  | ok a => exact h a rfl
  | error e => trivial

section Meets

variable {x : Except ε α} {p : α → Prop} {q : ε → Prop}

theorem Meets.bind {f : α → Except ε β} {p' : β → Prop} (hx : Meets p q x)
    (hf : ∀ a, p a → Meets p' q (f a)) : Meets p' q (x >>= f) := by
  cases x with
  | ok a => exact hf a hx
  | error e => exact hx

theorem Meets.mapError {k : ε → ε'} {q' : ε' → Prop} (hx : Meets p q x)
    (hk : ∀ e, q e → q' (k e)) : Meets p q' (x.mapError k) := by
  cases x with
  | ok a => exact hx
  | error e => exact hk e hx

theorem Meets.forM {f : β → Except ε Unit} {bs : List β}
    (h : ∀ b ∈ bs, Meets (fun _ => True) q (f b)) : Meets (fun _ => True) q (bs.forM f) := by
  induction bs with
  | nil => trivial
  | cons b bs ih =>
    rw [List.forall_mem_cons] at h
    exact h.1.bind fun _ _ => ih h.2

theorem meets_require {P : Prop} [Decidable P] {fault : ε} (h : q fault) :
    Meets (fun _ => True) q (require P fault) := by
  unfold require
  split
  · trivial
  · exact h

end Meets

instance decidableExistsOk (x : Except ε α) : Decidable (∃ a, x = .ok a) :=
  match x with
  | .ok a => isTrue ⟨a, rfl⟩
  | .error _ => isFalse nofun

namespace Attempt

variable {x : Attempt ε α} {f : α → Attempt ε β} {a : α} {b : β}

def Gives (x : Attempt ε α) (a : α) : Prop := x.run = some (.ok a)

theorem Gives.unique {a' : α} (h : x.Gives a) (h' : x.Gives a') : a = a' :=
  Except.ok.inj (Option.some.inj (h.symm.trans h'))

theorem gives_bind_iff : Gives (x >>= f) b ↔ ∃ a, Gives x a ∧ Gives (f a) b := by
  unfold Gives
  rw [ExceptT.run_bind]
  cases x.run with
  | none =>
    constructor
    · exact nofun
    · rintro ⟨_, ha, _⟩
      cases ha
  | some r =>
    cases r with
    | ok a =>
      constructor
      · exact fun h => ⟨a, rfl, h⟩
      · rintro ⟨_, ha, h⟩
        cases ha
        exact h
    | error e =>
      constructor
      · exact nofun
      · rintro ⟨_, ha, _⟩
        cases ha

theorem gives_lift_iff {y : Except ε α} : Gives (liftM y : Attempt ε α) a ↔ y = .ok a := by
  change some y = some (.ok a) ↔ _
  simp

theorem gives_adapt_iff {g : ε → ε'} : Gives (x.adapt g) a ↔ Gives x a := by
  have hrun : (x.adapt g).run = x.run.map (Except.mapError g) := rfl
  rw [Gives, hrun]
  simp [Gives, mapError_eq_ok_iff]

def Yields (x : Attempt ε α) (p : α → Prop) : Prop := ∃ a, x.Gives a ∧ p a

instance (x : Attempt ε α) (p : α → Prop) [DecidablePred p] : Decidable (x.Yields p) :=
  match h : x.run with
  | some (.ok a) =>
    decidable_of_iff (p a) ⟨fun ha => ⟨a, h, ha⟩, fun ⟨_, hb, hp⟩ => hb.unique h ▸ hp⟩
  | some (.error _) => isFalse fun ⟨_, hb, _⟩ => nomatch h.symm.trans hb
  | none => isFalse fun ⟨_, hb, _⟩ => nomatch h.symm.trans hb

section Meets

variable {p : α → Prop} {p' : β → Prop} {q : ε → Prop}

def Meets (x : Attempt ε α) (p : α → Prop) (q : ε → Prop) : Prop :=
  ∀ r, x.run = some r → Featherweight.Meets p q r

theorem Meets.noResult : Meets (noResult : Attempt ε α) p q :=
  nofun

theorem Meets.trivial : Meets x (fun _ => True) (fun _ => True) := fun _ _ =>
  meets_of_ok fun _ _ => .intro

theorem Meets.lift {y : Except ε α} (hy : Featherweight.Meets p q y) :
    Meets (liftM y : Attempt ε α) p q := by
  intro r hr
  cases hr
  exact hy

theorem Meets.bind (hx : Meets x p q) (hf : ∀ a, p a → Meets (f a) p' q) :
    Meets (x >>= f) p' q := by
  intro r hr
  rw [ExceptT.run_bind] at hr
  obtain ⟨s, hs, hr⟩ := Option.bind_eq_some_iff.1 hr
  have hmeets := hx s hs
  cases s with
  | ok a => exact hf a hmeets r hr
  | error e =>
    cases hr
    exact hmeets

end Meets

section Agree

variable {y : Attempt ε α} {g : α → Attempt ε β} {p : α → Prop} {p' : β → Prop} {q : ε → Prop}

/-- The attempts are the same, and a result of theirs is a value in `p` or a fault in `q`. -/
def Agree (x y : Attempt ε α) (p : α → Prop) (q : ε → Prop) : Prop := x = y ∧ y.Meets p q

theorem Agree.refl (x : Attempt ε α) : Agree x x (fun _ => True) (fun _ => True) :=
  ⟨rfl, .trivial⟩

theorem Agree.lift {y z : Except ε α} (h : y = z) (hz : Featherweight.Meets p q z) :
    Agree (liftM y : Attempt ε α) (liftM z) p q :=
  ⟨by rw [h], .lift hz⟩

theorem Agree.pure {a : α} (ha : p a) : Agree (pure a : Attempt ε α) (pure a) p q :=
  .lift (z := .ok a) rfl ha

theorem Agree.throw {e : ε} (he : q e) : Agree (throw e : Attempt ε α) (throw e) p q :=
  .lift (z := .error e) rfl he

theorem Agree.bind (h : Agree x y p q) (hf : ∀ a, p a → Agree (f a) (g a) p' q) :
    Agree (x >>= f) (y >>= g) p' q := by
  obtain ⟨rfl, hp⟩ := h
  refine ⟨?_, hp.bind fun a ha => (hf a ha).2⟩
  refine ExceptT.ext ?_
  rw [ExceptT.run_bind, ExceptT.run_bind]
  refine Option.bind_congr fun r hr => ?_
  cases r with
  | error e => rfl
  | ok a => exact congrArg ExceptT.run (hf a (hp _ hr)).1

theorem Agree.mapM {f g : β → Attempt ε α} {bs : List β}
    (h : ∀ b ∈ bs, Agree (f b) (g b) p q) :
    Agree (bs.mapM f) (bs.mapM g) (fun as => ∀ a ∈ as, p a) q := by
  induction bs with
  | nil => exact .pure (by simp)
  | cons b bs ih =>
    rw [List.forall_mem_cons] at h
    rw [List.mapM_cons, List.mapM_cons]
    refine h.1.bind fun a ha => (ih h.2).bind fun as has => .pure ?_
    rw [List.forall_mem_cons]
    exact ⟨ha, has⟩

end Agree

end Attempt

end Featherweight

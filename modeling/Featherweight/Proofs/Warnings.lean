import Featherweight.Proofs.LargerTables

/-!
# How warnings gather

A check only appends warnings: it gives the same result whatever warnings there are
already, and puts its own behind them. So the warnings of a list of checks that succeed
are those of the single checks, one after the other.
-/

namespace Featherweight

namespace CheckM

variable {ε ε' α β : Type} {x : CheckM ε α} {f : α → CheckM ε β}

/-- The warnings of the check, and whether it succeeds, do not depend on earlier warnings. -/
def Appends (x : CheckM ε α) : Prop :=
  ∀ w, x.run.run w = ((x.run.run []).1, w ++ (x.run.run []).2)

namespace Appends

theorem pure (a : α) : Appends (pure a : CheckM ε α) := fun w =>
  Prod.ext rfl (List.append_nil w).symm

theorem throw (e : ε) : Appends (throw e : CheckM ε α) := fun w =>
  Prod.ext rfl (List.append_nil w).symm

theorem lift (y : Except TypeFault α) : Appends (liftM y : CheckM TypeFault α) := fun w =>
  Prod.ext rfl (List.append_nil w).symm

theorem warn (ws : List Warning) : Appends (modify (· ++ ws) : CheckM ε Unit) := fun _ => rfl

theorem bind (hx : x.Appends) (hf : ∀ a, (f a).Appends) : Appends (x >>= f) := by
  intro w
  rw [ExceptT.run_bind, StateT.run_bind, StateT.run_bind, hx w]
  cases x.run.run [] with
  | mk r u =>
    cases r with
    | error e => rfl
    | ok a =>
      have hw : (f a).run.run (w ++ u) = _ := hf a (w ++ u)
      have hu : (f a).run.run u = _ := hf a u
      change (f a).run.run (w ++ u) = (((f a).run.run u).1, w ++ ((f a).run.run u).2)
      rw [hw, hu, List.append_assoc]

theorem adapt {k : ε → ε'} (hx : x.Appends) : Appends (x.adapt k) := by
  intro w
  rw [run_adapt, run_adapt, hx w]

theorem forM {f : β → CheckM ε Unit} {bs : List β} (h : ∀ b ∈ bs, (f b).Appends) :
    Appends (bs.forM f) := by
  induction bs with
  | nil => exact .pure ()
  | cons b bs ih =>
    rw [List.forall_mem_cons] at h
    exact h.1.bind fun _ => ih h.2

end Appends

theorem run_forM_eq_ok_iff {f : β → CheckM ε Unit} {bs : List β} (h : ∀ b ∈ bs, (f b).Appends)
    {w w' : List Warning} : (bs.forM f).run.run w = (.ok (), w') ↔
      (∀ b ∈ bs, ((f b).run.run []).1 = .ok ()) ∧
        w' = w ++ bs.flatMap fun b => ((f b).run.run []).2 := by
  induction bs generalizing w with
  | nil =>
    change (Except.ok (), w) = (.ok (), w') ↔ _
    simp [eq_comm]
  | cons b bs ih =>
    rw [List.forall_mem_cons] at h
    change (f b >>= fun _ => bs.forM f).run.run w = (.ok (), w') ↔ _
    rw [run_bind_eq_ok_iff, exists_unit_iff, h.1 w, List.forall_mem_cons, List.flatMap_cons,
      ← List.append_assoc]
    constructor
    · rintro ⟨w₁, hrun, hbs⟩
      obtain ⟨hb, rfl⟩ := Prod.mk.inj hrun
      obtain ⟨hbs, hw⟩ := (ih h.2).1 hbs
      exact ⟨⟨hb, hbs⟩, hw⟩
    · rintro ⟨⟨hb, hbs⟩, hw⟩
      exact ⟨_, Prod.ext hb rfl, (ih h.2).2 ⟨hbs, hw⟩⟩

theorem run_forM_perm {f : β → CheckM ε Unit} {as bs : List β} (hperm : bs.Perm as)
    (h : ∀ b, (f b).Appends) {w w' : List Warning} (hrun : (as.forM f).run.run w = (.ok (), w')) :
    ∃ w'', w''.Perm w' ∧ (bs.forM f).run.run w = (.ok (), w'') := by
  obtain ⟨has, rfl⟩ := (run_forM_eq_ok_iff fun b _ => h b).1 hrun
  have hbs : ∀ b ∈ bs, ((f b).run.run []).1 = .ok () := fun b hb => has b (hperm.mem_iff.1 hb)
  refine ⟨_, ?_, (run_forM_eq_ok_iff fun b _ => h b).2 ⟨hbs, rfl⟩⟩
  exact (hperm.flatMap_right _).append_left w

end CheckM

namespace Typing

open CheckM

variable (t : ClassTable) (Δ : TypeEnv) (Γ : VarEnv) (site : Span)

theorem requireArgs_appends {es : List Term} (Ps : List Ty)
    (hes : ∀ e ∈ es, (typeOf t Δ Γ site e).Appends) : (requireArgs t Δ Γ site es Ps).Appends := by
  induction es generalizing Ps with
  | nil => exact .pure ()
  | cons e es ih =>
    cases Ps with
    | nil => exact .pure ()
    | cons P Ps =>
      rw [List.forall_mem_cons] at hes
      rw [requireArgs]
      exact hes.1.bind fun S => (Appends.lift _).bind fun _ => ih Ps hes.2

theorem typeOf_appends (e : Term) : (typeOf t Δ Γ site e).Appends := by
  induction e using Term.induction with
  | var x =>
    rw [typeOf]
    split
    · exact .pure _
    · exact .throw _
  | field e f ih =>
    rw [typeOf]
    exact ih.bind fun T => (Appends.lift _).bind fun N => .lift _
  | call e m Vs es ih ihs =>
    rw [typeOf]
    refine ih.bind fun T => (Appends.lift _).bind fun N => (Appends.lift _).bind fun q => ?_
    exact (requireArgs_appends t Δ Γ site q.1 ihs).bind fun _ => .pure _
  | new N es ihs =>
    rw [typeOf]
    refine (Appends.lift _).bind fun Ps => ?_
    exact (requireArgs_appends t Δ Γ site Ps ihs).bind fun _ => .pure _
  | cast N e ih =>
    rw [typeOf]
    refine (Appends.lift _).bind fun _ => ih.bind fun T => (Appends.lift _).bind fun M => ?_
    exact (Appends.lift _).bind fun b => (Appends.warn _).bind fun _ => .pure _

omit Δ Γ site

theorem requireMethod_appends (c : ClassDecl) (d : MethodDecl) : (requireMethod t c d).Appends :=
  (Appends.lift _).bind fun _ => (typeOf_appends t _ _ _ d.body).bind fun _ =>
    (Appends.lift _).bind fun _ => .lift _

theorem requireClass_appends (c : ClassDecl) : (requireClass t c).Appends :=
  (Appends.lift _).adapt.bind fun _ => .forM fun d _ => (requireMethod_appends t c d).adapt

theorem typeOfProgram_appends (p : Program) : (typeOfProgram t p).Appends :=
  (Appends.forM fun c _ => requireClass_appends t c).bind fun _ =>
    (typeOf_appends t _ _ _ p.term).adapt

theorem typeOfProgram_perm {p : Program} {classes : List ClassDecl} {T : Ty} {w : List Warning}
    (hperm : classes.Perm p.classes) (h : (typeOfProgram t p).run.run [] = (.ok T, w)) :
    ∃ w', w'.Perm w ∧
      (typeOfProgram t { p with classes := classes }).run.run [] = (.ok T, w') := by
  obtain ⟨_, w₁, hclasses, hterm⟩ := run_bind_eq_ok_iff.1 h
  obtain ⟨w₂, hw, hclasses'⟩ := run_forM_perm hperm (requireClass_appends t) hclasses
  have happends : (blame p.span (typeOf t .empty [] p.span p.term)).Appends :=
    (typeOf_appends t _ _ _ p.term).adapt
  rw [happends w₁] at hterm
  obtain ⟨hT, rfl⟩ := Prod.mk.inj hterm
  refine ⟨_, hw.append_right _, run_bind_eq_ok_iff.2 ⟨(), w₂, hclasses', ?_⟩⟩
  rw [happends w₂]
  exact Prod.ext hT rfl

end Typing

end Featherweight

import Featherweight.Proofs.FieldLayout
import Featherweight.Proofs.SubtypeOrder

/-!
# Casts

A cast looks at the class type of the value. Checking knows only a supertype of it, the
static type of the operand. Supertypes of one class type form a chain, so a class type below
the static type is below the target only if one of the two extends the other. Hence a cast
between unrelated class types fails for every value, and a cast to a supertype never does.
-/

namespace Featherweight

namespace Typing

variable {t : ClassTable} {Δ : TypeEnv} {M N : ClassTy}

theorem related_eq_false_iff : related t Δ M N = .ok false ↔
    t.subtype Δ M.toTy N.toTy = .ok false ∧ t.subtype Δ N.toTy M.toTy = .ok false := by
  rw [related, bind_eq_ok_iff]
  constructor
  · rintro ⟨b, hMN, h⟩
    cases b with
    | true => cases pure_eq_ok_iff.1 h
    | false => exact ⟨hMN, h⟩
  · rintro ⟨hMN, hNM⟩
    exact ⟨false, hMN, hNM⟩

theorem subtype_or_of_related (h : related t Δ M N = .ok true) :
    t.subtype Δ M.toTy N.toTy = .ok true ∨ t.subtype Δ N.toTy M.toTy = .ok true := by
  obtain ⟨b, hMN, h⟩ := bind_eq_ok_iff.1 h
  cases b with
  | true => exact .inl hMN
  | false => exact .inr h

end Typing

theorem Value.castTo_eq_badCast {t : ClassTable} {v : Value} {N : ClassTy}
    (h : t.subtype .empty v.cls.toTy N.toTy = .ok false) :
    v.castTo t N = .error (.badCast v N) := by
  rw [Value.castTo, h]
  rfl

namespace ClassTable

open Attempt

variable {t : ClassTable} {Δ : TypeEnv} {F N : ClassTy} {S T : Ty} {ρ : Env} {e : Term}
  {v : Value}

theorem Returns.cast_fault {fault : EvalFault} (h : t.Returns ρ e (.ok v))
    (hv : v.castTo t N = .error fault) : t.Returns ρ (.cast N e) (.error fault) := by
  obtain ⟨n, hn⟩ := h
  refine ⟨n + 1, ?_⟩
  change (eval t n ρ e >>= fun v => liftM (v.castTo t N)).run = _
  rw [ExceptT.run_bind, hn]
  change some (v.castTo t N) = _
  rw [hv]

section Valid

variable (hv : t.Valid)
include hv

theorem Valid.supertypes_total (hS : t.Subtype Δ N.toTy S) (hT : t.Subtype Δ N.toTy T) :
    t.Subtype Δ S T ∨ t.Subtype Δ T S := by
  rcases hv.subtype_iff.1 hS with rfl | ⟨N', M, hN, hM, rfl⟩
  · exact .inl hT
  · rcases hv.subtype_iff.1 hT with rfl | ⟨N'', K, hN', hK, rfl⟩
    · exact .inr hS
    · cases hN
      cases hN'
      exact (hM.total hK).imp hv.subtype_of_below hv.subtype_of_below

theorem Valid.subtype_eq_false_of_unrelated (h : t.Subtype Δ N.toTy F.toTy)
    (hFT : t.subtype Δ F.toTy T = .ok false) (hTF : t.subtype Δ T F.toTy = .ok false) :
    t.subtype Δ N.toTy T = .ok false := by
  cases hv.below_of_subtype h with
  | refl => exact hFT
  | step _ ha _ =>
    obtain ⟨as, has, -⟩ := hv.exists_chain ha
    obtain ⟨b, hb⟩ := hv.exists_subtype_of_chain has Δ T
    cases b with
    | false => exact hb
    | true =>
      rcases hv.supertypes_total h hb with hup | hdown
      · cases hFT.symm.trans hup
      · cases hTF.symm.trans hdown

end Valid

/-- Of a value whose class type lies below `F`, a cast to a supertype of `F` gives the value
back, and a cast to a class type that checking warns about never succeeds. -/
theorem casts_definite {classes : List ClassDecl} (ht : ofClasses classes = .ok t)
    (F T : ClassTy) :
    (∀ v : Value, t.subtype .empty v.cls.toTy F.toTy = .ok true →
      (t.subtype .empty F.toTy T.toTy = .ok true → v.castTo t T = .ok v ∧
        ∀ ρ e, t.Returns ρ e (.ok v) → t.Returns ρ (.cast T e) (.ok v)) ∧
      (t.subtype .empty F.toTy T.toTy = .ok false → t.subtype .empty T.toTy F.toTy = .ok false →
        v.castTo t T = .error (.badCast v T) ∧
        ∀ ρ e, t.Returns ρ e (.ok v) → t.Returns ρ (.cast T e) (.error (.badCast v T)))) ∧
    (Typing.related t .empty F T = .ok false ↔
      t.subtype .empty F.toTy T.toTy = .ok false ∧ t.subtype .empty T.toTy F.toTy = .ok false) ∧
    ∀ (N : ClassTy) (S U : Ty), t.subtype .empty N.toTy S = .ok true →
      t.subtype .empty N.toTy U = .ok true →
        t.subtype .empty S U = .ok true ∨ t.subtype .empty U S = .ok true := by
  obtain ⟨-, hv⟩ := ofClasses_eq_ok_iff.1 ht
  refine ⟨fun v hF => ⟨fun hT => ?_, fun hFT hTF => ?_⟩, Typing.related_eq_false_iff,
    fun N S U => hv.supertypes_total⟩
  · have hcast : v.castTo t T = .ok v := Value.castTo_eq_ok_iff.2 ⟨hv.subtype_trans hF hT, rfl⟩
    exact ⟨hcast, fun ρ e he => he.cast hcast⟩
  · have hcast := Value.castTo_eq_badCast (hv.subtype_eq_false_of_unrelated hF hFT hTF)
    exact ⟨hcast, fun ρ e he => he.cast_fault hcast⟩

theorem casts_definite_layered :
    ∃ t, ofClasses layeredClasses = .ok t ∧
      let object : Value := ⟨.object, []⟩
      let box : Value := ⟨⟨"Box", [.inst "Object" []]⟩, [object]⟩
      let sub : Value := ⟨⟨"Sub", [.inst "Object" []]⟩, [box, object]⟩
      let boxes : ClassTy := ⟨"Box", [box.cls.toTy]⟩
      t.subtype .empty sub.cls.toTy boxes.toTy = .ok true ∧
        t.subtype .empty boxes.toTy ClassTy.object.toTy = .ok true ∧
        t.Returns .empty (.cast .object sub.toTerm) (.ok sub) ∧
        t.subtype .empty boxes.toTy box.cls.toTy = .ok false ∧
        t.subtype .empty box.cls.toTy boxes.toTy = .ok false ∧
        t.Returns .empty (.cast box.cls sub.toTerm) (.error (.badCast sub box.cls)) ∧
        t.subtype .empty sub.cls.toTy ClassTy.object.toTy = .ok true ∧
        (t.subtype .empty boxes.toTy ClassTy.object.toTy = .ok true ∨
          t.subtype .empty ClassTy.object.toTy boxes.toTy = .ok true) := by
  have ht : ofClasses layeredClasses = .ok ⟨layeredClasses⟩ := by decide
  let t : ClassTable := ⟨layeredClasses⟩
  let object : Value := ⟨.object, []⟩
  let box : Value := ⟨⟨"Box", [.inst "Object" []]⟩, [object]⟩
  let sub : Value := ⟨⟨"Sub", [.inst "Object" []]⟩, [box, object]⟩
  let boxes : ClassTy := ⟨"Box", [box.cls.toTy]⟩
  have hrun : t.Returns .empty sub.toTerm (.ok sub) := ⟨3, rfl⟩
  have hsub : t.subtype .empty sub.cls.toTy boxes.toTy = .ok true := by decide
  have hup : t.subtype .empty boxes.toTy ClassTy.object.toTy = .ok true := by decide
  have hroot : t.subtype .empty sub.cls.toTy ClassTy.object.toTy = .ok true := by decide
  have hdown : t.subtype .empty boxes.toTy box.cls.toTy = .ok false := by decide
  have hdown' : t.subtype .empty box.cls.toTy boxes.toTy = .ok false := by decide
  obtain ⟨hcast, -, hchain⟩ := casts_definite ht boxes .object
  obtain ⟨hbad, -⟩ := casts_definite ht boxes box.cls
  refine ⟨t, ht, hsub, hup, ((hcast sub hsub).1 hup).2 _ _ hrun, hdown, hdown', ?_, hroot, ?_⟩
  · exact ((hbad sub hsub).2 hdown hdown').2 _ _ hrun
  · exact hchain sub.cls _ _ hsub hroot

end ClassTable

end Featherweight

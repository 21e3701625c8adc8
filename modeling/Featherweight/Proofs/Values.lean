import Featherweight.Evaluation
import Featherweight.Proofs.Lookups

/-!
# Typed values and types in values

A value is typed when its class type is well formed and each field holds a typed value
of a subtype of the field's type, at any depth. A typed value has every field of the
types it fits, can be cast without a fault of the table, and its method runs in a frame
where each name has the value that its declared type promises.

Whatever holds of all types in a value holds of all types in its fields; `AllTypes` says
this of values, environments and faults.
-/

namespace Featherweight

/-- The value and all values inside it hold what their classes declare. -/
inductive Value.Typed (t : ClassTable) : Value → Prop where
  | mk {N : ClassTy} {vs : List Value} {fs : List Binding} (hN : t.WellFormed .empty N.toTy)
      (hfs : t.fields N = .ok fs) (hlen : vs.length = fs.length) (hvs : ∀ v ∈ vs, Typed t v)
      (hsub : ∀ q ∈ vs.zip fs, t.Subtype .empty q.1.cls.toTy q.2.ty) : Typed t ⟨N, vs⟩

structure Value.Fits (t : ClassTable) (v : Value) (T : Ty) : Prop where
  typed : v.Typed t
  subtype : t.Subtype .empty v.cls.toTy T

def MethodDecl.frame (d : MethodDecl) (args : List Value) (v : Value) : Frame :=
  d.paramNames.zip args ++ [("this", v)]

namespace Value

variable {t : ClassTable} {v : Value} {S T : Ty} {N : ClassTy} {f : String} {b : Binding}
  {gs : List Binding}

theorem Typed.wellFormed (h : v.Typed t) : t.WellFormed .empty v.cls.toTy := by
  cases h with
  | mk hN _ _ _ _ => exact hN

theorem Fits.mono (hv : t.Valid) (h : v.Fits t S) (hST : t.Subtype .empty S T) : v.Fits t T :=
  ⟨h.typed, hv.subtype_trans h.subtype hST⟩

theorem get_eq_ok_iff {w : Value} : v.get t f = .ok w ↔
    ∃ fs i, t.fields v.cls = .ok fs ∧ fs.findIdx? (·.name = f) = some i ∧
      v.fields[i]? = some w := by
  simp only [Value.get, bind_eq_ok_iff, liftEval_eq_ok_iff]
  constructor
  · rintro ⟨fs, hfs, h⟩
    split at h
    · next w' hw =>
      cases pure_eq_ok_iff.1 h
      obtain ⟨i, hi, hw⟩ := Option.bind_eq_some_iff.1 hw
      exact ⟨fs, i, hfs, hi, hw⟩
    · exact absurd h throw_ne_ok
  · rintro ⟨fs, i, hfs, hi, hw⟩
    refine ⟨fs, hfs, ?_⟩
    rw [hi, Option.bind_some, hw]
    rfl

theorem Fits.get (hv : t.Valid) (h : v.Fits t N.toTy) (hgs : t.fields N = .ok gs)
    (hb : gs.find? (·.name = f) = some b) : ∃ w, v.get t f = .ok w ∧ w.Fits t b.ty := by
  obtain ⟨htyped, hsub⟩ := h
  cases htyped with
  | @mk M vs fs hM hfs hlen hvs hvsub =>
    obtain ⟨gs', hgs', hpre⟩ := hv.fields_prefix (hv.below_of_subtype hsub) hfs
    cases hgs.symm.trans hgs'
    rw [List.find?_eq_bind_findIdx?_getElem?, Option.bind_eq_some_iff] at hb
    obtain ⟨i, hi, hib⟩ := hb
    obtain ⟨hilt, rfl⟩ := List.getElem?_eq_some_iff.1 hib
    have hifs : i < fs.length := Nat.lt_of_lt_of_le hilt hpre.length_le
    have hivs : i < vs.length := hlen ▸ hifs
    have hmem : (vs[i], fs[i]) ∈ vs.zip fs := getElem_mem_zip hivs hifs
    refine ⟨vs[i], get_eq_ok_iff.2 ⟨fs, i, hfs, hpre.findIdx?_eq_some hi, ?_⟩,
      hvs _ (List.getElem_mem _), ?_⟩
    · exact List.getElem?_eq_getElem hivs
    · rw [hpre.getElem hilt]
      exact hvsub _ hmem

theorem Typed.castTo (hv : t.Valid) (h : v.Typed t) (N : ClassTy) :
    v.castTo t N = .error (.badCast v N) ∨ v.castTo t N = .ok v ∧ v.Fits t N.toTy := by
  obtain ⟨as, has⟩ := hv.exists_chain_of_wellFormed h.wellFormed
  obtain ⟨b, hb⟩ := hv.exists_subtype_of_chain has .empty N.toTy
  cases b with
  | false =>
    left
    simp only [Value.castTo, hb]
    rfl
  | true =>
    refine .inr ⟨?_, h, hb⟩
    simp only [Value.castTo, hb]
    rfl

theorem castTo_eq_ok_iff {w : Value} :
    v.castTo t N = .ok w ↔ t.Subtype .empty v.cls.toTy N.toTy ∧ v = w := by
  simp only [Value.castTo, bind_eq_ok_iff, liftEval_eq_ok_iff]
  constructor
  · rintro ⟨b, hb, h⟩
    cases b with
    | true => exact ⟨hb, pure_eq_ok_iff.1 h⟩
    | false => exact absurd h throw_ne_ok
  · rintro ⟨hsub, rfl⟩
    exact ⟨true, hsub, rfl⟩

theorem invoke_eq_ok_iff (hv : t.Valid) {m : String} {Vs : List Ty} {args : List Value}
    {frame : Frame} {body : Term} : v.invoke t m Vs args = .ok (frame, body) ↔
      ∃ a d α, t.Finds m v.cls a d ∧ Subst.instantiate d.typeParams Vs = .ok α ∧
        args.length = d.params.length ∧ frame = d.frame args v ∧
        body = α.term (a.subst.term d.body) := by
  simp only [Value.invoke, bind_eq_ok_iff, liftEval_eq_ok_iff, hv.methodBody_eq_ok_iff,
    exists_unit_iff, require_eq_ok_iff, pure_eq_ok_iff, Prod.mk.injEq]
  constructor
  · rintro ⟨_, ⟨a, d, α, hd, hα, rfl⟩, hlen, hframe, hbody⟩
    exact ⟨a, d, α, hd, hα, by simpa [MethodDecl.paramNames] using hlen, hframe.symm, hbody.symm⟩
  · rintro ⟨a, d, α, hd, hα, hlen, hframe, hbody⟩
    exact ⟨_, ⟨a, d, α, hd, hα, rfl⟩, by simpa [MethodDecl.paramNames] using hlen, hframe.symm,
      hbody.symm⟩

end Value

inductive Value.AllTypes (P : Ty → Prop) : Value → Prop where
  | mk {N : ClassTy} {vs : List Value} (hN : P N.toTy) (hvs : ∀ v ∈ vs, AllTypes P v) :
      AllTypes P ⟨N, vs⟩

def Env.AllTypes (P : Ty → Prop) (ρ : Env) : Prop := ∀ x v, ρ.get? x = some v → v.AllTypes P

def EvalFault.AllTypes (P : Ty → Prop) : EvalFault → Prop
  | .badCast v N => v.AllTypes P ∧ P N.toTy
  | .unknownField N _ => P N.toTy
  | _ => True

section AllTypes

variable {P : Ty → Prop}

theorem Value.AllTypes.cls {v : Value} (h : v.AllTypes P) : P v.cls.toTy := by
  cases h with
  | mk hN _ => exact hN

theorem Value.AllTypes.get {t : ClassTable} {v w : Value} {f : String} (h : v.AllTypes P)
    (hw : v.get t f = .ok w) : w.AllTypes P := by
  obtain ⟨fs, i, -, -, hi⟩ := Value.get_eq_ok_iff.1 hw
  cases h with
  | mk _ hvs => exact hvs w (List.mem_of_getElem? hi)

theorem Env.allTypes_empty : Env.empty.AllTypes P := nofun

theorem Env.AllTypes.push {ρ : Env} {frame : Frame} (hρ : ρ.AllTypes P)
    (hframe : ∀ q ∈ frame, q.2.AllTypes P) : (ρ.push frame).AllTypes P := by
  intro x v hx
  rw [Env.get?, Env.push, List.findSome?_cons] at hx
  cases hf : frame.lookup x with
  | none =>
    rw [hf] at hx
    exact hρ x v hx
  | some w =>
    rw [hf] at hx
    cases hx
    exact hframe _ (mem_of_lookup hf)

theorem allTypes_frame {xs : List String} {args : List Value} {v : Value}
    (hargs : ∀ w ∈ args, w.AllTypes P) (hv : v.AllTypes P) :
    ∀ q ∈ xs.zip args ++ [("this", v)], q.2.AllTypes P := by
  intro q hq
  rcases List.mem_append.1 hq with hq | hq
  · exact hargs _ (List.of_mem_zip hq).2
  · cases List.mem_singleton.1 hq
    exact hv

end AllTypes

end Featherweight

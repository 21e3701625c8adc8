import Featherweight.Evaluation
import Featherweight.Proofs.Members
import Featherweight.Proofs.Typing

/-!
# Shadowed type parameters

A method may name a type parameter like one of its class. The checker reads the
declaration with the method's parameter in scope: its bound hides that of the class.
Under this reading a class type replaces only the parameters that the method does not
hide, and a call replaces the method's own.

A look-up does not hide anything. It replaces all type parameters of the class first,
and a call then replaces what is left of the method's, in the arguments of the class
too. So it follows the reading of the checker exactly if each hidden parameter that
the declaration mentions is replaced by the same type either way, and no argument of
the class that the body mentions is changed by the call.
-/

namespace Featherweight

namespace Subst

variable {σ τ α : Subst} {X : String} {names : List String}

def under (σ : Subst) (names : List String) : Subst :=
  ⟨σ.pairs.filter fun p => p.1 ∉ names⟩

/-- Replaces by `α` what `α` has, and else by `σ`, all at once. -/
def orElse (α σ : Subst) : Subst := ⟨α.pairs ++ σ.pairs⟩

theorem lookup_filter_of_mem {ps : List (String × Ty)} (hX : X ∈ names) :
    (ps.filter fun p => p.1 ∉ names).lookup X = none := by
  rw [List.lookup_eq_none_iff]
  intro p hp
  have hne : X ≠ p.1 := by
    rintro rfl
    simp [hX] at hp
  simpa using hne

theorem lookup_filter_of_not_mem {ps : List (String × Ty)} (hX : X ∉ names) :
    (ps.filter fun p => p.1 ∉ names).lookup X = ps.lookup X := by
  induction ps with
  | nil => rfl
  | cons p ps ih =>
    obtain ⟨Y, T⟩ := p
    by_cases hXY : X = Y
    · subst hXY
      simp [hX]
    · have hb : (X == Y) = false := by simpa using hXY
      by_cases hY : Y ∈ names
      · simpa [hY, List.lookup_cons, hb] using ih
      · simpa [hY, List.lookup_cons, hb] using ih

theorem var_under (σ : Subst) (names : List String) (X : String) :
    (σ.under names).var X = if X ∈ names then .var X else σ.var X := by
  split
  · next hX => simp only [var, under, lookup_filter_of_mem hX, Option.getD_none]
  · next hX => simp only [var, under, lookup_filter_of_not_mem hX]

theorem var_orElse (α σ : Subst) (X : String) :
    (α.orElse σ).var X = if X ∈ α.names then α.var X else σ.var X := by
  simp only [var, orElse, List.lookup_append]
  split
  · next hX =>
    obtain ⟨T, hT⟩ := exists_lookup_of_mem hX
    simp [hT]
  · next hX =>
    have hnone : α.pairs.lookup X = none := by
      rw [List.lookup_eq_none_iff]
      intro p hp
      have hne : X ≠ p.1 := fun he => hX (he ▸ List.mem_map_of_mem hp)
      simpa using hne
    simp [hnone]

end Subst

def MethodType.vars (T : MethodType) : List String :=
  T.typeParams.flatMap (·.bound.vars) ++ T.paramTypes.flatMap Ty.vars ++ T.returnType.vars

theorem Subst.methodType_eq_iff {σ τ : Subst} {T : MethodType} :
    σ.methodType T = τ.methodType T ↔ ∀ X ∈ T.vars, σ.var X = τ.var X := by
  simp only [methodType, MethodType.mk.injEq, List.map_inj_left, ty_eq_iff, typeParam,
    TypeParam.mk.injEq, true_and, classTy_eq_iff, MethodType.vars, List.mem_append,
    List.mem_flatMap]
  constructor
  · rintro ⟨hb, hp, hr⟩ X ((⟨P, hP, hX⟩ | ⟨T, hT, hX⟩) | hX)
    · exact hb P hP X hX
    · exact hp T hT X hX
    · exact hr X hX
  · intro h
    exact ⟨fun P hP X hX => h X (.inl (.inl ⟨P, hP, hX⟩)),
      fun T hT X hX => h X (.inl (.inr ⟨T, hT, hX⟩)), fun X hX => h X (.inr hX)⟩

namespace TypeEnv

variable {Xs : List TypeParam} {X : String}

theorem bound?_add_of_nodup (Δ : TypeEnv) (hd : (Xs.map TypeParam.name).Nodup) (X : String) :
    (Δ.add Xs).bound? X = ((Xs.find? (·.name = X)).map TypeParam.bound).or (Δ.bound? X) := by
  by_cases hX : X ∈ Xs.map TypeParam.name
  · obtain ⟨P, hP, hPX, hb⟩ := bound?_add_of_mem (Δ := Δ) hX
    obtain ⟨Q, hQ⟩ := Option.isSome_iff_exists.1
      (List.find?_isSome (p := (·.name = X)).2 ⟨P, hP, by simpa using hPX⟩)
    have hQX : Q.name = X := by simpa using List.find?_some hQ
    have hQP : Q = P :=
      List.inj_on_of_nodup_map hd (List.mem_of_find?_eq_some hQ) hP (hQX.trans hPX.symm)
    rw [hb, hQ, hQP]
    rfl
  · have hnone : Xs.find? (·.name = X) = none := by
      rw [List.find?_eq_none]
      intro P hP hPX
      exact hX (List.mem_map.2 ⟨P, hP, by simpa using hPX⟩)
    rw [bound?_add_of_not_mem hX, hnone]
    rfl

end TypeEnv

namespace MethodDecl

variable {t : ClassTable} {c : ClassDecl} {d : MethodDecl} {Ts Vs : List Ty} {σ α : Subst}

/-- The method's type as its class type shows it if the method's type parameters hide
those of the class. -/
def shadowedType (d : MethodDecl) (σ : Subst) : MethodType :=
  (σ.under (d.typeParams.map TypeParam.name)).methodType d.type

def shadowedBody (d : MethodDecl) (σ α : Subst) : MethodBody :=
  ⟨d.paramNames, (α.orElse σ).term d.body⟩

theorem methodType?_eq_shadowedType_iff (hv : t.Valid) (hc : c ∈ t.classes) (hd : d ∈ c.methods)
    (hσ : Subst.instantiate c.typeParams Ts = .ok σ) :
    t.methodType? d.name ⟨c.name, Ts⟩ = .ok (some (d.shadowedType σ)) ↔
      ∀ X ∈ d.type.vars, X ∈ d.typeParams.map TypeParam.name → σ.var X = .var X := by
  have hfound := hv.methodType?_eq_some_iff.2 ⟨_, d, hv.finds_own hc hd hσ, rfl⟩
  rw [hfound, Except.ok.injEq, Option.some.injEq, shadowedType, Subst.methodType_eq_iff]
  refine forall₂_congr fun X _ => ?_
  rw [Subst.var_under]
  split
  · next hX => exact ⟨fun h _ => h, fun h => h hX⟩
  · next hX => exact iff_of_true rfl fun h => absurd h hX

theorem methodBody_eq_shadowedBody_iff (hv : t.Valid) (hc : c ∈ t.classes) (hd : d ∈ c.methods)
    (hσ : Subst.instantiate c.typeParams Ts = .ok σ)
    (hα : Subst.instantiate d.typeParams Vs = .ok α) :
    t.methodBody d.name Vs ⟨c.name, Ts⟩ = .ok (d.shadowedBody σ α) ↔
      ∀ X ∈ d.body.tyVars, X ∈ c.typeParams.map TypeParam.name →
        α.ty (σ.var X) = if X ∈ d.typeParams.map TypeParam.name then α.var X else σ.var X := by
  have hfound := hv.methodBody_eq_ok_iff.2 ⟨_, d, α, hv.finds_own hc hd hσ, hα, rfl⟩
  rw [hfound, Except.ok.injEq, shadowedBody, MethodBody.mk.injEq, ← Subst.term_andThen,
    Subst.term_eq_iff, and_iff_right rfl]
  refine forall₂_congr fun X _ => ?_
  simp only [Subst.var_andThen, Subst.var_orElse, Subst.mem_names_of_instantiate hα]
  constructor
  · exact fun h _ => h
  · intro h
    by_cases hX : X ∈ c.typeParams.map TypeParam.name
    · exact h hX
    · -- What the class does not bind is left to the call under either reading.
      have hvar : σ.var X = .var X :=
        Subst.var_of_not_mem (mt (Subst.mem_names_of_instantiate hσ).1 hX)
      rw [hvar, Subst.ty_var]
      split
      · rfl
      · next hXd => exact Subst.var_of_not_mem (mt (Subst.mem_names_of_instantiate hα).1 hXd)

/-- The checker reads a declaration with the method's type parameters hiding those of the
class. A look-up follows this reading exactly under the conditions given, on the type
variables that the method's type and its body mention. -/
theorem lookups_shadow_iff {classes : List ClassDecl}
    (ht : ClassTable.ofClasses classes = .ok t) (hc : c ∈ classes) (hd : d ∈ c.methods)
    (hσ : Subst.instantiate c.typeParams Ts = .ok σ)
    (hα : Subst.instantiate d.typeParams Vs = .ok α) :
    (∀ X, ((TypeEnv.empty.add c.typeParams).add d.typeParams).bound? X =
      ((d.typeParams.find? (·.name = X)).or (c.typeParams.find? (·.name = X))).map
        TypeParam.bound) ∧
    (t.methodType? d.name ⟨c.name, Ts⟩ = .ok (some (d.shadowedType σ)) ↔
      ∀ X ∈ d.type.vars, X ∈ d.typeParams.map TypeParam.name → σ.var X = .var X) ∧
    (t.methodBody d.name Vs ⟨c.name, Ts⟩ = .ok (d.shadowedBody σ α) ↔
      ∀ X ∈ d.body.tyVars, X ∈ c.typeParams.map TypeParam.name →
        α.ty (σ.var X) = if X ∈ d.typeParams.map TypeParam.name then α.var X else σ.var X) := by
  obtain ⟨rfl, hv⟩ := ClassTable.ofClasses_eq_ok_iff.1 ht
  refine ⟨fun X => ?_, methodType?_eq_shadowedType_iff hv hc hd hσ,
    methodBody_eq_shadowedBody_iff hv hc hd hσ hα⟩
  rw [TypeEnv.bound?_add_of_nodup _ (hv.methodTypeParams c hc d hd),
    TypeEnv.bound?_add_of_nodup _ (hv.typeParams c hc), TypeEnv.bound?_empty, Option.or_none,
    Option.map_or]

def shadowingMethod : String :=
  "class A extends Object \x7b A() \x7b super(); \x7d \x7d " ++
  "class Box<X extends Object> extends Object \x7b X f; Box(X f) \x7b super(); this.f = f; \x7d " ++
    "<X extends A> A m(X x) \x7b return new Box<X>(x).f; \x7d \x7d " ++
  "new Box<Object>(new Object()).m<A>(new Object())"

/-- The checker accepts the method because its `X` is bounded by `A`, and the call because the
look-up shows the `X` of the class. Neither the type nor the body follows the checker's
reading, and the main term has the type `A` and evaluates to an `Object`. -/
theorem lookups_not_shadow_box :
    (Accepted.ofSource shadowingMethod).Yields fun q => ∃ c ∈ q.program.classes, ∃ d ∈ c.methods,
      ∃ σ, Subst.instantiate c.typeParams [.inst "Object" []] = .ok σ ∧
        ∃ α, Subst.instantiate d.typeParams [.inst "A" []] = .ok α ∧
        q.table.methodType? d.name ⟨c.name, [.inst "Object" []]⟩ ≠ .ok (some (d.shadowedType σ)) ∧
        q.table.methodBody d.name [.inst "A" []] ⟨c.name, [.inst "Object" []]⟩ ≠
          .ok (d.shadowedBody σ α) ∧
        q.ty = .inst "A" [] ∧
        (eval q.table 9 .empty q.program.term).Yields fun v => v.cls = .object := by
  have hyps : (Accepted.ofSource shadowingMethod).Yields fun q => q.ty = .inst "A" [] ∧
      ((eval q.table 9 .empty q.program.term).Yields fun v => v.cls = .object) ∧
        ∃ c ∈ q.program.classes, ∃ d ∈ c.methods, c.name = "Box" ∧ "X" ∈ d.type.vars ∧
          "X" ∈ d.body.tyVars ∧ c.typeParams = [⟨"X", .object⟩] ∧
          d.typeParams = [⟨"X", ⟨"A", []⟩⟩] := by
    decide +kernel
  obtain ⟨q, hq, hty, heval, c, hc, d, hd, -, htype, hbody, hcs, hds⟩ := hyps
  have hs := (Accepted.gives_ofSource hq).2
  have ht := ClassTable.ofClasses_eq_ok_iff.2 ⟨hs.table, hs.valid⟩
  have hσ : Subst.instantiate c.typeParams [.inst "Object" []] =
      .ok ⟨[("X", .inst "Object" [])]⟩ := by rw [hcs]; decide
  have hα : Subst.instantiate d.typeParams [.inst "A" []] = .ok ⟨[("X", .inst "A" [])]⟩ := by
    rw [hds]; decide
  obtain ⟨-, htypes, hbodies⟩ := lookups_shadow_iff ht hc hd hσ hα
  refine ⟨q, hq, c, hc, d, hd, _, hσ, _, hα, fun h => ?_, fun h => ?_, hty, heval⟩
  · exact absurd (htypes.1 h "X" htype (by rw [hds]; decide)) (by decide)
  · refine absurd (hbodies.1 h "X" hbody (by rw [hcs]; decide)) ?_
    rw [hds]
    decide

end MethodDecl

end Featherweight

import Featherweight.Proofs.Shadowing

/-!
# Substitution at two levels

The body of a method is instantiated twice, first at the class and then at the method.
One substitution over the type parameters of both does the same: each argument of the
class goes through the method's substitution, and the method's arguments stay as they
are. It takes distinct names, since of two pairs for one name only one counts.

The other way round, the arguments of the class stay and those of the method go through
the substitution of the class. This gives the same term only if neither substitution
changes what the other one puts in.
-/

namespace Featherweight

namespace Subst

variable {σ τ : Subst} {Xs Ys : List TypeParam} {Ts Vs : List Ty} {e : Term}

theorem instantiate_append (hσ : instantiate Xs Ts = .ok σ) (hτ : instantiate Ys Vs = .ok τ) :
    instantiate (Xs ++ Ys) (Ts ++ Vs) = .ok (τ.orElse σ) := by
  obtain ⟨hXs, rfl⟩ := instantiate_eq_ok_iff.1 hσ
  obtain ⟨hYs, rfl⟩ := instantiate_eq_ok_iff.1 hτ
  have hnames : (Xs.map TypeParam.name).length = Ts.length := by simpa using hXs
  refine instantiate_eq_ok_iff.2 ⟨by simp [hXs, hYs], ?_⟩
  -- The pairs stand in reverse, so those of the second list come first.
  rw [orElse, List.map_append, List.zip_append hnames, List.reverse_append]

theorem disjoint_names (hd : ((Xs ++ Ys).map TypeParam.name).Nodup)
    (hσ : instantiate Xs Ts = .ok σ) (hτ : instantiate Ys Vs = .ok τ) :
    σ.names.Disjoint τ.names := by
  rw [List.map_append] at hd
  intro X hX hY
  exact List.disjoint_of_nodup_append hd ((mem_names_of_instantiate hσ).1 hX)
    ((mem_names_of_instantiate hτ).1 hY)

section Disjoint

variable (h : σ.names.Disjoint τ.names)
include h

theorem var_orElse_through (X : String) :
    (τ.orElse (σ.through τ)).var X = τ.ty (σ.var X) := by
  rw [var_orElse]
  split
  · next hX =>
    have hXσ : X ∉ σ.names := fun hXσ => h hXσ hX
    rw [var_of_not_mem hXσ, ty_var]
  · next hX =>
    by_cases hXσ : X ∈ σ.names
    · exact var_through hXσ
    · rw [var_of_not_mem (by simpa using hXσ), var_of_not_mem hXσ, ty_var, var_of_not_mem hX]

theorem term_orElse_through (e : Term) :
    (τ.orElse (σ.through τ)).term e = τ.term (σ.term e) := by
  rw [← term_andThen]
  refine term_congr fun X _ => ?_
  rw [var_orElse_through h, var_andThen]

/-- With the arguments of the method mapped in place of those of the class, the term is the
same exactly if no argument for a type parameter it mentions is changed at the other level. -/
theorem term_through_orElse_iff :
    ((τ.through σ).orElse σ).term e = τ.term (σ.term e) ↔
      ∀ X ∈ e.tyVars, (X ∈ σ.names → τ.ty (σ.var X) = σ.var X) ∧
        (X ∈ τ.names → σ.ty (τ.var X) = τ.var X) := by
  rw [← term_andThen, term_eq_iff]
  refine forall₂_congr fun X _ => ?_
  rw [var_orElse, var_andThen, names_through]
  split
  · next hX =>
    have hXσ : X ∉ σ.names := fun hXσ => h hXσ hX
    rw [var_through hX, var_of_not_mem hXσ, ty_var]
    simp [hX, hXσ]
  · next hX =>
    by_cases hXσ : X ∈ σ.names
    · simp [hX, hXσ, eq_comm]
    · simp [hX, hXσ, var_of_not_mem]

end Disjoint

theorem ty_eq_self_of_instantiate (hτ : instantiate Ys Vs = .ok τ) {T : Ty}
    (hT : ∀ Y ∈ Ys, Y.name ∉ T.vars) : τ.ty T = T := by
  refine ty_eq_self fun X hX => var_of_not_mem fun hXτ => ?_
  obtain ⟨Y, hY, rfl⟩ := List.mem_map.1 ((mem_names_of_instantiate hτ).1 hXτ)
  exact hT Y hY hX

/-- Two substitutions one after the other, over type parameters with distinct names, are one
substitution over all of them, with the first arguments taken through the second
substitution. If no argument mentions a type parameter of the other list, the second
arguments may be taken through the first substitution instead. -/
theorem sequential_eq_composed (hd : ((Xs ++ Ys).map TypeParam.name).Nodup)
    (hXs : Xs.length = Ts.length) (hYs : Ys.length = Vs.length) :
    ∃ σ τ ρ ρ', instantiate Xs Ts = .ok σ ∧ instantiate Ys Vs = .ok τ ∧
      instantiate (Xs ++ Ys) (Ts.map τ.ty ++ Vs) = .ok ρ ∧
      instantiate (Xs ++ Ys) (Ts ++ Vs.map σ.ty) = .ok ρ' ∧
      (∀ e, τ.term (σ.term e) = ρ.term e) ∧
      ((∀ T ∈ Ts, ∀ Y ∈ Ys, Y.name ∉ T.vars) → (∀ V ∈ Vs, ∀ X ∈ Xs, X.name ∉ V.vars) →
        ∀ e, τ.term (σ.term e) = ρ'.term e) := by
  obtain ⟨σ, hσ⟩ := exists_instantiate hXs
  obtain ⟨τ, hτ⟩ := exists_instantiate hYs
  have h := disjoint_names hd hσ hτ
  refine ⟨σ, τ, _, _, hσ, hτ, instantiate_append (instantiate_map_ok hσ) hτ,
    instantiate_append hσ (instantiate_map_ok hτ), fun e => (term_orElse_through h e).symm, ?_⟩
  intro hTs hVs e
  refine ((term_through_orElse_iff h).2 fun X _ => ⟨fun hX => ?_, fun hX => ?_⟩).symm
  · have hT := var_mem_of_instantiate hσ ((mem_names_of_instantiate hσ).1 hX)
    exact ty_eq_self_of_instantiate hτ (hTs _ hT)
  · have hV := var_mem_of_instantiate hτ ((mem_names_of_instantiate hτ).1 hX)
    exact ty_eq_self_of_instantiate hσ (hVs _ hV)

theorem sequential_eq_composed_triple :
    let cls (C : String) : Ty := .inst C []
    let Xs : List TypeParam := [⟨"X", .object⟩, ⟨"Y", .object⟩]
    let Ys : List TypeParam := [⟨"Z", .object⟩]
    let triple (S T U : Ty) : Term :=
      .new ⟨"Triple", [S, T, U]⟩ [.cast ⟨"Box", [U]⟩ (.var "z")]
    let body := triple (.var "X") (.var "Y") (.var "Z")
    ((Xs ++ Ys).map TypeParam.name).Nodup ∧
    (let Ts := [cls "A", .inst "List" [cls "B"]]
     let Vs := [.inst "Pair" [.var "W", cls "C"]]
     (∀ T ∈ Ts, ∀ Y ∈ Ys, Y.name ∉ T.vars) ∧ (∀ V ∈ Vs, ∀ X ∈ Xs, X.name ∉ V.vars) ∧
      ∃ σ τ ρ', instantiate Xs Ts = .ok σ ∧ instantiate Ys Vs = .ok τ ∧
        instantiate (Xs ++ Ys) (Ts ++ Vs.map σ.ty) = .ok ρ' ∧
        τ.term (σ.term body) = ρ'.term body ∧
        ρ'.term body =
          triple (cls "A") (.inst "List" [cls "B"]) (.inst "Pair" [.var "W", cls "C"])) ∧
    (let Ts := [.var "Z", .inst "List" [.var "Y"]]
     let Vs := [.var "X"]
     ∃ σ τ ρ ρ', instantiate Xs Ts = .ok σ ∧ instantiate Ys Vs = .ok τ ∧
        instantiate (Xs ++ Ys) (Ts.map τ.ty ++ Vs) = .ok ρ ∧
        instantiate (Xs ++ Ys) (Ts ++ Vs.map σ.ty) = .ok ρ' ∧
        τ.term (σ.term body) = ρ.term body ∧
        ρ.term body = triple (.var "X") (.inst "List" [.var "Y"]) (.var "X") ∧
        τ.term (σ.term body) ≠ ρ'.term body) := by
  let Xs : List TypeParam := [⟨"X", .object⟩, ⟨"Y", .object⟩]
  let Ys : List TypeParam := [⟨"Z", .object⟩]
  have hd : ((Xs ++ Ys).map TypeParam.name).Nodup := by decide
  let Ts : List Ty := [.inst "A" [], .inst "List" [.inst "B" []]]
  let Vs : List Ty := [.inst "Pair" [.var "W", .inst "C" []]]
  have hTs : ∀ T ∈ Ts, ∀ Y ∈ Ys, Y.name ∉ T.vars := by decide
  have hVs : ∀ V ∈ Vs, ∀ X ∈ Xs, X.name ∉ V.vars := by decide
  refine ⟨hd, ⟨hTs, hVs, ?_⟩, ?_⟩
  · obtain ⟨σ, τ, _, ρ', hσ, hτ, -, hρ', -, h⟩ := sequential_eq_composed hd
      (show Xs.length = Ts.length from rfl) (show Ys.length = Vs.length from rfl)
    refine ⟨σ, τ, ρ', hσ, hτ, hρ', h hTs hVs _, ?_⟩
    cases hσ
    cases hρ'
    decide
  · -- Now each list of arguments mentions the other's type parameters.
    obtain ⟨σ, τ, ρ, ρ', hσ, hτ, hρ, hρ', h, -⟩ := sequential_eq_composed hd
      (show Xs.length = [Ty.var "Z", .inst "List" [.var "Y"]].length from rfl)
      (show Ys.length = [Ty.var "X"].length from rfl)
    refine ⟨σ, τ, ρ, ρ', hσ, hτ, hρ, hρ', h _, ?_⟩
    cases hσ
    cases hτ
    cases hρ
    cases hρ'
    decide

end Subst

end Featherweight

import Featherweight.Proofs.RenamedTyping
import Featherweight.Proofs.RunInvariants

/-!
# Evaluation with renamed methods

A run meets only types without variables: a call puts closed types in for all type
variables of the body. A closed type is not captured, whatever the type parameters are
called, so the renamed methods run exactly like the methods themselves.
-/

namespace Featherweight

namespace ClassTable

variable {t : ClassTable} {f : String → String} {R : List String}
  {g : ClassDecl → MethodDecl → String → String} {d : MethodDecl} {κ κ' : Subst} {N : ClassTy}
  {a : Ancestor} {m : String} {Vs : List Ty}

theorem WellTyped.wellFormed_var (hwt : t.WellTyped) (hf : t.Finds m N a d) {X : String}
    (hX : X ∈ d.body.tyVars) : t.WellFormed (d.env a.decl) (.var X) := by
  obtain ⟨T, hT, -⟩ := ((hwt _ hf.decl_mem).methods d hf.mem).body
  exact wellFormed_var_iff.2 (hT.exists_bound? hX)

section Body

variable (hv : t.Valid) (hwt : t.WellTyped) (hN : N.vars = []) (hf : t.Finds m N a d)
  (hκ : Subst.instantiate d.typeParams Vs = .ok κ)
include hv hwt hN hf hκ

theorem Relabeling.body_renamed (hg : t.Relabeling f R g)
    (hκ' : Subst.instantiate (d.renamed (g a.decl d)).typeParams Vs = .ok κ') :
    κ'.term (a.subst.term (d.renamed (g a.decl d)).body) = κ.term (a.subst.term d.body) := by
  -- A closed class type has nothing that could be captured.
  have hap : t.ApartOn R m N := by simp [ApartOn, hN]
  have hVs : Vs.map Subst.empty.ty = Vs :=
    (List.map_congr_left fun V _ => Subst.ty_empty V).trans (List.map_id Vs)
  change κ'.term (a.subst.term ((d.relabel (g a.decl d)).term d.body)) = _
  simp only [← Subst.term_andThen]
  refine Subst.term_congr fun X hX => ?_
  have h := hg.instance_eq hv hwt.heads.scoped (Subst.relabels_empty f R) (by simp [hN]) hap hf hκ
    (hVs.symm ▸ hκ') (hwt.wellFormed_var hf hX)
  rw [Subst.through_empty, Subst.ty_empty] at h
  simpa [Subst.var_andThen, Subst.ty_andThen] using h

end Body

section Run

variable (hg : t.Relabeling f R g) (hv : t.Valid) (hwt : t.WellTyped)
include hg hv hwt

theorem Relabeling.methodBody_eq (hN : N.vars = []) :
    (t.relabel g).methodBody m Vs N = t.methodBody m Vs N := by
  rw [methodBody, methodBody, relabel, ancestry_mapMethods]
  cases has : t.ancestry N with
  | error fault => rfl
  | ok as =>
    have hchain := (climb_eq_ok_iff.1 has).1
    have hfind : ((as.map (·.mapMethods fun c d => d.renamed (g c d))).findSome? fun a =>
        (a.decl.method? m).map (a, ·)) =
          (as.findSome? fun a => (a.decl.method? m).map (a, ·)).map fun q =>
            (q.1.mapMethods fun c d => d.renamed (g c d), q.2.renamed (g q.1.decl q.2)) := by
      rw [List.findSome?_map, List.map_findSome?]
      refine congrArg (as.findSome? ·) (funext fun a => ?_)
      have hmethod := method?_mapMethods (name_renamed g) a.decl m
      simp only [Function.comp_apply, Ancestor.mapMethods, hmethod, Option.map_map]
      rfl
    simp only [Except.map, ok_bind, hfind]
    cases hfound : as.findSome? fun a => (a.decl.method? m).map (a, ·) with
    | none => rfl
    | some q =>
      obtain ⟨a, d⟩ := q
      have hf := hchain.findSome?_eq_some_iff.1 hfound
      have hlen : (d.renamed (g a.decl d)).typeParams.length = d.typeParams.length :=
        List.length_map _
      simp only [Option.map_some]
      by_cases hVs : d.typeParams.length = Vs.length
      · obtain ⟨κ, hκ⟩ := Subst.exists_instantiate hVs
        obtain ⟨κ', hκ'⟩ := Subst.exists_instantiate (hlen.trans hVs)
        have hbody := hg.body_renamed hv hwt hN hf hκ hκ'
        have hparams : (d.renamed (g a.decl d)).paramNames = d.paramNames := by
          simp [MethodDecl.renamed, MethodDecl.paramNames, Subst.binding, Function.comp_def]
        rw [hκ, hκ']
        simp only [ok_bind, Ancestor.mapMethods, hbody, hparams]
      · simp only [Subst.instantiate, hlen, hVs, if_false]
        rfl

theorem Relabeling.runsAlike : t.RunsAlike (t.relabel g) Ty.Closed where
  fields N _ := fields_relabel N
  subtype N T _ := subtype_relabel _ _ _
  methodBody m Vs N hN := hg.methodBody_eq hv hwt hN
  body m Vs N b hN hVs hb := by
    obtain ⟨a, d, κ, hf, hκ, rfl⟩ := hv.methodBody_eq_ok_iff.1 hb
    obtain ⟨T, hT, -⟩ := ((hwt _ hf.decl_mem).methods d hf.mem).body
    exact hf.closed_body hwt.heads.scoped hκ hN hVs (hT.allTypes.mono fun S hS Y hY =>
      MethodDecl.mem_typeParams_of_wellFormed hS hY)

theorem Relabeling.eval_agree (n : Nat) {ρ : Env} {e : Term} (hρ : ρ.AllTypes Ty.Closed)
    (he : e.tyVars = []) : (eval (t.relabel g) n ρ e).Agree (eval t n ρ e)
      (Value.AllTypes Ty.Closed) (EvalFault.AllTypes Ty.Closed) :=
  (hg.runsAlike hv hwt).eval_agree n hρ (Term.allTypes_of_tyVars he)

end Run

end ClassTable

end Featherweight

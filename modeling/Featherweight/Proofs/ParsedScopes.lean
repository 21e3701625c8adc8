import Featherweight.Proofs.ParsedNames
import Featherweight.Proofs.ParsedPrograms
import Featherweight.Proofs.Substitution

/-!
# Scopes of a parsed program

A type is resolved in a scope if its variables are the names of the scope that occur in
it. In a program read from source every type is resolved in the scope of its place: the
type parameters of the class and method around it. The main term has no type variables.
-/

namespace Featherweight

/-- A name in the type is a variable exactly if it is in scope. -/
inductive Ty.Resolved (scope : List String) : Ty → Prop where
  | var {X : String} (hX : X ∈ scope) : Resolved scope (.var X)
  | inst {C : String} {Ts : List Ty} (hC : C ∉ scope) (hTs : ∀ T ∈ Ts, Resolved scope T) :
      Resolved scope (.inst C Ts)

def MethodDecl.scope (d : MethodDecl) (outer : List String) : List String :=
  d.typeParams.map TypeParam.name ++ outer

def ClassDecl.scope (c : ClassDecl) : List String := c.typeParams.map TypeParam.name

structure MethodDecl.Resolved (outer : List String) (d : MethodDecl) : Prop where
  bounds : ∀ P ∈ d.typeParams, P.bound.toTy.Resolved (d.scope outer)
  returnType : d.returnType.Resolved (d.scope outer)
  params : ∀ b ∈ d.params, b.ty.Resolved (d.scope outer)
  body : d.body.AllTypes (Ty.Resolved (d.scope outer))

structure ClassDecl.Resolved (c : ClassDecl) : Prop where
  bounds : ∀ P ∈ c.typeParams, P.bound.toTy.Resolved c.scope
  superType : c.superType.toTy.Resolved c.scope
  fields : ∀ b ∈ c.fields, b.ty.Resolved c.scope
  constructor : ∀ b ∈ c.constructor.params, b.ty.Resolved c.scope
  methods : ∀ d ∈ c.methods, d.Resolved c.scope

structure Program.Resolved (p : Program) : Prop where
  classes : ∀ c ∈ p.classes, c.Resolved
  term : p.term.AllTypes (Ty.Resolved [])

theorem Ty.Resolved.mem_scope {scope : List String} {T : Ty} {X : String} (h : T.Resolved scope)
    (hX : X ∈ T.vars) : X ∈ scope := by
  induction h with
  | var hY =>
    cases List.mem_singleton.1 hX
    exact hY
  | inst _ _ ih =>
    obtain ⟨T, hT, hXT⟩ := Ty.mem_vars_inst.1 hX
    exact ih T hT hXT

namespace Grammar

variable {vars : List String}

theorem TypeTree.resolved {T : TypeTree} (h : T.Valid vars) : (T.ty vars).Resolved vars := by
  induction T using TypeTree.induction with
  | name C =>
    rw [ty]
    split
    · next hC => exact .var hC
    · next hC => exact .inst hC (by simp)
  | applied C Ts ih =>
    rw [valid_applied_iff] at h
    rw [ty, tys_eq_map]
    exact .inst h.1 (List.forall_mem_map.2 fun T hT => ih T hT (h.2 T hT))

theorem TypeTree.resolved_classTy {N : TypeTree} (h : N.NonVar vars) :
    (N.classTy vars).toTy.Resolved vars := by
  obtain ⟨hvalid, hty⟩ := nonVar_classTy_iff.1 ⟨h, rfl⟩
  have hN := resolved hvalid
  rwa [hty] at hN

mutual

theorem TermTree.resolved : (e : TermTree) → e.Valid vars →
    (e.term vars).AllTypes (Ty.Resolved vars)
  | .cast _ e, h => .cast (TypeTree.resolved_classTy h.1) (e.resolved h.2)
  | .chain head rest, h => rest.resolved h.2 (head.resolved h.1)

theorem Primary.resolved : (h : Primary) → h.Valid vars →
    (h.term vars).AllTypes (Ty.Resolved vars)
  | .this, _ => .var "this"
  | .name x, _ => .var x
  | .new _ es, h => .new (TypeTree.resolved_classTy h.1) (TermTree.all_resolved es h.2)
  | .paren e, h => e.resolved h

theorem Accesses.resolved : (rest : Accesses) → rest.Valid vars → {e : Term} →
    e.AllTypes (Ty.Resolved vars) → (rest.term vars e).AllTypes (Ty.Resolved vars)
  | .done, _, _, he => he
  | .field _ rest, h, _, he => rest.resolved h (.field he)
  | .call _ _ es rest, h, _, he =>
    rest.resolved h.2.2 <| .call he
      (List.forall_mem_map.2 fun T hT => TypeTree.resolved (h.1 T hT))
      (TermTree.all_resolved es h.2.1)

theorem TermTree.all_resolved : (es : List TermTree) → TermTree.ValidAll vars es →
    ∀ a ∈ TermTree.terms vars es, a.AllTypes (Ty.Resolved vars)
  | [], _ => nofun
  | e :: es, h => List.forall_mem_cons.2 ⟨e.resolved h.1, TermTree.all_resolved es h.2⟩

end

theorem resolved_bindings {bs : List BindingTree} (h : ∀ b ∈ bs, b.ty.Valid vars) :
    ∀ b ∈ bs.map fun b => (⟨b.ty.ty vars, b.name⟩ : Binding), b.ty.Resolved vars :=
  List.forall_mem_map.2 fun b hb => TypeTree.resolved (h b hb)

theorem names_typeParams (Xs : List TypeParamTree) :
    (typeParamsPhrase.meaning vars Xs).map TypeParam.name = names Xs := by
  simp [typeParamsPhrase, TypeParamTree.phrase, names, Function.comp_def]

theorem resolved_typeParams {Xs : List TypeParamTree} (h : typeParamsPhrase.Valid vars Xs) :
    ∀ P ∈ typeParamsPhrase.meaning vars Xs, P.bound.toTy.Resolved (names Xs ++ vars) :=
  List.forall_mem_map.2 fun X hX => TypeTree.resolved_classTy (h.2 X hX).2

theorem MethodTree.resolved {m : MethodTree} (h : MethodTree.phrase.Valid vars m) :
    (MethodTree.phrase.meaning vars m).Resolved vars := by
  obtain ⟨htypeParams, hreturn, hparams, hbody⟩ := h
  have hscope : (MethodTree.phrase.meaning vars m).scope vars = names m.typeParams ++ vars :=
    congrArg (· ++ vars) (names_typeParams m.typeParams)
  constructor <;> rw [hscope]
  · exact resolved_typeParams htypeParams
  · exact TypeTree.resolved hreturn
  · exact resolved_bindings hparams
  · exact m.body.resolved hbody

theorem ClassTree.resolved {c : ClassTree} (h : ClassTree.phrase.Valid [] c) :
    (ClassTree.phrase.meaning [] c).Resolved := by
  obtain ⟨htypeParams, hsuper, hfields, hctor, hmethods⟩ := h
  have hscope : (ClassTree.phrase.meaning [] c).scope = names c.typeParams ++ [] :=
    (names_typeParams c.typeParams).trans (List.append_nil _).symm
  constructor <;> rw [hscope]
  · exact resolved_typeParams htypeParams
  · exact TypeTree.resolved_classTy hsuper
  · exact resolved_bindings hfields
  · exact resolved_bindings hctor.2.1
  · exact List.forall_mem_map.2 fun m hm => MethodTree.resolved (hmethods m hm)

theorem ProgramTree.resolved {p : ProgramTree} (h : ProgramTree.phrase.Valid [] p) :
    (ProgramTree.phrase.meaning [] p).Resolved where
  classes := List.forall_mem_map.2 fun c hc => ClassTree.resolved (h.1 c hc)
  term := p.term.resolved h.2

end Grammar

theorem Program.Resolved.of_withoutSpans {p : Program} (h : p.withoutSpans.Resolved) :
    p.Resolved where
  classes c hc := by
    have hc' := h.classes _ (List.mem_map_of_mem hc)
    refine ⟨hc'.bounds, hc'.superType, hc'.fields, hc'.constructor, fun d hd => ?_⟩
    have hd' := hc'.methods _ (List.mem_map_of_mem hd)
    exact ⟨hd'.bounds, hd'.returnType, hd'.params, hd'.body⟩
  term := h.term

theorem Program.resolved_of_ofSource {source : String} {p : Program}
    (hp : (Program.ofSource source).Gives p) : p.Resolved := by
  have hfront : ∀ k ∈ Position.origin.tokens (pieces source.toList), k.lexeme ≠ .eof :=
    fun k hk => lexeme_ne_eof_of_pieces hk
  have htakes := exists_gives_ofTokens_iff.1 ⟨p, hp, rfl⟩
  obtain ⟨tree, -, hvalid, hmeaning⟩ := (exists_takes_iff_exists_derives hfront rfl).1 htakes
  have htree := Grammar.ProgramTree.resolved hvalid
  rw [hmeaning] at htree
  exact htree.of_withoutSpans

end Featherweight

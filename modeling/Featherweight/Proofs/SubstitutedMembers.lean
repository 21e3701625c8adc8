import Featherweight.Proofs.RuntimeTypes
import Featherweight.Proofs.Shadowing
import Featherweight.Proofs.TotalLookups

/-!
# Members of a substituted class type

The fields of a substituted class type are those of the class type, substituted: each
class on the way up is instantiated from arguments that are substituted already, and a
declared field mentions no other type variables. A method's type also mentions the
method's own type parameters. These stay as they are in a look-up, so its type is the
substituted one exactly if the substitution leaves them alone as well.
-/

namespace Featherweight

theorem Subst.methodType_andThen (σ τ : Subst) (T : MethodType) :
    (σ.andThen τ).methodType T = τ.methodType (σ.methodType T) := by
  have hparam (P : TypeParam) : (σ.andThen τ).typeParam P = τ.typeParam (σ.typeParam P) := by
    rw [typeParam, classTy_andThen]
    rfl
  simp only [methodType, List.map_map, MethodType.mk.injEq]
  exact ⟨List.map_congr_left fun P _ => hparam P, List.map_congr_left fun S _ => ty_andThen σ τ S,
    ty_andThen σ τ T.returnType⟩

theorem MethodDecl.Resolved.mem_scope {d : MethodDecl} {outer : List String} {X : String}
    (h : d.Resolved outer) (hX : X ∈ d.type.vars) : X ∈ d.scope outer := by
  simp only [MethodType.vars, MethodDecl.type, List.mem_append, List.mem_flatMap,
    List.mem_map] at hX
  rcases hX with (⟨P, hP, hX⟩ | ⟨_, ⟨b, hb, rfl⟩, hX⟩) | hX
  · exact (h.bounds P hP).mem_scope hX
  · exact (h.params b hb).mem_scope hX
  · exact h.returnType.mem_scope hX

namespace ClassTable

variable {t : ClassTable} {N : ClassTy} {a : Ancestor} {d : MethodDecl} {m : String} {σ : Subst}

theorem Finds.methodType_through_iff (hf : t.Finds m N a d) :
    (a.through σ).subst.methodType d.type = σ.methodType (a.subst.methodType d.type) ↔
      ∀ X ∈ d.type.vars, X ∉ a.decl.typeParams.map TypeParam.name → σ.var X = .var X := by
  rw [← Subst.methodType_andThen, Subst.methodType_eq_iff]
  refine forall₂_congr fun X _ => ?_
  rw [← hf.mem_names, Subst.var_andThen]
  change (a.subst.through σ).var X = _ ↔ _
  by_cases hX : X ∈ a.subst.names
  · -- A type parameter of the class is replaced before `σ` comes to it.
    simp [Subst.var_through hX, hX]
  · rw [Subst.var_of_not_mem (by simpa using hX), Subst.var_of_not_mem hX, Subst.ty_var]
    simp [hX, eq_comm]

theorem Valid.methodType?_classTy_iff (hv : t.Valid) (hs : t.Scoped) (hf : t.Finds m N a d) :
    t.methodType? m (σ.classTy N) = .ok (some (σ.methodType (a.subst.methodType d.type))) ↔
      ∀ X ∈ d.type.vars, X ∉ a.decl.typeParams.map TypeParam.name → σ.var X = .var X := by
  have hfound := hv.methodType?_eq_some_iff.2 ⟨_, d, hf.classTy (σ := σ) hs, rfl⟩
  rw [hfound, Except.ok.injEq, Option.some.injEq]
  exact hf.methodType_through_iff

theorem Scoped.methodType?_classTy_none (hs : t.Scoped) (h : t.methodType? m N = .ok none) :
    t.methodType? m (σ.classTy N) = .ok none := by
  simp only [methodType?, bind_eq_ok_iff, pure_eq_ok_iff, List.findSome?_eq_none_iff] at h
  obtain ⟨as, has, hnone⟩ := h
  rw [methodType?, hs.ancestry_classTy, has]
  refine pure_eq_ok_iff.2 (List.findSome?_eq_none_iff.2 (List.forall_mem_map.2 fun a ha => ?_))
  have hno := hnone a ha
  simp only [Ancestor.methodType?, Option.map_eq_none_iff] at hno ⊢
  exact hno

theorem Resolved.methodType?_classTy (hr : t.Resolved) (hv : t.Valid) {T? : Option MethodType}
    (h : t.methodType? m N = .ok T?)
    (hσ : ∀ T ∈ T?, ∀ P ∈ T.typeParams, P.name ∉ σ.names) :
    t.methodType? m (σ.classTy N) = .ok (T?.map σ.methodType) := by
  cases T? with
  | none => exact hr.scoped.methodType?_classTy_none h
  | some T =>
    obtain ⟨a, d, hf, rfl⟩ := hv.methodType?_eq_some_iff.1 h
    apply (hv.methodType?_classTy_iff hr.scoped hf).2
    intro X hX hXa
    -- What is in scope and not of the class is one of the method's type parameters.
    have hscope := ((hr _ hf.decl_mem).methods d hf.mem).mem_scope hX
    have hXd := (List.mem_append.1 hscope).resolve_right hXa
    rw [← Subst.names_methodType a.subst d] at hXd
    obtain ⟨P, hP, rfl⟩ := List.mem_map.1 hXd
    exact Subst.var_of_not_mem (hσ _ rfl P hP)

end ClassTable

namespace Program

/-- In the table of a program read from source, a declared class type has after a
substitution the fields it had before, substituted, and each method's type is the
substituted one unless the substitution replaces one of the method's own type
parameters. -/
theorem members_subst {source : String} {p : Program} {t : ClassTable}
    (hp : (ofSource source).Gives p) (ht : ClassTable.ofClasses p.classes = .ok t) {N : ClassTy}
    (hN : t.Declares N) (σ : Subst) :
    (∃ fs, t.fields N = .ok fs ∧ t.fields (σ.classTy N) = .ok (fs.map σ.binding)) ∧
    ∀ m, ∃ T?, t.methodType? m N = .ok T? ∧
      ((∀ T ∈ T?, ∀ P ∈ T.typeParams, P.name ∉ σ.names) →
        t.methodType? m (σ.classTy N) = .ok (T?.map σ.methodType)) := by
  obtain ⟨rfl, hv⟩ := ClassTable.ofClasses_eq_ok_iff.1 ht
  have hr : ClassTable.Resolved ⟨p.classes⟩ := (resolved_of_ofSource hp).classes
  constructor
  · cases hfs : ClassTable.fields ⟨p.classes⟩ N with
    | error e => exact absurd (hv.fields_eq_error_iff.1 hfs) (hv.not_faulty hN)
    | ok fs =>
      refine ⟨fs, rfl, ?_⟩
      rw [hr.scoped.fields_classTy, hfs]
      rfl
  · intro m
    cases hT : ClassTable.methodType? ⟨p.classes⟩ m N with
    | error e => exact absurd (hv.methodType?_eq_error_iff.1 hT) (hv.not_faulty hN)
    | ok T? => exact ⟨T?, rfl, hr.methodType?_classTy hv hT⟩

def taggedBoxes : List String :=
  ["class Box<T extends Object> extends Object ",
    "\x7b T f; Box(T f) \x7b super(); this.f = f; \x7d ",
    "<U extends Box<T>> T put(U u) \x7b return u.f; \x7d \x7d ",
    "class Tagged<S extends Object> ", "extends Box<Box<S>> \x7b S tag; ",
    "Tagged(Box<S> f, S tag) ", "\x7b super(f); this.tag = tag; \x7d \x7d ", "new Object()"]

theorem members_subst_taggedBoxes :
    (ofSource (String.join taggedBoxes)).Yields fun p =>
      ∃ t, ClassTable.ofClasses p.classes = .ok t ∧
        let box (T : Ty) : Ty := .inst "Box" [T]
        let N : ClassTy := ⟨"Tagged", [.var "Z"]⟩
        let σ : Subst := ⟨[("Z", box (.var "U"))]⟩
        let put (T : Ty) : MethodType := ⟨[⟨"U", ⟨"Box", [box T]⟩⟩], [.var "U"], box T⟩
        t.Declares N ∧ t.fields N = .ok [⟨box (.var "Z"), "f"⟩, ⟨.var "Z", "tag"⟩] ∧
          t.fields (σ.classTy N) = .ok [⟨box (box (.var "U")), "f"⟩, ⟨box (.var "U"), "tag"⟩] ∧
          t.methodType? "put" N = .ok (some (put (.var "Z"))) ∧
          (∀ P ∈ (put (.var "Z")).typeParams, P.name ∉ σ.names) ∧
          t.methodType? "put" (σ.classTy N) = .ok (some (put (box (.var "U")))) ∧
          t.methodType? "get" N = .ok none ∧ t.methodType? "get" (σ.classTy N) = .ok none ∧
          let τ : Subst := ⟨[("U", .var "Z")]⟩
          t.methodType? "put" (τ.classTy N) ≠ .ok (some (τ.methodType (put (.var "Z")))) := by
  let box (T : Ty) : Ty := .inst "Box" [T]
  let N : ClassTy := ⟨"Tagged", [.var "Z"]⟩
  let σ : Subst := ⟨[("Z", box (.var "U"))]⟩
  let τ : Subst := ⟨[("U", .var "Z")]⟩
  let put (T : Ty) : MethodType := ⟨[⟨"U", ⟨"Box", [box T]⟩⟩], [.var "U"], box T⟩
  have hyps : (ofSource (String.join taggedBoxes)).Yields fun p =>
      ClassTable.ofClasses p.classes = .ok ⟨p.classes⟩ ∧
      (∃ c ∈ p.classes, c.name = "Tagged" ∧ c.typeParams.length = 1) ∧
      ClassTable.fields ⟨p.classes⟩ N = .ok [⟨box (.var "Z"), "f"⟩, ⟨.var "Z", "tag"⟩] ∧
      ClassTable.methodType? ⟨p.classes⟩ "put" N = .ok (some (put (.var "Z"))) ∧
      ClassTable.methodType? ⟨p.classes⟩ "get" N = .ok none ∧
      ClassTable.methodType? ⟨p.classes⟩ "put" (τ.classTy N) ≠
        .ok (some (τ.methodType (put (.var "Z")))) := by
    rw [ofSource, tokenize_join]
    decide +kernel
  obtain ⟨p, hp, ht, ⟨c, hc, hname, hlen⟩, hfs, hput, hget, hτ⟩ := hyps
  have hN : ClassTable.Declares ⟨p.classes⟩ N := by
    have hdecl : ClassTable.Declares ⟨p.classes⟩ ⟨c.name, [.var "Z"]⟩ := .applied hc hlen
    rwa [hname] at hdecl
  have hfree : ∀ P ∈ (put (.var "Z")).typeParams, P.name ∉ σ.names := by decide
  obtain ⟨⟨fs, hfs', hfields⟩, hmethods⟩ := members_subst hp ht hN σ
  obtain ⟨P?, hput', hputs⟩ := hmethods "put"
  obtain ⟨G?, hget', hgets⟩ := hmethods "get"
  cases hfs.symm.trans hfs'
  cases hput.symm.trans hput'
  cases hget.symm.trans hget'
  refine ⟨p, hp, _, ht, hN, hfs, hfields, hput, hfree, hputs ?_, hget, hgets (by simp), hτ⟩
  intro T hT
  cases hT
  exact hfree

end Program

end Featherweight

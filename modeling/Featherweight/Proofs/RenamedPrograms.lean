import Featherweight.Proofs.RenamedEvaluation

/-!
# Renaming the type parameters of a method

`renameMethod` gives the type parameters of one method of a program new names. If no
look-up that checking makes captures one of the old names, then the program is accepted
exactly if it was before, its main term has the same type, and it runs the same. A
captured name takes part in what the checker compares, so without this condition a
renamed program can be rejected.
-/

namespace Featherweight

theorem modify_eq_map {α : Type} [DecidableEq α] {l : List α} {i : Nat} {a : α} {f : α → α}
    (hl : l.Nodup) (hi : l[i]? = some a) :
    l.modify i f = l.map fun b => if b = a then f b else b := by
  refine List.ext_getElem? fun k => ?_
  rw [List.getElem?_modify, List.getElem?_map]
  cases hk : l[k]? with
  | none => rfl
  | some b =>
    have hik : i = k ↔ b = a := by
      constructor
      · rintro rfl
        exact Option.some.inj (hk.symm.trans hi)
      · rintro rfl
        exact (List.getElem?_inj (List.getElem?_eq_some_iff.1 hi).1 hl).1 (hi.trans hk.symm)
    simp [hik]

theorem map_modify_eq {α β : Type} {f : α → α} {h : α → β} (hf : ∀ a, h (f a) = h a)
    (l : List α) (i : Nat) : (l.modify i f).map h = l.map h := by
  refine List.ext_getElem? fun k => ?_
  rw [List.getElem?_map, List.getElem?_modify, List.getElem?_map]
  cases l[k]? with
  | none => rfl
  | some a =>
    by_cases hik : i = k
    · simp [hik, hf]
    · simp [hik]

namespace MethodDecl

variable {d : MethodDecl} {f g : String → String} {W : List String}

theorem renamed_congr (h : ∀ X ∈ d.ownNames, f X = g X) : d.renamed f = d.renamed g := by
  have hrelabel : d.relabel f = d.relabel g := by
    rw [relabel, relabel]
    exact congrArg Subst.mk (List.map_congr_left fun X hX => by rw [h X hX])
  have hparams :
      (d.typeParams.map fun P => TypeParam.mk (f P.name) ((d.relabel g).classTy P.bound)) =
      d.typeParams.map fun P => ⟨g P.name, (d.relabel g).classTy P.bound⟩ :=
    List.map_congr_left fun P hP => by rw [h P.name (List.mem_map_of_mem hP)]
  rw [renamed, renamed, hrelabel, hparams]

def typeVars (d : MethodDecl) : List String :=
  d.ownNames ++ d.typeParams.flatMap (·.bound.vars) ++ d.returnType.vars ++
    d.params.flatMap (·.ty.vars) ++ d.body.tyVars

theorem off_of_typeVars (h : d.typeVars.Disjoint W) : d.Off W := by
  simp only [typeVars, List.disjoint_append_left] at h
  obtain ⟨⟨⟨⟨hown, hb⟩, hT⟩, hp⟩, he⟩ := h
  exact ⟨hown, fun P hP X hX => hb (List.mem_flatMap.2 ⟨P, hP, hX⟩), hT,
    fun b hb X hX => hp (List.mem_flatMap.2 ⟨b, hb, hX⟩), he⟩

end MethodDecl

namespace ClassDecl

variable {c : ClassDecl} {W : List String}

def typeVars (c : ClassDecl) : List String :=
  c.typeParams.map TypeParam.name ++ c.typeParams.flatMap (·.bound.vars) ++ c.superType.vars ++
    c.fields.flatMap (·.ty.vars) ++ c.constructor.params.flatMap (·.ty.vars) ++
    c.methods.flatMap MethodDecl.typeVars

theorem off_of_typeVars (h : c.typeVars.Disjoint W) : c.Off W := by
  simp only [typeVars, List.disjoint_append_left] at h
  obtain ⟨⟨⟨⟨⟨hn, hb⟩, hN⟩, hf⟩, -⟩, hm⟩ := h
  exact ⟨hn, fun P hP X hX => hb (List.mem_flatMap.2 ⟨P, hP, hX⟩), hN,
    fun b hb X hX => hf (List.mem_flatMap.2 ⟨b, hb, hX⟩),
    fun d hd => d.off_of_typeVars fun X hX => hm (List.mem_flatMap.2 ⟨d, hd, hX⟩)⟩

def renameMethod (j : Nat) (f : String → String) (c : ClassDecl) : ClassDecl :=
  { c with methods := c.methods.modify j (MethodDecl.renamed f) }

end ClassDecl

namespace Program

open Typing

variable {p : Program} {i j : Nat} {f : String → String} {c : ClassDecl} {d : MethodDecl}

def typeVars (p : Program) : List String :=
  p.classes.flatMap ClassDecl.typeVars ++ p.term.tyVars

def renameMethod (i j : Nat) (f : String → String) (p : Program) : Program :=
  { p with classes := p.classes.modify i (ClassDecl.renameMethod j f) }

def relabelOnly (f : String → String) (c : ClassDecl) (d : MethodDecl) :
    ClassDecl → MethodDecl → String → String :=
  fun k e X => if k = c ∧ e = d ∧ X ∈ d.ownNames then f X else X

theorem relabeling (hscopes : ∀ k ∈ p.classes, k.DistinctScopes)
    (hinj : ∀ X ∈ d.ownNames, ∀ Y ∈ d.ownNames, f X = f Y → X = Y)
    (hnew : ∀ X ∈ d.ownNames, f X ∉ p.typeVars) :
    (ClassTable.mk p.classes).Relabeling f d.ownNames (relabelOnly f c d) where
  inj := hinj
  picks k e X := by
    rw [relabelOnly]
    split
    · next h => exact .inr ⟨h.2.2, rfl⟩
    · exact .inl rfl
  off k hk := by
    refine k.off_of_typeVars fun X hX hXW => ?_
    obtain ⟨Y, hY, rfl⟩ := List.mem_map.1 hXW
    exact hnew Y hY (List.mem_append_left _ (List.mem_flatMap.2 ⟨k, hk, hX⟩))
  scopes := hscopes

section Table

variable (hc : p.classes[i]? = some c) (hd : c.methods[j]? = some d)
include hc hd

theorem table_renameMethod (hclasses : (p.classes.map ClassDecl.name).Nodup)
    (hmethods : (c.methods.map MethodDecl.name).Nodup) :
    (ClassTable.mk (p.renameMethod i j f).classes) =
      (ClassTable.mk p.classes).relabel (relabelOnly f c d) := by
  -- Both sides change the method `d` of the class `c` and nothing else.
  have hother {k : ClassDecl} {e : MethodDecl} (h : ¬ (k = c ∧ e = d)) :
      e.renamed (relabelOnly f c d k e) = e := by
    have hid : relabelOnly f c d k e = id := funext fun X => if_neg fun hX => h ⟨hX.1, hX.2.1⟩
    rw [hid, MethodDecl.renamed_id]
  have hself : d.renamed (relabelOnly f c d c d) = d.renamed f :=
    MethodDecl.renamed_congr fun X hX => if_pos ⟨rfl, rfl, hX⟩
  refine congrArg ClassTable.mk ?_
  rw [renameMethod, modify_eq_map (List.Nodup.of_map _ hclasses) hc]
  refine List.map_congr_left fun k _ => ?_
  split
  · next hk =>
    subst hk
    rw [ClassDecl.renameMethod, modify_eq_map (List.Nodup.of_map _ hmethods) hd,
      ClassDecl.mapMethods]
    congr 1
    refine List.map_congr_left fun e _ => ?_
    split
    · next he =>
      cases he
      exact hself.symm
    · next he => exact (hother fun h => he h.2).symm
  · next hk =>
    have hmap : (k.methods.map fun e => e.renamed (relabelOnly f c d k e)) = k.methods :=
      (List.map_congr_left fun e _ => hother fun h => hk h.1).trans (List.map_id _)
    rw [ClassDecl.mapMethods, hmap]

omit hd in
theorem names_of_valid_renameMethod (hv : (ClassTable.mk (p.renameMethod i j f).classes).Valid) :
    (p.classes.map ClassDecl.name).Nodup ∧ (c.methods.map MethodDecl.name).Nodup := by
  have hmem : c.renameMethod j f ∈ (p.renameMethod i j f).classes :=
    List.mem_of_getElem? (i := i) (by simp [renameMethod, hc])
  have hclasses : (p.renameMethod i j f).classes.map ClassDecl.name =
      p.classes.map ClassDecl.name :=
    map_modify_eq (f := ClassDecl.renameMethod j f) (fun _ => rfl) _ _
  have hmethods : (c.renameMethod j f).methods.map MethodDecl.name =
      c.methods.map MethodDecl.name :=
    map_modify_eq (f := MethodDecl.renamed f) (fun _ => rfl) _ _
  exact ⟨hclasses ▸ hv.names, hmethods ▸ hv.methods _ hmem⟩

end Table

section Alike

variable (hscopes : ∀ k ∈ p.classes, k.DistinctScopes)
  (hinj : ∀ X ∈ d.ownNames, ∀ Y ∈ d.ownNames, f X = f Y → X = Y)
  (hnew : ∀ X ∈ d.ownNames, f X ∉ p.typeVars)
  (hap : ∀ q ∈ p.lookups ⟨p.classes⟩, (ClassTable.mk p.classes).ApartOn d.ownNames q.1 q.2)
include hscopes hinj hnew hap

theorem hasType_term_iff {T : Ty} (hv : (ClassTable.mk p.classes).Valid)
    (hwt : (ClassTable.mk p.classes).WellTyped) :
    HasType ((ClassTable.mk p.classes).relabel (relabelOnly f c d)) .empty [] p.term T ↔
      HasType ⟨p.classes⟩ .empty [] p.term T := by
  refine (relabeling hscopes hinj hnew).closed_hasType_iff hv hwt ?_ ?_
  · intro X hX hXW
    obtain ⟨Y, hY, rfl⟩ := List.mem_map.1 hXW
    exact hnew Y hY (List.mem_append_right _ hX)
  · exact fun q hq => hap q (List.mem_append_right _ hq)

theorem wellTyped_relabel_iff (hv : (ClassTable.mk p.classes).Valid) :
    ((ClassTable.mk p.classes).relabel (relabelOnly f c d)).WellTyped ↔
      (ClassTable.mk p.classes).WellTyped := by
  refine (relabeling hscopes hinj hnew).wellTyped_iff hv fun k hk e he q hq => ?_
  refine hap q (List.mem_append_left _ ?_)
  exact List.mem_flatMap.2 ⟨k, hk, List.mem_flatMap.2 ⟨e, he, hq⟩⟩

end Alike

/-- Renaming the type parameters of a method changes neither whether the program is accepted
nor the type of its main term nor any run of it. The new names are distinct and occur nowhere
as type variables, no method's type parameter repeats one of its class, and no look-up of
the checker captures one of the old names. -/
theorem renameMethod_alike (hc : p.classes[i]? = some c) (hd : c.methods[j]? = some d)
    (hscopes : ∀ k ∈ p.classes, k.DistinctScopes)
    (hinj : ∀ X ∈ d.ownNames, ∀ Y ∈ d.ownNames, f X = f Y → X = Y)
    (hnew : ∀ X ∈ d.ownNames, f X ∉ p.typeVars)
    (hap : ∀ q ∈ p.lookups ⟨p.classes⟩, (ClassTable.mk p.classes).ApartOn d.ownNames q.1 q.2) :
    ((∃ a, Accepted.ofProgram (p.renameMethod i j f) = .ok a) ↔
        ∃ a, Accepted.ofProgram p = .ok a) ∧
      ∀ a b, Accepted.ofProgram p = .ok a → Accepted.ofProgram (p.renameMethod i j f) = .ok b →
        b.ty = a.ty ∧ ∀ fuel, eval b.table fuel .empty b.program.term =
          eval a.table fuel .empty a.program.term := by
  have hg := relabeling (c := c) hscopes hinj hnew
  constructor
  · rw [Accepted.exists_ofProgram_iff, Accepted.exists_ofProgram_iff]
    by_cases hn : (p.classes.map ClassDecl.name).Nodup ∧ (c.methods.map MethodDecl.name).Nodup
    · rw [table_renameMethod hc hd hn.1 hn.2, hg.valid_iff]
      refine and_congr_right fun hv => ?_
      rw [wellTyped_relabel_iff hscopes hinj hnew hap hv]
      refine and_congr_right fun hwt => exists_congr fun T => ?_
      exact hasType_term_iff hscopes hinj hnew hap hv hwt
    · -- Classes or methods of one name make both programs invalid.
      refine iff_of_false (fun h => hn (names_of_valid_renameMethod hc h.1)) fun h => hn ?_
      exact ⟨h.1.names, h.1.methods c (List.mem_of_getElem? hc)⟩
  · intro a b ha hb
    obtain ⟨hpa, ⟨hta, hv, hwt, hT⟩, -⟩ := Accepted.ofProgram_eq_ok_iff.1 ha
    obtain ⟨hpb, ⟨htb, -, -, hT'⟩, -⟩ := Accepted.ofProgram_eq_ok_iff.1 hb
    rw [hpa] at hta hT
    rw [hta] at hv hwt hT
    rw [hpb, table_renameMethod hc hd hv.names (hv.methods c (List.mem_of_getElem? hc))] at htb
    rw [hpb, htb] at hT'
    have hT'' := (hasType_term_iff hscopes hinj hnew hap hv hwt).1 hT'
    refine ⟨hT''.unique hT, fun fuel => ?_⟩
    have hclosed : p.term.tyVars = [] := by
      rw [List.eq_nil_iff_forall_not_mem]
      intro X hX
      obtain ⟨N, hN⟩ := hT.exists_bound? hX
      cases hN
    rw [hta, htb, hpa, hpb]
    exact (hg.eval_agree hv hwt fuel (ρ := .empty) nofun hclosed).1

def inheritedBound : String :=
  "class C<X extends Object> extends Object \x7b C() \x7b super(); \x7d " ++
    "<Y extends C<X>> X m(X x, Y y) \x7b return x; \x7d \x7d " ++
  "class D<Z extends Object> extends C<Z> \x7b D() \x7b super(); \x7d " ++
    "<W extends C<Z>> Z m(Z z, W w) \x7b return z; \x7d \x7d " ++
  "new D<Object>().m<D<Object>>(new Object(), new D<Object>())"

theorem renameMethod_alike_inheritedBound :
    (Program.ofSource inheritedBound).Yields fun p =>
      (∀ k ∈ p.classes, k.DistinctScopes) ∧
      (∃ c ∈ p.classes[0]?, ∃ d ∈ c.methods[0]?, d.ownNames = ["Y"] ∧
        (∀ X ∈ d.ownNames, ∀ Y ∈ d.ownNames, X ++ "1" = Y ++ "1" → X = Y) ∧
        (∀ X ∈ d.ownNames, X ++ "1" ∉ p.typeVars) ∧
        ∀ q ∈ p.lookups ⟨p.classes⟩, (ClassTable.mk p.classes).ApartOn d.ownNames q.1 q.2) ∧
      ∃ a b, Accepted.ofProgram p = .ok a ∧
        Accepted.ofProgram (p.renameMethod 0 0 (· ++ "1")) = .ok b ∧ b.ty = a.ty ∧
        ∀ fuel, eval b.table fuel .empty b.program.term =
          eval a.table fuel .empty a.program.term := by
  have hyps : (Program.ofSource inheritedBound).Yields fun p =>
      (∀ k ∈ p.classes, k.DistinctScopes) ∧
      (∃ c ∈ p.classes[0]?, ∃ d ∈ c.methods[0]?, d.ownNames = ["Y"] ∧
        (∀ X ∈ d.ownNames, ∀ Y ∈ d.ownNames, X ++ "1" = Y ++ "1" → X = Y) ∧
        (∀ X ∈ d.ownNames, X ++ "1" ∉ p.typeVars) ∧
        ∀ q ∈ p.lookups ⟨p.classes⟩, (ClassTable.mk p.classes).ApartOn d.ownNames q.1 q.2) ∧
      ∃ a, Accepted.ofProgram p = .ok a := by
    decide +kernel
  obtain ⟨p, hp, hscopes, ⟨c, hc, d, hd, hown, hinj, hnew, hap⟩, a, ha⟩ := hyps
  obtain ⟨hacc, hsame⟩ := renameMethod_alike hc hd hscopes hinj hnew hap
  obtain ⟨b, hb⟩ := hacc.2 ⟨a, ha⟩
  exact ⟨p, hp, hscopes, ⟨c, hc, d, hd, hown, hinj, hnew, hap⟩, a, b, ha, hb, hsame a b ha hb⟩

def capturedArgument : String :=
  "class C<X extends Object> extends Object \x7b C() \x7b super(); \x7d " ++
    "<Y extends Object> X m(Y y) \x7b return this.m<Y>(y); \x7d \x7d " ++
  "class D<Y extends Object> extends C<Y> \x7b D() \x7b super(); \x7d " ++
    "<Z extends Object> Z m(Z z) \x7b return z; \x7d \x7d " ++
  "new D<Object>()"

/-- The look-up in `C<Y>` captures `Y`, and the result of the overridden method becomes its own
type parameter. Under the name `W` it is not captured, and the override is rejected. -/
theorem renameMethod_not_alike_capturedArgument :
    (Program.ofSource capturedArgument).Yields fun p =>
      (∀ k ∈ p.classes, k.DistinctScopes) ∧
      ((p.classes[0]?.bind (·.methods[0]?)).map MethodDecl.ownNames = some ["Y"] ∧
        "W" ∉ p.typeVars) ∧
      (("m", ⟨"C", [.var "Y"]⟩) ∈ p.lookups ⟨p.classes⟩ ∧
        ¬ (ClassTable.mk p.classes).ApartOn ["Y"] "m" ⟨"C", [.var "Y"]⟩) ∧
      (∃ a, Accepted.ofProgram p = .ok a) ∧
      ¬ ∃ b, Accepted.ofProgram (p.renameMethod 0 0 fun _ => "W") = .ok b := by
  decide +kernel

end Program

end Featherweight

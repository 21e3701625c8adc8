import Featherweight.Proofs.Inheritance

/-!
# Which lists of classes become tables

`Legal` says what a list of classes has to satisfy, in terms of the declarations alone:
no search and no climb occurs in it. Validation accepts exactly the legal lists. Its
passes rely on each other: the search for cycles trusts that superclasses are declared,
and the climb for inherited fields that there are no cycles.
-/

namespace Featherweight

namespace ClassTable

open Relation

variable {t : ClassTable} {C : String} {c d : ClassDecl} {N : ClassTy} {a : Ancestor} {n : Nat}
  {seen : List String} {cs : List ClassDecl} {as : List Ancestor}

/-- Class names are distinct, none is that of the root, and what is extended is declared. -/
structure Grounded (t : ClassTable) : Prop where
  object : ∀ c ∈ t.classes, c.name ≠ ClassTy.object.name
  names : (t.classes.map ClassDecl.name).Nodup
  superTypes : ∀ c ∈ t.classes, c.superType = .object ∨ ∃ d ∈ t.classes, d.name = c.superType.name

/-- The conditions on a list of classes. Field names are distinct along each line of classes
that extend one another. -/
structure Legal (t : ClassTable) : Prop extends t.Grounded where
  acyclic : ∀ c ∈ t.classes, ¬ t.OnCycle c
  methods : ∀ c ∈ t.classes, (c.methods.map MethodDecl.name).Nodup
  typeParams : ∀ c ∈ t.classes, (c.typeParams.map TypeParam.name).Nodup
  methodTypeParams : ∀ c ∈ t.classes, ∀ d ∈ c.methods, (d.typeParams.map TypeParam.name).Nodup
  arities : ∀ c ∈ t.classes, ∀ d, t.Extends c d →
    c.superType.args.length = d.typeParams.length
  fields : ∀ c ∈ t.classes, ∀ cs, List.IsChain t.Extends (c :: cs) →
    ((c :: cs).flatMap fun d => d.fields.map Binding.name).Nodup

theorem grounded_iff : t.Grounded ↔ requireNames [] (t.classes.map ClassDecl.name) = .ok () ∧
    t.classes.forM t.requireSuperType = .ok () := by
  simp only [requireNames_eq_ok_iff, forM_eq_ok_iff, requireSuperType, require_eq_ok_iff, find?,
    List.find?_isSome, decide_eq_true_eq]
  constructor
  · rintro ⟨ho, hn, hs⟩
    exact ⟨⟨by simpa using ho, hn, by simp⟩, hs⟩
  · rintro ⟨⟨ho, hn, -⟩, hs⟩
    exact ⟨by simpa using ho, hn, hs⟩

section Grounded

variable (h : t.Grounded)
include h

theorem Grounded.find?_superType (hcd : t.Extends c d) : t.find? c.superType.name = some d := by
  rw [hcd.2.2]
  exact find?_of_nodup h.names hcd.1

theorem Grounded.thisType_ne_object (hc : c ∈ t.classes) : c.thisType ≠ .object :=
  fun he => h.object c hc (congrArg ClassTy.name he)

theorem Grounded.exists_instantiate_thisType (hc : c ∈ t.classes) :
    ∃ σ, t.instantiate c.thisType = .ok ⟨c, σ⟩ := by
  have hlen : c.typeParams.length = c.thisType.args.length := by simp [ClassDecl.thisType]
  obtain ⟨σ, hσ⟩ := Subst.exists_instantiate hlen
  exact ⟨σ, instantiate_eq_ok_iff.2 ⟨find?_of_nodup h.names hc, hσ⟩⟩

theorem Grounded.prefix_of_line (hcs : t.Line N cs) (has : t.Chain N as) :
    cs <+: as.map Ancestor.decl := by
  induction has generalizing cs with
  | root =>
    obtain ⟨c, l, -, hN, -⟩ := hcs
    exact absurd rfl hN
  | @step N a as hN ha _ ih =>
    obtain ⟨c, l, rfl, -, hc, hchain⟩ := hcs
    cases hc.symm.trans (instantiate_eq_ok_iff.1 ha).1
    rw [List.map_cons, List.cons_prefix_cons]
    refine ⟨rfl, ?_⟩
    cases l with
    | nil => exact List.nil_prefix
    | cons d l =>
      obtain ⟨hext, hchain⟩ := List.isChain_cons_cons.1 hchain
      exact ih ⟨d, l, rfl, superType_ne_object_iff.2 hext.2.1, h.find?_superType hext, hchain⟩

end Grounded

theorem nodup_names_fields_iff (as : List Ancestor) :
    ((as.reverse.flatMap Ancestor.fields).map Binding.name).Nodup ↔
      ((as.map Ancestor.decl).flatMap fun c => c.fields.map Binding.name).Nodup := by
  have hnames : (as.reverse.flatMap Ancestor.fields).map Binding.name =
      as.reverse.flatMap fun a => a.decl.fields.map Binding.name := by
    simp [List.map_flatMap, Ancestor.fields, Subst.binding, Function.comp_def]
  rw [hnames, List.flatMap_map]
  exact ((List.reverse_perm as).flatMap_right _).nodup_iff

section Legal

variable (h : t.Legal)
include h

theorem Legal.instantiate_superType (ha : t.instantiate N = .ok a) :
    a.superType = .object ∨ ∃ b, t.instantiate a.superType = .ok b := by
  have hc := decl_mem_of_instantiate ha
  by_cases hne : a.superType = .object
  · exact .inl hne
  · have hdecl := superType_ne_object_iff.1 hne
    obtain ⟨d, hd, hname⟩ := (h.superTypes _ hc).resolve_left hdecl
    have hext : t.Extends a.decl d := ⟨hd, hdecl, hname.symm⟩
    have hlen : d.typeParams.length = a.superType.args.length := by
      simp [Ancestor.superType, h.arities _ hc d hext]
    obtain ⟨σ, hσ⟩ := Subst.exists_instantiate hlen
    exact .inr ⟨⟨d, σ⟩, instantiate_eq_ok_iff.2 ⟨h.find?_superType hext, hσ⟩⟩

theorem Legal.climb_ok_or_cycle (hN : N = .object ∨ ∃ a, t.instantiate N = .ok a) :
    (∃ as, t.climb n N = .ok as) ∨ ∃ C, t.climb n N = .error (.cycle C) := by
  induction n generalizing N with
  | zero =>
    by_cases hobj : N = .object
    · exact .inl ⟨[], hobj ▸ climb_object t 0⟩
    · obtain ⟨a, ha⟩ := hN.resolve_left hobj
      exact .inr ⟨_, climb_zero hobj ha⟩
  | succ n ih =>
    by_cases hobj : N = .object
    · exact .inl ⟨[], hobj ▸ climb_object t _⟩
    · obtain ⟨a, ha⟩ := hN.resolve_left hobj
      rw [climb_succ hobj ha]
      refine (ih (h.instantiate_superType ha)).imp ?_ ?_
      · rintro ⟨as, has⟩
        exact ⟨a :: as, map_eq_ok_iff.2 ⟨as, has, rfl⟩⟩
      · rintro ⟨C, hC⟩
        exact ⟨C, map_eq_error_iff.2 hC⟩

theorem Legal.exists_ancestry (ha : t.instantiate N = .ok a) : ∃ as, t.ancestry N = .ok as := by
  refine (h.climb_ok_or_cycle (.inr ⟨a, ha⟩)).resolve_right ?_
  rintro ⟨C, hC⟩
  exact climb_ne_cycle h.acyclic (Nat.le_refl _) hC

theorem Legal.nodup_fields (hc : c ∈ t.classes) :
    ∃ fs, t.fields c.thisType = .ok fs ∧ (fs.map Binding.name).Nodup := by
  obtain ⟨σ, ha⟩ := h.exists_instantiate_thisType hc
  obtain ⟨as, has⟩ := h.exists_ancestry ha
  refine ⟨as.reverse.flatMap Ancestor.fields, by rw [ClassTable.fields, has]; rfl, ?_⟩
  rw [nodup_names_fields_iff]
  obtain ⟨c', l, hcs, -, hc', hchain⟩ :=
    (climb_eq_ok_iff.1 has).1.line (h.thisType_ne_object hc)
  cases (find?_of_nodup h.names hc).symm.trans hc'
  rw [hcs]
  exact h.fields c hc l hchain

end Legal

theorem Valid.grounded (h : t.Valid) : t.Grounded where
  object := by simpa using h.object
  names := h.names
  superTypes c hc := (h.superTypes c hc).imp_right fun hsome => by
    simpa using List.find?_isSome.1 hsome

theorem Valid.arity_of_extends (h : t.Valid) (hc : c ∈ t.classes) (hcd : t.Extends c d) :
    c.superType.args.length = d.typeParams.length := by
  obtain ⟨σ, ha⟩ := h.grounded.exists_instantiate_thisType hc
  obtain ⟨as, has, -⟩ := h.exists_chain ha
  obtain ⟨_, as', -, ha', has'⟩ := has.exists_step (h.ne_object ha)
  cases ha.symm.trans ha'
  -- The climb from the class has gone on at its supertype, so the arguments were counted.
  obtain ⟨b, -, -, hb, -⟩ := has'.exists_step (superType_ne_object_iff.2 hcd.2.1)
  obtain ⟨hfind, hσ⟩ := instantiate_eq_ok_iff.1 hb
  cases (h.grounded.find?_superType hcd).symm.trans hfind
  simpa [Ancestor.superType] using (Subst.instantiate_eq_ok_iff.1 hσ).1.symm

theorem Valid.nodup_of_isChain (h : t.Valid) (hc : c ∈ t.classes)
    (hcs : List.IsChain t.Extends (c :: cs)) :
    ((c :: cs).flatMap fun d => d.fields.map Binding.name).Nodup := by
  obtain ⟨fs, hfs, hnodup⟩ := h.fields c hc
  simp only [ClassTable.fields, bind_eq_ok_iff, pure_eq_ok_iff] at hfs
  obtain ⟨as, has, rfl⟩ := hfs
  rw [nodup_names_fields_iff] at hnodup
  have hline : t.Line c.thisType (c :: cs) :=
    ⟨c, cs, rfl, h.grounded.thisType_ne_object hc, h.find?_name hc, hcs⟩
  obtain ⟨rest, hrest⟩ := h.grounded.prefix_of_line hline (climb_eq_ok_iff.1 has).1
  rw [← hrest, List.flatMap_append] at hnodup
  exact hnodup.of_append_left

theorem valid_iff_legal : t.Valid ↔ t.Legal := by
  constructor
  · intro h
    refine ⟨h.grounded, fun c hc => ?_, h.methods, h.typeParams, h.methodTypeParams,
      fun c hc d => h.arity_of_extends hc, fun c hc cs => h.nodup_of_isChain hc⟩
    rw [OnCycle, ← reaches_length_iff h.names hc, Bool.not_eq_true]
    exact h.acyclic c hc
  · intro h
    refine ⟨h.names, by simpa using h.object, fun c hc => ?_, fun c hc => ?_, h.methods,
      h.typeParams, h.methodTypeParams, fun c hc => h.nodup_fields hc⟩
    · refine (h.superTypes c hc).imp_right fun ⟨d, hd, hname⟩ => ?_
      exact List.find?_isSome.2 ⟨d, hd, by simpa using hname⟩
    · rw [← Bool.not_eq_true, reaches_length_iff h.names hc]
      exact h.acyclic c hc

theorem requireNames_ne_cycle {names : List String} :
    requireNames seen names ≠ .error (.cycle C) := by
  induction names generalizing seen with
  | nil => exact nofun
  | cons x xs ih =>
    simp only [requireNames, bind_eq_error_iff, exists_unit_iff, require_eq_error_iff, ih,
      reduceCtorEq, and_false, or_self, ne_eq, not_false_eq_true]

theorem requireDistinct_ne_cycle {fault : String → TableFault} {names : List String}
    (hfault : ∀ x, fault x ≠ .cycle C) : requireDistinct fault names ≠ .error (.cycle C) := by
  rw [requireDistinct]
  split
  · next x _ => exact fun h => hfault x (Except.error.inj h)
  · exact nofun

theorem requireMembers_ne_cycle (hacyclic : ∀ c ∈ t.classes, ¬ t.OnCycle c) :
    t.requireMembers c ≠ .error (.cycle C) := by
  have hfields : t.fields c.thisType ≠ .error (.cycle C) := by
    intro h
    rw [ClassTable.fields, bind_eq_error_iff] at h
    rcases h with h | ⟨as, -, h⟩
    · exact climb_ne_cycle hacyclic (Nat.le_refl _) h
    · cases h
  intro h
  simp only [requireMembers, bind_eq_error_iff, exists_unit_iff, forM_eq_error_iff] at h
  rcases h with h | ⟨-, h | ⟨-, ⟨_, d, _, -, -, h⟩ | ⟨-, h | ⟨fs, -, h⟩⟩⟩⟩
  · exact requireDistinct_ne_cycle (by simp) h
  · exact requireDistinct_ne_cycle (by simp) h
  · exact requireDistinct_ne_cycle (by simp) h
  · exact hfields h
  · exact requireDistinct_ne_cycle (by simp) h

section Grounded

variable (h : t.Grounded)
include h

theorem Grounded.requireAcyclic_eq_ok_iff (hc : c ∈ t.classes) :
    t.requireAcyclic c = .ok () ↔ ¬ t.OnCycle c := by
  rw [requireAcyclic, require_eq_ok_iff, ← Bool.not_eq_true, reaches_length_iff h.names hc, OnCycle]

theorem Grounded.requireAcyclic_eq_error_iff (hc : c ∈ t.classes) {e : TableFault} :
    t.requireAcyclic c = .error e ↔ t.OnCycle c ∧ .cycle c.name = e := by
  rw [requireAcyclic, require_eq_error_iff, ← Bool.not_eq_true, not_not,
    reaches_length_iff h.names hc, OnCycle]

theorem Grounded.requireValid_eq : t.requireValid =
    (do t.classes.forM t.requireAcyclic; t.classes.forM t.requireMembers) := by
  obtain ⟨hn, hs⟩ := grounded_iff.1 h
  rw [requireValid, hn, ok_bind, hs, ok_bind]

theorem Grounded.exists_first_cycle (hc : ∃ c ∈ t.classes, t.OnCycle c) :
    ∃ pre c post, t.classes = pre ++ c :: post ∧ t.OnCycle c ∧ (∀ d ∈ pre, ¬ t.OnCycle d) ∧
      t.requireValid = .error (.cycle c.name) := by
  obtain ⟨c, hc, hcyc⟩ := hc
  cases hall : t.classes.forM t.requireAcyclic with
  | ok u =>
    have hok := forM_eq_ok_iff.1 hall c hc
    exact absurd hcyc ((h.requireAcyclic_eq_ok_iff hc).1 hok)
  | error e =>
    obtain ⟨pre, d, post, hsplit, hpre, hd⟩ := forM_eq_error_iff.1 hall
    have hmem : ∀ b ∈ pre ++ d :: post, b ∈ t.classes := fun b hb => hsplit ▸ hb
    obtain ⟨hdcyc, rfl⟩ := (h.requireAcyclic_eq_error_iff (hmem d (by simp))).1 hd
    refine ⟨pre, d, post, hsplit, hdcyc, fun b hb => ?_, by rw [h.requireValid_eq, hall]; rfl⟩
    exact (h.requireAcyclic_eq_ok_iff (hmem b (by simp [hb]))).1 (hpre b hb)

end Grounded

theorem onCycle_of_requireValid (h : t.requireValid = .error (.cycle C)) :
    t.Grounded ∧ ∃ c ∈ t.classes, t.OnCycle c ∧ c.name = C := by
  have hg : t.Grounded := by
    rw [requireValid, bind_eq_error_iff, bind_eq_error_iff, forM_eq_error_iff] at h
    obtain ⟨⟨⟩, hn, hs⟩ := h.resolve_left requireNames_ne_cycle
    rcases hs with ⟨_, c, _, -, -, hs⟩ | ⟨⟨⟩, hs, -⟩
    · cases (require_eq_error_iff.1 hs).2
    · exact grounded_iff.2 ⟨hn, hs⟩
  by_cases hc : ∃ c ∈ t.classes, t.OnCycle c
  · obtain ⟨pre, c, post, hsplit, hcyc, -, hfault⟩ := hg.exists_first_cycle hc
    cases h.symm.trans hfault
    exact ⟨hg, c, by simp [hsplit], hcyc, rfl⟩
  · have hacyclic : ∀ c ∈ t.classes, ¬ t.OnCycle c := fun c hmem hcyc => hc ⟨c, hmem, hcyc⟩
    have hall : t.classes.forM t.requireAcyclic = .ok () :=
      forM_eq_ok_iff.2 fun c hmem => (hg.requireAcyclic_eq_ok_iff hmem).2 (hacyclic c hmem)
    rw [hg.requireValid_eq, hall, ok_bind, forM_eq_error_iff] at h
    obtain ⟨_, c, _, -, -, hmembers⟩ := h
    exact absurd hmembers (requireMembers_ne_cycle hacyclic)

/-- A list of classes becomes a table exactly if it is legal. If a class of a grounded list
extends itself, then a cycle is reported, for the first such class; and no cycle is reported
otherwise. Validation always ends: the search for a cycle finds what the walk that remembers
the names it has met finds, which gives up on a cycle above its start; and the climbs for
fields, made when there is no cycle, need no more steps than there are classes. -/
theorem ofClasses_accepts_legal (classes : List ClassDecl) :
    let t : ClassTable := ⟨classes⟩
    ((∃ u, ofClasses classes = .ok u) ↔ t.Legal) ∧
    (t.Grounded → (∃ c ∈ classes, t.OnCycle c) → ∃ pre c post, classes = pre ++ c :: post ∧
      t.OnCycle c ∧ (∀ d ∈ pre, ¬ t.OnCycle d) ∧ ofClasses classes = .error (.cycle c.name)) ∧
    (∀ C, ofClasses classes = .error (.cycle C) →
      t.Grounded ∧ ∃ c ∈ classes, t.OnCycle c ∧ c.name = C) ∧
    (∀ c ∈ classes, ∀ N, t.reaches c.name classes.length N = t.meets c.name [] N) ∧
    ((∀ c ∈ classes, ¬ t.OnCycle c) →
      ∀ k N, t.climb (classes.length + k) N = t.climb classes.length N) := by
  intro t
  have herror {e : TableFault} : ofClasses classes = .error e ↔ t.requireValid = .error e := by
    rw [ofClasses, bind_eq_error_iff]
    exact or_iff_left (by rintro ⟨_, _, h⟩; cases h)
  refine ⟨?_, fun hg hc => ?_, fun C hC => onCycle_of_requireValid (herror.1 hC), fun c hc N => ?_,
    fun hacyclic k N => climb_add hacyclic k N⟩
  · simp only [ofClasses_eq_ok_iff, ← valid_iff_legal]
    constructor
    · rintro ⟨u, rfl, hv⟩
      exact hv
    · exact fun hv => ⟨t, rfl, hv⟩
  · simp only [herror]
    exact hg.exists_first_cycle hc
  · exact reaches_eq_meets (List.mem_map_of_mem hc) N

def cycleAbove : List ClassDecl :=
  let cls (C D : String) : ClassDecl := ⟨C, [], ⟨D, []⟩, [], ⟨C, [], [], []⟩, [], ⟨0, 0⟩⟩
  [cls "C" "A", cls "A" "B", cls "B" "A"]

theorem ofClasses_accepts_legal_cycleAbove :
    (⟨cycleAbove⟩ : ClassTable).Grounded ∧ ¬ (⟨cycleAbove⟩ : ClassTable).Legal ∧
      ofClasses cycleAbove = .error (.cycle "A") ∧
      ∃ pre c post, cycleAbove = pre ++ c :: post ∧ c.name = "A" ∧
        (⟨cycleAbove⟩ : ClassTable).OnCycle c ∧
          ∀ d ∈ pre, ¬ (⟨cycleAbove⟩ : ClassTable).OnCycle d := by
  have hA : ofClasses cycleAbove = .error (.cycle "A") := by decide
  obtain ⟨hiff, hfirst, hcycle, -, -⟩ := ofClasses_accepts_legal cycleAbove
  obtain ⟨hg, c, hc, hcyc, -⟩ := hcycle "A" hA
  obtain ⟨pre, d, post, hsplit, hdcyc, hpre, hd⟩ := hfirst hg ⟨c, hc, hcyc⟩
  refine ⟨hg, fun hl => ?_, hA, pre, d, post, hsplit, ?_, hdcyc, hpre⟩
  · obtain ⟨u, hu⟩ := hiff.2 hl
    cases hA.symm.trans hu
  · exact (TableFault.cycle.inj (Except.error.inj (hA.symm.trans hd))).symm

end ClassTable

end Featherweight

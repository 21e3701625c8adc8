import Featherweight.Proofs.Hierarchy
import Mathlib.Data.List.Chain
import Mathlib.Data.List.Perm.Subperm

/-!
# Walks through the superclasses

`Extends` relates a class to its superclass in any list of classes, legal or not. Two
walks follow it. The search for a cycle takes a bounded number of steps; the walk
`meets` has no bound, but remembers the names it has met and gives up when one comes up
again, so it ends on every list. Both find the same.

A climb from a class type has a bound too, and runs out of steps only along a line of
more classes than that. On a line no class comes up twice unless it extends itself; so
without cycles the number of classes is bound enough.
-/

namespace Featherweight

namespace ClassTable

open Relation

variable {t : ClassTable} {C : String} {c d : ClassDecl} {N : ClassTy} {a : Ancestor} {n k : Nat}
  {seen : List String} {cs : List ClassDecl} {as : List Ancestor}

def Extends (t : ClassTable) (c d : ClassDecl) : Prop :=
  d ∈ t.classes ∧ c.superType ≠ .object ∧ c.superType.name = d.name

def OnCycle (t : ClassTable) (c : ClassDecl) : Prop := TransGen t.Extends c c

theorem OnCycle.mem (h : t.OnCycle c) : c ∈ t.classes := by
  cases h with
  | single h => exact h.1
  | tail _ h => exact h.1

theorem reaches_succ_iff : t.reaches C (n + 1) N = true ↔ N ≠ .object ∧
    (N.name = C ∨ ∃ c, t.find? N.name = some c ∧ t.reaches C n c.superType = true) := by
  simp [reaches, Option.any_eq_true]

theorem reaches_mono (h : t.reaches C n N = true) (hnk : n ≤ k) : t.reaches C k N = true := by
  induction n generalizing k N with
  | zero => cases h
  | succ n ih =>
    cases k with
    | zero => simp at hnk
    | succ k =>
      rw [reaches_succ_iff] at h ⊢
      refine ⟨h.1, h.2.imp_right ?_⟩
      rintro ⟨c, hc, h⟩
      exact ⟨c, hc, ih h (Nat.le_of_succ_le_succ hnk)⟩

theorem exists_reaches_iff (hn : (t.classes.map ClassDecl.name).Nodup) (hc : c ∈ t.classes) :
    (∃ n, t.reaches c.name n d.superType = true) ↔ TransGen t.Extends d c := by
  constructor
  · rintro ⟨n, h⟩
    induction n generalizing d with
    | zero => cases h
    | succ n ih =>
      obtain ⟨hne, hname | ⟨e, he, h⟩⟩ := reaches_succ_iff.1 h
      · exact .single ⟨hc, hne, hname⟩
      · exact .head ⟨mem_of_find? he, hne, (name_of_find? he).symm⟩ (ih h)
  · intro h
    induction h using TransGen.head_induction_on with
    | single h => exact ⟨1, reaches_succ_iff.2 ⟨h.2.1, .inl h.2.2⟩⟩
    | head h _ ih =>
      obtain ⟨n, hreach⟩ := ih
      refine ⟨n + 1, reaches_succ_iff.2 ⟨h.2.1, .inr ⟨_, ?_, hreach⟩⟩⟩
      rw [h.2.2]
      exact find?_of_nodup hn h.1

theorem exists_first_reaches (h : t.reaches C n N = true) :
    ∃ k, t.reaches C (k + 1) N = true ∧ t.reaches C k N ≠ true := by
  induction n with
  | zero => cases h
  | succ n ih =>
    by_cases hn : t.reaches C n N = true
    · exact ih hn
    · exact ⟨n, h, hn⟩

def unmet (t : ClassTable) (seen : List String) : List ClassDecl :=
  t.classes.filter (·.name ∉ seen)

theorem length_unmet_lt (hc : t.find? C = some c) (hC : C ∉ seen) :
    (t.unmet (C :: seen)).length < (t.unmet seen).length := by
  have hfilter : t.unmet (C :: seen) = (t.unmet seen).filter (·.name ≠ C) := by
    simp [unmet, List.filter_filter]
  have hname := name_of_find? hc
  rw [hfilter, List.length_filter_lt_length_iff_exists]
  exact ⟨c, by simp [unmet, mem_of_find? hc, hname, hC], by simp [hname]⟩

/-- The walk from `N` upwards meets a class named `C`. It remembers the names met and
gives up when one comes up again. -/
def meets (t : ClassTable) (C : String) (seen : List String) (N : ClassTy) : Bool :=
  if N = .object then false
  else if N.name = C then true
  else if hseen : N.name ∈ seen then false
  else
    match hc : t.find? N.name with
    | none => false
    | some c =>
      have := length_unmet_lt hc hseen
      t.meets C (N.name :: seen) c.superType
termination_by (t.unmet seen).length

theorem reaches_of_meets (hC : C ∈ t.classes.map ClassDecl.name) (hseen : C ∉ seen)
    (h : t.meets C seen N = true) : t.reaches C (t.unmet seen).length N = true := by
  fun_induction meets t C seen N with
  | case1 => cases h
  | case2 seen N hN hname =>
    obtain ⟨c, hc, rfl⟩ := List.mem_map.1 hC
    have hpos : 0 < (t.unmet seen).length :=
      List.length_pos_of_mem (a := c) (by simp [unmet, hc, hseen])
    exact reaches_mono (n := 1) (reaches_succ_iff.2 ⟨hN, .inl hname⟩) hpos
  | case3 => cases h
  | case4 => cases h
  | case5 seen N hN hname hfresh c hc hlt ih =>
    have hup := ih (by simp [hseen, Ne.symm hname]) h
    exact reaches_mono (reaches_succ_iff.2 ⟨hN, .inr ⟨c, hc, hup⟩⟩) hlt

theorem meets_of_first_reaches (h : t.reaches C (n + 1) N = true) (hmin : t.reaches C n N ≠ true)
    (hseen : ∀ M : ClassTy, M.name ∈ seen → t.reaches C (n + 1) M ≠ true) :
    t.meets C seen N = true := by
  induction n generalizing seen N with
  | zero =>
    obtain ⟨hN, hname | ⟨c, -, hup⟩⟩ := reaches_succ_iff.1 h
    · rw [meets, if_neg hN, if_pos hname]
    · cases hup
  | succ n ih =>
    obtain ⟨hN, hup⟩ := reaches_succ_iff.1 h
    rw [meets, if_neg hN]
    by_cases hname : N.name = C
    · rw [if_pos hname]
    · obtain ⟨c, hc, hup⟩ := hup.resolve_left hname
      rw [if_neg hname, dif_neg fun hmem => hseen N hmem h]
      split
      · next hnone => simp [hnone] at hc
      · next c' hc' =>
        cases hc.symm.trans hc'
        refine ih hup (fun hlow => ?_) fun M hM hreach => ?_
        · exact hmin (reaches_succ_iff.2 ⟨hN, .inr ⟨c, hc, hlow⟩⟩)
        · rcases List.mem_cons.1 hM with hM | hM
          · -- From a name met before, the way to `C` would have been shorter.
            obtain ⟨-, hMup⟩ := reaches_succ_iff.1 hreach
            exact hmin (reaches_succ_iff.2 ⟨hN, hM ▸ hMup⟩)
          · exact hseen M hM (reaches_mono hreach (Nat.le_succ _))

theorem meets_of_reaches (h : t.reaches C n N = true) : t.meets C [] N = true := by
  obtain ⟨k, hk, hmin⟩ := exists_first_reaches h
  exact meets_of_first_reaches hk hmin (by simp)

theorem reaches_length_of_meets (hC : C ∈ t.classes.map ClassDecl.name)
    (h : t.meets C [] N = true) : t.reaches C t.classes.length N = true := by
  have hunmet : t.unmet [] = t.classes := by simp [unmet]
  simpa only [hunmet] using reaches_of_meets hC (by simp) h

/-- The bounded search finds what the walk that remembers finds. -/
theorem reaches_eq_meets (hC : C ∈ t.classes.map ClassDecl.name) (N : ClassTy) :
    t.reaches C t.classes.length N = t.meets C [] N :=
  Bool.eq_iff_iff.2 ⟨meets_of_reaches, reaches_length_of_meets hC⟩

theorem reaches_length_iff (hn : (t.classes.map ClassDecl.name).Nodup) (hc : c ∈ t.classes) :
    t.reaches c.name t.classes.length d.superType = true ↔ TransGen t.Extends d c := by
  rw [← exists_reaches_iff hn hc]
  constructor
  · exact fun h => ⟨_, h⟩
  · rintro ⟨n, h⟩
    exact reaches_length_of_meets (List.mem_map_of_mem hc) (meets_of_reaches h)

theorem superType_ne_object_iff : a.superType ≠ .object ↔ a.decl.superType ≠ .object :=
  not_congr Subst.classTy_eq_object_iff

/-- Each of these classes extends the next, and the first is that of the class type. -/
def Line (t : ClassTable) (N : ClassTy) (cs : List ClassDecl) : Prop :=
  ∃ c l, cs = c :: l ∧ N ≠ .object ∧ t.find? N.name = some c ∧ List.IsChain t.Extends (c :: l)

theorem Line.cons (hN : N ≠ .object) (ha : t.instantiate N = .ok a) (h : t.Line a.superType cs) :
    t.Line N (a.decl :: cs) := by
  obtain ⟨d, l, rfl, hne, hd, hchain⟩ := h
  refine ⟨a.decl, d :: l, rfl, hN, (instantiate_eq_ok_iff.1 ha).1, .cons_cons ?_ hchain⟩
  exact ⟨mem_of_find? hd, superType_ne_object_iff.1 hne, (name_of_find? hd).symm⟩

theorem line_singleton (hN : N ≠ .object) (ha : t.instantiate N = .ok a) : t.Line N [a.decl] :=
  ⟨a.decl, [], rfl, hN, (instantiate_eq_ok_iff.1 ha).1, .singleton _⟩

theorem Line.subset (h : t.Line N cs) : cs ⊆ t.classes := by
  obtain ⟨c, l, rfl, -, hc, hchain⟩ := h
  have hmem := mem_of_find? hc
  intro d hd
  rcases List.mem_cons.1 hd with rfl | hd
  · exact hmem
  · exact hchain.cons_induction (· ∈ t.classes) l (fun _ _ h _ => h.1) hmem d hd

theorem Chain.line (h : t.Chain N as) (hN : N ≠ .object) : t.Line N (as.map Ancestor.decl) := by
  induction h with
  | root => exact absurd rfl hN
  | @step N a as hN ha has ih =>
    by_cases hsup : a.superType = .object
    · rw [hsup] at has
      cases has.eq .root
      exact line_singleton hN ha
    · exact (ih hsup).cons hN ha

theorem instantiate_ne_cycle : t.instantiate N ≠ .error (.cycle C) := by
  intro h
  rw [instantiate, find] at h
  split at h
  · rw [ok_bind, Subst.instantiate] at h
    split at h <;> cases h
  · cases h

theorem climb_zero (hN : N ≠ .object) (ha : t.instantiate N = .ok a) :
    t.climb 0 N = .error (.cycle N.name) := by
  rw [climb, if_neg hN, ha]
  rfl

theorem climb_over_or_step (t : ClassTable) (N : ClassTy) :
    (∃ r, (∀ n, t.climb n N = r) ∧ ∀ C, r ≠ .error (.cycle C)) ∨
      N ≠ .object ∧ ∃ a, t.instantiate N = .ok a := by
  by_cases hN : N = .object
  · exact .inl ⟨.ok [], fun n => hN ▸ climb_object t n, by simp⟩
  · cases ha : t.instantiate N with
    | ok a => exact .inr ⟨hN, a, rfl⟩
    | error e =>
      refine .inl ⟨.error e, fun n => climb_of_error hN ha, fun C hC => ?_⟩
      cases hC
      exact instantiate_ne_cycle ha

theorem exists_line_of_cycle (h : t.climb n N = .error (.cycle C)) :
    ∃ cs, t.Line N cs ∧ cs.length = n + 1 := by
  induction n generalizing N with
  | zero =>
    rcases t.climb_over_or_step N with ⟨r, hr, hne⟩ | ⟨hN, a, ha⟩
    · exact absurd (hr 0 ▸ h) (hne C)
    · exact ⟨[a.decl], line_singleton hN ha, rfl⟩
  | succ n ih =>
    rcases t.climb_over_or_step N with ⟨r, hr, hne⟩ | ⟨hN, a, ha⟩
    · exact absurd (hr (n + 1) ▸ h) (hne C)
    · rw [climb_succ hN ha, map_eq_error_iff] at h
      obtain ⟨cs, hcs, hlen⟩ := ih h
      exact ⟨_, hcs.cons hN ha, by simp [hlen]⟩

theorem climb_succ_of_ne_cycle (h : ∀ C, t.climb n N ≠ .error (.cycle C)) :
    t.climb (n + 1) N = t.climb n N := by
  induction n generalizing N with
  | zero =>
    rcases t.climb_over_or_step N with ⟨r, hr, -⟩ | ⟨hN, a, ha⟩
    · rw [hr, hr]
    · exact absurd (climb_zero hN ha) (h _)
  | succ n ih =>
    rcases t.climb_over_or_step N with ⟨r, hr, -⟩ | ⟨hN, a, ha⟩
    · rw [hr, hr]
    · rw [climb_succ hN ha, climb_succ hN ha, ih]
      intro C hC
      exact h C (climb_succ hN ha ▸ map_eq_error_iff.2 hC)

section Acyclic

variable (hacyclic : ∀ c ∈ t.classes, ¬ t.OnCycle c)
include hacyclic

theorem Line.length_le (h : t.Line N cs) : cs.length ≤ t.classes.length := by
  have hnodup : cs.Nodup := by
    obtain ⟨c, l, rfl, -, -, hchain⟩ := h
    have hpair := List.isChain_iff_pairwise.1 (hchain.imp fun _ _ => TransGen.single)
    refine hpair.imp fun {c d} hcd => ?_
    rintro rfl
    exact hacyclic c (OnCycle.mem hcd) hcd
  exact (List.subperm_of_subset hnodup h.subset).length_le

theorem climb_ne_cycle (hn : t.classes.length ≤ n) : t.climb n N ≠ .error (.cycle C) := by
  intro h
  obtain ⟨cs, hcs, hlen⟩ := exists_line_of_cycle h
  have hle := hcs.length_le hacyclic
  omega

theorem climb_add (k : Nat) (N : ClassTy) :
    t.climb (t.classes.length + k) N = t.climb t.classes.length N := by
  induction k with
  | zero => rfl
  | succ k ih =>
    rw [← ih, ← Nat.add_assoc]
    exact climb_succ_of_ne_cycle fun C => climb_ne_cycle hacyclic (Nat.le_add_right _ k)

end Acyclic

end ClassTable

end Featherweight

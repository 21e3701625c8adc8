import Featherweight.Proofs.LargerTables
import Featherweight.Proofs.LegalClasses
import Featherweight.Proofs.RunInvariants

/-!
# Tables that share their classes

A run looks up only classes whose names it got from the term, from the bodies of methods
and from the supertypes of classes. If another table holds the same class, or no class,
under each such name, the run goes the same way there, faults included. For a program
that has passed its checks these names are the ones it declares, so further classes make
no difference to it.
-/

namespace Featherweight

inductive Ty.Names (D : String → Prop) : Ty → Prop where
  | var (X : String) : Names D (.var X)
  | inst {C : String} {Ts : List Ty} (hC : D C) (hTs : ∀ T ∈ Ts, Names D T) :
      Names D (.inst C Ts)

section Names

variable {D : String → Prop} {S T : Ty} {N : ClassTy} {σ : Subst}

theorem ClassTy.names_toTy_iff : N.toTy.Names D ↔ D N.name ∧ ∀ T ∈ N.args, T.Names D := by
  constructor
  · intro h
    cases h with
    | inst hC hTs => exact ⟨hC, hTs⟩
  · exact fun h => .inst h.1 h.2

theorem Ty.Names.subst (hT : T.Names D) (hσ : ∀ X, (σ.var X).Names D) : (σ.ty T).Names D := by
  induction hT with
  | var X => exact hσ X
  | inst hC _ ih =>
    rw [Subst.ty_inst]
    exact .inst hC (List.forall_mem_map.2 ih)

theorem Ty.Names.mono {D' : String → Prop} (hT : T.Names D) (h : ∀ C, D C → D' C) : T.Names D' := by
  induction hT with
  | var X => exact .var X
  | inst hC _ ih => exact .inst (h _ hC) ih

theorem Subst.names_of_instantiate_args {Xs : List TypeParam} {Ts : List Ty}
    (h : instantiate Xs Ts = .ok σ) (hTs : ∀ T ∈ Ts, T.Names D) (X : String) :
    (σ.var X).Names D := by
  by_cases hX : X ∈ σ.names
  · exact hTs _ (var_mem_of_instantiate h ((mem_names_of_instantiate h).1 hX))
  · rw [var_of_not_mem hX]
    exact .var X

end Names

namespace ClassTable

variable {t t' : ClassTable} {Δ : TypeEnv} {T : Ty} {M N : ClassTy} {a : Ancestor}
  {d : MethodDecl} {m : String}

theorem WellFormed.names (h : t.WellFormed Δ T) :
    T.Names fun C => C = ClassTy.object.name ∨ ∃ c, t.find? C = some c := by
  induction T using Ty.induction with
  | var X => exact .var X
  | inst C Ts ih =>
    have h' : t.WellFormed Δ (ClassTy.mk C Ts).toTy := h
    rcases wellFormed_toTy_iff.1 h' with ho | ⟨hTs, a, ha, -⟩
    · cases ho
      exact .inst (.inl rfl) nofun
    · exact .inst (.inr ⟨_, (instantiate_eq_ok_iff.1 ha).1⟩) fun T hT => ih T hT (hTs T hT)

/-- Both tables hold the same class under the name, or both hold none. -/
def Shares (t t' : ClassTable) (C : String) : Prop := t'.find? C = t.find? C

/-- The second table shares every name that a climb or a body of the first one mentions, and
is no smaller. -/
structure SharedWith (t t' : ClassTable) : Prop where
  superTypes : ∀ c ∈ t.classes, c.superType.toTy.Names (t.Shares t')
  bodies : ∀ c ∈ t.classes, ∀ d ∈ c.methods, d.body.AllTypes (Ty.Names (t.Shares t'))
  length_le : t.classes.length ≤ t'.classes.length

theorem Shares.instantiate_eq (h : t.Shares t' N.name) : t'.instantiate N = t.instantiate N := by
  have hfind : t'.find? N.name = t.find? N.name := h
  rw [instantiate, instantiate, find, find, hfind]

theorem subst_names_of_instantiate {D : String → Prop} (hN : N.toTy.Names D)
    (ha : t.instantiate N = .ok a) (X : String) : (a.subst.var X).Names D :=
  Subst.names_of_instantiate_args (instantiate_eq_ok_iff.1 ha).2
    (ClassTy.names_toTy_iff.1 hN).2 X

section Shared

variable (hs : t.SharedWith t')
include hs

theorem SharedWith.superType_names (hN : N.toTy.Names (t.Shares t'))
    (ha : t.instantiate N = .ok a) : a.superType.toTy.Names (t.Shares t') :=
  (hs.superTypes _ (decl_mem_of_instantiate ha)).subst (subst_names_of_instantiate hN ha)

theorem SharedWith.below_names (h : t.Below N M) (hN : N.toTy.Names (t.Shares t')) :
    M.toTy.Names (t.Shares t') := by
  induction h with
  | refl N => exact hN
  | step _ ha _ ih => exact ih (hs.superType_names hN ha)

theorem SharedWith.climb_eq (n : Nat) (hN : N.toTy.Names (t.Shares t')) :
    t'.climb n N = t.climb n N := by
  have hinst {N : ClassTy} (hN : N.toTy.Names (t.Shares t')) : t'.instantiate N = t.instantiate N :=
    (ClassTy.names_toTy_iff.1 hN).1.instantiate_eq
  induction n generalizing N with
  | zero => rw [climb, climb, hinst hN]
  | succ n ih =>
    by_cases hobject : N = .object
    · rw [hobject, climb_object, climb_object]
    · cases ha : t.instantiate N with
      | error fault => rw [climb, climb, hinst hN, ha]; rfl
      | ok a =>
        rw [climb_succ hobject ha, climb_succ hobject ((hinst hN).trans ha),
          ih (hs.superType_names hN ha)]

theorem SharedWith.body_names {Vs : List Ty} {κ : Subst} (hN : N.toTy.Names (t.Shares t'))
    (hVs : ∀ V ∈ Vs, V.Names (t.Shares t')) (hf : t.Finds m N a d)
    (hκ : Subst.instantiate d.typeParams Vs = .ok κ) :
    (κ.term (a.subst.term d.body)).AllTypes (Ty.Names (t.Shares t')) := by
  obtain ⟨M, hNM, ha⟩ := hf.exists_instantiate
  have hM := hs.below_names hNM hN
  have hbody : (a.subst.term d.body).AllTypes (Ty.Names (t.Shares t')) :=
    Subst.allTypes_term (hs.bodies _ hf.decl_mem d hf.mem) fun T hT =>
      hT.subst (subst_names_of_instantiate hM ha)
  exact Subst.allTypes_term hbody fun T hT => hT.subst (Subst.names_of_instantiate_args hκ hVs)

variable (hv : t.Valid)
include hv

theorem SharedWith.ancestry_eq (hN : N.toTy.Names (t.Shares t')) :
    t'.ancestry N = t.ancestry N := by
  obtain ⟨k, hk⟩ := Nat.exists_eq_add_of_le hs.length_le
  rw [ancestry, hs.climb_eq _ hN, hk]
  exact climb_add (valid_iff_legal.1 hv).acyclic k N

theorem SharedWith.runsAlike : t.RunsAlike t' (Ty.Names (t.Shares t')) where
  fields N hN := by rw [fields, fields, hs.ancestry_eq hv hN]
  subtype N T hN := by
    have hbelow : t'.below N T = t.below N T := by rw [below, below, hs.ancestry_eq hv hN]
    exact congrArg (if N.toTy = T then pure true else ·) hbelow
  methodBody m Vs N hN := by rw [methodBody, methodBody, hs.ancestry_eq hv hN]
  body m Vs N b hN hVs hb := by
    obtain ⟨a, d, κ, hf, hκ, rfl⟩ := hv.methodBody_eq_ok_iff.1 hb
    exact hs.body_names hN hVs hf hκ

end Shared

theorem Valid.find?_object (hv : t.Valid) : t.find? ClassTy.object.name = none := by
  apply Option.eq_none_iff_forall_ne_some.2
  intro c hc
  exact hv.name_ne_object hc rfl

section WellTyped

variable (h : t.PartOf t') (hv : t.Valid) (hv' : t'.Valid)
include h hv hv'

theorem PartOf.names_of_wellFormed (hT : t.WellFormed Δ T) : T.Names (t.Shares t') := by
  refine hT.names.mono fun C hC => ?_
  rcases hC with rfl | ⟨c, hc⟩
  · exact hv'.find?_object.trans hv.find?_object.symm
  · exact (h C c hc).trans hc.symm

theorem PartOf.sharedWith (hwt : t.WellTyped) (hlen : t.classes.length ≤ t'.classes.length) :
    t.SharedWith t' where
  superTypes c hc := h.names_of_wellFormed hv hv' (hwt c hc).head.superType
  bodies c hc d hd := by
    obtain ⟨T, hT, -⟩ := ((hwt c hc).methods d hd).body
    exact hT.allTypes.mono fun S hS => h.names_of_wellFormed hv hv' hS
  length_le := hlen

end WellTyped

theorem partOf_append (classes more : List ClassDecl) : PartOf ⟨classes⟩ ⟨classes ++ more⟩ := by
  intro C c hc
  have hfind : classes.find? (·.name = C) = some c := hc
  rw [find?, List.find?_append, hfind, Option.some_or]

end ClassTable

namespace Program

open Typing

/-- Classes added to those of a checked program change neither its type and warnings nor
its run. -/
theorem moreClasses_conservative {p : Program} {more : List ClassDecl} {t t' : ClassTable} {T : Ty}
    {w : List Warning} (ht : ClassTable.ofClasses p.classes = .ok t)
    (hp : (typeOfProgram t p).run.run [] = (.ok T, w))
    (ht' : ClassTable.ofClasses (p.classes ++ more) = .ok t') :
    (typeOfProgram t' p).run.run [] = (.ok T, w) ∧
      ∀ n, eval t' n .empty p.term = eval t n .empty p.term := by
  obtain ⟨rfl, hv⟩ := ClassTable.ofClasses_eq_ok_iff.1 ht
  obtain ⟨rfl, hv'⟩ := ClassTable.ofClasses_eq_ok_iff.1 ht'
  have hpart := ClassTable.partOf_append p.classes more
  have hgives : CheckM.Gives (typeOfProgram ⟨p.classes⟩ p) [] T := congrArg Prod.fst hp
  obtain ⟨hwt, hterm⟩ := gives_typeOfProgram_iff.1 hgives
  have hlen : p.classes.length ≤ (p.classes ++ more).length := by simp
  have hshared := hpart.sharedWith hv hv' hwt hlen
  refine ⟨typeOfProgram_within hpart hv' p [] T w hp, fun n => ?_⟩
  have hnames := hterm.allTypes.mono fun S hS => hpart.names_of_wellFormed hv hv' hS
  exact ((hshared.runsAlike hv).eval_agree n Env.allTypes_empty hnames).1

def unrelatedPair : List String :=
  ["class A extends Object \x7b A() \x7b super(); \x7d ",
    "B other() \x7b return (B) this; \x7d ", "A self() \x7b return this; \x7d \x7d ",
    "class B extends Object \x7b B() \x7b super(); \x7d \x7d ",
    "new A().self()"]

def subclasses : List String :=
  ["class C extends A \x7b C() \x7b super(); \x7d ", "A self() \x7b return new A(); \x7d \x7d ",
    "class D<X extends C> extends B \x7b X f; ", "D(X f) \x7b super(); this.f = f; \x7d \x7d ",
    "new Object()"]

theorem moreClasses_conservative_subclasses :
    (ofSource (String.join unrelatedPair)).Yields fun p =>
      (ofSource (String.join subclasses)).Yields fun q =>
        ∃ t t', ClassTable.ofClasses p.classes = .ok t ∧
        ClassTable.ofClasses (p.classes ++ q.classes) = .ok t' ∧
        ∃ w, (w.map fun u => (u.source.name, u.target.name)) = [("A", "B")] ∧
          (typeOfProgram t p).run.run [] = (.ok (.inst "A" []), w) ∧
          (typeOfProgram t' p).run.run [] = (.ok (.inst "A" []), w) ∧
          t.Returns .empty p.term (.ok ⟨⟨"A", []⟩, []⟩) ∧
          t'.Returns .empty p.term (.ok ⟨⟨"A", []⟩, []⟩) := by
  have hyps : (ofSource (String.join unrelatedPair)).Yields fun p =>
      (ofSource (String.join subclasses)).Yields fun q =>
        ClassTable.ofClasses p.classes = .ok ⟨p.classes⟩ ∧
        ClassTable.ofClasses (p.classes ++ q.classes) = .ok ⟨p.classes ++ q.classes⟩ ∧
        (((typeOfProgram ⟨p.classes⟩ p).run.run []).2.map
          fun u => (u.source.name, u.target.name)) = [("A", "B")] ∧
        ((typeOfProgram ⟨p.classes⟩ p).run.run []).1 = .ok (.inst "A" []) ∧
        (eval ⟨p.classes⟩ 3 .empty p.term).run = some (.ok ⟨⟨"A", []⟩, []⟩) := by
    rw [ofSource, ofSource, tokenize_join, tokenize_join]
    decide +kernel
  obtain ⟨p, hp, q, hq, ht, ht', hw, hT, hrun⟩ := hyps
  have hcheck : (typeOfProgram ⟨p.classes⟩ p).run.run [] =
      (.ok (.inst "A" []), ((typeOfProgram ⟨p.classes⟩ p).run.run []).2) := Prod.ext hT rfl
  obtain ⟨hcheck', heval⟩ := moreClasses_conservative ht hcheck ht'
  exact ⟨p, hp, q, hq, _, _, ht, ht', _, hw, hcheck, hcheck', ⟨3, hrun⟩, 3,
    (congrArg ExceptT.run (heval 3)).trans hrun⟩

end Program

end Featherweight

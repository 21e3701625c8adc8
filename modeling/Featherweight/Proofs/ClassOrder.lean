import Featherweight.Proofs.SharedClasses
import Featherweight.Proofs.Warnings

/-!
# The order of declarations

Nothing depends on the order in which a program declares its classes: neither whether
the classes make a table and the program passes its checks, nor its type, nor its run.
Only the warnings come in the order of the classes.
-/

namespace Featherweight

theorem Ty.names_of_forall {D : String → Prop} (h : ∀ C, D C) (T : Ty) : T.Names D := by
  induction T using Ty.induction with
  | var X => exact .var X
  | inst C Ts ih => exact .inst (h C) ih

theorem Term.allTypes_of_forall {P : Ty → Prop} (h : ∀ T, P T) (e : Term) : e.AllTypes P := by
  induction e using Term.induction with
  | var x => exact .var x
  | field e f ih => exact .field ih
  | call e m Vs es ih ihs => exact .call ih (fun V _ => h V) ihs
  | new N es ihs => exact .new (h _) ihs
  | cast N e ih => exact .cast (h _) ih

namespace ClassTable

variable {t t' : ClassTable} (h : t'.classes.Perm t.classes)
include h

theorem extends_of_perm {c d : ClassDecl} : t'.Extends c d ↔ t.Extends c d :=
  and_congr_left fun _ => h.mem_iff

theorem Legal.of_perm (hl : t.Legal) : t'.Legal := by
  have hext : t'.Extends = t.Extends := funext fun c => funext fun d => propext (extends_of_perm h)
  have hmem {p : ClassDecl → Prop} (hp : ∀ c ∈ t.classes, p c) : ∀ c ∈ t'.classes, p c :=
    fun c hc => hp c (h.mem_iff.1 hc)
  refine ⟨⟨hmem hl.object, (h.map _).nodup_iff.2 hl.names, hmem fun c hc => ?_⟩, ?_,
    hmem hl.methods, hmem hl.typeParams, hmem hl.methodTypeParams, ?_, ?_⟩
  · refine (hl.superTypes c hc).imp_right fun ⟨d, hd, hname⟩ => ?_
    exact ⟨d, h.mem_iff.2 hd, hname⟩
  · refine hmem fun c hc => ?_
    rw [OnCycle, hext]
    exact hl.acyclic c hc
  · rw [hext]
    exact hmem hl.arities
  · rw [hext]
    exact hmem hl.fields

theorem Valid.of_perm (hv : t.Valid) : t'.Valid :=
  valid_iff_legal.2 ((valid_iff_legal.1 hv).of_perm h)

theorem Valid.partOf_of_perm (hv : t.Valid) : t'.PartOf t := fun C c hc => by
  rw [← name_of_find? hc]
  exact hv.find?_name (h.mem_iff.1 (mem_of_find? hc))

theorem Valid.shares_of_perm (hv : t.Valid) (C : String) : t.Shares t' C :=
  Option.ext fun c => ⟨hv.partOf_of_perm h C c, (hv.of_perm h).partOf_of_perm h.symm C c⟩

theorem Valid.eval_of_perm (hv : t.Valid) (n : Nat) (e : Term) :
    eval t' n .empty e = eval t n .empty e := by
  have hnames (T : Ty) : T.Names (t.Shares t') := Ty.names_of_forall (hv.shares_of_perm h) T
  have hshared : t.SharedWith t' := ⟨fun _ _ => hnames _,
    fun _ _ d _ => Term.allTypes_of_forall hnames d.body, h.length_eq.ge⟩
  have he : e.AllTypes (Ty.Names (t.Shares t')) := Term.allTypes_of_forall hnames e
  exact ((hshared.runsAlike hv).eval_agree n Env.allTypes_empty he).1

end ClassTable

namespace Program

open Typing ClassTable

variable {p : Program} {classes : List ClassDecl} {t t' : ClassTable}

theorem check_of_perm (hperm : classes.Perm p.classes) (ht : ofClasses p.classes = .ok t)
    (ht' : ofClasses classes = .ok t') {T : Ty} {w : List Warning}
    (h : (typeOfProgram t p).run.run [] = (.ok T, w)) :
    ∃ w', w'.Perm w ∧
      (typeOfProgram t' { p with classes := classes }).run.run [] = (.ok T, w') := by
  obtain ⟨rfl, hv⟩ := ofClasses_eq_ok_iff.1 ht
  obtain ⟨rfl, hv'⟩ := ofClasses_eq_ok_iff.1 ht'
  have hpart : PartOf ⟨p.classes⟩ ⟨classes⟩ := hv'.partOf_of_perm hperm.symm
  exact typeOfProgram_perm _ hperm (typeOfProgram_within hpart hv' p [] T w h)

/-- Declaring the classes in another order changes the order of the warnings at most. -/
theorem reorder_alike (hperm : classes.Perm p.classes) :
    ((∃ t, ofClasses p.classes = .ok t) ↔ ∃ t', ofClasses classes = .ok t') ∧
    ∀ t t', ofClasses p.classes = .ok t → ofClasses classes = .ok t' →
      (∀ T w, (typeOfProgram t p).run.run [] = (.ok T, w) → ∃ w', w'.Perm w ∧
        (typeOfProgram t' { p with classes := classes }).run.run [] = (.ok T, w')) ∧
      (∀ T w', (typeOfProgram t' { p with classes := classes }).run.run [] = (.ok T, w') →
        ∃ w, w.Perm w' ∧ (typeOfProgram t p).run.run [] = (.ok T, w)) ∧
      ∀ n, eval t' n .empty p.term = eval t n .empty p.term := by
  have haccepts {cs ds : List ClassDecl} (hperm : ds.Perm cs) :
      (∃ t, ofClasses cs = .ok t) → ∃ t', ofClasses ds = .ok t' := by
    rintro ⟨t, ht⟩
    obtain ⟨rfl, hv⟩ := ofClasses_eq_ok_iff.1 ht
    exact ⟨_, ofClasses_eq_ok_iff.2 ⟨rfl, hv.of_perm hperm⟩⟩
  refine ⟨⟨haccepts hperm, haccepts hperm.symm⟩, fun t t' ht ht' => ⟨?_, ?_, fun n => ?_⟩⟩
  · exact fun T w => check_of_perm hperm ht ht'
  · exact fun T w' => check_of_perm (p := { p with classes := classes }) hperm.symm ht' ht
  · obtain ⟨rfl, hv⟩ := ofClasses_eq_ok_iff.1 ht
    obtain ⟨rfl, -⟩ := ofClasses_eq_ok_iff.1 ht'
    exact hv.eval_of_perm hperm n p.term

def twoWarnings : List String :=
  ["class A extends Object \x7b A() \x7b super(); \x7d ",
    "A m(B b) \x7b return (A) b; \x7d ", "A self() \x7b return this; \x7d \x7d ",
    "class B extends Object \x7b B() \x7b super(); \x7d ", "B m(A a) \x7b return (B) a; \x7d \x7d ",
    "new A().self()"]

theorem reorder_alike_twoWarnings :
    (ofSource (String.join twoWarnings)).Yields fun p => ∃ t t' w w',
      ofClasses p.classes = .ok t ∧ ofClasses p.classes.reverse = .ok t' ∧
      (w.map fun u => (u.source.name, u.target.name)) = [("B", "A"), ("A", "B")] ∧
      (typeOfProgram t p).run.run [] = (.ok (.inst "A" []), w) ∧
      (typeOfProgram t' { p with classes := p.classes.reverse }).run.run [] =
        (.ok (.inst "A" []), w') ∧
      w'.Perm w ∧ (w'.map fun u => (u.source.name, u.target.name)) = [("A", "B"), ("B", "A")] ∧
      t.Returns .empty p.term (.ok ⟨⟨"A", []⟩, []⟩) ∧
      t'.Returns .empty p.term (.ok ⟨⟨"A", []⟩, []⟩) := by
  have hyps : (ofSource (String.join twoWarnings)).Yields fun p =>
      ofClasses p.classes = .ok ⟨p.classes⟩ ∧
      (((typeOfProgram ⟨p.classes⟩ p).run.run []).2.map
        fun u => (u.source.name, u.target.name)) = [("B", "A"), ("A", "B")] ∧
      ((typeOfProgram ⟨p.classes⟩ p).run.run []).1 = .ok (.inst "A" []) ∧
      (((typeOfProgram ⟨p.classes.reverse⟩
        { p with classes := p.classes.reverse }).run.run []).2.map
        fun u => (u.source.name, u.target.name)) = [("A", "B"), ("B", "A")] ∧
      (eval ⟨p.classes⟩ 3 .empty p.term).run = some (.ok ⟨⟨"A", []⟩, []⟩) := by
    rw [ofSource, tokenize_join]
    decide +kernel
  obtain ⟨p, hp, ht, hw, hT, hw', hrun⟩ := hyps
  have hcheck : (typeOfProgram ⟨p.classes⟩ p).run.run [] =
      (.ok (.inst "A" []), ((typeOfProgram ⟨p.classes⟩ p).run.run []).2) := Prod.ext hT rfl
  obtain ⟨haccepts, halike⟩ := reorder_alike (List.reverse_perm p.classes)
  obtain ⟨t', ht'⟩ := haccepts.1 ⟨_, ht⟩
  obtain ⟨hforth, -, heval⟩ := halike _ t' ht ht'
  obtain ⟨w', hperm, hcheck'⟩ := hforth _ _ hcheck
  obtain ⟨rfl, -⟩ := ofClasses_eq_ok_iff.1 ht'
  rw [hcheck'] at hw'
  exact ⟨p, hp, _, _, _, w', ht, ht', hw, hcheck, hcheck', hperm, hw', ⟨3, hrun⟩, 3,
    (congrArg ExceptT.run (heval 3)).trans hrun⟩

end Program

end Featherweight

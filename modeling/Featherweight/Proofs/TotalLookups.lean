import Featherweight.Proofs.LegalClasses
import Featherweight.Proofs.Members
import Featherweight.Proofs.Subtyping

/-!
# Where look-ups succeed

A look-up in a class type climbs to the root. `Declares` says, of the class type alone,
when it can: the class type is the root, or its class is declared and takes that many
arguments. The arguments themselves do not matter, and they may grow on the way up. In a
valid table the climb from such a class type ends, and every look-up with it. From any
other class type already the first step fails, with a fault in `Faulty`, and no look-up
fails further up.
-/

namespace Featherweight

namespace ClassTable

variable {t : ClassTable} {N : ClassTy} {as : List Ancestor} {e : TableFault} {m : String}
  {Vs : List Ty} {fs : List Binding}

/-- The class type is the root, or a declared class with the right number of arguments. -/
inductive Declares (t : ClassTable) : ClassTy → Prop where
  | object : Declares t .object
  | applied {c : ClassDecl} {Ts : List Ty} (hc : c ∈ t.classes)
      (hlen : c.typeParams.length = Ts.length) : Declares t ⟨c.name, Ts⟩

/-- What is wrong with a class type that is not declared. -/
inductive Faulty (t : ClassTable) (N : ClassTy) : TableFault → Prop where
  | unknown (hN : N ≠ .object) (hno : ∀ c ∈ t.classes, c.name ≠ N.name) :
      Faulty t N (.unknownClass N.name)
  | arity {c : ClassDecl} (hc : c ∈ t.classes) (hname : c.name = N.name)
      (hlen : c.typeParams.length ≠ N.args.length) :
      Faulty t N (.arityMismatch c.typeParams.length N.args.length)

theorem declares_or_faulty (t : ClassTable) (N : ClassTy) : t.Declares N ∨ ∃ e, t.Faulty N e := by
  by_cases hN : N = .object
  · exact .inl (hN ▸ .object)
  · by_cases hc : ∃ c ∈ t.classes, c.name = N.name
    · obtain ⟨c, hc, hname⟩ := hc
      by_cases hlen : c.typeParams.length = N.args.length
      · have hdecl : t.Declares ⟨c.name, N.args⟩ := .applied hc hlen
        rw [hname] at hdecl
        exact .inl hdecl
      · exact .inr ⟨_, .arity hc hname hlen⟩
    · exact .inr ⟨_, .unknown hN fun c hmem hname => hc ⟨c, hmem, hname⟩⟩

section Valid

variable (hv : t.Valid)
include hv

theorem Valid.exists_instantiate_of_declares (h : t.Declares N) (hN : N ≠ .object) :
    ∃ a, t.instantiate N = .ok a := by
  cases h with
  | object => exact absurd rfl hN
  | applied hc hlen =>
    obtain ⟨σ, hσ⟩ := Subst.exists_instantiate hlen
    exact ⟨_, hv.instantiate_of_mem hc hσ⟩

theorem Valid.instantiate_of_faulty (h : t.Faulty N e) :
    N ≠ .object ∧ t.instantiate N = .error e := by
  cases h with
  | unknown hN hno =>
    have hfind : t.find? N.name = none := by simpa [find?] using hno
    refine ⟨hN, ?_⟩
    rw [instantiate, find, hfind]
    rfl
  | @arity c hc hname hlen =>
    have hfind : t.find? N.name = some c := hname ▸ hv.find?_name hc
    constructor
    · rintro rfl
      exact hv.object (hname ▸ List.mem_map_of_mem hc)
    · rw [instantiate, find, hfind, ok_bind, Subst.instantiate, if_neg hlen]
      rfl

theorem Valid.exists_chain_of_declares (h : t.Declares N) :
    ∃ as, t.Chain N as ∧ as.length ≤ t.classes.length := by
  by_cases hN : N = .object
  · exact ⟨[], hN ▸ .root, Nat.zero_le _⟩
  · obtain ⟨a, ha⟩ := hv.exists_instantiate_of_declares h hN
    exact hv.exists_chain ha

theorem Valid.ancestry_eq_error_iff : t.ancestry N = .error e ↔ t.Faulty N e := by
  have hfail {e : TableFault} (h : t.Faulty N e) : t.ancestry N = .error e := by
    obtain ⟨hN, he⟩ := hv.instantiate_of_faulty h
    exact climb_of_error hN he
  constructor
  · intro h
    rcases t.declares_or_faulty N with hdecl | ⟨e', he'⟩
    · obtain ⟨as, has, -⟩ := hv.exists_chain_of_declares hdecl
      rw [hv.ancestry_eq_ok_iff.2 has] at h
      cases h
    · cases h.symm.trans (hfail he')
      exact he'
  · exact hfail

theorem Valid.not_faulty (h : t.Declares N) : ¬ t.Faulty N e := by
  obtain ⟨as, has, -⟩ := hv.exists_chain_of_declares h
  rw [← hv.ancestry_eq_error_iff, hv.ancestry_eq_ok_iff.2 has]
  simp

theorem Valid.fields_eq_error_iff : t.fields N = .error e ↔ t.Faulty N e := by
  rw [ClassTable.fields, bind_pure_eq_error_iff, hv.ancestry_eq_error_iff]

theorem Valid.methodType?_eq_error_iff : t.methodType? m N = .error e ↔ t.Faulty N e := by
  rw [ClassTable.methodType?, bind_pure_eq_error_iff, hv.ancestry_eq_error_iff]

theorem Valid.methodBody_eq_error_iff : t.methodBody m Vs N = .error e ↔ t.Faulty N e ∨
    t.methodType? m N = .ok none ∧ .unknownMethod m = e ∨
    ∃ T, t.methodType? m N = .ok (some T) ∧ T.typeParams.length ≠ Vs.length ∧
      .arityMismatch T.typeParams.length Vs.length = e := by
  rw [← hv.ancestry_eq_error_iff]
  cases has : t.ancestry N with
  | error e' =>
    have htype : t.methodType? m N = .error e' := by
      rw [ClassTable.methodType?, has]
      rfl
    have hbody : t.methodBody m Vs N = .error e' := by
      rw [ClassTable.methodBody, has]
      rfl
    simp [hbody, htype]
  | ok as =>
    simp only [ClassTable.methodType?, ClassTable.methodBody, has, ok_bind, findSome?_methodType?]
    cases as.findSome? fun a => (a.decl.method? m).map (a, ·) with
    | none => simp [pure_eq_ok_iff, throw_eq_error_iff]
    | some q =>
      simp only [bind_pure_eq_error_iff, Subst.instantiate_eq_error_iff]
      simp [pure_eq_ok_iff, Subst.methodType, MethodDecl.type]

theorem Valid.nodup_names_fields (hfs : t.fields N = .ok fs) : (fs.map Binding.name).Nodup := by
  obtain ⟨as, has, rfl⟩ := hv.fields_eq_ok_iff.1 hfs
  rw [nodup_names_fields_iff]
  by_cases hN : N = .object
  · subst hN
    cases has.eq .root
    simp
  · obtain ⟨c, l, hl, -, hc, hchain⟩ := has.line hN
    rw [hl]
    exact hv.nodup_of_isChain (mem_of_find? hc) hchain

end Valid

/-- In a valid table every look-up in a declared class type succeeds, whatever its arguments,
but for the body of a method that is not there or not given as many type arguments as it
takes. In any other class type all look-ups fail, with the fault of that class type. -/
theorem lookups_total_exact {classes : List ClassDecl} (ht : ofClasses classes = .ok t)
    (N : ClassTy) :
    (t.Declares N →
      (∃ as, t.Chain N as ∧ as.length ≤ classes.length) ∧
      (∃ fs, t.fields N = .ok fs ∧ (fs.map Binding.name).Nodup) ∧
      (∀ m, ∃ T?, t.methodType? m N = .ok T?) ∧
      (∀ Δ T, ∃ b, t.subtype Δ N.toTy T = .ok b) ∧
      ∀ m Vs e, t.methodBody m Vs N = .error e ↔
        t.methodType? m N = .ok none ∧ .unknownMethod m = e ∨
        ∃ T, t.methodType? m N = .ok (some T) ∧ T.typeParams.length ≠ Vs.length ∧
          .arityMismatch T.typeParams.length Vs.length = e) ∧
    (¬ t.Declares N → ∃ e, t.Faulty N e ∧ t.fields N = .error e ∧
      (∀ m, t.methodType? m N = .error e) ∧ ∀ m Vs, t.methodBody m Vs N = .error e) := by
  obtain ⟨rfl, hv⟩ := ofClasses_eq_ok_iff.1 ht
  constructor
  · intro hN
    obtain ⟨as, has, hlen⟩ := hv.exists_chain_of_declares hN
    have hfs := hv.fields_eq_ok_iff.2 ⟨as, has, rfl⟩
    refine ⟨⟨as, has, hlen⟩, ⟨_, hfs, hv.nodup_names_fields hfs⟩, fun m => ?_,
      hv.exists_subtype_of_chain has, fun m Vs e => ?_⟩
    · exact ⟨_, by rw [methodType?, hv.ancestry_eq_ok_iff.2 has]; rfl⟩
    · rw [hv.methodBody_eq_error_iff, or_iff_right (hv.not_faulty hN)]
  · intro hN
    obtain ⟨e, he⟩ := (declares_or_faulty _ N).resolve_left hN
    exact ⟨e, he, hv.fields_eq_error_iff.2 he, fun m => hv.methodType?_eq_error_iff.2 he,
      fun m Vs => hv.methodBody_eq_error_iff.2 (.inl he)⟩

def growingClasses : List ClassDecl :=
  let ctor (C : String) : Constructor := ⟨C, [], [], []⟩
  let get : MethodDecl := ⟨[⟨"Y", .object⟩], .var "X", "get", [], .field (.var "this") "f", ⟨0, 0⟩⟩
  [⟨"D", [⟨"X", .object⟩], .object, [⟨.var "X", "f"⟩], ctor "D", [get], ⟨0, 0⟩⟩,
   ⟨"C", [⟨"X", .object⟩], ⟨"D", [.inst "C" [.inst "C" [.var "X"]]]⟩, [⟨.var "X", "g"⟩], ctor "C",
     [], ⟨0, 0⟩⟩]

theorem lookups_total_exact_growing :
    ∃ t, ofClasses growingClasses = .ok t ∧
      (let N : ClassTy := ⟨"C", [.var "Z"]⟩
       t.Declares N ∧ (∃ as, t.Chain N as ∧ as.length ≤ 2) ∧
        (∃ fs, t.fields N = .ok fs ∧ (fs.map Binding.name).Nodup) ∧
        t.methodBody "get" [] N = .error (.arityMismatch 1 0) ∧
        ∀ Vs, t.methodBody "put" Vs N = .error (.unknownMethod "put")) ∧
      (let N : ClassTy := ⟨"C", []⟩
       ¬ t.Declares N ∧ ∀ m, t.methodType? m N = .error (.arityMismatch 1 0)) ∧
      let N : ClassTy := ⟨"Object", [.var "Z"]⟩
      ¬ t.Declares N ∧ ∀ m Vs, t.methodBody m Vs N = .error (.unknownClass "Object") := by
  have ht : ofClasses growingClasses = .ok ⟨growingClasses⟩ := by decide
  have hfail {N : ClassTy} {e : TableFault} (hN : fields ⟨growingClasses⟩ N = .error e) :
      ¬ Declares ⟨growingClasses⟩ N ∧ (∀ m, methodType? ⟨growingClasses⟩ m N = .error e) ∧
        ∀ m Vs, methodBody ⟨growingClasses⟩ m Vs N = .error e := by
    obtain ⟨htotal, hother⟩ := lookups_total_exact ht N
    have hno : ¬ Declares ⟨growingClasses⟩ N := by
      intro hdecl
      obtain ⟨-, ⟨fs, hfs, -⟩, -⟩ := htotal hdecl
      cases hN.symm.trans hfs
    obtain ⟨e', -, hfs, hrest⟩ := hother hno
    cases hN.symm.trans hfs
    exact ⟨hno, hrest⟩
  have hdecl : Declares ⟨growingClasses⟩ ⟨"C", [.var "Z"]⟩ :=
    .applied (List.mem_cons_of_mem _ List.mem_cons_self) rfl
  obtain ⟨hchain, hfields, -, -, hbody⟩ := (lookups_total_exact ht _).1 hdecl
  obtain ⟨hC, htype, -⟩ := hfail (N := ⟨"C", []⟩) (e := .arityMismatch 1 0) (by decide)
  obtain ⟨hO, -, hObody⟩ := hfail (N := ⟨"Object", [.var "Z"]⟩) (e := .unknownClass "Object")
    (by decide)
  refine ⟨_, ht, ⟨hdecl, hchain, hfields, ?_, fun Vs => ?_⟩, ⟨hC, htype⟩, hO, hObody⟩
  · exact (hbody "get" [] _).2 (.inr ⟨_, rfl, by decide, rfl⟩)
  · exact (hbody "put" Vs _).2 (.inl ⟨by decide, rfl⟩)

end ClassTable

end Featherweight

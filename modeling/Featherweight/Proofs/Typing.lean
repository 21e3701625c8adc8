import Featherweight.Proofs.Subtyping
import Featherweight.Run

/-!
# Typing rules

`HasType` is the type system as a relation, with one rule for each form of term.
Checking a term gives a type exactly when the rules do, whatever warnings have been
gathered before. `ClassDecl.WellTyped` says the same of declarations, and a program
is accepted when its classes are well typed and its main term has a type.
-/

namespace Featherweight

namespace CheckM

variable {ε ε' α β : Type} {x : CheckM ε α} {f : α → CheckM ε β} {w : List Warning} {a a' : α}
  {b : β}

theorem run_bind_eq_ok_iff {w' : List Warning} :
    (x >>= f).run.run w = (.ok b, w') ↔
      ∃ a w₁, x.run.run w = (.ok a, w₁) ∧ (f a).run.run w₁ = (.ok b, w') := by
  rw [ExceptT.run_bind, StateT.run_bind]
  cases x.run.run w with
  | mk r w₁ =>
    cases r with
    | ok a =>
      constructor
      · exact fun h => ⟨a, w₁, rfl, h⟩
      · rintro ⟨_, _, ha, h⟩
        cases ha
        exact h
    | error e =>
      constructor
      · exact nofun
      · rintro ⟨_, _, ha, _⟩
        cases ha

theorem run_adapt (g : ε → ε') (x : CheckM ε α) (w : List Warning) :
    (x.adapt g).run.run w = ((x.run.run w).1.mapError g, (x.run.run w).2) := rfl

def Gives (x : CheckM ε α) (w : List Warning) (a : α) : Prop := (x.run.run w).1 = .ok a

theorem gives_bind_iff :
    Gives (x >>= f) w b ↔ ∃ a, Gives x w a ∧ Gives (f a) (x.run.run w).2 b := by
  constructor
  · intro h
    obtain ⟨a, w₁, ha, hb⟩ := run_bind_eq_ok_iff.1 (Prod.ext h rfl)
    refine ⟨a, congrArg Prod.fst ha, ?_⟩
    rw [ha]
    exact congrArg Prod.fst hb
  · rintro ⟨a, ha, hb⟩
    exact congrArg Prod.fst (run_bind_eq_ok_iff.2 ⟨a, _, Prod.ext ha rfl, Prod.ext hb rfl⟩)

theorem gives_pure_iff : Gives (pure a : CheckM ε α) w a' ↔ a = a' := by
  change (Except.ok a : Except ε α) = .ok a' ↔ _
  simp

theorem not_gives_throw (e : ε) : ¬ Gives (throw e : CheckM ε α) w a :=
  nofun

theorem gives_lift_iff {y : Except TypeFault α} :
    Gives (liftM y : CheckM TypeFault α) w a ↔ y = .ok a := Iff.rfl

theorem gives_liftTable_iff {y : Except TableFault α} :
    Gives (liftM y : CheckM TypeFault α) w a ↔ y = .ok a :=
  mapError_eq_ok_iff

theorem gives_modify {g : List Warning → List Warning} {u : Unit} :
    Gives (modify g : CheckM ε Unit) w u := rfl

theorem gives_adapt_iff {g : ε → ε'} : Gives (x.adapt g) w a ↔ Gives x w a := by
  rw [Gives, run_adapt]
  exact mapError_eq_ok_iff

theorem gives_forM_iff {f : α → CheckM ε Unit} {p : α → Prop} {as : List α}
    (h : ∀ a ∈ as, ∀ w, Gives (f a) w () ↔ p a) : Gives (as.forM f) w () ↔ ∀ a ∈ as, p a := by
  induction as generalizing w with
  | nil => simp [gives_pure_iff]
  | cons a as ih =>
    rw [List.forall_mem_cons] at h
    change Gives (f a >>= fun _ => as.forM f) w () ↔ _
    rw [gives_bind_iff, exists_unit_iff, List.forall_mem_cons, h.1, ih h.2]

end CheckM

namespace Typing

open CheckM

variable {t : ClassTable} {Δ : TypeEnv} {Γ : VarEnv} {site : Span} {N : ClassTy} {S T : Ty}
  {Vs Ps : List Ty} {m f : String} {k : Nat} {w : List Warning}

theorem requireSubtype_eq_ok_iff : requireSubtype t Δ S T = .ok () ↔ t.Subtype Δ S T := by
  simp only [requireSubtype, bind_eq_ok_iff, liftTable_eq_ok_iff, require_eq_ok_iff]
  constructor
  · rintro ⟨_, h, rfl⟩
    exact h
  · exact fun h => ⟨true, h, rfl⟩

theorem fieldType_eq_ok_iff : fieldType t N f = .ok T ↔
    ∃ fs b, t.fields N = .ok fs ∧ fs.find? (·.name = f) = some b ∧ b.ty = T := by
  simp only [fieldType, bind_eq_ok_iff, liftTable_eq_ok_iff]
  constructor
  · rintro ⟨fs, hfs, h⟩
    split at h
    · next b hb => exact ⟨fs, b, hfs, hb, pure_eq_ok_iff.1 h⟩
    · exact absurd h throw_ne_ok
  · rintro ⟨fs, b, hfs, hb, rfl⟩
    exact ⟨fs, hfs, by rw [hb]; rfl⟩

theorem newTypes_eq_ok_iff : newTypes t Δ N k = .ok Ps ↔
    t.WellFormed Δ N.toTy ∧
      ∃ fs, t.fields N = .ok fs ∧ k = fs.length ∧ fs.map Binding.ty = Ps := by
  simp only [newTypes, bind_eq_ok_iff, liftTable_eq_ok_iff, exists_unit_iff, require_eq_ok_iff,
    pure_eq_ok_iff, ClassTable.WellFormed]

structure Callable (t : ClassTable) (Δ : TypeEnv) (N : ClassTy) (m : String) (Vs : List Ty)
    (U : MethodType) (σ : Subst) : Prop where
  found : t.methodType? m N = .ok (some U)
  wellFormed : ∀ V ∈ Vs, t.WellFormed Δ V
  subst : Subst.instantiate U.typeParams Vs = .ok σ
  bounds : ∀ p ∈ Vs.zip U.typeParams, t.Subtype Δ p.1 (σ.classTy p.2.bound).toTy

theorem callType_eq_ok_iff : callType t Δ N m Vs k = .ok (Ps, T) ↔
    ∃ U σ, Callable t Δ N m Vs U σ ∧ k = U.paramTypes.length ∧ U.paramTypes.map σ.ty = Ps ∧
      σ.ty U.returnType = T := by
  simp only [callType, bind_eq_ok_iff, liftTable_eq_ok_iff]
  constructor
  · rintro ⟨r, hr, h⟩
    cases r with
    | none => exact absurd h throw_ne_ok
    | some U =>
      simp only [bind_eq_ok_iff, liftTable_eq_ok_iff, exists_unit_iff, require_eq_ok_iff,
        pure_eq_ok_iff, Prod.mk.injEq, ClassTable.requireAllWellFormed_eq_ok_iff,
        ClassTable.requireBounds_eq_ok_iff] at h
      obtain ⟨hw, -, σ, hσ, hb, hk, hP, hT⟩ := h
      exact ⟨U, σ, ⟨hr, hw, hσ, hb⟩, hk, hP, hT⟩
  · rintro ⟨U, σ, h, hk, hP, hT⟩
    refine ⟨some U, h.found, ?_⟩
    simp only [bind_eq_ok_iff, liftTable_eq_ok_iff, exists_unit_iff, require_eq_ok_iff,
      pure_eq_ok_iff, Prod.mk.injEq, ClassTable.requireAllWellFormed_eq_ok_iff,
      ClassTable.requireBounds_eq_ok_iff]
    exact ⟨h.wellFormed, (Subst.instantiate_eq_ok_iff.1 h.subst).1.symm, σ, h.subst, h.bounds, hk,
      hP, hT⟩

theorem length_of_callType (h : callType t Δ N m Vs k = .ok (Ps, T)) : k = Ps.length := by
  obtain ⟨U, σ, -, hk, rfl, -⟩ := callType_eq_ok_iff.1 h
  simpa using hk

theorem length_of_newTypes (h : newTypes t Δ N k = .ok Ps) : k = Ps.length := by
  obtain ⟨-, fs, -, hk, rfl⟩ := newTypes_eq_ok_iff.1 h
  simpa using hk

inductive HasType (t : ClassTable) (Δ : TypeEnv) (Γ : VarEnv) : Term → Ty → Prop where
  | var {x : String} {T : Ty} (hx : Γ.lookup x = some T) : HasType t Δ Γ (.var x) T
  | field {e : Term} {f : String} {S T : Ty} {N : ClassTy} (he : HasType t Δ Γ e S)
      (hN : Δ.bound S = .ok N) (hf : fieldType t N f = .ok T) : HasType t Δ Γ (.field e f) T
  | call {e : Term} {m : String} {Vs : List Ty} {es : List Term} {S T : Ty} {N : ClassTy}
      {Ss Ps : List Ty} (he : HasType t Δ Γ e S) (hN : Δ.bound S = .ok N)
      (hm : callType t Δ N m Vs es.length = .ok (Ps, T)) (hlen : es.length = Ss.length)
      (hes : ∀ q ∈ es.zip Ss, HasType t Δ Γ q.1 q.2)
      (hsub : ∀ q ∈ Ss.zip Ps, t.Subtype Δ q.1 q.2) : HasType t Δ Γ (.call e m Vs es) T
  | new {N : ClassTy} {es : List Term} {Ss Ps : List Ty}
      (hN : newTypes t Δ N es.length = .ok Ps) (hlen : es.length = Ss.length)
      (hes : ∀ q ∈ es.zip Ss, HasType t Δ Γ q.1 q.2)
      (hsub : ∀ q ∈ Ss.zip Ps, t.Subtype Δ q.1 q.2) : HasType t Δ Γ (.new N es) N.toTy
  | cast {N M : ClassTy} {e : Term} {S : Ty} {b : Bool} (hN : t.WellFormed Δ N.toTy)
      (he : HasType t Δ Γ e S) (hM : Δ.bound S = .ok M) (hb : related t Δ M N = .ok b) :
      HasType t Δ Γ (.cast N e) N.toTy

def ArgsFit (t : ClassTable) (Δ : TypeEnv) (Γ : VarEnv) (es : List Term) (Ps : List Ty) : Prop :=
  ∃ Ss, es.length = Ss.length ∧ (∀ q ∈ es.zip Ss, HasType t Δ Γ q.1 q.2) ∧
    ∀ q ∈ Ss.zip Ps, t.Subtype Δ q.1 q.2

section Rules

variable {e : Term} {es : List Term} {P : Ty}

theorem argsFit_nil : ArgsFit t Δ Γ [] Ps :=
  ⟨[], rfl, by simp, by simp⟩

theorem argsFit_cons_iff : ArgsFit t Δ Γ (e :: es) (P :: Ps) ↔
    (∃ S, HasType t Δ Γ e S ∧ t.Subtype Δ S P) ∧ ArgsFit t Δ Γ es Ps := by
  constructor
  · rintro ⟨Ss, hlen, hes, hsub⟩
    cases Ss with
    | nil => simp at hlen
    | cons S Ss =>
      rw [List.zip_cons_cons, List.forall_mem_cons] at hes hsub
      exact ⟨⟨S, hes.1, hsub.1⟩, Ss, Nat.succ.inj hlen, hes.2, hsub.2⟩
  · rintro ⟨⟨S, hS, hP⟩, Ss, hlen, hes, hsub⟩
    exact ⟨S :: Ss, by simp [hlen], by simpa using ⟨hS, by simpa using hes⟩,
      by simpa using ⟨hP, by simpa using hsub⟩⟩

theorem hasType_var_iff {x : String} : HasType t Δ Γ (.var x) T ↔ Γ.lookup x = some T := by
  constructor
  · rintro ⟨hx⟩
    exact hx
  · exact .var

theorem hasType_field_iff : HasType t Δ Γ (.field e f) T ↔
    ∃ S, HasType t Δ Γ e S ∧ ∃ N, Δ.bound S = .ok N ∧ fieldType t N f = .ok T := by
  constructor
  · intro h
    cases h with
    | field he hN hf => exact ⟨_, he, _, hN, hf⟩
  · rintro ⟨S, he, N, hN, hf⟩
    exact .field he hN hf

theorem hasType_call_iff : HasType t Δ Γ (.call e m Vs es) T ↔
    ∃ S, HasType t Δ Γ e S ∧ ∃ N, Δ.bound S = .ok N ∧
      ∃ Ps, callType t Δ N m Vs es.length = .ok (Ps, T) ∧ ArgsFit t Δ Γ es Ps := by
  constructor
  · intro h
    cases h with
    | call he hN hm hlen hes hsub => exact ⟨_, he, _, hN, _, hm, _, hlen, hes, hsub⟩
  · rintro ⟨S, he, N, hN, Ps, hm, Ss, hlen, hes, hsub⟩
    exact .call he hN hm hlen hes hsub

theorem hasType_new_iff : HasType t Δ Γ (.new N es) T ↔
    ∃ Ps, newTypes t Δ N es.length = .ok Ps ∧ ArgsFit t Δ Γ es Ps ∧ N.toTy = T := by
  constructor
  · intro h
    cases h with
    | new hN hlen hes hsub => exact ⟨_, hN, ⟨_, hlen, hes, hsub⟩, rfl⟩
  · rintro ⟨Ps, hN, ⟨Ss, hlen, hes, hsub⟩, rfl⟩
    exact .new hN hlen hes hsub

theorem hasType_cast_iff : HasType t Δ Γ (.cast N e) T ↔ t.WellFormed Δ N.toTy ∧
    ∃ S, HasType t Δ Γ e S ∧ ∃ M, Δ.bound S = .ok M ∧ (∃ b, related t Δ M N = .ok b) ∧
      N.toTy = T := by
  constructor
  · intro h
    cases h with
    | cast hN he hM hb => exact ⟨hN, _, he, _, hM, ⟨_, hb⟩, rfl⟩
  · rintro ⟨hN, S, he, M, hM, ⟨b, hb⟩, rfl⟩
    exact .cast hN he hM hb

theorem gives_requireArgs_iff (hl : es.length = Ps.length)
    (ih : ∀ e ∈ es, ∀ S w, Gives (typeOf t Δ Γ site e) w S ↔ HasType t Δ Γ e S) :
    Gives (requireArgs t Δ Γ site es Ps) w () ↔ ArgsFit t Δ Γ es Ps := by
  induction es generalizing Ps w with
  | nil =>
    simp only [requireArgs, gives_pure_iff, true_iff]
    exact argsFit_nil
  | cons e es ihs =>
    cases Ps with
    | nil => simp at hl
    | cons P Ps =>
      rw [List.forall_mem_cons] at ih
      simp only [requireArgs, gives_bind_iff, gives_lift_iff, exists_unit_iff,
        requireSubtype_eq_ok_iff, ih.1, ihs (Nat.succ.inj hl) ih.2, argsFit_cons_iff,
        ← and_assoc, exists_and_right]

theorem gives_typeOf_iff : Gives (typeOf t Δ Γ site e) w T ↔ HasType t Δ Γ e T := by
  induction e using Term.induction generalizing T w with
  | var x =>
    rw [typeOf, hasType_var_iff]
    cases Γ.lookup x with
    | some S => simp only [gives_pure_iff, Option.some.injEq]
    | none => simp only [not_gives_throw, reduceCtorEq]
  | field e f ih =>
    simp only [typeOf, gives_bind_iff, gives_lift_iff, ih, hasType_field_iff]
  | call e m Vs es ih ihs =>
    simp only [typeOf, gives_bind_iff, gives_lift_iff, exists_unit_iff, ih, gives_pure_iff,
      hasType_call_iff, Prod.exists]
    refine exists_congr fun S => and_congr_right fun _ => exists_congr fun N =>
      and_congr_right fun _ => exists_congr fun Ps => ?_
    constructor
    · rintro ⟨R, hm, hes, rfl⟩
      exact ⟨hm, (gives_requireArgs_iff (length_of_callType hm) fun a ha S w => ihs a ha).1 hes⟩
    · rintro ⟨hm, hes⟩
      exact ⟨T, hm, (gives_requireArgs_iff (length_of_callType hm) fun a ha S w => ihs a ha).2 hes,
        rfl⟩
  | new N es ihs =>
    simp only [typeOf, gives_bind_iff, gives_lift_iff, exists_unit_iff, gives_pure_iff,
      hasType_new_iff]
    refine exists_congr fun Ps => and_congr_right fun hN => and_congr_left fun _ => ?_
    exact gives_requireArgs_iff (length_of_newTypes hN) fun a ha S w => ihs a ha
  | cast N e ih =>
    simp only [typeOf, gives_bind_iff, gives_lift_iff, gives_liftTable_iff, exists_unit_iff, ih,
      gives_pure_iff, gives_modify, true_and, exists_and_right, hasType_cast_iff]
    rfl

theorem HasType.unique {T' : Ty} (h : HasType t Δ Γ e T) (h' : HasType t Δ Γ e T') : T = T' := by
  have hgives : Gives (typeOf t Δ Γ ⟨0, 0⟩ e) [] T := gives_typeOf_iff.2 h
  have hgives' : Gives (typeOf t Δ Γ ⟨0, 0⟩ e) [] T' := gives_typeOf_iff.2 h'
  exact Except.ok.inj (hgives.symm.trans hgives')

theorem HasType.allTypes (h : HasType t Δ Γ e T) : e.AllTypes (t.WellFormed Δ) := by
  have hargs {es : List Term} {Ss : List Ty} (hlen : es.length = Ss.length)
      (ihs : ∀ q ∈ es.zip Ss, q.1.AllTypes (t.WellFormed Δ)) :
      ∀ a ∈ es, a.AllTypes (t.WellFormed Δ) := by
    intro a ha
    obtain ⟨i, hi, rfl⟩ := List.mem_iff_getElem.1 ha
    exact ihs _ (getElem_mem_zip hi (hlen ▸ hi))
  induction h with
  | @var x _ _ => exact .var x
  | field _ _ _ ih => exact .field ih
  | call _ _ hm hlen _ _ ih ihs =>
    obtain ⟨U, σ, hcall, -⟩ := callType_eq_ok_iff.1 hm
    exact .call ih hcall.wellFormed (hargs hlen ihs)
  | new hN hlen _ _ ihs => exact .new (newTypes_eq_ok_iff.1 hN).1 (hargs hlen ihs)
  | cast hN _ _ _ ih => exact .cast hN ih

theorem HasType.exists_bound? {X : String} (h : HasType t Δ Γ e T) (hX : X ∈ e.tyVars) :
    ∃ N, Δ.bound? X = some N := by
  obtain ⟨S, hS, hXS⟩ := h.allTypes.exists_type hX
  exact hS.exists_bound? hXS

end Rules

end Typing

open Typing CheckM

structure MethodDecl.HeadWellFormed (t : ClassTable) (c : ClassDecl) (d : MethodDecl) : Prop where
  bounds : ∀ P ∈ d.typeParams, t.WellFormed (d.env c) P.bound.toTy
  returnType : t.WellFormed (d.env c) d.returnType
  params : ∀ p ∈ d.params, t.WellFormed (d.env c) p.ty

structure MethodDecl.WellTyped (t : ClassTable) (c : ClassDecl) (d : MethodDecl) : Prop where
  head : d.HeadWellFormed t c
  body : ∃ T, HasType t (d.env c) (methodVars c d) d.body T ∧ t.Subtype (d.env c) T d.returnType
  override : t.allowsOverride (d.env c) d.name c.superType d.type = .ok true

structure ClassDecl.WellTyped (t : ClassTable) (c : ClassDecl) : Prop where
  head : c.HeadWellFormed t
  constructor : requireConstructor t c = .ok ()
  methods : ∀ d ∈ c.methods, d.WellTyped t c

def ClassTable.WellTyped (t : ClassTable) : Prop := ∀ c ∈ t.classes, c.WellTyped t

def ClassTable.MethodHeads (t : ClassTable) : Prop :=
  ∀ c ∈ t.classes, ∀ d ∈ c.methods, d.HeadWellFormed t c

theorem ClassTable.WellTyped.heads {t : ClassTable} (h : t.WellTyped) : t.HeadsWellFormed :=
  fun c hc => (h c hc).head

theorem ClassTable.WellTyped.methodHeads {t : ClassTable} (h : t.WellTyped) : t.MethodHeads :=
  fun c hc d hd => ((h c hc).methods d hd).head

namespace Typing

variable {t : ClassTable} {c : ClassDecl} {d : MethodDecl} {p : Program} {T : Ty}
  {w : List Warning}

theorem requireHeader_eq_ok_iff :
    requireHeader t c = .ok () ↔ c.HeadWellFormed t ∧ requireConstructor t c = .ok () := by
  simp only [requireHeader, bind_eq_ok_iff, exists_unit_iff, forM_eq_ok_iff]
  constructor
  · rintro ⟨hb, hN, hf, hk⟩
    exact ⟨⟨hb, hN, hf⟩, hk⟩
  · rintro ⟨⟨hb, hN, hf⟩, hk⟩
    exact ⟨hb, hN, hf, hk⟩

theorem requireHead_eq_ok_iff : requireHead t (d.env c) d = .ok () ↔ d.HeadWellFormed t c := by
  simp only [requireHead, bind_eq_ok_iff, exists_unit_iff, forM_eq_ok_iff]
  constructor
  · rintro ⟨hb, hT, hp⟩
    exact ⟨hb, hT, hp⟩
  · rintro ⟨hb, hT, hp⟩
    exact ⟨hb, hT, hp⟩

theorem requireOverride_eq_ok_iff {Δ : TypeEnv} : requireOverride t Δ c d = .ok () ↔
    t.allowsOverride Δ d.name c.superType d.type = .ok true := by
  simp only [requireOverride, bind_eq_ok_iff, liftTable_eq_ok_iff, require_eq_ok_iff]
  constructor
  · rintro ⟨_, h, rfl⟩
    exact h
  · exact fun h => ⟨true, h, rfl⟩

theorem gives_requireMethod_iff : Gives (requireMethod t c d) w () ↔ d.WellTyped t c := by
  have henv : (TypeEnv.empty.add c.typeParams).add d.typeParams = d.env c := rfl
  simp only [requireMethod, henv, gives_bind_iff, gives_lift_iff, exists_unit_iff, gives_typeOf_iff,
    requireHead_eq_ok_iff, requireSubtype_eq_ok_iff, requireOverride_eq_ok_iff]
  constructor
  · rintro ⟨hh, T, hT, hsub, ho⟩
    exact ⟨hh, ⟨T, hT, hsub⟩, ho⟩
  · rintro ⟨hh, ⟨T, hT, hsub⟩, ho⟩
    exact ⟨hh, T, hT, hsub, ho⟩

theorem gives_blame_iff {α : Type} {span : Span} {x : CheckM TypeFault α} {a : α} :
    Gives (blame span x) w a ↔ Gives x w a := gives_adapt_iff

theorem gives_requireClass_iff : Gives (requireClass t c) w () ↔ c.WellTyped t := by
  have hmethods {w : List Warning} :
      Gives (c.methods.forM fun d => blame d.span (requireMethod t c d)) w () ↔
        ∀ d ∈ c.methods, d.WellTyped t c :=
    gives_forM_iff fun d _ w => gives_blame_iff.trans gives_requireMethod_iff
  simp only [requireClass, gives_bind_iff, exists_unit_iff, hmethods, gives_blame_iff,
    gives_lift_iff, requireHeader_eq_ok_iff]
  constructor
  · rintro ⟨⟨hh, hk⟩, hm⟩
    exact ⟨hh, hk, hm⟩
  · rintro ⟨hh, hk, hm⟩
    exact ⟨⟨hh, hk⟩, hm⟩

theorem gives_typeOfProgram_iff : Gives (typeOfProgram t p) w T ↔
    (∀ c ∈ p.classes, c.WellTyped t) ∧ HasType t .empty [] p.term T := by
  have hclasses {w : List Warning} :
      Gives (p.classes.forM (requireClass t)) w () ↔ ∀ c ∈ p.classes, c.WellTyped t :=
    gives_forM_iff fun c _ w => gives_requireClass_iff
  simp only [typeOfProgram, gives_bind_iff, exists_unit_iff, hclasses, gives_blame_iff,
    gives_typeOf_iff]

end Typing

/-- A program that passed all checks, with what the checks established. -/
structure Accepted.Sound (c : Accepted) : Prop where
  table : c.table = ⟨c.program.classes⟩
  valid : c.table.Valid
  wellTyped : c.table.WellTyped
  term : HasType c.table .empty [] c.program.term c.ty

theorem Accepted.ofProgram_eq_ok_iff {p : Program} {c : Accepted} :
    Accepted.ofProgram p = .ok c ↔ c.program = p ∧ c.Sound ∧
      c.warnings = ((typeOfProgram c.table p).run.run []).2 := by
  simp only [ofProgram, bind_eq_ok_iff, mapError_eq_ok_iff, ClassTable.ofClasses_eq_ok_iff]
  constructor
  · rintro ⟨t, ⟨rfl, hv⟩, h⟩
    split at h
    · next T w hT =>
      cases pure_eq_ok_iff.1 h
      have hgives : Gives (typeOfProgram ⟨p.classes⟩ p) [] T := by rw [Gives, hT]
      obtain ⟨hwt, hterm⟩ := gives_typeOfProgram_iff.1 hgives
      exact ⟨rfl, ⟨rfl, hv, hwt, hterm⟩, by rw [hT]⟩
    · exact absurd h throw_ne_ok
  · obtain ⟨q, t, T, w⟩ := c
    rintro ⟨rfl, ⟨ht, hv, hwt, hterm⟩, hw⟩
    change t = ⟨q.classes⟩ at ht
    subst ht
    have hgives : ((typeOfProgram ⟨q.classes⟩ q).run.run []).1 = .ok T :=
      gives_typeOfProgram_iff.2 ⟨hwt, hterm⟩
    have hrun := Prod.ext (y := (.ok T, w)) hgives hw.symm
    refine ⟨_, ⟨rfl, hv⟩, ?_⟩
    rw [hrun]
    rfl

theorem Accepted.exists_ofProgram_iff {p : Program} : (∃ c, Accepted.ofProgram p = .ok c) ↔
    (ClassTable.mk p.classes).Valid ∧ (ClassTable.mk p.classes).WellTyped ∧
      ∃ T, HasType ⟨p.classes⟩ .empty [] p.term T := by
  constructor
  · rintro ⟨c, hc⟩
    obtain ⟨rfl, ⟨ht, hv, hwt, hT⟩, -⟩ := ofProgram_eq_ok_iff.1 hc
    rw [← ht]
    exact ⟨hv, hwt, _, hT⟩
  · rintro ⟨hv, hwt, T, hT⟩
    exact ⟨⟨p, ⟨p.classes⟩, T, ((typeOfProgram ⟨p.classes⟩ p).run.run []).2⟩,
      ofProgram_eq_ok_iff.2 ⟨rfl, ⟨rfl, hv, hwt, hT⟩, rfl⟩⟩

theorem Accepted.gives_ofSource {source : String} {c : Accepted}
    (h : (Accepted.ofSource source).Gives c) :
    (Program.ofSource source).Gives c.program ∧ c.Sound := by
  obtain ⟨p, hp, hc⟩ := Attempt.gives_bind_iff.1 h
  obtain ⟨rfl, hs, -⟩ := ofProgram_eq_ok_iff.1 (Attempt.gives_lift_iff.1 hc)
  exact ⟨Attempt.gives_adapt_iff.1 hp, hs⟩

end Featherweight

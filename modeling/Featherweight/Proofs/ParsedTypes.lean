import Featherweight.Proofs.Recognition

/-!
# Types and parameters as they are read

The parsers for types, type parameters and parameters recognize their phrases. What
follows a type is never a `<`, so a bare name is never cut off from its arguments.

Bounds are read raw and resolved once the names of their list are in scope. A raw
bound keeps the tree it was read from, so resolving it admits the same trees as
reading it with the names in scope would.
-/

namespace Featherweight

namespace Parse

open Grammar

variable {α : Type} {s s₁ s' : State} {n k : Nat}

theorem begins_ident : Begins TypeTree.phrase fun l => ∃ C, l = .ident C := by
  intro T
  cases T with
  | name C => exact ⟨_, _, rfl, C, rfl⟩
  | applied C Ts => exact ⟨_, _, TypeTree.lexemes_applied C Ts, C, rfl⟩

theorem typeArgs_recognizes {x : ParseM Ty}
    (hx : Recognizes n x TypeTree.phrase (· ≠ .symbol .lt)) :
    Recognizes n (typeArgs x n) typeArgsPhrase (· ≠ .symbol .lt) := by
  have hbegins : Begins TypeTree.phrase (· ≠ .symbol .gt) := fun T => by
    obtain ⟨l, ls, hlex, C, rfl⟩ := begins_ident T
    exact ⟨_, ls, hlex, nofun⟩
  have hrest := hx.upTo (c := .gt) (by simp) (by simp) nofun hbegins
    (y := do
      let Ts ← commaSep x n
      expect (.symbol .gt) "'>' at end of type argument list"
      return Ts) <| by
    intro s Ts s'
    simp only [takes_bind_iff (x := commaSep x n), takes_expect_bind_iff (symbol_ne_eof _),
      takes_pure_iff]
    constructor
    · rintro ⟨Ts, s₁, hTs, _, h₁, rfl, rfl⟩
      exact ⟨s₁, hTs, h₁⟩
    · rintro ⟨s₁, hTs, h₁⟩
      exact ⟨Ts, s₁, hTs, s', h₁, rfl, rfl⟩
  intro s Ts s' hs hF
  simp only [typeArgs, takes_accept_bind_iff (symbol_ne_eof .lt), if_true, Bool.false_eq_true,
    if_false, takes_pure_iff]
  constructor
  · rintro (⟨s₁, h₁, h⟩ | ⟨-, rfl, rfl⟩)
    · obtain ⟨ts, hvalid, hmeaning, hpast⟩ := (hrest (h₁.ample_self hs) trivial).1 h
      rw [h₁.vars] at hvalid hmeaning
      exact ⟨some ts, hvalid, hmeaning, h₁.past hpast⟩
    · exact ⟨none, by simp [typeArgsPhrase], rfl, rfl⟩
  · rintro ⟨ts, hvalid, hmeaning, hpast⟩
    cases ts with
    | none =>
      cases hpast
      exact .inr ⟨hF, hmeaning, rfl⟩
    | some ts =>
      obtain ⟨s₁, h₁, hpast⟩ := hpast
      rw [← h₁.vars] at hvalid hmeaning
      exact .inl ⟨s₁, h₁, (hrest (h₁.ample_self hs) trivial).2 ⟨ts, hvalid, hmeaning, hpast⟩⟩

theorem takes_ty_succ_iff {what : String} {T : Ty} :
    Takes (ty (n + 1) what) s T s' ↔ ∃ C s₁, s.Step (.ident C) s₁ ∧
      ((C ∈ s.vars ∧ s₁.current.lexeme ≠ .symbol .lt ∧ .var C = T ∧ s₁ = s') ∨
        (C ∉ s.vars ∧ ∃ Ts, Takes (typeArgs (ty n "type argument") n) s₁ Ts s' ∧
          .inst C Ts = T)) := by
  rw [ty, takes_identifier_bind_iff]
  refine exists_congr fun C => exists_congr fun s₁ => and_congr_right fun h₁ => ?_
  rw [takes_isTypeVar_bind_iff, ← h₁.vars, ← State.isTypeVar_iff]
  cases s₁.isTypeVar C with
  | true =>
    rw [if_pos rfl, takes_sees_bind_iff]
    by_cases hlt : s₁.current.lexeme = .symbol .lt
    · simp [hlt, not_takes_complain]
    · simp [hlt, takes_pure_iff]
  | false =>
    simp only [Bool.false_eq_true, if_false, takes_bind_iff, takes_pure_iff, false_and, false_or,
      not_false_eq_true, true_and]
    constructor
    · rintro ⟨Ts, s₂, hTs, rfl, rfl⟩
      exact ⟨Ts, hTs, rfl⟩
    · rintro ⟨Ts, hTs, rfl⟩
      exact ⟨Ts, s', hTs, rfl, rfl⟩

theorem current_of_takes_ty {what : String} {T : Ty} (h : Takes (ty n what) s T s') :
    ∃ C, s.current.lexeme = .ident C := by
  cases n with
  | zero => exact absurd h not_takes_endless
  | succ n =>
    obtain ⟨C, s₁, h₁, -⟩ := takes_ty_succ_iff.1 h
    exact ⟨C, h₁.1⟩

theorem exists_spells_type_iff {T : Ty} :
    (∃ t, s.Spells TypeTree.phrase t T s') ↔ ∃ C s₁, s.Step (.ident C) s₁ ∧
      ((C ∈ s.vars ∧ .var C = T ∧ s₁ = s') ∨
        (C ∉ s.vars ∧ ∃ Ts, (∃ t, s₁.Spells typeArgsPhrase t Ts s') ∧ .inst C Ts = T)) := by
  have hlex (C : String) (Ts : List TypeTree) : TypeTree.phrase.lexemes (.applied C Ts) =
      .ident C :: typeArgsPhrase.lexemes (some Ts) := TypeTree.lexemes_applied C Ts
  constructor
  · rintro ⟨t, hvalid, rfl, hpast⟩
    cases t with
    | name C =>
      refine ⟨C, s', State.past_singleton_iff.1 hpast, ?_⟩
      by_cases hC : C ∈ s.vars
      · exact .inl ⟨hC, (if_pos hC).symm, rfl⟩
      · refine .inr ⟨hC, [], ⟨none, ?_, rfl, rfl⟩, (if_neg hC).symm⟩
        simp [typeArgsPhrase]
    | applied C Ts =>
      obtain ⟨hC, hTs⟩ := TypeTree.valid_applied_iff.1 hvalid
      obtain ⟨s₁, h₁, hpast⟩ := State.past_cons_iff.1 (hlex C Ts ▸ hpast)
      refine ⟨C, s₁, h₁, .inr ⟨hC, _, ⟨some Ts, h₁.vars ▸ hTs, rfl, hpast⟩, ?_⟩⟩
      rw [h₁.vars]
      exact congrArg _ (TypeTree.tys_eq_map _ _).symm
  · rintro ⟨C, s₁, h₁, ⟨hC, rfl, rfl⟩ | ⟨hC, _, ⟨ts, hvalid, rfl, hpast⟩, rfl⟩⟩
    · exact ⟨.name C, trivial, if_pos hC, State.past_singleton_iff.2 h₁⟩
    · rw [h₁.vars] at hvalid ⊢
      cases ts with
      | none => exact ⟨.name C, trivial, if_neg hC, h₁.past hpast⟩
      | some Ts =>
        refine ⟨.applied C Ts, TypeTree.valid_applied_iff.2 ⟨hC, hvalid⟩, ?_, ?_⟩
        · exact congrArg _ (TypeTree.tys_eq_map _ _)
        · exact hlex C Ts ▸ h₁.past hpast

theorem ty_recognizes (n : Nat) (what : String) :
    Recognizes n (ty n what) TypeTree.phrase (· ≠ .symbol .lt) := by
  induction n generalizing what with
  | zero => exact fun s a s' hs => absurd hs State.not_ample_zero
  | succ n ih =>
    intro s T s' hs hF
    rw [takes_ty_succ_iff, exists_spells_type_iff]
    refine exists_congr fun C => exists_congr fun s₁ => and_congr_right fun h₁ => ?_
    refine or_congr ?_ (and_congr_right fun _ => exists_congr fun Ts => ?_)
    · refine and_congr_right fun _ => and_iff_right_of_imp ?_
      rintro ⟨-, rfl⟩
      exact hF
    · rw [typeArgs_recognizes (ih _) (h₁.ample hs) hF]

theorem takes_classTy_iff {what : String} {N : ClassTy} :
    Takes (classTy n what) s N s' ↔ Takes (ty n what) s (.inst N.name N.args) s' := by
  rw [classTy, takes_bind_iff]
  constructor
  · rintro ⟨T, s₁, hT, h⟩
    cases T with
    | var X => exact absurd h not_takes_complainBehind
    | inst C Ts =>
      obtain ⟨rfl, rfl⟩ := takes_pure_iff.1 h
      exact hT
  · exact fun h => ⟨_, s', h, takes_pure_iff.2 ⟨rfl, rfl⟩⟩

theorem classTy_recognizes (n : Nat) (what : String) :
    Recognizes n (classTy n what) TypeTree.nonVarPhrase (· ≠ .symbol .lt) := by
  intro s N s' hs hF
  rw [takes_classTy_iff, ty_recognizes n what hs hF]
  refine exists_congr fun t => ⟨fun h => ?_, fun h => ?_⟩
  · obtain ⟨hvalid, hmeaning⟩ := TypeTree.nonVar_classTy_iff.2 ⟨h.valid, h.meaning⟩
    exact ⟨hvalid, hmeaning, h.past⟩
  · obtain ⟨hvalid, hmeaning⟩ := TypeTree.nonVar_classTy_iff.1 ⟨h.valid, h.meaning⟩
    exact ⟨hvalid, hmeaning, h.past⟩

mutual

/-- The raw type that a bound is read as: every bare name is a variable. -/
def raw : TypeTree → Ty
  | .name C => .var C
  | .applied C Ts => .inst C (raws Ts)

def raws : List TypeTree → List Ty
  | [] => []
  | T :: Ts => raw T :: raws Ts

end

theorem raws_eq_map (Ts : List TypeTree) : raws Ts = Ts.map raw := by
  induction Ts with
  | nil => rfl
  | cons T Ts ih => rw [raws, ih, List.map_cons]

def rawPhrase : Phrase TypeTree Ty := ⟨TypeTree.lexemes, fun _ => TypeTree.Plain, fun _ => raw⟩

theorem takes_rawBound_succ_iff {T : Ty} :
    Takes (rawBound (n + 1)) s T s' ↔ ∃ C s₁, s.Step (.ident C) s₁ ∧
      ((∃ s₂, s₁.Step (.symbol .lt) s₂ ∧ ∃ Ts s₃, Takes (commaSep (rawBound n) n) s₂ Ts s₃ ∧
          s₃.Step (.symbol .gt) s' ∧ .inst C Ts = T) ∨
        (s₁.current.lexeme ≠ .symbol .lt ∧ .var C = T ∧ s₁ = s')) := by
  simp only [rawBound, takes_identifier_bind_iff, takes_accept_bind_iff (symbol_ne_eof _),
    if_true, Bool.false_eq_true, if_false, takes_bind_iff (x := commaSep _ _),
    takes_expect_bind_iff (symbol_ne_eof _), takes_pure_iff, exists_eq_right_right]

theorem past_applied_iff {C : String} {Ts : List TypeTree} :
    s.Past (TypeTree.applied C Ts).lexemes s' ↔ ∃ s₁, s.Step (.ident C) s₁ ∧
      ∃ s₂, s₁.Step (.symbol .lt) s₂ ∧ ∃ s₃, s₂.Past (rawPhrase.items.lexemes Ts) s₃ ∧
        s₃.Step (.symbol .gt) s' := by
  rw [TypeTree.lexemes_applied, bracketed]
  simp only [State.past_cons_iff, State.past_append_iff, State.past_nil_iff, exists_eq_right]
  rfl

theorem rawBound_recognizes (n : Nat) :
    Recognizes n (rawBound n) rawPhrase (· ≠ .symbol .lt) := by
  induction n with
  | zero => exact fun s a s' hs => absurd hs State.not_ample_zero
  | succ n ih =>
    have hitems := ih.commaSep (by simp) (Nat.le_refl n)
    have hF : Lexeme.symbol .gt ≠ .symbol .lt ∧ Lexeme.symbol .gt ≠ .symbol .comma := by simp
    intro s T s' hs hF'
    rw [takes_rawBound_succ_iff]
    constructor
    · rintro ⟨C, s₁, h₁, ⟨s₂, h₂, Ts, s₃, hTs, h₃, rfl⟩ | ⟨-, rfl, rfl⟩⟩
      · have hs₂ := h₂.ample_self (h₁.ample hs)
        obtain ⟨ts, ⟨hne, hplain⟩, rfl, hpast⟩ := (hitems hs₂ (h₃.1 ▸ hF)).1 hTs
        refine ⟨.applied C ts, (TypeTree.plain_applied_iff (C := C)).2 ⟨hne, hplain⟩, ?_,
          past_applied_iff.2 ⟨s₁, h₁, s₂, h₂, s₃, hpast, h₃⟩⟩
        exact congrArg _ (raws_eq_map ts)
      · exact ⟨.name C, trivial, rfl, State.past_singleton_iff.2 h₁⟩
    · rintro ⟨t, hplain, rfl, hpast⟩
      cases t with
      | name C =>
        exact ⟨C, s', State.past_singleton_iff.1 hpast, .inr ⟨hF', rfl, rfl⟩⟩
      | applied C ts =>
        obtain ⟨s₁, h₁, s₂, h₂, s₃, hpast, h₃⟩ := past_applied_iff.1 hpast
        have hs₂ := h₂.ample_self (h₁.ample hs)
        refine ⟨C, s₁, h₁, .inl ⟨s₂, h₂, _, s₃, (hitems hs₂ (h₃.1 ▸ hF)).2
          ⟨ts, (TypeTree.plain_applied_iff (C := C)).1 hplain, rfl, hpast⟩, h₃, ?_⟩⟩
        exact congrArg _ (raws_eq_map ts).symm

theorem resolve?_raw_iff {isVar : String → Bool} {vars : List String}
    (hvar : ∀ X, isVar X = true ↔ X ∈ vars) {T : TypeTree} {S : Ty} :
    resolve? isVar (raw T) = some S ↔ T.Valid vars ∧ T.ty vars = S := by
  induction T using TypeTree.induction generalizing S with
  | name C => simp [raw, resolve?, TypeTree.Valid, TypeTree.ty, hvar]
  | applied C Ts ih =>
    have hall {Ss : List Ty} : resolveAll? isVar (raws Ts) = some Ss ↔
        (∀ T ∈ Ts, T.Valid vars) ∧ Ts.map (TypeTree.ty vars) = Ss := by
      induction Ts generalizing Ss with
      | nil => simp [raws, resolveAll?]
      | cons T Ts ihs =>
        rw [List.forall_mem_cons] at ih
        simp only [raws, resolveAll?, Option.bind_eq_bind, Option.bind_eq_some_iff, ih.1,
          ihs ih.2, Option.pure_def, Option.some.injEq, List.forall_mem_cons, List.map_cons]
        constructor
        · rintro ⟨_, ⟨hT, rfl⟩, _, ⟨hTs, rfl⟩, rfl⟩
          exact ⟨⟨hT, hTs⟩, rfl⟩
        · rintro ⟨⟨hT, hTs⟩, rfl⟩
          exact ⟨_, ⟨hT, rfl⟩, _, ⟨hTs, rfl⟩, rfl⟩
    rw [raw, resolve?, TypeTree.valid_applied_iff, TypeTree.ty, TypeTree.tys_eq_map]
    by_cases hC : C ∈ vars
    · simp [(hvar C).2 hC, hC]
    · have hfalse : isVar C = false := Bool.eq_false_iff.2 (mt (hvar C).1 hC)
      simp only [hfalse, Bool.false_eq_true, if_false, Option.map_eq_some_iff, hall, hC,
        not_false_eq_true, true_and]
      constructor
      · rintro ⟨_, ⟨hTs, rfl⟩, rfl⟩
        exact ⟨hTs, rfl⟩
      · rintro ⟨hTs, rfl⟩
        exact ⟨_, ⟨hTs, rfl⟩, rfl⟩

def namedPhrase (P : Phrase TypeTree α) : Phrase TypeParamTree (String × α) where
  lexemes X := .ident X.name :: .keyword .extendsWord :: P.lexemes X.bound
  Valid vars X := P.Valid vars X.bound
  meaning vars X := (X.name, P.meaning vars X.bound)

theorem spells_named_iff {P : Phrase TypeTree α} {X : TypeParamTree} {p : String × α} :
    s.Spells (namedPhrase P) X p s' ↔ ∃ s₁, s.Step (.ident X.name) s₁ ∧
      ∃ s₂, s₁.Step (.keyword .extendsWord) s₂ ∧
        ∃ N, s₂.Spells P X.bound N s' ∧ (X.name, N) = p := by
  constructor
  · rintro ⟨hvalid, rfl, s₁, h₁, s₂, h₂, hpast⟩
    have hvars : s₂.vars = s.vars := h₂.vars.trans h₁.vars
    exact ⟨s₁, h₁, s₂, h₂, _, (State.spells_iff hvars).2 ⟨hvalid, rfl, hpast⟩, rfl⟩
  · rintro ⟨s₁, h₁, s₂, h₂, N, hN, rfl⟩
    obtain ⟨hvalid, rfl, hpast⟩ := (State.spells_iff (h₂.vars.trans h₁.vars)).1 hN
    exact ⟨hvalid, rfl, s₁, h₁, s₂, h₂, hpast⟩

def rawParamPhrase : Phrase TypeParamTree (String × Ty) where
  lexemes := TypeParamTree.phrase.lexemes
  Valid _ X := X.bound.Plain
  meaning _ X := (X.name, raw X.bound)

theorem takes_resolveTypeParam_iff {X : TypeParamTree} {Y : TypeParam} :
    Takes (resolveTypeParam (X.name, raw X.bound)) s Y s' ↔
      X.bound.NonVar s.vars ∧ TypeParamTree.phrase.meaning s.vars X = Y ∧ s = s' := by
  have hresolve {N : ClassTy} : resolveBound? s.isTypeVar (raw X.bound) = some N ↔
      X.bound.NonVar s.vars ∧ X.bound.classTy s.vars = N := by
    obtain ⟨D, Us⟩ := N
    rw [TypeTree.nonVar_classTy_iff, ← resolve?_raw_iff fun X => State.isTypeVar_iff (s := s),
      resolveBound?]
    split
    · next C Ts h => simp [h]
    · next h => exact iff_of_false (by simp) fun hN => h _ _ hN
  rw [resolveTypeParam, takes_get_bind_iff]
  cases hN : resolveBound? s.isTypeVar (raw X.bound) with
  | some N =>
    obtain ⟨hX, rfl⟩ := hresolve.1 hN
    simp only [takes_pure_iff, hX, true_and]
    rfl
  | none =>
    refine iff_of_false not_takes_complainBehind fun h => ?_
    simp [hresolve.2 ⟨h.1, rfl⟩] at hN

theorem takes_mapM_resolveTypeParam_iff {vars : List String} {Xs : List TypeParamTree}
    {Ys : List TypeParam} :
    Takes ((rawParamPhrase.items.meaning vars Xs).mapM resolveTypeParam) s Ys s' ↔
      (∀ X ∈ Xs, X.bound.NonVar s.vars) ∧ Xs.map (TypeParamTree.phrase.meaning s.vars) = Ys ∧
        s = s' := by
  change Takes ((Xs.map fun X => (X.name, raw X.bound)).mapM resolveTypeParam) s Ys s' ↔ _
  induction Xs generalizing Ys with
  | nil => simp [takes_pure_iff]
  | cons X Xs ih =>
    simp only [List.map_cons, List.mapM_cons, takes_bind_iff, takes_resolveTypeParam_iff,
      takes_pure_iff, List.forall_mem_cons]
    constructor
    · rintro ⟨_, _, ⟨hX, rfl, rfl⟩, _, _, htakes, rfl, rfl⟩
      obtain ⟨hXs, rfl, rfl⟩ := ih.1 htakes
      exact ⟨⟨hX, hXs⟩, rfl, rfl⟩
    · rintro ⟨⟨hX, hXs⟩, rfl, rfl⟩
      exact ⟨_, s, ⟨hX, rfl, rfl⟩, _, s, ih.2 ⟨hXs, rfl, rfl⟩, rfl, rfl⟩

theorem spells_rawParam_iff {X : TypeParamTree} {p : String × Ty} :
    s.Spells rawParamPhrase X p s' ↔ ∃ s₁, s.Step (.ident X.name) s₁ ∧
      ∃ s₂, s₁.Step (.keyword .extendsWord) s₂ ∧
        ∃ T, s₂.Spells rawPhrase X.bound T s' ∧ (X.name, T) = p :=
  spells_named_iff (P := rawPhrase)

theorem takes_rawTypeParams_iff (hk : k ≤ n) {seen : List String} {ps : List (String × Ty)}
    (hs : s.Ample k)
    (hF : s'.current.lexeme ≠ .symbol .lt ∧ s'.current.lexeme ≠ .symbol .comma) :
    Takes (rawTypeParams n k seen) s ps s' ↔ ∃ Xs, s.Spells rawParamPhrase.items Xs ps s' ∧
      (names Xs).Nodup ∧ ∀ X ∈ seen, X ∉ names Xs := by
  induction k generalizing s seen ps with
  | zero => exact absurd hs State.not_ample_zero
  | succ k ih =>
    have hbound {s s' : State} {T : Ty} (hs : s.Ample (k + 1))
        (hF : s'.current.lexeme ≠ .symbol .lt) :
        Takes (rawBound n) s T s' ↔ ∃ t, s.Spells rawPhrase t T s' :=
      rawBound_recognizes n (hs.mono hk) hF
    simp only [rawTypeParams, takes_identifier_bind_iff, takes_requireBehind_bind_iff,
      takes_expect_bind_iff (keyword_ne_eof _), takes_bind_iff (x := rawBound n),
      takes_accept_bind_iff (symbol_ne_eof _), if_true, Bool.false_eq_true, if_false,
      takes_pure_iff]
    constructor
    · rintro ⟨X, s₁, h₁, hX, s₂, h₂, T, s₃, hT, ⟨s₄, h₄, hps⟩ | ⟨-, rfl, rfl⟩⟩
      · obtain ⟨ps', _, hps', hps⟩ := takes_bind_iff.1 hps
        obtain ⟨rfl, rfl⟩ := takes_pure_iff.1 hps
        have hs₂ := h₂.ample_self (h₁.ample_self hs)
        obtain ⟨t, ht⟩ := (hbound hs₂ (by simp [h₄.1])).1 hT
        have hitem : s.Spells rawParamPhrase ⟨X, t⟩ (X, T) s₃ :=
          spells_rawParam_iff.2 ⟨s₁, h₁, s₂, h₂, T, ht, rfl⟩
        obtain ⟨Xs, hXs, hnodup, hseen⟩ :=
          (ih (Nat.le_of_succ_le hk) (h₄.ample (hitem.past.ample hs))).1 hps'
        rw [List.forall_mem_cons] at hseen
        refine ⟨⟨X, t⟩ :: Xs, (State.spells_items_cons_iff hXs.valid.1).2
          ⟨_, s₃, hitem, s₄, h₄, ps', hXs, rfl⟩, List.nodup_cons.2 ⟨hseen.1, hnodup⟩, ?_⟩
        intro Y hY hmem
        rcases List.mem_cons.1 hmem with rfl | hmem
        · exact hX hY
        · exact hseen.2 Y hY hmem
      · have hs₂ := h₂.ample_self (h₁.ample_self hs)
        obtain ⟨t, ht⟩ := (hbound hs₂ hF.1).1 hT
        refine ⟨[⟨X, t⟩], State.spells_items_singleton_iff.2
          ⟨_, spells_rawParam_iff.2 ⟨s₁, h₁, s₂, h₂, T, ht, rfl⟩, rfl⟩, by simp [names], ?_⟩
        intro Y hY hmem
        cases List.mem_singleton.1 hmem
        exact hX hY
    · rintro ⟨Xs, hXs, hnodup, hseen⟩
      match Xs with
      | [] => exact absurd rfl hXs.valid.1
      | [X] =>
        obtain ⟨p, hp, rfl⟩ := State.spells_items_singleton_iff.1 hXs
        obtain ⟨s₁, h₁, s₂, h₂, T, hT, rfl⟩ := spells_rawParam_iff.1 hp
        have hs₂ := h₂.ample_self (h₁.ample_self hs)
        refine ⟨X.name, s₁, h₁, fun hX => ?_, s₂, h₂, T, s', (hbound hs₂ hF.1).2 ⟨_, hT⟩,
          .inr ⟨hF.2, rfl, rfl⟩⟩
        exact hseen _ hX (List.mem_singleton_self _)
      | X :: X' :: Xs =>
        obtain ⟨p, s₃, hp, s₄, h₄, ps', hps', rfl⟩ :=
          (State.spells_items_cons_iff (List.cons_ne_nil _ _)).1 hXs
        have hs₄ := h₄.ample (hp.past.ample hs)
        obtain ⟨s₁, h₁, s₂, h₂, T, hT, rfl⟩ := spells_rawParam_iff.1 hp
        have hs₂ := h₂.ample_self (h₁.ample_self hs)
        obtain ⟨hX, hnodup⟩ := List.nodup_cons.1 hnodup
        refine ⟨X.name, s₁, h₁, fun hX => ?_, s₂, h₂, T, s₃,
          (hbound hs₂ (by simp [h₄.1])).2 ⟨_, hT⟩, .inl ⟨s₄, h₄, ?_⟩⟩
        · exact hseen _ hX List.mem_cons_self
        · refine takes_bind_iff.2 ⟨ps', s', ?_, takes_pure_iff.2 ⟨rfl, rfl⟩⟩
          refine (ih (Nat.le_of_succ_le hk) hs₄).2 ⟨_, hps', hnodup, ?_⟩
          exact List.forall_mem_cons.2 ⟨hX, fun Y hY hmem =>
            hseen Y hY (List.mem_cons_of_mem _ hmem)⟩

theorem takes_typeParams_iff {Ys : List TypeParam} (hs : s.Ample n)
    (hF : s'.current.lexeme ≠ .symbol .lt) :
    Takes (typeParams n) s Ys s' ↔
      ∃ Xs s₁, s.Spells typeParamsPhrase Xs Ys s₁ ∧ s₁.inside (names Xs) = s' := by
  have hgt' : Lexeme.symbol .gt ≠ .symbol .lt ∧ Lexeme.symbol .gt ≠ .symbol .comma := by simp
  have hlex {Xs : List TypeParamTree} (hXs : Xs ≠ []) : typeParamsPhrase.lexemes Xs =
      .symbol .lt :: (rawParamPhrase.items.lexemes Xs ++ [.symbol .gt]) :=
    if_neg (mt List.isEmpty_iff.1 hXs)
  have hnames (vars : List String) (Xs : List TypeParamTree) :
      (rawParamPhrase.items.meaning vars Xs).map Prod.fst = names Xs := by
    simp [rawParamPhrase, Phrase.items, names]
  simp only [typeParams, takes_accept_bind_iff (symbol_ne_eof _), if_true, Bool.false_eq_true,
    if_false, takes_bind_iff (x := rawTypeParams _ _ _), takes_expect_bind_iff (symbol_ne_eof _),
    takes_openScope_bind_iff, takes_pure_iff]
  constructor
  · rintro (⟨s₁, h₁, ps, s₂, hps, s₃, h₃, hYs⟩ | ⟨-, rfl, rfl⟩)
    · obtain ⟨Xs, ⟨⟨hne, hplain⟩, rfl, hpast⟩, hnodup, -⟩ :=
        (takes_rawTypeParams_iff (Nat.le_refl n) (h₁.ample_self hs) (h₃.1 ▸ hgt')).1 hps
      obtain ⟨hbounds, rfl, rfl⟩ := takes_mapM_resolveTypeParam_iff.1 hYs
      have hvars : s₃.vars = s.vars := by rw [h₃.vars, hpast.vars, h₁.vars]
      rw [hnames, State.vars_inside, hvars] at hbounds ⊢
      refine ⟨Xs, s₃, ⟨⟨hnodup, fun X hX => ⟨hplain X hX, hbounds X hX⟩⟩, rfl, ?_⟩, rfl⟩
      exact hlex hne ▸ h₁.past (hpast.trans (State.past_singleton_iff.2 h₃))
    · exact ⟨[], s, ⟨by simp [typeParamsPhrase, names], rfl, rfl⟩, rfl⟩
  · rintro ⟨Xs, s₃, ⟨⟨hnodup, hvalid⟩, rfl, hpast⟩, rfl⟩
    by_cases hne : Xs = []
    · subst hne
      cases hpast
      exact .inr ⟨hF, rfl, rfl⟩
    · obtain ⟨s₁, h₁, hpast⟩ := State.past_cons_iff.1 (hlex hne ▸ hpast)
      obtain ⟨s₂, hpast, h₃⟩ := State.past_append_iff.1 hpast
      rw [State.past_singleton_iff] at h₃
      have hvars : s₃.vars = s.vars := by rw [h₃.vars, hpast.vars, h₁.vars]
      refine .inl ⟨s₁, h₁, _, s₂,
        (takes_rawTypeParams_iff (Nat.le_refl n) (h₁.ample_self hs) (h₃.1 ▸ hgt')).2
          ⟨Xs, ⟨⟨hne, fun X hX => (hvalid X hX).1⟩, rfl, hpast⟩, hnodup, by simp⟩, s₃, h₃, ?_⟩
      rw [hnames]
      refine takes_mapM_resolveTypeParam_iff.2 ⟨fun X hX => ?_, ?_, rfl⟩
      · rw [State.vars_inside, hvars]
        exact (hvalid X hX).2
      · rw [State.vars_inside, hvars]
        rfl

theorem params_recognizes (n : Nat) : Recognizes n (params n) paramsPhrase fun _ => True := by
  have hitem : Recognizes n
      (do return (⟨← ty n "parameter type", ← identifier "variable name"⟩ : Binding))
      BindingTree.phrase fun _ => True := by
    intro s b s' hs hF
    simp only [takes_bind_iff (x := ty _ _), takes_identifier_bind_iff, takes_pure_iff]
    constructor
    · rintro ⟨T, s₁, hT, x, _, h₁, rfl, rfl⟩
      obtain ⟨t, hvalid, rfl, hpast⟩ := (ty_recognizes n _ hs (by simp [h₁.1])).1 hT
      exact ⟨⟨t, x⟩, hvalid, rfl, hpast.trans (State.past_singleton_iff.2 h₁)⟩
    · rintro ⟨⟨t, x⟩, hvalid, rfl, hpast⟩
      obtain ⟨s₁, hpast, h₁⟩ := State.past_append_iff.1 hpast
      rw [State.past_singleton_iff] at h₁
      exact ⟨_, s₁, (ty_recognizes n _ hs (by simp [h₁.1])).2 ⟨t, hvalid, rfl, hpast⟩, x, s', h₁,
        rfl, rfl⟩
  refine hitem.parenthesized trivial trivial (fun b => ?_) _ _
  obtain ⟨l, ls, hlex, C, rfl⟩ := begins_ident b.ty
  exact ⟨_, ls ++ [.ident b.name], congrArg (· ++ _) hlex, nofun⟩

end Parse

end Featherweight

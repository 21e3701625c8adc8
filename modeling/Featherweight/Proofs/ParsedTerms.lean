import Featherweight.Proofs.ParsedTypes
import Featherweight.Proofs.Unambiguous

/-!
# Terms as they are read

The parser for terms recognizes terms where a lexeme follows that closes one. It
looks ahead to tell casts from parentheses and calls from field accesses; the
lexemes of a tree decide what it sees there.

A term never stops in front of a dot. So the operand of a cast takes all accesses
behind it, and none are left for the cast itself.
-/

namespace Featherweight

namespace Parse

open Grammar

variable {s s₁ s' : State} {n k : Nat} {x : ParseM Term} {e e' : Term}

theorem State.beginsCast_eq (hs : s.Ample n) (h : s.current.lexeme = .symbol .lparen) :
    s.beginsCast = castAhead s.lexemes := by
  obtain ⟨ls, hls⟩ := hs.lexemes
  simp only [beginsCast, peek?_eq, hls, h]
  match ls with
  | [] => rfl
  | [l₁] =>
    cases l₁ with
    | _ => rfl
  | [l₁, l₂] =>
    cases l₁ with
    | ident y =>
      cases l₂ with
      | symbol c => cases c with
        | _ => rfl
      | _ => rfl
    | _ => rfl
  | l₁ :: l₂ :: l₃ :: ls =>
    cases l₁ with
    | ident y =>
      cases l₂ with
      | symbol c => cases c with
        | _ => rfl
      | _ => rfl
    | _ => rfl

theorem args_recognizes (hx : Recognizes n x TermTree.phrase Closes) :
    Recognizes n (args x n) (TermTree.phrase.list Grammar.parenthesized) fun _ => True :=
  hx.parenthesized (.inr (.inl rfl)) (.inl rfl) TermTree.lexemes_begins_ne_rparen _ _

theorem takes_accesses_succ_iff :
    Takes (accesses x n (k + 1) e) s e' s' ↔
      (∃ s₁, s.Step (.symbol .dot) s₁ ∧ ∃ m s₂, s₁.Step (.ident m) s₂ ∧
        if s₂.current.lexeme = .symbol .lt ∨ s₂.current.lexeme = .symbol .lparen then
          ∃ Vs s₃, Takes (typeArgs (ty n "type argument") n) s₂ Vs s₃ ∧
            ∃ es s₄, Takes (args x n) s₃ es s₄ ∧ Takes (accesses x n k (.call e m Vs es)) s₄ e' s'
        else Takes (accesses x n k (.field e m)) s₂ e' s') ∨
      (s.current.lexeme ≠ .symbol .dot ∧ e = e' ∧ s = s') := by
  simp only [accesses, takes_accept_bind_iff (symbol_ne_eof _), if_true, Bool.false_eq_true,
    if_false, takes_pure_iff, takes_identifier_bind_iff, takes_sees_bind_iff, Bool.or_eq_true,
    decide_eq_true_eq]
  refine or_congr_left (exists_congr fun s₁ => and_congr_right fun _ => exists_congr fun m =>
    exists_congr fun s₂ => and_congr_right fun _ => ?_)
  split
  · simp only [takes_bind_iff]
  · rfl

theorem continues_of_takes_accesses (h : Takes (accesses x n k e) s e' s')
    (hF : Closes s'.current.lexeme) : Continues s.current.lexeme := by
  cases k with
  | zero => exact absurd h not_takes_endless
  | succ k =>
    rcases takes_accesses_succ_iff.1 h with ⟨s₁, h₁, -⟩ | ⟨-, -, rfl⟩
    · exact .inr h₁.1
    · exact .inl hF

theorem current_ne_dot_of_takes_accesses (h : Takes (accesses x n k e) s e' s') :
    s'.current.lexeme ≠ .symbol .dot := by
  induction k generalizing s e with
  | zero => exact absurd h not_takes_endless
  | succ k ih =>
    rcases takes_accesses_succ_iff.1 h with ⟨s₁, -, m, s₂, -, h⟩ | ⟨hdot, -, rfl⟩
    · split at h
      · obtain ⟨Vs, s₃, -, es, s₄, -, h⟩ := h
        exact ih h
      · exact ih h
    · exact hdot

theorem exists_spells_accesses_iff :
    (∃ rest, s.Spells (Accesses.phrase e) rest e' s') ↔
      (∃ s₁, s.Step (.symbol .dot) s₁ ∧ ∃ m s₂, s₁.Step (.ident m) s₂ ∧
        ((∃ Vs s₃, (∃ t, s₂.Spells typeArgsPhrase t Vs s₃) ∧
          ∃ es s₄, (∃ t, s₃.Spells (TermTree.phrase.list Grammar.parenthesized) t es s₄) ∧
            ∃ rest, s₄.Spells (Accesses.phrase (.call e m Vs es)) rest e' s') ∨
          ∃ rest, s₂.Spells (Accesses.phrase (.field e m)) rest e' s')) ∨
      (e = e' ∧ s = s') := by
  constructor
  · rintro ⟨rest, hvalid, rfl, hpast⟩
    cases rest with
    | done => exact .inr ⟨rfl, hpast⟩
    | field f rest =>
      obtain ⟨s₁, h₁, s₂, h₂, hpast⟩ := hpast
      have hs₂ : s₂.vars = s.vars := by rw [h₂.vars, h₁.vars]
      exact .inl ⟨s₁, h₁, f, s₂, h₂, .inr ⟨rest, (State.spells_iff hs₂).2 ⟨hvalid, rfl, hpast⟩⟩⟩
    | call m Vs es rest =>
      obtain ⟨s₁, h₁, s₂, h₂, hpast⟩ := hpast
      obtain ⟨s₃, hVs, hpast⟩ := State.past_append_iff.1 hpast
      obtain ⟨s₄, hes, hrest⟩ := State.past_append_iff.1 hpast
      have hs₂ : s₂.vars = s.vars := by rw [h₂.vars, h₁.vars]
      have hs₃ : s₃.vars = s.vars := hVs.vars.trans hs₂
      obtain ⟨hvalidVs, hvalids, hvalid⟩ := hvalid
      rw [TermTree.validAll_iff] at hvalids
      rw [TermTree.lexemeLists_eq_map] at hes
      refine .inl ⟨s₁, h₁, m, s₂, h₂, .inl ⟨_, s₃, ⟨Vs, (State.spells_iff hs₂).2
        ⟨hvalidVs, rfl, hVs⟩⟩, _, s₄, ⟨es, (State.spells_iff hs₃).2 ⟨hvalids, rfl, hes⟩⟩, rest,
        (State.spells_iff (hes.vars.trans hs₃)).2 ⟨hvalid, ?_, hrest⟩⟩⟩
      exact congrArg (fun ts => rest.term s.vars (.call e m _ ts)) (TermTree.terms_eq_map _ _).symm
  · rintro (⟨s₁, h₁, m, s₂, h₂, h⟩ | ⟨rfl, rfl⟩)
    · have hs₂ : s₂.vars = s.vars := by rw [h₂.vars, h₁.vars]
      rcases h with ⟨_, s₃, ⟨Vs, hVs⟩, _, s₄, ⟨es, hes⟩, rest, hrest⟩ | ⟨rest, hrest⟩
      · obtain ⟨hvalidVs, rfl, hpast₃⟩ := (State.spells_iff hs₂).1 hVs
        have hs₃ : s₃.vars = s.vars := hpast₃.vars.trans hs₂
        obtain ⟨hvalids, rfl, hpast₄⟩ := (State.spells_iff hs₃).1 hes
        obtain ⟨hvalid, rfl, hpast⟩ := (State.spells_iff (hpast₄.vars.trans hs₃)).1 hrest
        refine ⟨.call m Vs es rest, ⟨hvalidVs, TermTree.validAll_iff.2 hvalids, hvalid⟩, ?_, ?_⟩
        · exact congrArg (fun ts => rest.term s.vars (.call e m _ ts)) (TermTree.terms_eq_map _ _)
        · refine h₁.past (h₂.past (hpast₃.trans (.trans ?_ hpast)))
          rw [TermTree.lexemeLists_eq_map]
          exact hpast₄
      · obtain ⟨hvalid, rfl, hpast⟩ := (State.spells_iff hs₂).1 hrest
        exact ⟨.field m rest, hvalid, rfl, h₁.past (h₂.past hpast)⟩
    · exact ⟨.done, trivial, rfl, rfl⟩

theorem current_of_takes_args {es : List Term} (h : Takes (args x n) s es s') :
    s.current.lexeme = .symbol .lparen := by
  rw [args, parenthesized, takes_expect_bind_iff (symbol_ne_eof _)] at h
  obtain ⟨s₁, h₁, -⟩ := h
  exact h₁.1

theorem State.Spells.continues {rest : Accesses} (h : s.Spells (Accesses.phrase e) rest e' s')
    (hF : Closes s'.current.lexeme) : Continues s.current.lexeme := by
  have hpast := h.past
  cases rest with
  | done =>
    cases hpast
    exact .inl hF
  | field f rest =>
    obtain ⟨s₁, h₁, -⟩ := hpast
    exact .inr h₁.1
  | call m Vs es rest =>
    obtain ⟨s₁, h₁, -⟩ := hpast
    exact .inr h₁.1

theorem current_of_spells_typeArgs {t : Option (List TypeTree)} {Vs : List Ty}
    (h : s.Spells typeArgsPhrase t Vs s') (hF : s'.current.lexeme = .symbol .lparen) :
    s.current.lexeme = .symbol .lt ∨ s.current.lexeme = .symbol .lparen := by
  have hpast := h.past
  cases t with
  | none =>
    cases hpast
    exact .inr hF
  | some Ts =>
    obtain ⟨s₁, h₁, -⟩ := hpast
    exact .inl h₁.1

theorem accesses_recognizes (hx : Recognizes n x TermTree.phrase Closes) (hk : k ≤ n) (e : Term) :
    Recognizes k (accesses x n k e) (Accesses.phrase e) Closes := by
  induction k generalizing e with
  | zero => exact fun s a s' hs => absurd hs State.not_ample_zero
  | succ k ih =>
    intro s e' s' hs hF
    rw [takes_accesses_succ_iff, exists_spells_accesses_iff]
    refine or_congr (exists_congr fun s₁ => and_congr_right fun h₁ => exists_congr fun m =>
      exists_congr fun s₂ => and_congr_right fun h₂ => ?_) ?_
    · have hs₂ : s₂.Ample k := h₂.ample_self (h₁.ample hs)
      have hkn := Nat.le_of_succ_le hk
      have hVs {Vs : List Ty} {s₃ : State} (h : s₃.current.lexeme = .symbol .lparen) :
          Takes (typeArgs (ty n "type argument") n) s₂ Vs s₃ ↔
            ∃ t, s₂.Spells typeArgsPhrase t Vs s₃ :=
        typeArgs_recognizes (ty_recognizes n _) (hs₂.mono hkn) (by simp [h])
      constructor
      · intro h
        split at h
        · obtain ⟨Vs, s₃, hVs', es, s₄, hes, hrest⟩ := h
          obtain ⟨t, ht⟩ := (hVs (current_of_takes_args hes)).1 hVs'
          have hs₃ := ht.past.ample hs₂
          obtain ⟨ts, hts⟩ := (args_recognizes hx (hs₃.mono hkn) trivial).1 hes
          have hs₄ := hts.past.ample hs₃
          exact .inl ⟨Vs, s₃, ⟨t, ht⟩, es, s₄, ⟨ts, hts⟩, (ih hkn _ hs₄ hF).1 hrest⟩
        · exact .inr ((ih hkn _ hs₂ hF).1 h)
      · rintro (⟨Vs, s₃, ⟨t, ht⟩, es, s₄, hes, hrest⟩ | ⟨rest, hrest⟩)
        · have hs₃ := ht.past.ample hs₂
          have hs₄ : s₄.Ample k := by
            obtain ⟨ts, hts⟩ := hes
            exact hts.past.ample hs₃
          have hargs := (args_recognizes hx (hs₃.mono hkn) trivial).2 hes
          have hopen := current_of_takes_args hargs
          rw [if_pos (current_of_spells_typeArgs ht hopen)]
          exact ⟨Vs, s₃, (hVs hopen).2 ⟨t, ht⟩, es, s₄, hargs, (ih hkn _ hs₄ hF).2 hrest⟩
        · rw [if_neg (hrest.continues hF).ne_open]
          exact (ih hkn _ hs₂ hF).2 ⟨rest, hrest⟩
    · refine and_iff_right_of_imp ?_
      rintro ⟨-, rfl⟩
      exact hF.ne_dot

theorem takes_primary_iff :
    Takes (primary x n) s e s' ↔
      (s.Step (.keyword .thisWord) s' ∧ .var "this" = e) ∨
      (∃ y, s.Step (.ident y) s' ∧ .var y = e) ∨
      (∃ s₁, s.Step (.keyword .newWord) s₁ ∧
        ∃ N s₂, Takes (classTy n "class name after \"new\"") s₁ N s₂ ∧
          ∃ es, Takes (args x n) s₂ es s' ∧ .new N es = e) ∨
      (s.current.lexeme = .symbol .lparen ∧ Takes (parenthesis x n) s e s') := by
  rw [primary, takes_get_bind_iff]
  split
  · next h =>
    rw [takes_advance_bind_iff, takes_pure_iff]
    simp [h, State.Step, and_comm]
  · next y h =>
    rw [takes_advance_bind_iff, takes_pure_iff]
    simp only [State.Step, h]
    constructor
    · rintro ⟨rfl, rfl⟩
      exact .inr (.inl ⟨y, ⟨rfl, by simp, rfl⟩, rfl⟩)
    · rintro (⟨⟨h, -⟩, -⟩ | ⟨_, ⟨h, -, rfl⟩, rfl⟩ | ⟨_, ⟨h, -⟩, -⟩ | ⟨h, -⟩)
      · cases h
      · cases h
        exact ⟨rfl, rfl⟩
      · cases h
      · cases h
  · next h =>
    rw [takes_advance_bind_iff]
    simp only [takes_bind_iff, takes_pure_iff]
    simp [h, State.Step]
  · next h => simp [h, State.Step]
  · next h₁ h₂ h₃ h₄ =>
    refine iff_of_false not_takes_complain ?_
    rintro (⟨h, -⟩ | ⟨y, h, -⟩ | ⟨s₁, h, -⟩ | ⟨h, -⟩)
    · exact h₁ h.1
    · exact h₂ y h.1
    · exact h₃ h.1
    · exact h₄ h

theorem takes_parenthesis_iff (h : s.current.lexeme = .symbol .lparen) :
    Takes (parenthesis x n) s e s' ↔ ∃ s₁, s.Step (.symbol .lparen) s₁ ∧
      if s.beginsCast then
        ∃ N s₂, Takes (classTy n "cast target type") s₁ N s₂ ∧
          ∃ s₃, s₂.Step (.symbol .rparen) s₃ ∧ ∃ u, Takes x s₃ u s' ∧ .cast N u = e
      else ∃ s₂, Takes x s₁ e s₂ ∧ s₂.Step (.symbol .rparen) s' := by
  have hstep : s.Step (.symbol .lparen) s.advance := ⟨h, symbol_ne_eof _, rfl⟩
  rw [parenthesis, takes_get_bind_iff]
  split
  · simp only [takes_expect_bind_iff (symbol_ne_eof _), takes_bind_iff (x := classTy _ _),
      takes_bind_iff (x := x), takes_pure_iff]
    simp
  · rw [takes_advance_bind_iff, takes_bind_iff]
    simp only [takes_expect_bind_iff (symbol_ne_eof _), takes_pure_iff]
    constructor
    · rintro ⟨e, s₂, he, _, h₂, rfl, rfl⟩
      exact ⟨_, hstep, s₂, he, h₂⟩
    · rintro ⟨_, ⟨-, -, rfl⟩, s₂, he, h₂⟩
      exact ⟨e, s₂, he, s', h₂, rfl, rfl⟩

theorem spells_new_iff {N : TypeTree} {es : List TermTree} :
    s.Spells Primary.phrase (.new N es) e s' ↔ ∃ s₁, s.Step (.keyword .newWord) s₁ ∧
      ∃ M s₂, s₁.Spells TypeTree.nonVarPhrase N M s₂ ∧
        ∃ us, s₂.Spells (TermTree.phrase.list Grammar.parenthesized) es us s' ∧
          .new M us = e := by
  have hlex : Primary.phrase.lexemes (.new N es) = .keyword .newWord ::
      (N.lexemes ++ (TermTree.phrase.list Grammar.parenthesized).lexemes es) :=
    congrArg (fun ls => _ :: (N.lexemes ++ Grammar.parenthesized ls))
      (TermTree.lexemeLists_eq_map es)
  constructor
  · rintro ⟨⟨hN, hes⟩, rfl, hpast⟩
    obtain ⟨s₁, h₁, hpast⟩ := State.past_cons_iff.1 (hlex ▸ hpast)
    obtain ⟨s₂, h₂, hpast⟩ := State.past_append_iff.1 hpast
    refine ⟨s₁, h₁, _, s₂, (State.spells_iff h₁.vars).2 ⟨hN, rfl, h₂⟩, _,
      (State.spells_iff (h₂.vars.trans h₁.vars)).2 ⟨TermTree.validAll_iff.1 hes, rfl, hpast⟩, ?_⟩
    exact congrArg (Term.new _) (TermTree.terms_eq_map _ _).symm
  · rintro ⟨s₁, h₁, _, s₂, hN, _, hes, rfl⟩
    obtain ⟨hvalidN, rfl, h₂⟩ := (State.spells_iff h₁.vars).1 hN
    obtain ⟨hvalids, rfl, hpast⟩ := (State.spells_iff (h₂.vars.trans h₁.vars)).1 hes
    refine ⟨⟨hvalidN, TermTree.validAll_iff.2 hvalids⟩, ?_, hlex ▸ h₁.past (h₂.trans hpast)⟩
    exact congrArg (Term.new _) (TermTree.terms_eq_map _ _)

theorem spells_paren_iff {u : TermTree} :
    s.Spells Primary.phrase (.paren u) e s' ↔ ∃ s₁, s.Step (.symbol .lparen) s₁ ∧
      ∃ s₂, s₁.Spells TermTree.phrase u e s₂ ∧ s₂.Step (.symbol .rparen) s' := by
  constructor
  · rintro ⟨hvalid, rfl, s₁, h₁, hpast⟩
    obtain ⟨s₂, hpast, h₂⟩ := State.past_append_iff.1 hpast
    exact ⟨s₁, h₁, s₂, (State.spells_iff h₁.vars).2 ⟨hvalid, rfl, hpast⟩,
      State.past_singleton_iff.1 h₂⟩
  · rintro ⟨s₁, h₁, s₂, hu, h₂⟩
    obtain ⟨hvalid, rfl, hpast⟩ := (State.spells_iff h₁.vars).1 hu
    exact ⟨hvalid, rfl, h₁.past (hpast.trans (State.past_singleton_iff.2 h₂))⟩

theorem spells_cast_iff {N : TypeTree} {u : TermTree} :
    s.Spells TermTree.phrase (.cast N u) e s' ↔ ∃ s₁, s.Step (.symbol .lparen) s₁ ∧
      ∃ M s₂, s₁.Spells TypeTree.nonVarPhrase N M s₂ ∧ ∃ s₃, s₂.Step (.symbol .rparen) s₃ ∧
        ∃ v, s₃.Spells TermTree.phrase u v s' ∧ .cast M v = e := by
  constructor
  · rintro ⟨⟨hN, hu⟩, rfl, s₁, h₁, hpast⟩
    obtain ⟨s₂, hN', s₃, h₃, hu'⟩ := State.past_append_iff.1 hpast
    have hs₃ : s₃.vars = s.vars := by rw [h₃.vars, hN'.vars, h₁.vars]
    exact ⟨s₁, h₁, _, s₂, (State.spells_iff h₁.vars).2 ⟨hN, rfl, hN'⟩, s₃, h₃, _,
      (State.spells_iff hs₃).2 ⟨hu, rfl, hu'⟩, rfl⟩
  · rintro ⟨s₁, h₁, M, s₂, hN, s₃, h₃, v, hu, rfl⟩
    obtain ⟨hvalidN, rfl, hpastN⟩ := (State.spells_iff h₁.vars).1 hN
    have hs₃ : s₃.vars = s.vars := by rw [h₃.vars, hpastN.vars, h₁.vars]
    obtain ⟨hvalid, rfl, hpast⟩ := (State.spells_iff hs₃).1 hu
    exact ⟨⟨hvalidN, hvalid⟩, rfl, h₁.past (hpastN.trans (h₃.past hpast))⟩

theorem beginsCast_of_spells_cast {N : TypeTree} {u : TermTree} (hs : s.Ample n)
    (h : s.Spells TermTree.phrase (.cast N u) e s') : s.beginsCast = true := by
  obtain ⟨s₁, h₁, -⟩ := spells_cast_iff.1 h
  rw [State.beginsCast_eq hs h₁.1, h.past.lexemes hs]
  exact castAhead_cast N u _

theorem not_beginsCast_of_spells_paren {u : TermTree} (hs : s.Ample n)
    (h : s.Spells Primary.phrase (.paren u) e s') (hF : Continues s'.current.lexeme) :
    ¬ s.beginsCast = true := by
  obtain ⟨s₁, h₁, -⟩ := spells_paren_iff.1 h
  obtain ⟨ls, hls⟩ := (h.past.ample hs).lexemes
  rw [State.beginsCast_eq hs h₁.1, h.past.lexemes hs]
  have hfalse := castAhead_paren u ⟨_, ls, hls, hF⟩
  exact Bool.eq_false_iff.1 hfalse

/-- A primary is read where the accesses or the end of a term follow. A cast is read here
too, but only with its whole operand. -/
theorem takes_primary_iff_spells (hx : Recognizes n x TermTree.phrase Closes)
    (hdot : ∀ ⦃s e s'⦄, Takes x s e s' → s'.current.lexeme ≠ .symbol .dot) (hs : s.Ample (n + 1))
    (hF : Continues s'.current.lexeme) :
    Takes (primary x n) s e s' ↔ (∃ h, s.Spells Primary.phrase h e s') ∨
      (s'.current.lexeme ≠ .symbol .dot ∧
        ∃ N u, s.Spells TermTree.phrase (.cast N u) e s') := by
  have hclass {s s' : State} {N : ClassTy} {what : String} (hs : s.Ample n)
      (hF : s'.current.lexeme ≠ .symbol .lt) :
      Takes (classTy n what) s N s' ↔ ∃ t, s.Spells TypeTree.nonVarPhrase t N s' :=
    classTy_recognizes n what hs hF
  rw [takes_primary_iff]
  constructor
  · rintro (⟨h, rfl⟩ | ⟨y, h, rfl⟩ | ⟨s₁, h₁, N, s₂, hN, es, hes, rfl⟩ | ⟨h, hparen⟩)
    · exact .inl ⟨.this, trivial, rfl, State.past_singleton_iff.2 h⟩
    · exact .inl ⟨.name y, trivial, rfl, State.past_singleton_iff.2 h⟩
    · have hs₁ := h₁.ample hs
      obtain ⟨t, ht⟩ := (hclass hs₁ (by simp [current_of_takes_args hes])).1 hN
      obtain ⟨ts, hts⟩ := (args_recognizes hx (ht.past.ample hs₁) trivial).1 hes
      exact .inl ⟨.new t ts, spells_new_iff.2 ⟨s₁, h₁, N, s₂, ht, es, hts, rfl⟩⟩
    · obtain ⟨s₁, h₁, h⟩ := (takes_parenthesis_iff h).1 hparen
      have hs₁ := h₁.ample hs
      split at h
      · obtain ⟨N, s₂, hN, s₃, h₃, u, hu, rfl⟩ := h
        have hne := hdot hu
        obtain ⟨t, ht⟩ := (hclass hs₁ (by simp [h₃.1])).1 hN
        have hs₃ := h₃.ample_self (ht.past.ample hs₁)
        obtain ⟨v, hv⟩ := (hx hs₃ (hF.resolve_right hne)).1 hu
        exact .inr ⟨hne, t, v, spells_cast_iff.2 ⟨s₁, h₁, N, s₂, ht, s₃, h₃, u, hv, rfl⟩⟩
      · obtain ⟨s₂, hu, h₂⟩ := h
        obtain ⟨v, hv⟩ := (hx hs₁ (.inl h₂.1)).1 hu
        exact .inl ⟨.paren v, spells_paren_iff.2 ⟨s₁, h₁, s₂, hv, h₂⟩⟩
  · rintro (⟨h, hspells⟩ | ⟨hne, N, u, hspells⟩)
    · cases h with
      | this =>
        exact .inl ⟨State.past_singleton_iff.1 hspells.past, hspells.meaning⟩
      | name y =>
        exact .inr (.inl ⟨y, State.past_singleton_iff.1 hspells.past, hspells.meaning⟩)
      | new N es =>
        obtain ⟨s₁, h₁, M, s₂, hN, us, hes, rfl⟩ := spells_new_iff.1 hspells
        have hs₁ := h₁.ample hs
        have hargs := (args_recognizes hx (hN.past.ample hs₁) trivial).2 ⟨es, hes⟩
        refine .inr (.inr (.inl ⟨s₁, h₁, M, s₂, ?_, us, hargs, rfl⟩))
        exact (hclass hs₁ (by simp [current_of_takes_args hargs])).2 ⟨N, hN⟩
      | paren u =>
        have hcast := not_beginsCast_of_spells_paren hs hspells hF
        obtain ⟨s₁, h₁, s₂, hu, h₂⟩ := spells_paren_iff.1 hspells
        refine .inr (.inr (.inr ⟨h₁.1, (takes_parenthesis_iff h₁.1).2 ⟨s₁, h₁, ?_⟩⟩))
        rw [if_neg hcast]
        exact ⟨s₂, (hx (h₁.ample hs) (.inl h₂.1)).2 ⟨u, hu⟩, h₂⟩
    · have hcast := beginsCast_of_spells_cast hs hspells
      obtain ⟨s₁, h₁, M, s₂, hN, s₃, h₃, v, hu, rfl⟩ := spells_cast_iff.1 hspells
      have hs₁ := h₁.ample hs
      have hs₃ := h₃.ample_self (hN.past.ample hs₁)
      refine .inr (.inr (.inr ⟨h₁.1, (takes_parenthesis_iff h₁.1).2 ⟨s₁, h₁, ?_⟩⟩))
      rw [if_pos hcast]
      exact ⟨M, s₂, (hclass hs₁ (by simp [h₃.1])).2 ⟨N, hN⟩, s₃, h₃, v,
        (hx hs₃ (hF.resolve_right hne)).2 ⟨u, hu⟩, rfl⟩

theorem current_ne_dot_of_takes_term (h : Takes (term n) s e s') :
    s'.current.lexeme ≠ .symbol .dot := by
  cases n with
  | zero => exact absurd h not_takes_endless
  | succ n =>
    rw [term, takes_bind_iff] at h
    obtain ⟨_, _, -, h⟩ := h
    exact current_ne_dot_of_takes_accesses h

theorem spells_chain_iff {h : Primary} {rest : Accesses} :
    s.Spells TermTree.phrase (.chain h rest) e s' ↔
      ∃ u s₁, s.Spells Primary.phrase h u s₁ ∧ s₁.Spells (Accesses.phrase u) rest e s' := by
  constructor
  · rintro ⟨⟨hh, hrest⟩, rfl, hpast⟩
    obtain ⟨s₁, h₁, hpast⟩ := State.past_append_iff.1 hpast
    exact ⟨_, s₁, ⟨hh, rfl, h₁⟩, (State.spells_iff h₁.vars).2 ⟨hrest, rfl, hpast⟩⟩
  · rintro ⟨_, s₁, ⟨hh, rfl, h₁⟩, hrest⟩
    obtain ⟨hvalid, rfl, hpast⟩ := (State.spells_iff h₁.vars).1 hrest
    exact ⟨⟨hh, hvalid⟩, rfl, h₁.trans hpast⟩

theorem begins_term : Begins TermTree.phrase (startsTerm · = true) := TermTree.lexemes_begins

theorem begins_primary : Begins Primary.phrase fun _ => True := by
  intro h
  cases h with
  | this => exact ⟨_, _, rfl, trivial⟩
  | name x => exact ⟨_, _, rfl, trivial⟩
  | new N es => exact ⟨_, _, rfl, trivial⟩
  | paren e => exact ⟨_, _, rfl, trivial⟩

theorem term_recognizes (n : Nat) : Recognizes n (term n) TermTree.phrase Closes := by
  induction n with
  | zero => exact fun s a s' hs => absurd hs State.not_ample_zero
  | succ n ih =>
    intro s e s' hs hF
    have hprimary {u : Term} {s₁ : State} (h₁ : Continues s₁.current.lexeme) :=
      takes_primary_iff_spells (e := u) ih (fun _ _ _ h => current_ne_dot_of_takes_term h) hs h₁
    have hrest (u : Term) := accesses_recognizes ih (Nat.le_refl n) u
    rw [term, takes_bind_iff]
    constructor
    · rintro ⟨u, s₁, hu, h⟩
      rcases (hprimary (continues_of_takes_accesses h hF)).1 hu with ⟨t, ht⟩ | ⟨hne, N, v, hv⟩
      · obtain ⟨rest, hspells⟩ := (hrest u (ht.ample begins_primary hs) hF).1 h
        exact ⟨.chain t rest, spells_chain_iff.2 ⟨u, s₁, ht, hspells⟩⟩
      · -- The operand took all accesses, so none follow.
        obtain ⟨rest, hspells⟩ := (hrest u (hv.ample begins_term hs) hF).1 h
        have hpast := hspells.past
        cases rest with
        | done =>
          cases hpast
          exact ⟨.cast N v, hspells.meaning ▸ hv⟩
        | field f rest =>
          obtain ⟨s₂, h₂, -⟩ := hpast
          exact absurd h₂.1 hne
        | call m Vs es rest =>
          obtain ⟨s₂, h₂, -⟩ := hpast
          exact absurd h₂.1 hne
    · rintro ⟨t, ht⟩
      cases t with
      | chain h rest =>
        obtain ⟨u, s₁, hu, hspells⟩ := spells_chain_iff.1 ht
        exact ⟨u, s₁, (hprimary (hspells.continues hF)).2 (.inl ⟨h, hu⟩),
          (hrest u (hu.ample begins_primary hs) hF).2 ⟨rest, hspells⟩⟩
      | cast N v =>
        refine ⟨e, s', (hprimary (.inl hF)).2 (.inr ⟨hF.ne_dot, N, v, ht⟩), ?_⟩
        exact (hrest e (ht.ample begins_term hs) hF).2 ⟨.done, trivial, rfl, rfl⟩

end Parse

end Featherweight

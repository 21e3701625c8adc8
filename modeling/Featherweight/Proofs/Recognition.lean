import Featherweight.Parse.Program
import Featherweight.Proofs.Grammar

/-!
# Parsers and phrases

`Takes x s a s'` says that the parser `x` succeeds, and `s.Past ls s'` that one gets
from `s` to `s'` by reading `ls`. A parser recognizes a kind of phrase if it succeeds
exactly by reading an admitted phrase and returns its meaning, wherever there is
enough fuel and whenever the lexeme behind the phrase is one that may follow it.

The fuel is enough if it exceeds the number of tokens ahead and an end of file is
among them. This holds at the start, and each token read keeps it true for one less.
-/

namespace Featherweight

namespace Parse

open Grammar (Phrase)

variable {α β τ : Type} {x : ParseM α} {f : α → ParseM β} {s s₁ s₂ s' : State} {a : α} {b : β}
  {l : Lexeme} {ls ms : List Lexeme} {n k : Nat}

/-- The parser succeeds with this result and leaves that state. -/
def Takes (x : ParseM α) (s : State) (a : α) (s' : State) : Prop :=
  x.run.run s = some (.ok a, s')

theorem takes_pure_iff {a' : α} : Takes (pure a') s a s' ↔ a' = a ∧ s = s' := by
  change some (Except.ok a', s) = some (Except.ok a, s') ↔ _
  simp

theorem takes_bind_iff : Takes (x >>= f) s b s' ↔ ∃ a s₁, Takes x s a s₁ ∧ Takes (f a) s₁ b s' := by
  unfold Takes
  rw [ExceptT.run_bind, StateT.run_bind, Option.bind_eq_bind, Option.bind_eq_some_iff]
  constructor
  · rintro ⟨⟨r, s₁⟩, hr, hb⟩
    cases r with
    | error e => cases hb
    | ok a => exact ⟨a, s₁, hr, hb⟩
  · rintro ⟨a, s₁, ha, hb⟩
    exact ⟨(.ok a, s₁), ha, hb⟩

theorem not_takes_bind (h : ∀ a s₁, ¬ Takes x s a s₁) : ¬ Takes (x >>= f) s b s' := by
  intro hb
  obtain ⟨a, s₁, ha, -⟩ := takes_bind_iff.1 hb
  exact h a s₁ ha

theorem takes_map_iff {g : α → β} : Takes (g <$> x) s b s' ↔ ∃ a, Takes x s a s' ∧ g a = b := by
  simp only [map_eq_pure_bind, takes_bind_iff, takes_pure_iff]
  constructor
  · rintro ⟨a, s₁, ha, rfl, rfl⟩
    exact ⟨a, ha, rfl⟩
  · rintro ⟨a, ha, rfl⟩
    exact ⟨a, s', ha, rfl, rfl⟩

theorem takes_cons_iff {y : ParseM (List α)} {as : List α} :
    Takes (do return (← x) :: (← y)) s as s' ↔
      ∃ a s₁, Takes x s a s₁ ∧ ∃ as', Takes y s₁ as' s' ∧ a :: as' = as := by
  simp only [takes_bind_iff, takes_pure_iff]
  constructor
  · rintro ⟨a, s₁, ha, as', _, has', rfl, rfl⟩
    exact ⟨a, s₁, ha, as', has', rfl⟩
  · rintro ⟨a, s₁, ha, as', has', rfl⟩
    exact ⟨a, s₁, ha, as', s', has', rfl, rfl⟩

theorem takes_map_cons_iff {y : ParseM (List α)} {g : α → β} {bs : List β} :
    Takes (List.map g <$> do return (← x) :: (← y)) s bs s' ↔
      ∃ b s₁, Takes (g <$> x) s b s₁ ∧ ∃ bs', Takes (List.map g <$> y) s₁ bs' s' ∧
        b :: bs' = bs := by
  simp only [takes_map_iff, takes_cons_iff]
  constructor
  · rintro ⟨_, ⟨a, s₁, ha, as, has, rfl⟩, rfl⟩
    exact ⟨_, s₁, ⟨a, ha, rfl⟩, _, ⟨as, has, rfl⟩, rfl⟩
  · rintro ⟨_, s₁, ⟨a, ha, rfl⟩, _, ⟨as, has, rfl⟩, rfl⟩
    exact ⟨_, ⟨a, s₁, ha, as, has, rfl⟩, rfl⟩

theorem takes_get_bind_iff {f : State → ParseM β} :
    Takes (get >>= f) s b s' ↔ Takes (f s) s b s' := Iff.rfl

theorem not_takes_endless : ¬ Takes endless s a s' := nofun

theorem not_takes_complain {c : Complaint} : ¬ Takes (complain c : ParseM α) s a s' := by
  rw [complain, takes_get_bind_iff]
  dsimp only
  split
  · exact fun h => by cases h
  · exact fun h => by cases h

theorem not_takes_complainBehind {c : Complaint} :
    ¬ Takes (complainBehind c : ParseM α) s a s' := nofun

theorem takes_requireBehind_bind_iff {p : Prop} [Decidable p] {c : Complaint}
    {f : Unit → ParseM β} :
    Takes (requireBehind p c >>= f) s b s' ↔ p ∧ Takes (f ()) s b s' := by
  unfold requireBehind
  split
  · next hp => exact ⟨fun h => ⟨hp, h⟩, fun h => h.2⟩
  · next hp =>
    exact iff_of_false (not_takes_bind fun _ _ => not_takes_complainBehind) fun h => hp h.1

namespace State

def Step (s : State) (l : Lexeme) (s' : State) : Prop :=
  s.current.lexeme = l ∧ l ≠ .eof ∧ s.advance = s'

/-- Reading these lexemes leads to that state. -/
def Past : State → List Lexeme → State → Prop
  | s, [], s' => s = s'
  | s, l :: ls, s' => ∃ s₁, s.Step l s₁ ∧ s₁.Past ls s'

theorem past_nil_iff : s.Past [] s' ↔ s = s' := Iff.rfl

theorem past_cons_iff : s.Past (l :: ls) s' ↔ ∃ s₁, s.Step l s₁ ∧ s₁.Past ls s' := Iff.rfl

theorem past_singleton_iff : s.Past [l] s' ↔ s.Step l s' := by
  simp [past_cons_iff, past_nil_iff]

theorem past_append_iff : s.Past (ls ++ ms) s' ↔ ∃ s₁, s.Past ls s₁ ∧ s₁.Past ms s' := by
  induction ls generalizing s with
  | nil => simp [past_nil_iff]
  | cons l ls ih =>
    simp only [List.cons_append, past_cons_iff, ih]
    constructor
    · rintro ⟨s₁, h₁, s₂, h₂, h⟩
      exact ⟨s₂, ⟨s₁, h₁, h₂⟩, h⟩
    · rintro ⟨s₂, ⟨s₁, h₁, h₂⟩, h⟩
      exact ⟨s₁, h₁, s₂, h₂, h⟩

theorem Past.trans (h : s.Past ls s₁) (h' : s₁.Past ms s') : s.Past (ls ++ ms) s' :=
  past_append_iff.2 ⟨s₁, h, h'⟩

theorem Step.past (h : s.Step l s₁) (h' : s₁.Past ls s') : s.Past (l :: ls) s' := ⟨s₁, h, h'⟩

def vars (s : State) : List String := s.scopes.flatten

theorem isTypeVar_iff {X : String} : s.isTypeVar X = true ↔ X ∈ s.vars := by
  simp [isTypeVar, vars]

def under (s : State) (σ : List (List String)) : State := { s with scopes := σ }

theorem advance_under (s : State) (σ : List (List String)) :
    (s.under σ).advance = s.advance.under σ := by
  unfold advance under
  dsimp only
  split
  · rfl
  · split
    · rfl
    · rfl

theorem scopes_advance (s : State) : s.advance.scopes = s.scopes := by
  have h : s.advance = s.advance.under s.scopes := advance_under s s.scopes
  rw [h, under]

theorem Step.vars (h : s.Step l s') : s'.vars = s.vars := by
  rw [State.vars, ← h.2.2, scopes_advance, State.vars]

theorem Past.scopes (h : s.Past ls s') : s'.scopes = s.scopes := by
  induction ls generalizing s with
  | nil => rw [past_nil_iff.1 h]
  | cons l ls ih =>
    obtain ⟨s₁, ⟨-, -, rfl⟩, h⟩ := h
    rw [ih h, scopes_advance]

theorem Past.vars (h : s.Past ls s') : s'.vars = s.vars := by
  rw [State.vars, h.scopes, State.vars]

def inside (s : State) (names : List String) : State := { s with scopes := names :: s.scopes }

theorem vars_inside {names : List String} : (s.inside names).vars = names ++ s.vars := rfl

theorem current_inside {names : List String} : (s.inside names).current = s.current := rfl

theorem advance_inside {names : List String} :
    (s.inside names).advance = s.advance.inside names := by
  change (s.under (names :: s.scopes)).advance = s.advance.under (names :: s.advance.scopes)
  rw [advance_under, scopes_advance]

theorem past_inside_iff {names : List String} :
    (s.inside names).Past ls s' ↔ ∃ s₁, s.Past ls s₁ ∧ s₁.inside names = s' := by
  induction ls generalizing s with
  | nil => simp [past_nil_iff]
  | cons l ls ih =>
    simp only [past_cons_iff, Step, current_inside, advance_inside]
    constructor
    · rintro ⟨_, ⟨hl, he, rfl⟩, h⟩
      obtain ⟨s₁, h₁, hs⟩ := ih.1 h
      exact ⟨s₁, ⟨_, ⟨hl, he, rfl⟩, h₁⟩, hs⟩
    · rintro ⟨s₁, ⟨_, ⟨hl, he, rfl⟩, h₁⟩, hs⟩
      exact ⟨_, ⟨hl, he, rfl⟩, ih.2 ⟨s₁, h₁, hs⟩⟩

def lexemes (s : State) : List Lexeme := s.ahead.map Token.lexeme

theorem peek?_eq (s : State) (k : Nat) : s.peek? k = s.lexemes[k]? := by
  rw [peek?, lexemes, List.getElem?_map]

/-- This much fuel is enough for the tokens ahead, which end. -/
structure Ample (n : Nat) (s : State) : Prop where
  ends : ∃ k ∈ s.ahead, k.lexeme = .eof
  lt : s.ahead.length < n

theorem not_ample_zero : ¬ s.Ample 0 := fun h => Nat.not_lt_zero _ h.lt

theorem Ample.mono (h : s.Ample k) (hk : k ≤ n) : s.Ample n := ⟨h.ends, Nat.lt_of_lt_of_le h.lt hk⟩

theorem Ample.inside (h : s.Ample n) (names : List String) : (s.inside names).Ample n :=
  ⟨h.ends, h.lt⟩

theorem Ample.ahead (h : s.Ample n) : ∃ ts, s.ahead = s.current :: ts := by
  obtain ⟨⟨k, hk, -⟩, -⟩ := h
  obtain ⟨t, ts, ht⟩ := List.exists_cons_of_ne_nil (List.ne_nil_of_mem hk)
  exact ⟨ts, by simp [current, ht]⟩

theorem Ample.lexemes (h : s.Ample n) : ∃ ls, s.lexemes = s.current.lexeme :: ls := by
  obtain ⟨ts, hts⟩ := h.ahead
  exact ⟨ts.map Token.lexeme, by rw [State.lexemes, hts, List.map_cons]⟩

theorem Step.ahead_eq (h : s.Step l s₁) (hs : s.Ample n) :
    s.ahead = s₁.previous :: s₁.ahead ∧ s₁.previous.lexeme = l := by
  obtain ⟨rfl, he, rfl⟩ := h
  obtain ⟨ts, hts⟩ := hs.ahead
  simp [advance, hts, he]

theorem Step.ahead (h : s.Step l s₁) (hs : s.Ample n) :
    ∃ t, s.ahead = t :: s₁.ahead ∧ t.lexeme = l :=
  ⟨s₁.previous, h.ahead_eq hs⟩

theorem Step.ample (h : s.Step l s₁) (hs : s.Ample (n + 1)) : s₁.Ample n := by
  obtain ⟨t, ht, htl⟩ := h.ahead hs
  obtain ⟨⟨k, hk, hke⟩, hlt⟩ := hs
  rw [ht, List.length_cons] at hlt
  refine ⟨⟨k, ?_, hke⟩, Nat.lt_of_succ_lt_succ hlt⟩
  rw [ht, List.mem_cons] at hk
  refine hk.resolve_left fun hkt => h.2.1 ?_
  rw [← htl, ← hkt, hke]

theorem Step.ample_self (h : s.Step l s₁) (hs : s.Ample n) : s₁.Ample n :=
  (h.ample (hs.mono (Nat.le_succ n)))

theorem Past.ample (h : s.Past ls s') (hs : s.Ample n) : s'.Ample n := by
  induction ls generalizing s with
  | nil => exact past_nil_iff.1 h ▸ hs
  | cons l ls ih =>
    obtain ⟨s₁, h₁, h⟩ := h
    exact ih h (h₁.ample_self hs)

theorem Past.lexemes (h : s.Past ls s') (hs : s.Ample n) : s.lexemes = ls ++ s'.lexemes := by
  induction ls generalizing s with
  | nil => rw [past_nil_iff.1 h, List.nil_append]
  | cons l ls ih =>
    obtain ⟨s₁, h₁, h⟩ := h
    obtain ⟨t, ht, rfl⟩ := h₁.ahead hs
    rw [State.lexemes, ht, List.map_cons, List.cons_append, ← ih h (h₁.ample_self hs),
      State.lexemes]

theorem exists_past (hs : s.Ample n) (h : s.lexemes = ls ++ ms) (hls : .eof ∉ ls) :
    ∃ s', s.Past ls s' ∧ s'.lexemes = ms := by
  induction ls generalizing s with
  | nil => exact ⟨s, rfl, h⟩
  | cons l ls ih =>
    rw [List.mem_cons, not_or] at hls
    obtain ⟨ls', hls'⟩ := hs.lexemes
    have hl : s.current.lexeme = l := (List.cons.inj (hls'.symm.trans h)).1
    have hstep : s.Step l s.advance := ⟨hl, Ne.symm hls.1, rfl⟩
    have hrest : s.lexemes = l :: s.advance.lexemes :=
      Past.lexemes (past_singleton_iff.2 hstep) hs
    obtain ⟨s', hpast, hs'⟩ := ih (hstep.ample_self hs) (List.cons.inj (hrest.symm.trans h)).2 hls.2
    exact ⟨s', hstep.past hpast, hs'⟩

end State

theorem takes_sees_bind_iff {f : Bool → ParseM β} :
    Takes (sees l >>= f) s b s' ↔ Takes (f (s.current.lexeme = l)) s b s' := Iff.rfl

theorem takes_isTypeVar_bind_iff {X : String} {f : Bool → ParseM β} :
    Takes (isTypeVar X >>= f) s b s' ↔ Takes (f (s.isTypeVar X)) s b s' := Iff.rfl

theorem takes_advance_bind_iff {f : Unit → ParseM β} :
    Takes (advance >>= f) s b s' ↔ Takes (f ()) s.advance b s' := Iff.rfl

theorem symbol_ne_eof (c : Symbol) : Lexeme.symbol c ≠ .eof := nofun

theorem keyword_ne_eof (w : Keyword) : Lexeme.keyword w ≠ .eof := nofun

theorem takes_accept_bind_iff (hl : l ≠ .eof) {f : Bool → ParseM β} :
    Takes (accept l >>= f) s b s' ↔
      (∃ s₁, s.Step l s₁ ∧ Takes (f true) s₁ b s') ∨
        (s.current.lexeme ≠ l ∧ Takes (f false) s b s') := by
  rw [accept, bind_assoc, takes_sees_bind_iff]
  by_cases hs : s.current.lexeme = l
  · simp [hs, hl, State.Step, takes_advance_bind_iff]
  · simp [hs, State.Step]

theorem takes_expect_bind_iff (hl : l ≠ .eof) {what : String} {f : Unit → ParseM β} :
    Takes (expect l what >>= f) s b s' ↔ ∃ s₁, s.Step l s₁ ∧ Takes (f ()) s₁ b s' := by
  rw [expect, bind_assoc, takes_accept_bind_iff hl]
  have hfail : ¬ Takes (complain (.expected what) >>= f) s b s' :=
    not_takes_bind fun _ _ => not_takes_complain
  simp [hfail]

theorem State.advance_of_eof (h : s.current.lexeme = .eof) : s.advance = s := by
  unfold State.advance
  split
  · rfl
  · next t ts hs =>
    have ht : t.lexeme = .eof := by simpa [State.current, hs] using h
    rw [if_pos ht]

theorem takes_expectEnd_bind_iff {what : String} {f : Unit → ParseM β} :
    Takes (expect .eof what >>= f) s b s' ↔ s.current.lexeme = .eof ∧ Takes (f ()) s b s' := by
  rw [expect, accept, bind_assoc, bind_assoc, takes_sees_bind_iff]
  by_cases h : s.current.lexeme = .eof
  · simp [h, takes_advance_bind_iff, State.advance_of_eof h]
  · have hfail : ¬ Takes (complain (.expected what) >>= f) s b s' :=
      not_takes_bind fun _ _ => not_takes_complain
    simp [h, hfail]

theorem takes_identifier_bind_iff {what : String} {f : String → ParseM β} :
    Takes (identifier what >>= f) s b s' ↔
      ∃ x s₁, s.Step (.ident x) s₁ ∧ Takes (f x) s₁ b s' := by
  rw [identifier, bind_assoc, takes_get_bind_iff]
  cases hs : s.current.lexeme with
  | ident x =>
    simp only [hs, State.Step, Lexeme.ident.injEq, bind_assoc, pure_bind, takes_advance_bind_iff]
    constructor
    · exact fun h => ⟨x, _, ⟨rfl, nofun, rfl⟩, h⟩
    · rintro ⟨_, _, ⟨rfl, -, rfl⟩, h⟩
      exact h
  | _ =>
    simp only [State.Step, hs, reduceCtorEq, false_and, exists_false, iff_false]
    exact not_takes_bind fun _ _ => not_takes_complain

theorem takes_openScope_bind_iff {names : List String} {f : Unit → ParseM β} :
    Takes (openScope names >>= f) s b s' ↔ Takes (f ()) (s.inside names) b s' := Iff.rfl

theorem takes_closeScope_bind_iff {names : List String} {f : Unit → ParseM β} :
    Takes (closeScope >>= f) (s.inside names) b s' ↔ Takes (f ()) s b s' := Iff.rfl

theorem takes_currentSpan_bind_iff {f : Span → ParseM β} :
    Takes (currentSpan >>= f) s b s' ↔ Takes (f s.current.span) s b s' := Iff.rfl

theorem takes_previousSpan_bind_iff {f : Span → ParseM β} :
    Takes (previousSpan >>= f) s b s' ↔ Takes (f s.previous.span) s b s' := Iff.rfl

variable {P : Phrase τ α} {F : Lexeme → Prop}

/-- Reading the tree as a phrase of this kind leads to that state, with this meaning. -/
structure State.Spells (s : State) (P : Phrase τ α) (t : τ) (a : α) (s' : State) : Prop where
  valid : P.Valid s.vars t
  meaning : P.meaning s.vars t = a
  past : s.Past (P.lexemes t) s'

theorem State.spells_iff {vars : List String} (hvars : s.vars = vars) {t : τ} :
    s.Spells P t a s' ↔ P.Valid vars t ∧ P.meaning vars t = a ∧ s.Past (P.lexemes t) s' := by
  subst hvars
  exact ⟨fun h => ⟨h.valid, h.meaning, h.past⟩, fun h => ⟨h.1, h.2.1, h.2.2⟩⟩

/-- With this much fuel the parser takes exactly the phrases of this kind, where a lexeme
in `F` follows. -/
def Recognizes (n : Nat) (x : ParseM α) (P : Phrase τ α) (F : Lexeme → Prop) : Prop :=
  ∀ ⦃s a s'⦄, s.Ample n → F s'.current.lexeme → (Takes x s a s' ↔ ∃ t, s.Spells P t a s')

structure State.Ready (n : Nat) (vars : List String) (s : State) : Prop where
  ample : s.Ample n
  vars_eq : s.vars = vars

section Ready

variable {vars : List String}

theorem State.Step.ready (h : s.Step l s₁) (hs : s.Ready n vars) : s₁.Ready n vars :=
  ⟨h.ample_self hs.ample, h.vars.trans hs.vars_eq⟩

theorem State.Past.ready (h : s.Past ls s₁) (hs : s.Ready n vars) : s₁.Ready n vars :=
  ⟨h.ample hs.ample, h.vars.trans hs.vars_eq⟩

theorem State.Ready.inside (hs : s.Ready n vars) (names : List String) :
    (s.inside names).Ready n (names ++ vars) :=
  ⟨hs.ample.inside names, by rw [vars_inside, hs.vars_eq]⟩

theorem Recognizes.takes_iff (hx : Recognizes n x P F) (hs : s.Ready n vars)
    (hF : F s'.current.lexeme) :
    Takes x s a s' ↔
      ∃ t, P.Valid vars t ∧ P.meaning vars t = a ∧ s.Past (P.lexemes t) s' := by
  rw [hx hs.ample hF]
  exact exists_congr fun t => State.spells_iff hs.vars_eq

end Ready

theorem identifier_recognizes (n : Nat) (what : String) :
    Recognizes n (identifier what) Phrase.name fun _ => True := by
  intro s x s' hs _
  rw [← bind_pure (identifier what), takes_identifier_bind_iff]
  constructor
  · rintro ⟨y, s₁, h, hy⟩
    obtain ⟨rfl, rfl⟩ := takes_pure_iff.1 hy
    exact ⟨y, trivial, rfl, State.past_singleton_iff.2 h⟩
  · rintro ⟨y, -, rfl, h⟩
    exact ⟨y, s', State.past_singleton_iff.1 h, takes_pure_iff.2 ⟨rfl, rfl⟩⟩

theorem State.spells_items_singleton_iff {t : τ} {as : List α} :
    s.Spells P.items [t] as s' ↔ ∃ a, s.Spells P t a s' ∧ [a] = as := by
  have hlex : P.items.lexemes [t] = P.lexemes t := Grammar.commaSeparated_singleton _
  constructor
  · rintro ⟨⟨-, hvalid⟩, rfl, hpast⟩
    exact ⟨_, ⟨hvalid t (List.mem_singleton_self t), rfl, hlex ▸ hpast⟩, rfl⟩
  · rintro ⟨a, ⟨hvalid, rfl, hpast⟩, rfl⟩
    exact ⟨⟨List.cons_ne_nil _ _, List.forall_mem_singleton.2 hvalid⟩, rfl, hlex ▸ hpast⟩

theorem State.spells_items_cons_iff {t : τ} {ts : List τ} (hts : ts ≠ []) {as : List α} :
    s.Spells P.items (t :: ts) as s' ↔
      ∃ a s₁, s.Spells P t a s₁ ∧ ∃ s₂, s₁.Step (.symbol .comma) s₂ ∧
        ∃ as', s₂.Spells P.items ts as' s' ∧ a :: as' = as := by
  have hlex : P.items.lexemes (t :: ts) =
      P.lexemes t ++ .symbol .comma :: P.items.lexemes ts :=
    Grammar.commaSeparated_cons (mt List.map_eq_nil_iff.1 hts) _
  constructor
  · rintro ⟨⟨-, hvalid⟩, rfl, hpast⟩
    rw [List.forall_mem_cons] at hvalid
    rw [hlex, past_append_iff] at hpast
    obtain ⟨s₁, h₁, s₂, h₂, hpast⟩ := hpast
    have hvars : s₂.vars = s.vars := by rw [h₂.vars, h₁.vars]
    refine ⟨_, s₁, ⟨hvalid.1, rfl, h₁⟩, s₂, h₂, _, ⟨⟨hts, ?_⟩, rfl, hpast⟩, ?_⟩
    · exact hvars ▸ hvalid.2
    · rw [hvars]
      rfl
  · rintro ⟨a, s₁, ⟨hvalid, rfl, h₁⟩, s₂, h₂, as', ⟨⟨-, hvalids⟩, rfl, hpast⟩, rfl⟩
    have hvars : s₂.vars = s.vars := by rw [h₂.vars, h₁.vars]
    rw [hvars] at hvalids ⊢
    refine ⟨⟨List.cons_ne_nil _ _, List.forall_mem_cons.2 ⟨hvalid, hvalids⟩⟩, rfl, ?_⟩
    rw [hlex]
    exact h₁.trans ⟨s₂, h₂, hpast⟩

theorem Recognizes.commaSep (hx : Recognizes n x P F) (hF : F (.symbol .comma)) (hk : k ≤ n) :
    Recognizes k (commaSep x k) P.items fun l => F l ∧ l ≠ .symbol .comma := by
  induction k with
  | zero => exact fun s a s' hs => absurd hs State.not_ample_zero
  | succ k ih =>
    intro s as s' hs hF'
    simp only [Parse.commaSep, takes_bind_iff (x := x), takes_accept_bind_iff (symbol_ne_eof _),
      if_true, Bool.false_eq_true, if_false, takes_pure_iff]
    constructor
    · rintro ⟨a, s₁, ha, ⟨s₂, h₂, has⟩ | ⟨-, rfl, rfl⟩⟩
      · obtain ⟨as', _, has', has⟩ := takes_bind_iff.1 has
        obtain ⟨rfl, rfl⟩ := takes_pure_iff.1 has
        obtain ⟨t, ht⟩ := (hx (hs.mono hk) (h₂.1 ▸ hF)).1 ha
        have hs₂ : s₂.Ample k := h₂.ample (ht.past.ample hs)
        obtain ⟨ts, hts⟩ := (ih (Nat.le_of_succ_le hk) hs₂ hF').1 has'
        exact ⟨t :: ts, (State.spells_items_cons_iff hts.valid.1).2
          ⟨a, s₁, ht, s₂, h₂, as', hts, rfl⟩⟩
      · obtain ⟨t, ht⟩ := (hx (hs.mono hk) hF'.1).1 ha
        exact ⟨[t], State.spells_items_singleton_iff.2 ⟨a, ht, rfl⟩⟩
    · rintro ⟨ts, hts⟩
      match ts with
      | [] => exact absurd rfl hts.valid.1
      | [t] =>
        obtain ⟨a, ht, rfl⟩ := State.spells_items_singleton_iff.1 hts
        exact ⟨a, s', (hx (hs.mono hk) hF'.1).2 ⟨t, ht⟩, .inr ⟨hF'.2, rfl, rfl⟩⟩
      | t :: t' :: ts =>
        obtain ⟨a, s₁, ht, s₂, h₂, as', hts', rfl⟩ :=
          (State.spells_items_cons_iff (List.cons_ne_nil _ _)).1 hts
        have hs₂ : s₂.Ample k := h₂.ample (ht.past.ample hs)
        refine ⟨a, s₁, (hx (hs.mono hk) (h₂.1 ▸ hF)).2 ⟨t, ht⟩, .inl ⟨s₂, h₂, ?_⟩⟩
        have has' := (ih (Nat.le_of_succ_le hk) hs₂ hF').2 ⟨_, hts'⟩
        exact takes_bind_iff.2 ⟨as', s', has', takes_pure_iff.2 ⟨rfl, rfl⟩⟩

def Begins (P : Phrase τ α) (B : Lexeme → Prop) : Prop :=
  ∀ t, ∃ l ls, P.lexemes t = l :: ls ∧ B l

theorem State.Spells.exists_step {B : Lexeme → Prop} {t : τ} (hB : Begins P B)
    (h : s.Spells P t a s') : ∃ l s₁ ls, B l ∧ s.Step l s₁ ∧ s₁.Past ls s' := by
  obtain ⟨l, ls, hlex, hl⟩ := hB t
  obtain ⟨s₁, h₁, hpast⟩ := State.past_cons_iff.1 (hlex ▸ h.past)
  exact ⟨l, s₁, ls, hl, h₁, hpast⟩

theorem State.Spells.begins {B : Lexeme → Prop} {t : τ} (hB : Begins P B)
    (h : s.Spells P t a s') : B s.current.lexeme := by
  obtain ⟨l, s₁, ls, hl, h₁, -⟩ := h.exists_step hB
  exact h₁.1 ▸ hl

theorem State.Spells.current_ne_eof {B : Lexeme → Prop} {t : τ} (hB : Begins P B)
    (h : s.Spells P t a s') : s.current.lexeme ≠ .eof := by
  obtain ⟨l, s₁, ls, -, h₁, -⟩ := h.exists_step hB
  exact h₁.1 ▸ h₁.2.1

theorem State.Spells.ample {B : Lexeme → Prop} {t : τ} (hB : Begins P B)
    (h : s.Spells P t a s') (hs : s.Ample (n + 1)) : s'.Ample n := by
  obtain ⟨l, s₁, ls, -, h₁, hpast⟩ := h.exists_step hB
  exact hpast.ample (h₁.ample hs)

theorem State.Spells.begins_items {B : Lexeme → Prop} {ts : List τ} {as : List α}
    (hB : Begins P B) (h : s.Spells P.items ts as s') : B s.current.lexeme := by
  match ts with
  | [] => exact absurd rfl h.valid.1
  | [t] =>
    obtain ⟨a, ht, -⟩ := spells_items_singleton_iff.1 h
    exact ht.begins hB
  | t :: t' :: ts =>
    obtain ⟨a, s₁, ht, -⟩ := (spells_items_cons_iff (List.cons_ne_nil _ _)).1 h
    exact ht.begins hB

theorem Recognizes.upTo {c : Symbol} {y : ParseM (List α)} (hx : Recognizes n x P F)
    (hcomma : F (.symbol .comma)) (hclose : F (.symbol c)) (hc : c ≠ .comma)
    (hbegins : Begins P (· ≠ .symbol c))
    (hy : ∀ s as s', Takes y s as s' ↔
      ∃ s₁, Takes (Parse.commaSep x n) s as s₁ ∧ s₁.Step (.symbol c) s') :
    Recognizes n (do if ← accept (.symbol c) then return [] else y)
      (P.list fun items => Grammar.commaSeparated items ++ [.symbol c]) fun _ => True := by
  have hitems := hx.commaSep hcomma (Nat.le_refl n)
  intro s as s' hs _
  have hF : F (.symbol c) ∧ Lexeme.symbol c ≠ .symbol .comma :=
    ⟨hclose, fun h => hc (Lexeme.symbol.inj h)⟩
  simp only [takes_accept_bind_iff (symbol_ne_eof _), if_true, Bool.false_eq_true, if_false,
    takes_pure_iff, hy]
  constructor
  · rintro (⟨s₁, h₁, rfl, rfl⟩ | ⟨-, s₁, has, h₁⟩)
    · exact ⟨[], by simp [Phrase.list], rfl, State.past_singleton_iff.2 h₁⟩
    · obtain ⟨ts, hts⟩ := (hitems hs (h₁.1 ▸ hF)).1 has
      exact ⟨ts, hts.valid.2, hts.meaning, hts.past.trans (State.past_singleton_iff.2 h₁)⟩
  · rintro ⟨ts, hvalid, rfl, hpast⟩
    by_cases hts : ts = []
    · subst hts
      exact .inl ⟨s', State.past_singleton_iff.1 hpast, rfl, rfl⟩
    · obtain ⟨s₁, hpast, h₁⟩ := State.past_append_iff.1 hpast
      rw [State.past_singleton_iff] at h₁
      have hspells : s.Spells P.items ts _ s₁ := ⟨⟨hts, hvalid⟩, rfl, hpast⟩
      exact .inr ⟨hspells.begins_items hbegins, s₁, (hitems hs (h₁.1 ▸ hF)).2 ⟨ts, hspells⟩, h₁⟩

theorem Recognizes.parenthesized (hx : Recognizes n x P F) (hcomma : F (.symbol .comma))
    (hclose : F (.symbol .rparen)) (hbegins : Begins P (· ≠ .symbol .rparen))
    (opening list : String) :
    Recognizes n (parenthesized x n opening list) (P.list Grammar.parenthesized)
      fun _ => True := by
  have hrest := hx.upTo hcomma hclose nofun hbegins
    (y := do
      let as ← Parse.commaSep x n
      if ← accept (.symbol .rparen) then return as else complain (.malformed list)) <| by
    intro s as s'
    simp only [takes_bind_iff (x := Parse.commaSep x n), takes_accept_bind_iff (symbol_ne_eof _),
      if_true, Bool.false_eq_true, if_false, takes_pure_iff, not_takes_complain, and_false,
      or_false]
    constructor
    · rintro ⟨as, s₁, has, _, h₁, rfl, rfl⟩
      exact ⟨s₁, has, h₁⟩
    · rintro ⟨s₁, has, h₁⟩
      exact ⟨as, s₁, has, s', h₁, rfl, rfl⟩
  intro s as s' hs hF
  rw [Parse.parenthesized, takes_expect_bind_iff (symbol_ne_eof _)]
  constructor
  · rintro ⟨s₁, h₁, h⟩
    obtain ⟨ts, hvalid, hmeaning, hpast⟩ := (hrest (h₁.ample_self hs) hF).1 h
    rw [h₁.vars] at hvalid hmeaning
    exact ⟨ts, hvalid, hmeaning, h₁.past hpast⟩
  · rintro ⟨ts, hvalid, hmeaning, s₁, h₁, hpast⟩
    rw [← h₁.vars] at hvalid hmeaning
    exact ⟨s₁, h₁, (hrest (h₁.ample_self hs) hF).2 ⟨ts, hvalid, hmeaning, hpast⟩⟩

theorem State.spells_flatten_nil_iff {as : List α} :
    s.Spells (P.list List.flatten) [] as s' ↔ [] = as ∧ s = s' := by
  constructor
  · exact fun h => ⟨h.meaning, h.past⟩
  · rintro ⟨rfl, rfl⟩
    exact ⟨by simp [Phrase.list], rfl, rfl⟩

theorem State.spells_flatten_cons_iff {t : τ} {ts : List τ} {as : List α} :
    s.Spells (P.list List.flatten) (t :: ts) as s' ↔ ∃ a s₁, s.Spells P t a s₁ ∧
      ∃ as', s₁.Spells (P.list List.flatten) ts as' s' ∧ a :: as' = as := by
  constructor
  · rintro ⟨hvalid, rfl, hpast⟩
    obtain ⟨s₁, h₁, hpast⟩ := past_append_iff.1 hpast
    obtain ⟨ht, hts⟩ := List.forall_mem_cons.1 hvalid
    exact ⟨_, s₁, ⟨ht, rfl, h₁⟩, _, (spells_iff h₁.vars).2 ⟨hts, rfl, hpast⟩, rfl⟩
  · rintro ⟨_, s₁, ⟨ht, rfl, h₁⟩, _, hts, rfl⟩
    obtain ⟨hvalid, rfl, hpast⟩ := (spells_iff h₁.vars).1 hts
    exact ⟨List.forall_mem_cons.2 ⟨ht, hvalid⟩, rfl, h₁.trans hpast⟩

theorem Recognizes.loop {y : Nat → ParseM (List α)} {B : Lexeme → Prop} {Q : State → Prop}
    (hx : Recognizes n x P fun _ => True) (hB : Begins P B)
    (hQ : ∀ ⦃s t a s'⦄, s.Ample n → s.Spells P t a s' → ¬ Q s)
    (hsucc : ∀ k ⦃s as s'⦄, s.Ample n → (Takes (y (k + 1)) s as s' ↔
      (Q s ∧ [] = as ∧ s = s') ∨
        (¬ Q s ∧ ∃ a s₁, Takes x s a s₁ ∧ ∃ as', Takes (y k) s₁ as' s' ∧ a :: as' = as)))
    (hk : k ≤ n) (hs : s.Ample k) {as : List α} :
    Takes (y k) s as s' ↔ Q s' ∧ ∃ ts, s.Spells (P.list List.flatten) ts as s' := by
  induction k generalizing s as with
  | zero => exact absurd hs State.not_ample_zero
  | succ k ih =>
    have hkn := Nat.le_of_succ_le hk
    rw [hsucc k (hs.mono hk)]
    constructor
    · rintro (⟨hstop, rfl, rfl⟩ | ⟨-, a, s₁, ha, as', has', rfl⟩)
      · exact ⟨hstop, [], State.spells_flatten_nil_iff.2 ⟨rfl, rfl⟩⟩
      · obtain ⟨t, ht⟩ := (hx (hs.mono hk) trivial).1 ha
        obtain ⟨hstop, ts, hts⟩ := (ih hkn (ht.ample hB hs)).1 has'
        exact ⟨hstop, t :: ts, State.spells_flatten_cons_iff.2 ⟨a, s₁, ht, as', hts, rfl⟩⟩
    · rintro ⟨hstop, ts, hts⟩
      cases ts with
      | nil =>
        obtain ⟨rfl, rfl⟩ := State.spells_flatten_nil_iff.1 hts
        exact .inl ⟨hstop, rfl, rfl⟩
      | cons t ts =>
        obtain ⟨a, s₁, ht, as', hts', rfl⟩ := State.spells_flatten_cons_iff.1 hts
        refine .inr ⟨hQ (hs.mono hk) ht, a, s₁, (hx (hs.mono hk) trivial).2 ⟨t, ht⟩, as', ?_, rfl⟩
        exact (ih hkn (ht.ample hB hs)).2 ⟨hstop, ts, hts'⟩

end Parse

end Featherweight

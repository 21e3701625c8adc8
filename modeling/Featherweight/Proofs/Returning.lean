import Featherweight.Proofs.Cursor
import Featherweight.Proofs.ParsedPrograms

/-!
# Reading always returns

A token list may lack its end of file, or have one in the middle. Where it runs out, the
last token is seen again and again, and a parser reads without moving. It still returns:
what it reads from there on is one lexeme, so it stops as soon as it needs another one.
Only an open parenthesis can follow itself forever.

So the fuel is enough if it exceeds the number of tokens ahead by one, or by two for terms.
Between two calls of a recursion or two rounds of a loop either an open parenthesis is
read, or two different lexemes are, of which one is a token ahead.
-/

namespace Featherweight

namespace Parse

variable {α β : Type} {x : ParseM α} {f : α → ParseM β} {s s₁ s₂ s' : State} {l l' : Lexeme}
  {n k : Nat}

namespace State

theorem Step.onward (h : s.Step l s₁) : s.Onward s₁ := by
  obtain ⟨-, -, rfl⟩ := h
  exact Onward.refl.advance

theorem length_advance_le (s : State) : s.advance.ahead.length ≤ s.ahead.length := by
  unfold advance
  split
  · exact Nat.le_refl _
  · next k ks hs =>
    split
    · exact Nat.le_refl _
    · rw [hs]
      exact Nat.le_succ _

theorem Onward.length_le (h : s.Onward s') : s'.ahead.length ≤ s.ahead.length := by
  induction h with
  | refl => exact Nat.le_refl _
  | advance _ ih => exact Nat.le_trans (length_advance_le _) ih
  | scopes _ σ ih => exact ih

theorem Onward.last_eq (h : s.Onward s') : s'.last = s.last := by
  induction h with
  | refl => rfl
  | @advance s' _ ih =>
    rw [← ih, State.advance]
    split
    · rfl
    · split
      · rfl
      · rfl
  | scopes _ σ ih => exact ih

theorem Step.length_lt (h : s.Step l s₁) (hs : s.ahead ≠ []) :
    s₁.ahead.length < s.ahead.length := by
  obtain ⟨k, ks, hk⟩ := List.exists_cons_of_ne_nil hs
  obtain ⟨hl, hne, rfl⟩ := h
  have hk' : k.lexeme ≠ .eof := by
    rw [← hl] at hne
    simpa [State.current, hk] using hne
  simp [State.advance, hk, hk']

theorem Step.length_lt_of_ne (h : s.Step l s₁) (honward : s₁.Onward s₂) (h' : s₂.Step l' s')
    (hne : l ≠ l') : s'.ahead.length < s.ahead.length := by
  have hle := (honward.trans h'.onward).length_le
  by_cases hs : s.ahead = []
  · -- Where the tokens have run out, the same lexeme would be read twice.
    have h₂ : s₂.ahead = [] :=
      ((h.onward.trans honward).ahead_eq (by simp [hs])).trans hs
    have hlast : s₂.last = s.last := (h.onward.trans honward).last_eq
    refine absurd ?_ hne
    rw [← h.1, ← h'.1, State.current, State.current, hs, h₂, List.headD_nil, List.headD_nil, hlast]
  · exact Nat.lt_of_le_of_lt hle (h.length_lt hs)

/-- An end of file is ahead, or the token that stands in behind the last one is no open
parenthesis. -/
def Stops (s : State) : Prop :=
  (∃ k ∈ s.ahead, k.lexeme = .eof) ∨ s.last.lexeme ≠ .symbol .lparen

theorem Stops.advance (h : s.Stops) : s.advance.Stops := by
  unfold State.advance
  split
  · exact h
  · next k ks hs =>
    split
    · exact h
    · next hk =>
      refine h.imp_left ?_
      rintro ⟨k', hk', he⟩
      rw [hs, List.mem_cons] at hk'
      refine ⟨k', hk'.resolve_left ?_, he⟩
      rintro rfl
      exact hk he

theorem Onward.stops (h : s.Onward s') (hs : s.Stops) : s'.Stops := by
  induction h with
  | refl => exact hs
  | advance _ ih => exact ih.advance
  | scopes _ σ ih => exact ih

theorem Stops.length_lt (hs : s.Stops) (h : s.Step (.symbol .lparen) s₁) :
    s₁.ahead.length < s.ahead.length := by
  refine h.length_lt fun hnil => ?_
  rcases hs with ⟨k, hk, -⟩ | hlast
  · simp [hnil] at hk
  · refine hlast ?_
    simpa [State.current, hnil] using h.1

end State

/-- The parser returns, with a result or an error. -/
def Halts (x : ParseM α) (s : State) : Prop := ∃ r s', x.run.run s = some (r, s')

theorem Halts.bind (hx : Halts x s) (hf : ∀ a s', Takes x s a s' → Halts (f a) s') :
    Halts (x >>= f) s := by
  obtain ⟨r, s₁, hrun⟩ := hx
  unfold Halts
  rw [ExceptT.run_bind, StateT.run_bind, hrun]
  cases r with
  | error e => exact ⟨.error e, s₁, rfl⟩
  | ok a => exact hf a s₁ hrun

theorem halts_pure (a : α) : Halts (pure a) s := ⟨_, _, rfl⟩

theorem halts_get_bind {f : State → ParseM β} (h : Halts (f s) s) : Halts (get >>= f) s := h

theorem halts_complain (c : Complaint) : Halts (complain c : ParseM α) s := by
  rw [complain]
  apply halts_get_bind
  dsimp only
  split
  · exact ⟨_, _, rfl⟩
  · exact ⟨_, _, rfl⟩

theorem halts_complainBehind (c : Complaint) : Halts (complainBehind c : ParseM α) s :=
  ⟨_, _, rfl⟩

theorem halts_requireBehind {p : Prop} [Decidable p] {c : Complaint} :
    Halts (requireBehind p c) s := by
  unfold requireBehind
  split
  · exact halts_pure ()
  · exact halts_complainBehind c

theorem halts_sees_bind {f : Bool → ParseM β} (h : Halts (f (s.current.lexeme = l)) s) :
    Halts (sees l >>= f) s := h

theorem halts_isTypeVar_bind {X : String} {f : Bool → ParseM β}
    (h : Halts (f (s.isTypeVar X)) s) : Halts (isTypeVar X >>= f) s := h

theorem halts_advance_bind {f : Unit → ParseM β} (h : Halts (f ()) s.advance) :
    Halts (advance >>= f) s := h

theorem halts_accept_bind (hl : l ≠ .eof) {f : Bool → ParseM β}
    (htrue : ∀ s₁, s.Step l s₁ → Halts (f true) s₁)
    (hfalse : s.current.lexeme ≠ l → Halts (f false) s) : Halts (accept l >>= f) s := by
  rw [accept, bind_assoc]
  refine halts_sees_bind ?_
  by_cases h : s.current.lexeme = l
  · simp only [h, decide_true, if_true]
    exact htrue _ ⟨h, hl, rfl⟩
  · simp only [h, decide_false, Bool.false_eq_true, if_false, pure_bind]
    exact hfalse h

theorem halts_expect_bind (hl : l ≠ .eof) {what : String} {f : Unit → ParseM β}
    (hf : ∀ s₁, s.Step l s₁ → Halts (f ()) s₁) : Halts (expect l what >>= f) s := by
  rw [expect, bind_assoc]
  refine halts_accept_bind hl hf fun _ => (halts_complain _).bind fun _ _ h => ?_
  exact absurd h not_takes_complain

theorem halts_identifier_bind {what : String} {f : String → ParseM β}
    (hf : ∀ y s₁, s.Step (.ident y) s₁ → Halts (f y) s₁) : Halts (identifier what >>= f) s := by
  rw [identifier, bind_assoc]
  apply halts_get_bind
  split
  · next y hy => exact hf y _ ⟨hy, by simp, rfl⟩
  · exact (halts_complain _).bind fun _ _ h => absurd h not_takes_complain

theorem halts_expect {what : String} : Halts (expect l what) s := by
  have haccept : Halts (accept l) s := by
    refine halts_sees_bind ?_
    split
    · exact halts_advance_bind (halts_pure _)
    · exact halts_pure _
  refine haccept.bind fun a s₁ _ => ?_
  split
  · exact halts_pure _
  · exact halts_complain _

theorem halts_identifier {what : String} : Halts (identifier what) s := by
  rw [← bind_pure (identifier what)]
  exact halts_identifier_bind fun _ _ _ => halts_pure _

/-- A successful run reads a lexeme in `B` and moves onward from there. -/
def Moves (x : ParseM α) (B : Lexeme → Prop) : Prop :=
  ∀ ⦃s a s'⦄, Takes x s a s' → ∃ l s₁, B l ∧ s.Step l s₁ ∧ s₁.Onward s'

section Lists

variable {P : State → Prop} (hP : ∀ ⦃s s' : State⦄, P s → s.Onward s' → P s')
  (hitem : ∀ ⦃s : State⦄, P s → Halts x s) (hmoves : Moves x (· ≠ .symbol .comma))
include hP hitem hmoves

theorem halts_commaSep (hs : P s) (hk : s.ahead.length < k) : Halts (commaSep x k) s := by
  induction k generalizing s with
  | zero => exact absurd hk (Nat.not_lt_zero _)
  | succ k ih =>
    refine (hitem hs).bind fun a s₁ ha => ?_
    obtain ⟨l, s₂, hl, h₂, honward⟩ := hmoves ha
    refine halts_accept_bind (symbol_ne_eof _) (fun s₃ h₃ => ?_) fun _ => halts_pure _
    have hlt : s₃.ahead.length < s.ahead.length := h₂.length_lt_of_ne honward h₃ hl
    have hs₃ : P s₃ := hP hs ((h₂.onward.trans honward).trans h₃.onward)
    exact (ih hs₃ (by omega)).bind fun _ _ _ => halts_pure _

theorem halts_parenthesized {opening list : String}
    (hs : ∀ s₁, s.Step (.symbol .lparen) s₁ → P s₁) (hn : s.ahead.length < n) :
    Halts (parenthesized x n opening list) s := by
  refine halts_expect_bind (symbol_ne_eof _) fun s₁ h₁ => ?_
  refine halts_accept_bind (symbol_ne_eof _) (fun _ _ => halts_pure _) fun _ => ?_
  have hn₁ : s₁.ahead.length < n := Nat.lt_of_le_of_lt h₁.onward.length_le hn
  refine (halts_commaSep hP hitem hmoves (hs s₁ h₁) hn₁).bind fun as s₂ _ => ?_
  exact halts_accept_bind (symbol_ne_eof _) (fun _ _ => halts_pure _) fun _ => halts_complain _

end Lists

theorem moves_identifier_bind {what : String} {f : String → ParseM β} (hf : ∀ y, Keeps (f y)) :
    Moves (identifier what >>= f) fun l => ∃ y, l = .ident y := by
  intro s b s' h
  obtain ⟨y, s₁, h₁, h⟩ := takes_identifier_bind_iff.1 h
  exact ⟨_, s₁, ⟨y, rfl⟩, h₁, (hf y h).1⟩

theorem Moves.ne {B : Lexeme → Prop} (hx : Moves x B) (h : ∀ l, B l → l ≠ l') :
    Moves x (· ≠ l') := by
  intro s a s' ha
  obtain ⟨l, s₁, hl, hstep⟩ := hx ha
  exact ⟨l, s₁, h l hl, hstep⟩

theorem moves_ty {what : String} : Moves (ty n what) fun l => ∃ C, l = .ident C := by
  cases n with
  | zero => exact fun _ _ _ h => absurd h not_takes_endless
  | succ n =>
    refine moves_identifier_bind fun C => keeps_isTypeVar.bind fun _ => .ite ?_ ?_
    · exact keeps_sees.bind fun _ => .ite (leaves_complain _) (.pure _)
    · exact (keeps_typeArgs keeps_ty).bind fun _ => .pure _

theorem moves_rawBound : Moves (rawBound n) fun l => ∃ C, l = .ident C := by
  cases n with
  | zero => exact fun _ _ _ h => absurd h not_takes_endless
  | succ n =>
    refine moves_identifier_bind fun C => keeps_accept.bind fun _ => .ite ?_ (.pure _)
    exact (keeps_rawBound.commaSep n).bind fun _ => keeps_expect.bind fun _ => .pure _

/-- Everything but terms halts where fewer tokens are ahead than this. -/
def State.Within (n : Nat) (s : State) : Prop := s.ahead.length < n

theorem State.Within.onward (hs : s.Within n) (h : s.Onward s') : s'.Within n :=
  Nat.lt_of_le_of_lt h.length_le hs

theorem State.Step.within (h : s.Step l s₁) (honward : s₁.Onward s₂) (h' : s₂.Step l' s')
    (hne : l ≠ l') (hs : s.Within (n + 1)) : s'.Within n :=
  Nat.lt_of_lt_of_le (h.length_lt_of_ne honward h' hne) (Nat.le_of_lt_succ hs)

theorem ident_ne_symbol {l : Lexeme} {c : Symbol} (h : ∃ y, l = .ident y) : l ≠ .symbol c := by
  obtain ⟨y, rfl⟩ := h
  simp

theorem halts_typeArgs {item : ParseM Ty} (hitem : ∀ ⦃s : State⦄, s.Within n → Halts item s)
    (hmoves : Moves item fun l => ∃ C, l = .ident C)
    (hs : ∀ s₁, s.Step (.symbol .lt) s₁ → s₁.Within n) : Halts (typeArgs item n) s := by
  refine halts_accept_bind (symbol_ne_eof _) (fun s₁ h₁ => ?_) fun _ => halts_pure _
  refine halts_accept_bind (symbol_ne_eof _) (fun _ _ => halts_pure _) fun _ => ?_
  have hitems := halts_commaSep (fun _ _ h => h.onward) hitem
    (hmoves.ne fun _ => ident_ne_symbol) (hs s₁ h₁) (hs s₁ h₁)
  exact hitems.bind fun _ _ _ => halts_expect_bind (symbol_ne_eof _) fun _ _ => halts_pure _

theorem halts_ty {what : String} (hs : s.Within n) : Halts (ty n what) s := by
  induction n generalizing s what with
  | zero => exact absurd hs (Nat.not_lt_zero _)
  | succ n ih =>
    refine halts_identifier_bind fun C s₁ h₁ => halts_isTypeVar_bind ?_
    split
    · refine halts_sees_bind ?_
      split
      · exact halts_complain _
      · exact halts_pure _
    · have hargs : Halts (typeArgs (ty n "type argument") n) s₁ :=
        halts_typeArgs (fun _ h => ih h) moves_ty fun s₂ h₂ =>
          h₁.within .refl h₂ (by simp) hs
      exact hargs.bind fun _ _ _ => halts_pure _

theorem halts_classTy {what : String} (hs : s.Within n) : Halts (classTy n what) s := by
  refine (halts_ty hs).bind fun T s₁ _ => ?_
  split
  · exact halts_complainBehind _
  · exact halts_pure _

theorem halts_rawBound (hs : s.Within n) : Halts (rawBound n) s := by
  induction n generalizing s with
  | zero => exact absurd hs (Nat.not_lt_zero _)
  | succ n ih =>
    refine halts_identifier_bind fun C s₁ h₁ => ?_
    refine halts_accept_bind (symbol_ne_eof _) (fun s₂ h₂ => ?_) fun _ => halts_pure _
    have hs₂ : s₂.Within n := h₁.within .refl h₂ (by simp) hs
    have hitems := halts_commaSep (fun _ _ h => h.onward) (fun _ h => ih h)
      (moves_rawBound.ne fun _ => ident_ne_symbol) hs₂ hs₂
    exact hitems.bind fun _ _ _ => halts_expect_bind (symbol_ne_eof _) fun _ _ => halts_pure _

theorem halts_rawTypeParams {seen : List String} (hs : s.Within n) (hk : s.Within k) :
    Halts (rawTypeParams n k seen) s := by
  induction k generalizing s seen with
  | zero => exact absurd hk (Nat.not_lt_zero _)
  | succ k ih =>
    refine halts_identifier_bind fun X s₁ h₁ => halts_requireBehind.bind fun _ s₂ h₂ => ?_
    have honward₂ : s₁.Onward s₂ := (keeps_requireBehind h₂).1
    refine halts_expect_bind (keyword_ne_eof _) fun s₃ h₃ => ?_
    have hs₃ : s₃.Within n := hs.onward ((h₁.onward.trans honward₂).trans h₃.onward)
    refine (halts_rawBound hs₃).bind fun T s₄ h₄ => ?_
    refine halts_accept_bind (symbol_ne_eof _) (fun s₅ h₅ => ?_) fun _ => halts_pure _
    have honward : s₃.Onward s₅ := (keeps_rawBound h₄).1.trans h₅.onward
    have hk₅ : s₅.Within k := (h₁.within honward₂ h₃ (by simp) hk).onward honward
    exact (ih (hs₃.onward honward) hk₅).bind fun _ _ _ => halts_pure _

theorem halts_mapM {γ : Type} {g : γ → ParseM α} (hg : ∀ c s, Halts (g c) s) (cs : List γ) :
    Halts (cs.mapM g) s := by
  induction cs generalizing s with
  | nil => exact halts_pure _
  | cons c cs ih =>
    rw [List.mapM_cons]
    exact (hg c s).bind fun _ _ _ => ih.bind fun _ _ _ => halts_pure _

theorem halts_typeParams (hs : s.Within n) : Halts (typeParams n) s := by
  refine halts_accept_bind (symbol_ne_eof _) (fun s₁ h₁ => ?_) fun _ => ⟨_, _, rfl⟩
  have hs₁ := hs.onward h₁.onward
  refine (halts_rawTypeParams hs₁ hs₁).bind fun raw s₂ _ => ?_
  refine halts_expect_bind (symbol_ne_eof _) fun s₃ _ => ?_
  refine Halts.bind ⟨_, _, rfl⟩ fun _ s₄ _ => halts_mapM (fun X s => ?_) raw
  refine halts_get_bind ?_
  split
  · exact halts_pure _
  · exact halts_complainBehind _

theorem halts_params (hs : s.Within n) : Halts (params n) s := by
  refine halts_parenthesized (P := State.Within n) (fun _ _ h => h.onward) (fun s hs => ?_)
    (Moves.ne ?_ fun _ => ident_ne_symbol) (fun s₁ h₁ => hs.onward h₁.onward) hs
  · exact (halts_ty hs).bind fun _ _ _ => halts_identifier.bind fun _ _ _ => halts_pure _
  · intro s b s' h
    obtain ⟨T, s₁, hT, h⟩ := takes_bind_iff.1 h
    obtain ⟨l, s₂, hl, h₂, honward⟩ := moves_ty hT
    refine ⟨l, s₂, hl, h₂, honward.trans ?_⟩
    exact (keeps_identifier.bind (fun y => .pure (Binding.mk T y)) h).1

structure State.Bounded (n : Nat) (s : State) : Prop where
  stops : s.Stops
  lt : s.ahead.length + 1 < n

theorem State.Bounded.onward (hs : s.Bounded n) (h : s.Onward s') : s'.Bounded n :=
  ⟨h.stops hs.stops, Nat.lt_of_le_of_lt (Nat.succ_le_succ h.length_le) hs.lt⟩

theorem State.Bounded.within (hs : s.Bounded (n + 1)) : s.Within n := Nat.lt_of_succ_lt_succ hs.lt

theorem State.Stops.bounded (hs : s.Stops) (h : s.Step (.symbol .lparen) s₁) (hn : s.Within n) :
    s₁.Bounded n :=
  ⟨h.onward.stops hs, Nat.lt_of_le_of_lt (hs.length_lt h) hn⟩

section Term

variable {term : ParseM Term} {e : Term} (hkeeps : Keeps term)

theorem moves_primary (hkeeps : Keeps term) : Moves (primary term n) (startsTerm · = true) := by
  intro s e s' h
  rcases takes_primary_iff.1 h with ⟨h, -⟩ | ⟨y, h, -⟩ | ⟨s₁, h₁, N, s₂, hN, es, hes, -⟩ | ⟨h, h'⟩
  · exact ⟨_, s', rfl, h, .refl⟩
  · exact ⟨_, s', rfl, h, .refl⟩
  · exact ⟨_, s₁, rfl, h₁, (keeps_classTy hN).1.trans (keeps_args hkeeps hes).1⟩
  · obtain ⟨s₁, h₁, h'⟩ := (takes_parenthesis_iff h).1 h'
    refine ⟨_, s₁, rfl, h₁, ?_⟩
    split at h'
    · obtain ⟨N, s₂, hN, s₃, h₃, u, hu, -⟩ := h'
      exact ((keeps_classTy hN).1.trans h₃.onward).trans (hkeeps hu).1
    · obtain ⟨s₂, hu, h₂⟩ := h'
      exact (hkeeps hu).1.trans h₂.onward

variable (hterm : ∀ ⦃s : State⦄, s.Bounded n → Halts term s)
include hterm

theorem halts_parenthesis (hs : s.Stops) (hn : s.Within n)
    (hparen : s.current.lexeme = .symbol .lparen) : Halts (parenthesis term n) s := by
  refine halts_get_bind ?_
  split
  · refine halts_expect_bind (symbol_ne_eof _) fun s₁ h₁ => ?_
    have hs₁ : s₁.Bounded n := hs.bounded h₁ hn
    refine (halts_classTy (hn.onward h₁.onward)).bind fun N s₂ hN => ?_
    refine halts_expect_bind (symbol_ne_eof _) fun s₃ h₃ => ?_
    have hs₃ : s₃.Bounded n := hs₁.onward ((keeps_classTy hN).1.trans h₃.onward)
    exact (hterm hs₃).bind fun _ _ _ => halts_pure _
  · have hs₁ : s.advance.Bounded n := hs.bounded ⟨hparen, symbol_ne_eof _, rfl⟩ hn
    refine halts_advance_bind ((hterm hs₁).bind fun e s₂ _ => ?_)
    exact halts_expect_bind (symbol_ne_eof _) fun _ _ => halts_pure _

variable (hmoves : Moves term (startsTerm · = true))
include hmoves

theorem halts_args (hs : s.Stops) (hn : s.Within n) : Halts (args term n) s := by
  refine halts_parenthesized (fun _ _ h => h.onward) hterm (hmoves.ne ?_)
    (fun s₁ h₁ => hs.bounded h₁ hn) hn
  rintro l hl rfl
  cases hl

theorem halts_primary (hs : s.Stops) (hn : s.Within n) : Halts (primary term n) s := by
  refine halts_get_bind ?_
  split
  · exact halts_advance_bind (halts_pure _)
  · exact halts_advance_bind (halts_pure _)
  · have honward : s.Onward s.advance := State.Onward.refl.advance
    refine halts_advance_bind ((halts_classTy (hn.onward honward)).bind fun N s₂ hN => ?_)
    have honward₂ := honward.trans (keeps_classTy hN).1
    have hargs := halts_args hterm hmoves (honward₂.stops hs) (hn.onward honward₂)
    exact hargs.bind fun _ _ _ => halts_pure _
  · next h => exact halts_parenthesis hterm hs hn h
  · exact halts_complain _

include hkeeps

theorem halts_accesses (hs : s.Stops) (hn : s.Within n) (hk : s.Within k) :
    Halts (accesses term n k e) s := by
  induction k generalizing s e with
  | zero => exact absurd hk (Nat.not_lt_zero _)
  | succ k ih =>
    refine halts_accept_bind (symbol_ne_eof _) (fun s₁ h₁ => ?_) fun _ => halts_pure _
    refine halts_identifier_bind fun m s₂ h₂ => halts_sees_bind (halts_sees_bind ?_)
    have honward₂ : s.Onward s₂ := h₁.onward.trans h₂.onward
    have hk₂ : s₂.Within k := h₁.within .refl h₂ (by simp) hk
    split
    · have htypes : Halts (typeArgs (ty n "type argument") n) s₂ :=
        halts_typeArgs (fun _ h => halts_ty h) moves_ty fun s₃ h₃ =>
          hn.onward (honward₂.trans h₃.onward)
      refine htypes.bind fun Vs s₃ hVs => ?_
      have honward₃ : s₂.Onward s₃ := (keeps_typeArgs keeps_ty hVs).1
      have hargs : Halts (args term n) s₃ :=
        halts_args hterm hmoves ((honward₂.trans honward₃).stops hs)
          (hn.onward (honward₂.trans honward₃))
      refine hargs.bind fun es s₄ hes => ?_
      have honward₄ : s₂.Onward s₄ := honward₃.trans (keeps_args hkeeps hes).1
      exact ih ((honward₂.trans honward₄).stops hs) (hn.onward (honward₂.trans honward₄))
        (hk₂.onward honward₄)
    · exact ih (honward₂.stops hs) (hn.onward honward₂) hk₂

end Term

theorem moves_term : Moves (term n) (startsTerm · = true) := by
  cases n with
  | zero => exact fun _ _ _ h => absurd h not_takes_endless
  | succ n =>
    intro s e s' h
    rw [term, takes_bind_iff] at h
    obtain ⟨u, s₁, hu, h⟩ := h
    obtain ⟨l, s₂, hl, h₂, honward⟩ := moves_primary keeps_term hu
    exact ⟨l, s₂, hl, h₂, honward.trans (keeps_accesses keeps_term h).1⟩

theorem halts_term (hs : s.Bounded n) : Halts (term n) s := by
  induction n generalizing s with
  | zero => exact absurd hs.lt (Nat.not_lt_zero _)
  | succ n ih =>
    have hterm : ∀ ⦃s : State⦄, s.Bounded n → Halts (term n) s := fun _ h => ih h
    refine (halts_primary hterm moves_term hs.stops hs.within).bind fun e s₁ he => ?_
    have honward : s.Onward s₁ := (keeps_primary keeps_term he).1
    have hs₁ : s₁.Within n := hs.within.onward honward
    exact halts_accesses keeps_term hterm moves_term (honward.stops hs.stops) hs₁ hs₁

/-- Where `P` holds the parser halts, and `P` still holds behind what it has read. -/
def Sure (P : State → Prop) (x : ParseM α) : Prop :=
  ∀ ⦃s⦄, P s → Halts x s ∧ ∀ a s', Takes x s a s' → P s'

section Sure

variable {P : State → Prop}

theorem Sure.bind (hx : Sure P x) (hf : ∀ a, Sure P (f a)) : Sure P (x >>= f) := by
  intro s hs
  obtain ⟨hhalts, htakes⟩ := hx hs
  refine ⟨hhalts.bind fun a s₁ ha => (hf a (htakes a s₁ ha)).1, fun b s' hb => ?_⟩
  obtain ⟨a, s₁, ha, hb⟩ := takes_bind_iff.1 hb
  exact (hf a (htakes a s₁ ha)).2 b s' hb

theorem Leaves.sure {R : List (List String) → List (List String) → Prop} (hx : Leaves x R)
    (hP : ∀ ⦃s s' : State⦄, P s → s.Onward s' → P s') (h : ∀ ⦃s⦄, P s → Halts x s) : Sure P x :=
  fun _ hs => ⟨h hs, fun _ _ ha => hP hs (hx ha).1⟩

variable (hP : ∀ ⦃s s' : State⦄, P s → s.Onward s' → P s')
include hP

theorem sure_identifier {what : String} : Sure P (identifier what) :=
  keeps_identifier.sure hP fun _ _ => halts_identifier

theorem sure_expect {what : String} : Sure P (expect l what) :=
  keeps_expect.sure hP fun _ _ => halts_expect

theorem sure_requireBehind {p : Prop} [Decidable p] {c : Complaint} :
    Sure P (requireBehind p c) :=
  keeps_requireBehind.sure hP fun _ _ => halts_requireBehind

end Sure

theorem halts_fields (hs : s.Within n) (hk : s.Within k) : Halts (fields n k) s := by
  induction k generalizing s with
  | zero => exact absurd hk (Nat.not_lt_zero _)
  | succ k ih =>
    refine halts_get_bind ?_
    split
    · exact halts_pure _
    · refine (halts_ty hs).bind fun T s₁ hT => halts_identifier_bind fun y s₂ h₂ => ?_
      refine halts_expect_bind (symbol_ne_eof _) fun s₃ h₃ => ?_
      obtain ⟨l, t, hl, ht, honward⟩ := moves_ty hT
      have honward₂ : t.Onward s₂ := honward.trans h₂.onward
      have hs₃ : s₃.Within n := hs.onward ((ht.onward.trans honward₂).trans h₃.onward)
      have hk₃ : s₃.Within k := ht.within honward₂ h₃ (ident_ne_symbol hl) hk
      exact (ih hs₃ hk₃).bind fun _ _ _ => halts_pure _

theorem halts_initializers (hk : s.Within k) : Halts (initializers k) s := by
  induction k generalizing s with
  | zero => exact absurd hk (Nat.not_lt_zero _)
  | succ k ih =>
    refine halts_sees_bind ?_
    split
    · exact halts_pure _
    · refine halts_expect_bind (keyword_ne_eof _) fun s₁ h₁ => ?_
      refine halts_expect_bind (symbol_ne_eof _) fun s₂ h₂ => ?_
      have hP : ∀ ⦃s s' : State⦄, s.Within k → s.Onward s' → s'.Within k := fun _ _ h => h.onward
      have hrest : Sure (State.Within k) (do
          let f ← identifier "field name"
          expect (.symbol .equals) "'=' in field initialization"
          let x ← identifier "parameter name"
          requireBehind (f = x) .initializerName
          expect (.symbol .semicolon) "';' after field initialization"
          return (⟨f, x⟩ : Initializer) :: (← initializers k)) :=
        (sure_identifier hP).bind fun _ => (sure_expect hP).bind fun _ =>
          (sure_identifier hP).bind fun _ => (sure_requireBehind hP).bind fun _ =>
          (sure_expect hP).bind fun _ =>
          (keeps_initializers.sure hP fun _ h => ih h).bind fun _ =>
          (Leaves.pure _).sure hP fun _ _ => halts_pure _
      exact (hrest (h₁.within .refl h₂ (by simp) hk)).1

theorem halts_constructor {C : String} (hs : s.Within n) : Halts (constructor n C) s := by
  have hP : ∀ ⦃s s' : State⦄, s.Within n → s.Onward s' → s'.Within n := fun _ _ h => h.onward
  have hsuper (opening list : String) :
      Sure (State.Within n) (parenthesized (identifier "field name") n opening list) := by
    have hident : Moves (identifier "field name") fun l => ∃ y, l = .ident y := by
      rw [← bind_pure (identifier "field name")]
      exact moves_identifier_bind fun _ => .pure _
    exact keeps_identifier.parenthesized.sure hP fun s hs =>
      halts_parenthesized hP (fun _ _ => halts_identifier)
        (hident.ne fun _ => ident_ne_symbol) (fun s₁ h₁ => hs.onward h₁.onward) hs
  have hall : Sure (State.Within n) (constructor n C) := by
    unfold constructor
    exact (sure_identifier hP).bind fun _ => (sure_requireBehind hP).bind fun _ =>
      (keeps_params.sure hP fun _ h => halts_params h).bind fun _ =>
      (sure_expect hP).bind fun _ => (sure_expect hP).bind
      fun _ => (hsuper _ _).bind fun _ => (sure_expect hP).bind fun _ =>
      (keeps_initializers.sure hP fun _ h => halts_initializers h).bind fun _ =>
      (sure_expect hP).bind fun _ =>
      (Leaves.pure _).sure hP fun _ _ => halts_pure _
  exact (hall hs).1

theorem length_lt_of_takes_method {d : MethodDecl} (h : Takes (method n) s d s') :
    s'.ahead.length < s.ahead.length := by
  obtain ⟨Xs, s₁, hXs, T, s₂, hT, m, s₃, h₃, ps, s₄, hps, s₅, h₅, s₆, h₆, e, s₇, he, s₈, h₈, s₉, h₉,
    hd⟩ := takes_method_iff.1 h
  have hhead : s.Onward s₄ :=
    (((opens_typeParams hXs).1.trans (keeps_ty hT).1).trans h₃.onward).trans (keeps_params hps).1
  have hbody : s₆.Onward s' :=
    (((keeps_term he).1.trans h₈.onward).trans h₉.onward).trans (leaves_closeScope hd).1
  calc s'.ahead.length ≤ s₆.ahead.length := hbody.length_le
    _ < s₄.ahead.length := h₅.length_lt_of_ne .refl h₆ (by simp)
    _ ≤ s.ahead.length := hhead.length_le

theorem halts_method (hs : s.Bounded n) : Halts (method n) s := by
  have hP : ∀ ⦃s s' : State⦄, s.Bounded n → s.Onward s' → s'.Bounded n := fun _ _ h => h.onward
  have hwithin : ∀ ⦃s : State⦄, s.Bounded n → s.Within n := fun _ h => Nat.lt_of_succ_lt h.lt
  have hall : Sure (State.Bounded n) (method n) := by
    unfold method
    exact (keeps_currentSpan.sure hP fun _ _ => halts_get_bind (halts_pure _)).bind fun _ =>
      (opens_typeParams.sure hP fun _ h => halts_typeParams (hwithin h)).bind fun _ =>
      (keeps_ty.sure hP fun _ h => halts_ty (hwithin h)).bind fun _ =>
      (sure_identifier hP).bind fun _ =>
      (keeps_params.sure hP fun _ h => halts_params (hwithin h)).bind fun _ =>
      (sure_expect hP).bind fun _ =>
      (sure_expect hP).bind fun _ =>
      (keeps_term.sure hP fun _ h => halts_term h).bind fun _ =>
      (sure_expect hP).bind fun _ =>
      (sure_expect hP).bind fun _ =>
      leaves_closeScope.sure hP fun _ _ => ⟨_, _, rfl⟩
  exact (hall hs).1

theorem halts_methods (hs : s.Bounded n) (hk : s.Within k) : Halts (methods n k) s := by
  induction k generalizing s with
  | zero => exact absurd hk (Nat.not_lt_zero _)
  | succ k ih =>
    refine halts_sees_bind ?_
    split
    · exact halts_pure _
    · refine halts_get_bind ?_
      split
      · exact halts_complain _
      · refine (halts_method hs).bind fun d s₁ hd => ?_
        have hs₁ : s₁.Bounded n := hs.onward (keeps_method hd).1
        have hk₁ : s₁.Within k :=
          Nat.lt_of_lt_of_le (length_lt_of_takes_method hd) (Nat.le_of_lt_succ hk)
        exact (ih hs₁ hk₁).bind fun _ _ _ => halts_pure _

theorem length_lt_of_takes_classDecl {c : ClassDecl} (h : Takes (classDecl n) s c s') :
    s'.ahead.length < s.ahead.length := by
  obtain ⟨s₁, h₁, C, s₂, h₂, Xs, s₃, hXs, s₄, h₄, N, s₅, hN, s₆, h₆, fs, s₇, hfs, k, s₈, hk, ds, s₉,
    hds, s₁₀, h₁₀, hc⟩ := takes_classDecl_iff.1 h
  have hhead : s₂.Onward s₆ :=
    (((opens_typeParams hXs).1.trans h₄.onward).trans (keeps_classTy hN).1).trans h₆.onward
  have hbody : s₆.Onward s' :=
    ((((keeps_fields hfs).1.trans (keeps_constructor hk).1).trans (keeps_methods hds).1).trans
      h₁₀.onward).trans (leaves_closeScope hc).1
  calc s'.ahead.length ≤ s₂.ahead.length := (hhead.trans hbody).length_le
    _ < s.ahead.length := h₁.length_lt_of_ne .refl h₂ (by simp)

theorem halts_classDecl (hs : s.Bounded n) : Halts (classDecl n) s := by
  have hP : ∀ ⦃s s' : State⦄, s.Bounded n → s.Onward s' → s'.Bounded n := fun _ _ h => h.onward
  have hwithin : ∀ ⦃s : State⦄, s.Bounded n → s.Within n := fun _ h => Nat.lt_of_succ_lt h.lt
  have hall : Sure (State.Bounded n) (classDecl n) := by
    unfold classDecl
    exact (keeps_currentSpan.sure hP fun _ _ => halts_get_bind (halts_pure _)).bind fun _ =>
      (sure_expect hP).bind fun _ => (sure_identifier hP).bind fun _ =>
      (opens_typeParams.sure hP fun _ h => halts_typeParams (hwithin h)).bind fun _ =>
      (sure_expect hP).bind fun _ =>
      (keeps_classTy.sure hP fun _ h => halts_classTy (hwithin h)).bind fun _ =>
      (sure_expect hP).bind fun _ =>
      (keeps_fields.sure hP fun _ h => halts_fields (hwithin h) (hwithin h)).bind fun _ =>
      (keeps_constructor.sure hP fun _ h => halts_constructor (hwithin h)).bind fun _ =>
      (keeps_methods.sure hP fun _ h => halts_methods h (hwithin h)).bind fun _ =>
      (sure_expect hP).bind fun _ =>
      leaves_closeScope.sure hP fun _ _ => ⟨_, _, rfl⟩
  exact (hall hs).1

theorem halts_classes (hs : s.Bounded n) (hk : s.Within k) : Halts (classes n k) s := by
  induction k generalizing s with
  | zero => exact absurd hk (Nat.not_lt_zero _)
  | succ k ih =>
    refine halts_sees_bind ?_
    split
    · refine (halts_classDecl hs).bind fun c s₁ hc => ?_
      have hs₁ : s₁.Bounded n := hs.onward (keeps_classDecl hc).1
      have hk₁ : s₁.Within k :=
        Nat.lt_of_lt_of_le (length_lt_of_takes_classDecl hc) (Nat.le_of_lt_succ hk)
      exact (ih hs₁ hk₁).bind fun _ _ _ => halts_pure _
    · exact halts_pure _

theorem halts_program (hs : s.Stops) : Halts program s := by
  refine halts_get_bind ?_
  have hbounded : s.Bounded (s.ahead.length + 2) := ⟨hs, Nat.lt_succ_self _⟩
  refine (halts_classes hbounded (Nat.lt_succ_of_lt (Nat.lt_succ_self _))).bind fun cs s₁ hcs => ?_
  have hs₁ := hbounded.onward (keeps_classes hcs).1
  refine halts_get_bind ((halts_term hs₁).bind fun e s₂ _ => halts_get_bind ?_)
  exact halts_expect.bind fun _ _ _ => halts_pure _

variable {tokens : List Token}

theorem stops_start (htokens : tokens = [] ∨ (∃ k ∈ tokens, k.lexeme = .eof) ∨
    ∀ k ∈ tokens.getLast?, k.lexeme ≠ .symbol .lparen) : (State.start tokens).Stops := by
  cases tokens with
  | nil => exact .inl ⟨_, List.mem_singleton.2 rfl, rfl⟩
  | cons k ks =>
    rcases htokens with htokens | heof | hlast
    · cases htokens
    · exact .inl heof
    · exact .inr (hlast _ (List.getLast?_eq_some_getLast _))

theorem exists_programs_eq_map (hs : s.Stops) (calls : Nat) :
    ∃ rs : List (Except Error Program), rs.length = calls ∧ programs calls s = rs.map some := by
  induction calls generalizing s with
  | zero => exact ⟨[], rfl, rfl⟩
  | succ calls ih =>
    obtain ⟨r, s', hrun⟩ := halts_program hs
    obtain ⟨rs, hlength, hrs⟩ := ih ((keeps_program hrun).1.stops hs)
    refine ⟨r :: rs, congrArg Nat.succ hlength, ?_⟩
    simp [programs, hrun, hrs]

theorem Between.exists_run (hs : Between tokens s) (hstops : (State.start tokens).Stops) :
    ∃ r s', program.run.run s = some (r, s') ∧ s.Onward s' := by
  obtain ⟨r, s', hrun⟩ := halts_program (hs.onward.stops hstops)
  exact ⟨r, s', hrun, (keeps_program hrun).1⟩

theorem State.Onward.exists_held (h : (State.start tokens).Onward s) : ∃ i,
    (held tokens)[min i ((held tokens).length - 1)]? = some s.current ∧
    (held tokens)[min (i - 1) ((held tokens).length - 1)]? = some s.previous ∧
    ∀ k, s.peek? k = (held tokens)[i + k]?.map Token.lexeme := by
  obtain ⟨i, -, hi⟩ := h.exists_at (State.at_start tokens)
  have hbehind : min (i - 1) ((held tokens).length - 1) = i - 1 := by
    have hle := hi.le
    omega
  refine ⟨i, hi.current, by rw [hbehind, hi.previous], fun k => ?_⟩
  rw [State.peek?, hi.ahead, List.getElem?_drop]

/-- Unless the last token is an open parenthesis that stands in for ever, every call for one
more program returns. From the state a call begins in, the cursor only moves onward, up to
the state it returns in. In all states onward from there the token before the cursor and the
one behind it are found in the list, and so is each one looked at ahead, if there is one. -/
theorem programs_return (htokens : tokens = [] ∨ (∃ k ∈ tokens, k.lexeme = .eof) ∨
      ∀ k ∈ tokens.getLast?, k.lexeme ≠ .symbol .lparen) (calls : Nat) :
    (∃ rs : List (Except Error Program), rs.length = calls ∧
      programs calls (.start tokens) = rs.map some) ∧
    ∀ s, Between tokens s →
      (∃ r s', program.run.run s = some (r, s') ∧ s.Onward s') ∧
      ∀ u, s.Onward u → ∃ i,
        (held tokens)[min i ((held tokens).length - 1)]? = some u.current ∧
        (held tokens)[min (i - 1) ((held tokens).length - 1)]? = some u.previous ∧
        ∀ k, u.peek? k = (held tokens)[i + k]?.map Token.lexeme := by
  have hstops := stops_start htokens
  refine ⟨exists_programs_eq_map hstops calls, fun s hs => ⟨hs.exists_run hstops, ?_⟩⟩
  intro u hu
  exact (hs.onward.trans hu).exists_held

def openTerm : List Token := [⟨.symbol .lparen, ⟨0, 1⟩, 1⟩, ⟨.ident "x", ⟨1, 2⟩, 1⟩]

theorem programs_return_openTerm :
    (∀ k ∈ openTerm.getLast?, k.lexeme ≠ .symbol .lparen) ∧
      (∃ rs : List (Except Error Program), rs.length = 3 ∧
        programs 3 (.start openTerm) = rs.map some) ∧
      ∃ r s', program.run.run (.start openTerm) = some (r, s') ∧
        (State.start openTerm).Onward s' :=
  have hlast : ∀ k ∈ openTerm.getLast?, k.lexeme ≠ .symbol .lparen := by decide
  have hreturn := programs_return (.inr (.inr hlast)) 3
  ⟨hlast, hreturn.1, (hreturn.2 _ .start).1⟩

-- Behind an open parenthesis a term begins, and there the same parenthesis is seen again.
example : (programs 3 (.start [⟨.symbol .lparen, ⟨0, 1⟩, 1⟩])).map Option.isSome = [false] := by
  decide +kernel

end Parse

end Featherweight

import Featherweight.Parse.Program

/-!
# The cursor and the open scopes

One reader can be asked for program after program. Each starts where the last one
stopped, with the scopes that are still open. `State.At` places a state at an index of
the token list, and `Onward` says what parsers can make of a state.

`Leaves x R` is the contract of a parser. Whether it succeeds or not, it moves onward. If
it succeeds, it turns the open scopes as `R` says. If it fails, it may leave scopes open
that it has opened, but it has closed none that it found.
-/

namespace Featherweight

namespace Parse

def held : List Token → List Token
  | [] => [⟨.eof, ⟨0, 0⟩, 1⟩]
  | k :: ks => k :: ks

namespace State

variable {s s' : State} {tokens : List Token} {i : Nat}

/-- The state stands in front of the token with this index, or behind the last token. -/
structure At (tokens : List Token) (i : Nat) (s : State) : Prop where
  le : i ≤ tokens.length
  ahead : s.ahead = tokens.drop i
  previous : tokens[i - 1]? = some s.previous
  last : tokens.getLast? = some s.last

theorem at_start (tokens : List Token) : (State.start tokens).At (held tokens) 0 := by
  cases tokens with
  | nil => exact ⟨Nat.zero_le _, rfl, rfl, rfl⟩
  | cons k ks => exact ⟨Nat.zero_le _, rfl, rfl, List.getLast?_eq_some_getLast _⟩

theorem At.current (h : s.At tokens i) :
    tokens[min i (tokens.length - 1)]? = some s.current := by
  rcases Nat.lt_or_ge i tokens.length with hi | hi
  · rw [Nat.min_eq_left (by omega), List.getElem?_eq_getElem hi, State.current, h.ahead,
      List.drop_eq_getElem_cons hi, List.headD_cons]
  · rw [Nat.min_eq_right (by omega), ← List.getLast?_eq_getElem?, h.last, State.current, h.ahead,
      List.drop_of_length_le hi, List.headD_nil]

theorem At.unique {j : Nat} (h : s.At tokens i) (h' : s.At tokens j) : i = j := by
  have hlength := congrArg List.length (h.ahead.symm.trans h'.ahead)
  rw [List.length_drop, List.length_drop] at hlength
  have hi := h.le
  have hj := h'.le
  omega

theorem At.advance (h : s.At tokens i) : ∃ j, i ≤ j ∧ s.advance.At tokens j := by
  unfold State.advance
  split
  · exact ⟨i, Nat.le_refl i, h⟩
  · next k ks hs =>
    split
    · exact ⟨i, Nat.le_refl i, h⟩
    · have hdrop : tokens.drop i = k :: ks := h.ahead.symm.trans hs
      have hi : i < tokens.length := by
        refine Nat.lt_of_not_le fun hi => ?_
        simp [List.drop_of_length_le hi] at hdrop
      rw [List.drop_eq_getElem_cons hi, List.cons.injEq] at hdrop
      refine ⟨i + 1, Nat.le_succ i, hi, hdrop.2.symm, ?_, h.last⟩
      rw [Nat.add_sub_cancel, List.getElem?_eq_getElem hi, hdrop.1]

/-- Moving over tokens, and opening and closing scopes, in any order. -/
inductive Onward (s : State) : State → Prop where
  | refl : s.Onward s
  | advance {s' : State} (h : s.Onward s') : s.Onward s'.advance
  | scopes {s' : State} (h : s.Onward s') (σ : List (List String)) :
      s.Onward { s' with scopes := σ }

theorem Onward.trans {s₁ : State} (h : s.Onward s₁) (h' : s₁.Onward s') : s.Onward s' := by
  induction h' with
  | refl => exact h
  | advance _ ih => exact ih.advance
  | scopes _ σ ih => exact ih.scopes σ

theorem Onward.exists_at (h : s.Onward s') (hs : s.At tokens i) :
    ∃ j, i ≤ j ∧ s'.At tokens j := by
  induction h with
  | refl => exact ⟨i, Nat.le_refl i, hs⟩
  | advance _ ih =>
    obtain ⟨j, hij, hj⟩ := ih
    obtain ⟨k, hjk, hk⟩ := hj.advance
    exact ⟨k, Nat.le_trans hij hjk, hk⟩
  | scopes _ σ ih =>
    obtain ⟨j, hij, hj⟩ := ih
    exact ⟨j, hij, hj.le, hj.ahead, hj.previous, hj.last⟩

theorem Onward.ahead_eq (h : s.Onward s') (hend : ∀ k ∈ s.ahead.head?, k.lexeme = .eof) :
    s'.ahead = s.ahead := by
  induction h with
  | refl => rfl
  | @advance s' _ ih =>
    unfold State.advance
    split
    · exact ih
    · next k ks hs =>
      rw [← ih, hs] at hend
      rw [if_pos (hend k rfl), ih]
  | scopes _ σ ih => exact ih

end State

variable {α β : Type} {x : ParseM α} {f : α → ParseM β} {n k : Nat}
  {R R' : List (List String) → List (List String) → Prop}

/-- Every run moves onward. One that succeeds turns the open scopes as `R` says, one that
fails leaves them open inside of others. -/
def Leaves (x : ParseM α) (R : List (List String) → List (List String) → Prop) : Prop :=
  ∀ ⦃s r s'⦄, x.run.run s = some (r, s') → s.Onward s' ∧
    match r with
    | .ok _ => R s.scopes s'.scopes
    | .error _ => s.scopes <:+ s'.scopes

abbrev Keeps (x : ParseM α) : Prop := Leaves x fun σ σ' => σ' = σ

abbrev Opens (x : ParseM α) : Prop := Leaves x fun σ σ' => ∃ names, σ' = names :: σ

theorem Leaves.bind (hx : Leaves x R) (hR : ∀ σ σ', R σ σ' → σ <:+ σ')
    (hf : ∀ a, Leaves (f a) R') : Leaves (x >>= f) fun σ σ' => ∃ σ₁, R σ σ₁ ∧ R' σ₁ σ' := by
  intro s r s' hrun
  rw [ExceptT.run_bind, StateT.run_bind] at hrun
  obtain ⟨⟨r₁, s₁⟩, hr₁, hrun⟩ := Option.bind_eq_some_iff.1 hrun
  obtain ⟨hs₁, hscopes⟩ := hx hr₁
  cases r₁ with
  | error e =>
    cases hrun
    exact ⟨hs₁, hscopes⟩
  | ok a =>
    obtain ⟨hs', hscopes'⟩ := hf a hrun
    refine ⟨hs₁.trans hs', ?_⟩
    cases r with
    | error e => exact (hR _ _ hscopes).trans hscopes'
    | ok b => exact ⟨_, hscopes, hscopes'⟩

theorem Leaves.mono (hx : Leaves x R) (h : ∀ σ σ', R σ σ' → R' σ σ') : Leaves x R' := by
  intro s r s' hrun
  obtain ⟨hs, hscopes⟩ := hx hrun
  refine ⟨hs, ?_⟩
  cases r with
  | error e => exact hscopes
  | ok a => exact h _ _ hscopes

theorem Keeps.bind (hx : Keeps x) (hf : ∀ a, Leaves (f a) R) : Leaves (x >>= f) R := by
  refine (Leaves.bind hx (fun σ σ' h => h ▸ List.suffix_rfl) hf).mono ?_
  rintro σ σ' ⟨_, rfl, h⟩
  exact h

theorem Opens.within (hx : Opens x) (hf : ∀ a, Leaves (f a) fun σ σ' => σ' = σ.tail) :
    Keeps (x >>= f) := by
  refine (Leaves.bind hx ?_ hf).mono ?_
  · rintro σ _ ⟨names, rfl⟩
    exact List.suffix_cons names σ
  · rintro σ _ ⟨_, ⟨names, rfl⟩, rfl⟩
    rfl

theorem Opens.bind (hx : Opens x) (hf : ∀ a, Keeps (f a)) : Opens (x >>= f) := by
  refine (Leaves.bind hx ?_ hf).mono ?_
  · rintro σ _ ⟨names, rfl⟩
    exact List.suffix_cons names σ
  · rintro σ _ ⟨_, ⟨names, rfl⟩, rfl⟩
    exact ⟨names, rfl⟩

theorem Leaves.pure (a : α) : Keeps (pure a) := by
  intro s r s' hrun
  cases hrun
  exact ⟨.refl, rfl⟩

theorem Keeps.get : Keeps get := by
  intro s r s' hrun
  cases hrun
  exact ⟨.refl, rfl⟩

theorem Leaves.throw (e : Error) : Leaves (throw e : ParseM α) R := by
  intro s r s' hrun
  cases hrun
  exact ⟨.refl, List.suffix_rfl⟩

theorem Leaves.endless : Leaves (endless : ParseM α) R := by
  intro s r s' hrun
  cases hrun

theorem Leaves.ite {c : Prop} [Decidable c] {y : ParseM α} (hx : Leaves x R) (hy : Leaves y R) :
    Leaves (if c then x else y) R := by
  split
  · exact hx
  · exact hy

theorem leaves_complain (c : Complaint) : Leaves (complain c : ParseM α) R := by
  refine Keeps.get.bind fun s => ?_
  dsimp only
  split
  · exact .throw _
  · exact .throw _

theorem leaves_complainBehind (c : Complaint) : Leaves (complainBehind c : ParseM α) R :=
  Keeps.get.bind fun _ => .throw _

theorem keeps_requireBehind {p : Prop} [Decidable p] {c : Complaint} :
    Keeps (requireBehind p c) :=
  .ite (.pure ()) (leaves_complainBehind c)

theorem keeps_currentSpan : Keeps currentSpan := Keeps.get.bind fun _ => .pure _

theorem keeps_sees {l : Lexeme} : Keeps (sees l) := Keeps.get.bind fun _ => .pure _

theorem keeps_isTypeVar {X : String} : Keeps (isTypeVar X) := Keeps.get.bind fun _ => .pure _

theorem keeps_advance : Keeps advance := by
  intro s r s' hrun
  cases hrun
  refine ⟨State.Onward.refl.advance, ?_⟩
  change s.advance.scopes = s.scopes
  unfold State.advance
  split
  · rfl
  · split
    · rfl
    · rfl

theorem opens_openScope (names : List String) : Opens (openScope names) := by
  intro s r s' hrun
  cases hrun
  exact ⟨State.Onward.refl.scopes _, names, rfl⟩

theorem leaves_closeScope {g : Span → α} :
    Leaves (do closeScope; return g (← previousSpan)) fun σ σ' => σ' = σ.tail := by
  intro s r s' hrun
  cases hrun
  exact ⟨State.Onward.refl.scopes _, rfl⟩

theorem keeps_accept {l : Lexeme} : Keeps (accept l) :=
  keeps_sees.bind fun _ => .ite (keeps_advance.bind fun _ => .pure _) (.pure _)

theorem keeps_expect {l : Lexeme} {what : String} : Keeps (expect l what) :=
  keeps_accept.bind fun _ => .ite (.pure _) (leaves_complain _)

theorem keeps_identifier {what : String} : Keeps (identifier what) := by
  refine Keeps.get.bind fun s => ?_
  split
  · exact keeps_advance.bind fun _ => .pure _
  · exact leaves_complain _

theorem Keeps.commaSep (hx : Keeps x) (n : Nat) : Keeps (commaSep x n) := by
  induction n with
  | zero => exact .endless
  | succ n ih =>
    refine Keeps.bind hx fun a => keeps_accept.bind fun _ => .ite ?_ (.pure _)
    exact Keeps.bind ih fun _ => .pure _

theorem Keeps.parenthesized (hx : Keeps x) {opening list : String} :
    Keeps (parenthesized x n opening list) := by
  refine keeps_expect.bind fun _ => keeps_accept.bind fun _ => .ite (.pure _) ?_
  refine Keeps.bind (hx.commaSep n) fun _ => keeps_accept.bind fun _ => .ite (.pure _) ?_
  exact leaves_complain _

theorem Keeps.mapM {g : β → ParseM α} (hg : ∀ b, Keeps (g b)) (bs : List β) :
    Keeps (bs.mapM g) := by
  induction bs with
  | nil => exact .pure _
  | cons b bs ih =>
    rw [List.mapM_cons]
    exact Keeps.bind (hg b) fun _ => Keeps.bind ih fun _ => .pure _

theorem keeps_typeArgs {item : ParseM Ty} (hi : Keeps item) : Keeps (typeArgs item n) := by
  refine keeps_accept.bind fun _ => .ite (keeps_accept.bind fun _ => .ite (.pure _) ?_) (.pure _)
  exact Keeps.bind (hi.commaSep n) fun _ => keeps_expect.bind fun _ => .pure _

theorem keeps_ty {what : String} : Keeps (ty n what) := by
  induction n generalizing what with
  | zero => exact .endless
  | succ n ih =>
    refine keeps_identifier.bind fun C => keeps_isTypeVar.bind fun _ => .ite ?_ ?_
    · exact keeps_sees.bind fun _ => .ite (leaves_complain _) (.pure _)
    · exact (keeps_typeArgs ih).bind fun _ => .pure _

theorem keeps_classTy {what : String} : Keeps (classTy n what) := by
  refine keeps_ty.bind fun T => ?_
  split
  · exact leaves_complainBehind _
  · exact .pure _

theorem keeps_rawBound : Keeps (rawBound n) := by
  induction n with
  | zero => exact .endless
  | succ n ih =>
    refine keeps_identifier.bind fun _ => keeps_accept.bind fun _ => .ite ?_ (.pure _)
    exact Keeps.bind (Keeps.commaSep ih n) fun _ => keeps_expect.bind fun _ => .pure _

theorem keeps_rawTypeParams {seen : List String} : Keeps (rawTypeParams n k seen) := by
  induction k generalizing seen with
  | zero => exact .endless
  | succ k ih =>
    refine keeps_identifier.bind fun X => keeps_requireBehind.bind fun _ =>
      keeps_expect.bind fun _ => keeps_rawBound.bind fun T => keeps_accept.bind fun _ => ?_
    exact .ite (ih.bind fun _ => .pure _) (.pure _)

theorem keeps_resolveTypeParam (raw : String × Ty) : Keeps (resolveTypeParam raw) := by
  refine Keeps.get.bind fun s => ?_
  split
  · exact .pure _
  · exact leaves_complainBehind _

theorem opens_typeParams : Opens (typeParams n) := by
  refine keeps_accept.bind fun _ => .ite ?_ ((opens_openScope []).bind fun _ => .pure _)
  exact keeps_rawTypeParams.bind fun raw => keeps_expect.bind fun _ =>
    (opens_openScope _).bind fun _ => Keeps.mapM keeps_resolveTypeParam raw

theorem keeps_params : Keeps (params n) :=
  Keeps.parenthesized (keeps_ty.bind fun _ => keeps_identifier.bind fun _ => .pure _)

section Term

variable {term : ParseM Term} (ht : Keeps term)
include ht

theorem keeps_args : Keeps (args term n) := ht.parenthesized

theorem keeps_parenthesis : Keeps (parenthesis term n) := by
  refine Keeps.get.bind fun s => .ite ?_ ?_
  · exact keeps_expect.bind fun _ => keeps_classTy.bind fun _ => keeps_expect.bind fun _ =>
      Keeps.bind ht fun _ => .pure _
  · exact keeps_advance.bind fun _ => Keeps.bind ht fun _ => keeps_expect.bind fun _ => .pure _

theorem keeps_primary : Keeps (primary term n) := by
  refine Keeps.get.bind fun s => ?_
  split
  · exact keeps_advance.bind fun _ => .pure _
  · exact keeps_advance.bind fun _ => .pure _
  · exact keeps_advance.bind fun _ => keeps_classTy.bind fun _ =>
      (keeps_args ht).bind fun _ => .pure _
  · exact keeps_parenthesis ht
  · exact leaves_complain _

theorem keeps_accesses {e : Featherweight.Term} : Keeps (accesses term n k e) := by
  induction k generalizing e with
  | zero => exact .endless
  | succ k ih =>
    refine keeps_accept.bind fun _ => .ite ?_ (.pure _)
    refine keeps_identifier.bind fun x => keeps_sees.bind fun _ => keeps_sees.bind fun _ => ?_
    refine .ite ?_ ih
    exact (keeps_typeArgs keeps_ty).bind fun _ => (keeps_args ht).bind fun _ => ih

end Term

theorem keeps_term : Keeps (term n) := by
  induction n with
  | zero => exact .endless
  | succ n ih => exact (keeps_primary ih).bind fun _ => keeps_accesses ih

theorem keeps_fields : Keeps (fields n k) := by
  induction k with
  | zero => exact .endless
  | succ k ih =>
    refine Keeps.get.bind fun s => .ite (.pure _) ?_
    exact keeps_ty.bind fun _ => keeps_identifier.bind fun _ => keeps_expect.bind fun _ =>
      Keeps.bind ih fun _ => .pure _

theorem keeps_initializers : Keeps (initializers k) := by
  induction k with
  | zero => exact .endless
  | succ k ih =>
    refine keeps_sees.bind fun _ => .ite (.pure _) ?_
    exact keeps_expect.bind fun _ => keeps_expect.bind fun _ => keeps_identifier.bind fun _ =>
      keeps_expect.bind fun _ => keeps_identifier.bind fun _ => keeps_requireBehind.bind fun _ =>
      keeps_expect.bind fun _ => Keeps.bind ih fun _ => .pure _

theorem keeps_constructor {C : String} : Keeps (constructor n C) := by
  unfold constructor
  exact keeps_identifier.bind fun _ => keeps_requireBehind.bind fun _ => keeps_params.bind fun _ =>
    keeps_expect.bind fun _ => keeps_expect.bind fun _ =>
    (Keeps.parenthesized keeps_identifier).bind fun _ => keeps_expect.bind fun _ =>
    keeps_initializers.bind fun _ => keeps_expect.bind fun _ => .pure _

theorem keeps_method : Keeps (method n) := by
  unfold method
  exact keeps_currentSpan.bind fun _ => opens_typeParams.within fun _ => keeps_ty.bind fun _ =>
    keeps_identifier.bind fun _ => keeps_params.bind fun _ => keeps_expect.bind fun _ =>
    keeps_expect.bind fun _ => keeps_term.bind fun _ => keeps_expect.bind fun _ =>
    keeps_expect.bind fun _ => leaves_closeScope

theorem keeps_methods : Keeps (methods n k) := by
  induction k with
  | zero => exact .endless
  | succ k ih =>
    refine keeps_sees.bind fun _ => .ite (.pure _) (Keeps.get.bind fun s => .ite ?_ ?_)
    · exact leaves_complain _
    · exact keeps_method.bind fun _ => Keeps.bind ih fun _ => .pure _

theorem keeps_classDecl : Keeps (classDecl n) := by
  unfold classDecl
  exact keeps_currentSpan.bind fun _ => keeps_expect.bind fun _ => keeps_identifier.bind fun _ =>
    opens_typeParams.within fun _ => keeps_expect.bind fun _ => keeps_classTy.bind fun _ =>
    keeps_expect.bind fun _ => keeps_fields.bind fun _ => keeps_constructor.bind fun _ =>
    keeps_methods.bind fun _ => keeps_expect.bind fun _ => leaves_closeScope

theorem keeps_classes : Keeps (classes n k) := by
  induction k with
  | zero => exact .endless
  | succ k ih =>
    refine keeps_sees.bind fun _ => .ite ?_ (.pure _)
    exact keeps_classDecl.bind fun _ => Keeps.bind ih fun _ => .pure _

theorem keeps_previousSpan : Keeps previousSpan := Keeps.get.bind fun _ => .pure _

theorem keeps_program : Keeps program := by
  unfold program
  exact Keeps.get.bind fun _ => keeps_classes.bind fun _ => keeps_currentSpan.bind fun _ =>
    keeps_term.bind fun _ => keeps_previousSpan.bind fun _ => keeps_expect.bind fun _ => .pure _

variable {tokens : List Token} {s s' : State} {r : Except Error Program}

/-- A reader of the tokens can stand here between two programs. It has read some, each with
or without success. -/
inductive Between (tokens : List Token) : State → Prop where
  | start : Between tokens (.start tokens)
  | next {s s' : State} {r : Except Error Program} (h : Between tokens s)
      (hrun : program.run.run s = some (r, s')) : Between tokens s'

theorem Between.onward (h : Between tokens s) : (State.start tokens).Onward s := by
  induction h with
  | start => exact .refl
  | next _ hrun ih => exact ih.trans (keeps_program hrun).1

theorem Between.exists_at (h : Between tokens s) :
    ∃ i, s.At (held tokens) i ∧ i ≤ tokens.length := by
  obtain ⟨i, -, hi⟩ := h.onward.exists_at (State.at_start tokens)
  refine ⟨i, hi, ?_⟩
  cases tokens with
  | cons k ks => exact hi.le
  | nil =>
    -- The end of the empty file is never moved over.
    have hahead := h.onward.ahead_eq (by simp [State.start])
    rw [hi.ahead] at hahead
    cases i with
    | zero => exact Nat.le_refl 0
    | succ i => simp [held, State.start] at hahead

/-- Reading one more program, with success or not, the cursor does not go back and does not
leave the tokens. A program that is read leaves the open scopes as they were. One that fails
may open more inside of them. -/
theorem program_keeps_place (hs : Between tokens s) (hrun : program.run.run s = some (r, s')) :
    (∃ i j, s.At (held tokens) i ∧ s'.At (held tokens) j ∧ i ≤ j ∧ j ≤ tokens.length) ∧
      (∀ p, r = .ok p → s'.scopes = s.scopes) ∧ ∀ e, r = .error e → s.scopes <:+ s'.scopes := by
  obtain ⟨honward, hscopes⟩ := keeps_program hrun
  obtain ⟨i, hi, -⟩ := hs.exists_at
  obtain ⟨j, hij, hj⟩ := honward.exists_at hi
  obtain ⟨k, hk, hle⟩ := (hs.next hrun).exists_at
  refine ⟨⟨i, j, hi, hj, hij, hj.unique hk ▸ hle⟩, ?_, ?_⟩
  · rintro p rfl
    exact hscopes
  · rintro e rfl
    exact hscopes

def openHead : List Token := tokenize "class A<X extends B> extends C x"

theorem program_keeps_place_openHead :
    ∃ e p s₁ s₂, program.run.run (.start openHead) = some (.error e, s₁) ∧
      program.run.run s₁ = some (.ok p, s₂) ∧ s₁.scopes = [["X"]] ∧ s₂.scopes = s₁.scopes ∧
      ∃ i j, s₁.At (held openHead) i ∧ s₂.At (held openHead) j ∧ i ≤ j ∧ j ≤ openHead.length := by
  have hruns : ((program.run.run (.start openHead)).bind fun x =>
      (program.run.run x.2).map fun y => (x.1.isOk, y.1.isOk, x.2.scopes)) =
        some (false, true, [["X"]]) := by
    decide +kernel
  obtain ⟨⟨r, s₁⟩, h₁, hruns⟩ := Option.bind_eq_some_iff.1 hruns
  obtain ⟨⟨r', s₂⟩, h₂, hruns⟩ := Option.map_eq_some_iff.1 hruns
  simp only [Prod.mk.injEq] at hruns
  obtain ⟨hfail, hok, hopen⟩ := hruns
  cases r with
  | ok p => cases hfail
  | error e =>
    cases r' with
    | error e' => cases hok
    | ok p =>
      obtain ⟨hplace, hscopes, -⟩ := program_keeps_place (.next .start h₁) h₂
      exact ⟨e, p, s₁, s₂, h₁, h₂, hopen, hscopes p rfl, hplace⟩

end Parse

end Featherweight

import Featherweight.Parse.Term
import Featherweight.Proofs.Grammar

/-!
# Every text has one derivation

A tree is determined by its lexemes, also when others follow that cannot be part of
it. For a type these are all lexemes but `<`, for a term those that close one.

Casts and terms in parentheses begin alike. The lexemes behind the parenthesis tell
them apart: `castAhead` holds of a cast and of no other term, whatever follows.
-/

namespace Featherweight

namespace Grammar

variable {τ : Type} {w : τ → List Lexeme} {F : Lexeme → Prop} {r r' : List Lexeme}

def Follows (F : Lexeme → Prop) (r : List Lexeme) : Prop := ∃ l ls, r = l :: ls ∧ F l

theorem Follows.cons {l : Lexeme} {ls : List Lexeme} (h : F l) : Follows F (l :: ls) :=
  ⟨l, ls, rfl, h⟩

theorem Follows.of_cons {l : Lexeme} {ls : List Lexeme} (h : Follows F (l :: ls)) : F l := by
  obtain ⟨_, _, h, hl⟩ := h
  cases h
  exact hl

/-- No other tree has these lexemes, where a lexeme in `F` follows. -/
def Determined (w : τ → List Lexeme) (F : Lexeme → Prop) (t : τ) : Prop :=
  ∀ ⦃u r r'⦄, Follows F r → Follows F r' → w t ++ r = w u ++ r' → t = u ∧ r = r'

def behind (w : τ → List Lexeme) (c : Symbol) (ts : List τ) (r : List Lexeme) : List Lexeme :=
  if ts.isEmpty then .symbol c :: r
  else .symbol .comma :: (commaSeparated (ts.map w) ++ .symbol c :: r)

theorem commaSeparated_eq_behind (c : Symbol) (t : τ) (ts : List τ) (r : List Lexeme) :
    commaSeparated ((t :: ts).map w) ++ .symbol c :: r = w t ++ behind w c ts r := by
  cases ts with
  | nil => simp [behind, commaSeparated_singleton]
  | cons u ts => simp [behind, commaSeparated_cons]

theorem follows_behind {c : Symbol} (hcomma : F (.symbol .comma)) (hclose : F (.symbol c))
    (ts : List τ) (r : List Lexeme) : Follows F (behind w c ts r) := by
  cases ts with
  | nil => exact .cons hclose
  | cons t ts => exact .cons hcomma

theorem commaSeparated_inj {c : Symbol} (hcomma : F (.symbol .comma)) (hclose : F (.symbol c))
    (hc : c ≠ .comma) (hbegins : ∀ t, ∃ l ls, w t = l :: ls ∧ l ≠ .symbol c) {ts us : List τ}
    (hts : ∀ t ∈ ts, Determined w F t)
    (h : commaSeparated (ts.map w) ++ .symbol c :: r =
      commaSeparated (us.map w) ++ .symbol c :: r') : ts = us ∧ r = r' := by
  have hnil (u : τ) (us : List τ) (r r' : List Lexeme) :
      commaSeparated ((u :: us).map w) ++ .symbol c :: r ≠ .symbol c :: r' := by
    obtain ⟨l, ls, hlex, hl⟩ := hbegins u
    rw [commaSeparated_eq_behind, hlex]
    exact fun h => hl (List.cons.inj h).1
  induction ts generalizing us with
  | nil =>
    cases us with
    | nil => exact ⟨rfl, (List.cons.inj h).2⟩
    | cons u us => exact absurd h.symm (hnil u us r' r)
  | cons t ts ih =>
    rw [List.forall_mem_cons] at hts
    cases us with
    | nil => exact absurd h (hnil t ts r r')
    | cons u us =>
      rw [commaSeparated_eq_behind, commaSeparated_eq_behind] at h
      obtain ⟨rfl, hrest⟩ := hts.1 (follows_behind hcomma hclose ts r)
        (follows_behind hcomma hclose us r') h
      cases ts with
      | nil =>
        cases us with
        | nil => exact ⟨rfl, (List.cons.inj hrest).2⟩
        | cons u us => exact absurd (Lexeme.symbol.inj (List.cons.inj hrest).1) hc
      | cons t' ts =>
        cases us with
        | nil => exact absurd (Lexeme.symbol.inj (List.cons.inj hrest).1).symm hc
        | cons u us =>
          obtain ⟨hus, hr⟩ := ih hts.2 (List.cons.inj hrest).2
          exact ⟨by rw [hus], hr⟩

theorem parenthesized_inj (hcomma : F (.symbol .comma)) (hclose : F (.symbol .rparen))
    (hbegins : ∀ t, ∃ l ls, w t = l :: ls ∧ l ≠ .symbol .rparen) {ts us : List τ}
    (hts : ∀ t ∈ ts, Determined w F t)
    (h : parenthesized (ts.map w) ++ r = parenthesized (us.map w) ++ r') :
    ts = us ∧ r = r' := by
  simp only [parenthesized, List.cons_append, List.append_assoc, List.cons.injEq, true_and,
    List.nil_append] at h
  exact commaSeparated_inj hcomma hclose (by decide) hbegins hts h

theorem bracketed_inj (hcomma : F (.symbol .comma)) (hclose : F (.symbol .gt))
    (hbegins : ∀ t, ∃ l ls, w t = l :: ls ∧ l ≠ .symbol .gt) {ts us : List τ}
    (hts : ∀ t ∈ ts, Determined w F t)
    (h : bracketed (ts.map w) ++ r = bracketed (us.map w) ++ r') : ts = us ∧ r = r' := by
  simp only [bracketed, List.cons_append, List.append_assoc, List.cons.injEq, true_and,
    List.nil_append] at h
  exact commaSeparated_inj hcomma hclose (by decide) hbegins hts h

theorem flatten_inj {S : List Lexeme → Prop} (hstop : ∀ t r, ¬ S (w t ++ r))
    (hlex : ∀ ⦃t u r r'⦄, w t ++ r = w u ++ r' → t = u ∧ r = r') {ts us : List τ}
    (hr : S r) (hr' : S r')
    (h : (ts.map w).flatten ++ r = (us.map w).flatten ++ r') : ts = us ∧ r = r' := by
  induction ts generalizing us with
  | nil =>
    cases us with
    | nil => exact ⟨rfl, h⟩
    | cons u us =>
      refine absurd hr ?_
      have h : r = w u ++ ((us.map w).flatten ++ r') := by simpa using h
      exact h ▸ hstop u _
  | cons t ts ih =>
    cases us with
    | nil =>
      refine absurd hr' ?_
      have h : w t ++ ((ts.map w).flatten ++ r) = r' := by simpa using h
      exact h ▸ hstop t _
    | cons u us =>
      simp only [List.map_cons, List.flatten_cons, List.append_assoc] at h
      obtain ⟨rfl, hrest⟩ := hlex h
      obtain ⟨rfl, rfl⟩ := ih hrest
      exact ⟨rfl, rfl⟩

theorem TypeTree.lexemes_begins (T : TypeTree) : ∃ C ls, T.lexemes = .ident C :: ls := by
  cases T with
  | name C => exact ⟨C, [], rfl⟩
  | applied C Ts => exact ⟨C, _, lexemes_applied C Ts⟩

theorem TypeTree.args_inj {Ts Us : List TypeTree}
    (hTs : ∀ T ∈ Ts, Determined lexemes (· ≠ .symbol .lt) T)
    (h : bracketed (Ts.map lexemes) ++ r = bracketed (Us.map lexemes) ++ r') :
    Ts = Us ∧ r = r' := by
  refine bracketed_inj (by simp) (by simp) (fun T => ?_) hTs h
  obtain ⟨C, ls, hlex⟩ := T.lexemes_begins
  exact ⟨_, ls, hlex, nofun⟩

theorem TypeTree.determined (T : TypeTree) : Determined lexemes (· ≠ .symbol .lt) T := by
  induction T using TypeTree.induction with
  | name C =>
    intro U r r' hr hr' h
    cases U with
    | name D => simpa [lexemes] using h
    | applied D Us =>
      rw [lexemes_applied] at h
      obtain ⟨-, rfl⟩ := List.cons.inj h
      exact absurd rfl hr.of_cons
  | applied C Ts ih =>
    intro U r r' hr hr' h
    rw [lexemes_applied] at h
    cases U with
    | name D =>
      obtain ⟨-, rfl⟩ := List.cons.inj h
      exact absurd rfl hr'.of_cons
    | applied D Us =>
      rw [lexemes_applied] at h
      obtain ⟨hC, h⟩ := List.cons.inj h
      obtain ⟨rfl, rfl⟩ := args_inj ih h
      cases hC
      exact ⟨rfl, rfl⟩

theorem typeArgs_determined (Ts : Option (List TypeTree)) :
    Determined typeArgsPhrase.lexemes (· ≠ .symbol .lt) Ts := by
  intro Us r r' hr hr' h
  cases Ts with
  | none =>
    cases Us with
    | none => exact ⟨rfl, h⟩
    | some Us =>
      cases h
      exact absurd rfl hr.of_cons
  | some Ts =>
    cases Us with
    | none =>
      cases h
      exact absurd rfl hr'.of_cons
    | some Us =>
      obtain ⟨rfl, rfl⟩ := TypeTree.args_inj (fun T _ => T.determined) h
      exact ⟨rfl, rfl⟩

def Closes (l : Lexeme) : Prop :=
  l = .symbol .rparen ∨ l = .symbol .comma ∨ l = .symbol .semicolon ∨ l = .eof

def Continues (l : Lexeme) : Prop := Closes l ∨ l = .symbol .dot

theorem Closes.ne_dot {l : Lexeme} (h : Closes l) : l ≠ .symbol .dot := by
  rcases h with rfl | rfl | rfl | rfl <;> simp

theorem Continues.startsTerm_eq_false {l : Lexeme} (h : Continues l) :
    Parse.startsTerm l = false := by
  rcases h with (rfl | rfl | rfl | rfl) | rfl <;> rfl

theorem Continues.ne_open {l : Lexeme} (h : Continues l) :
    ¬ (l = .symbol .lt ∨ l = .symbol .lparen) := by
  rcases h with (rfl | rfl | rfl | rfl) | rfl <;> simp

theorem TermTree.lexemes_begins (e : TermTree) :
    ∃ l ls, e.lexemes = l :: ls ∧ Parse.startsTerm l = true := by
  cases e with
  | cast N e => exact ⟨_, _, rfl, rfl⟩
  | chain h rest =>
    cases h with
    | this => exact ⟨_, _, rfl, rfl⟩
    | name x => exact ⟨_, _, rfl, rfl⟩
    | new N es => exact ⟨_, _, rfl, rfl⟩
    | paren e => exact ⟨_, _, rfl, rfl⟩

theorem Accesses.follows_continues (rest : Accesses) (hr : Follows Closes r) :
    Follows Continues (rest.lexemes ++ r) := by
  cases rest with
  | done =>
    obtain ⟨l, ls, rfl, hl⟩ := hr
    exact .cons (.inl hl)
  | field f rest => exact .cons (.inr rfl)
  | call m Vs es rest => exact .cons (.inr rfl)

def castAhead : List Lexeme → Bool
  | .symbol .lparen :: .ident _ :: .symbol .lt :: _ => true
  | .symbol .lparen :: .ident _ :: .symbol .rparen :: l :: _ => Parse.startsTerm l
  | _ => false

theorem castAhead_cast (N : TypeTree) (e : TermTree) (r : List Lexeme) :
    castAhead ((TermTree.cast N e).lexemes ++ r) = true := by
  cases N with
  | name C =>
    obtain ⟨l, ls, hlex, hl⟩ := e.lexemes_begins
    simp [TermTree.lexemes, TypeTree.lexemes, hlex, castAhead, hl]
  | applied C Ts => simp [TermTree.lexemes, TypeTree.lexemes_applied, bracketed, castAhead]

theorem castAhead_paren (e : TermTree) (hr : Follows Continues r) :
    castAhead ((Primary.paren e).lexemes ++ r) = false := by
  obtain ⟨l, ls, rfl, hl⟩ := hr
  cases e with
  | cast N e => rfl
  | chain h rest =>
    cases h with
    | this => rfl
    | new N es => rfl
    | paren e => rfl
    | name x =>
      -- A name in parentheses looks like a cast until the lexeme behind it is seen.
      cases rest with
      | done => exact hl.startsTerm_eq_false
      | field f rest => rfl
      | call m Vs es rest => rfl

theorem castAhead_chain (h : Primary) (rest : Accesses) (hr : Follows Closes r) :
    castAhead ((TermTree.chain h rest).lexemes ++ r) = false := by
  rw [TermTree.lexemes, List.append_assoc]
  have hrest := rest.follows_continues hr
  cases h with
  | this => rfl
  | name x => rfl
  | new N es => rfl
  | paren e => exact castAhead_paren e hrest

theorem TermTree.lexemes_begins_ne_rparen (e : TermTree) :
    ∃ l ls, e.lexemes = l :: ls ∧ l ≠ .symbol .rparen := by
  obtain ⟨l, ls, hlex, hl⟩ := e.lexemes_begins
  refine ⟨l, ls, hlex, ?_⟩
  rintro rfl
  cases hl

theorem TermTree.args_inj {es us : List TermTree} (hes : ∀ e ∈ es, Determined lexemes Closes e)
    (h : parenthesized (lexemeLists es) ++ r = parenthesized (lexemeLists us) ++ r') :
    es = us ∧ r = r' := by
  rw [lexemeLists_eq_map, lexemeLists_eq_map] at h
  exact parenthesized_inj (.inr (.inl rfl)) (.inl rfl) lexemes_begins_ne_rparen hes h

theorem not_continues_call (Vs : Option (List TypeTree)) (es : List TermTree) (r : List Lexeme) :
    ¬ Follows Continues (typeArgsPhrase.lexemes Vs ++
      (parenthesized (TermTree.lexemeLists es) ++ r)) := by
  cases Vs with
  | none => exact fun h => by simpa [Continues, Closes] using h.of_cons
  | some Vs => exact fun h => by simpa [Continues, Closes] using h.of_cons

mutual

theorem TermTree.determined : (e : TermTree) → Determined TermTree.lexemes Closes e
  | .cast N e, u, r, r', hr, hr', h => by
    cases u with
    | cast M u =>
      simp only [TermTree.lexemes, List.cons_append, List.append_assoc, List.cons.injEq,
        true_and] at h
      obtain ⟨rfl, hrest⟩ := N.determined (.cons (by simp)) (.cons (by simp)) h
      obtain ⟨rfl, rfl⟩ := e.determined hr hr' (List.cons.inj hrest).2
      exact ⟨rfl, rfl⟩
    | chain k rest =>
      have hcast := castAhead_cast N e r
      rw [h, castAhead_chain k rest hr'] at hcast
      cases hcast
  | .chain k rest, u, r, r', hr, hr', h => by
    cases u with
    | cast M u =>
      have hcast := castAhead_cast M u r'
      rw [← h, castAhead_chain k rest hr] at hcast
      cases hcast
    | chain k' rest' =>
      simp only [TermTree.lexemes, List.append_assoc] at h
      obtain ⟨rfl, hrest⟩ :=
        k.determined (rest.follows_continues hr) (rest'.follows_continues hr') h
      obtain ⟨rfl, rfl⟩ := rest.determined hr hr' hrest
      exact ⟨rfl, rfl⟩

theorem Primary.determined : (k : Primary) → Determined Primary.lexemes Continues k
  | .this, u, r, r', hr, hr', h => by
    cases u with
    | this => exact ⟨rfl, (List.cons.inj h).2⟩
    | _ => simp [Primary.lexemes] at h
  | .name x, u, r, r', hr, hr', h => by
    cases u with
    | name y => simpa [Primary.lexemes] using h
    | _ => simp [Primary.lexemes] at h
  | .new N es, u, r, r', hr, hr', h => by
    cases u with
    | new M us =>
      simp only [Primary.lexemes, List.cons_append, List.append_assoc, List.cons.injEq,
        true_and] at h
      obtain ⟨rfl, hrest⟩ := N.determined (.cons (by simp)) (.cons (by simp)) h
      obtain ⟨rfl, rfl⟩ := TermTree.args_inj (TermTree.all_determined es) hrest
      exact ⟨rfl, rfl⟩
    | _ => simp [Primary.lexemes] at h
  | .paren e, u, r, r', hr, hr', h => by
    cases u with
    | paren u =>
      simp only [Primary.lexemes, List.cons_append, List.append_assoc, List.cons.injEq,
        true_and] at h
      obtain ⟨rfl, hrest⟩ := e.determined (.cons (.inl rfl)) (.cons (.inl rfl)) h
      exact ⟨rfl, (List.cons.inj hrest).2⟩
    | _ => simp [Primary.lexemes] at h

theorem Accesses.determined : (rest : Accesses) → Determined Accesses.lexemes Closes rest
  | .done, u, r, r', hr, hr', h => by
    cases u with
    | done => exact ⟨rfl, h⟩
    | field f u =>
      cases h
      exact absurd rfl hr.of_cons.ne_dot
    | call m Vs us u =>
      cases h
      exact absurd rfl hr.of_cons.ne_dot
  | .field f rest, u, r, r', hr, hr', h => by
    cases u with
    | done =>
      cases h
      exact absurd rfl hr'.of_cons.ne_dot
    | field g u =>
      simp only [Accesses.lexemes, List.cons_append, List.cons.injEq, Lexeme.ident.injEq,
        true_and] at h
      obtain ⟨rfl, h⟩ := h
      obtain ⟨rfl, rfl⟩ := rest.determined hr hr' h
      exact ⟨rfl, rfl⟩
    | call m Vs us u =>
      simp only [Accesses.lexemes, List.cons_append, List.append_assoc, List.cons.injEq,
        true_and] at h
      exact absurd (h.2 ▸ rest.follows_continues hr) (not_continues_call Vs us _)
  | .call m Vs es rest, u, r, r', hr, hr', h => by
    cases u with
    | done =>
      cases h
      exact absurd rfl hr'.of_cons.ne_dot
    | field g u =>
      simp only [Accesses.lexemes, List.cons_append, List.append_assoc, List.cons.injEq,
        true_and] at h
      exact absurd (h.2 ▸ u.follows_continues hr') (not_continues_call Vs es _)
    | call m' Us us u =>
      simp only [Accesses.lexemes, List.cons_append, List.append_assoc, List.cons.injEq,
        Lexeme.ident.injEq, true_and] at h
      obtain ⟨rfl, h⟩ := h
      obtain ⟨rfl, hargs⟩ := typeArgs_determined Vs (.cons (by simp)) (.cons (by simp)) h
      obtain ⟨rfl, hrest⟩ := TermTree.args_inj (TermTree.all_determined es) hargs
      obtain ⟨rfl, rfl⟩ := rest.determined hr hr' hrest
      exact ⟨rfl, rfl⟩

theorem TermTree.all_determined :
    (es : List TermTree) → ∀ e ∈ es, Determined TermTree.lexemes Closes e
  | [] => fun _ he => absurd he List.not_mem_nil
  | e :: es => List.forall_mem_cons.2 ⟨e.determined, TermTree.all_determined es⟩

end

theorem BindingTree.lexemes_inj {b c : BindingTree}
    (h : phrase.lexemes b ++ r = phrase.lexemes c ++ r') : b = c ∧ r = r' := by
  obtain ⟨T, x⟩ := b
  obtain ⟨U, y⟩ := c
  simp only [phrase, List.append_assoc] at h
  obtain ⟨rfl, hrest⟩ := T.determined (.cons (by simp)) (.cons (by simp)) h
  simpa using hrest

theorem BindingTree.field_lexemes_inj {b c : BindingTree}
    (h : fieldPhrase.lexemes b ++ r = fieldPhrase.lexemes c ++ r') : b = c ∧ r = r' := by
  obtain ⟨T, x⟩ := b
  obtain ⟨U, y⟩ := c
  simp only [fieldPhrase, List.append_assoc] at h
  obtain ⟨rfl, hrest⟩ := T.determined (.cons (by simp)) (.cons (by simp)) h
  simpa using hrest

theorem params_inj {bs cs : List BindingTree}
    (h : paramsPhrase.lexemes bs ++ r = paramsPhrase.lexemes cs ++ r') : bs = cs ∧ r = r' := by
  refine parenthesized_inj (F := fun _ => True) trivial trivial (fun b => ?_)
    (fun b _ c r r' _ _ h => BindingTree.lexemes_inj h) h
  obtain ⟨C, ls, hlex⟩ := b.ty.lexemes_begins
  exact ⟨_, ls ++ [.ident b.name], congrArg (· ++ _) hlex, nofun⟩

theorem names_inj {xs ys : List String}
    (h : (Phrase.name.list parenthesized).lexemes xs ++ r =
      (Phrase.name.list parenthesized).lexemes ys ++ r') : xs = ys ∧ r = r' := by
  refine parenthesized_inj (w := Phrase.name.lexemes) (F := fun _ => True) trivial trivial
    (fun x => ⟨.ident x, [], rfl, nofun⟩) (fun x _ y r r' _ _ h => ?_) h
  simpa [Phrase.name] using h

theorem TypeParamTree.determined (X : TypeParamTree) :
    Determined phrase.lexemes (· ≠ .symbol .lt) X := by
  intro Y r r' hr hr' h
  obtain ⟨x, T⟩ := X
  obtain ⟨y, U⟩ := Y
  simp only [phrase, List.cons_append, List.cons.injEq, Lexeme.ident.injEq, true_and] at h
  obtain ⟨rfl, rfl⟩ := T.determined hr hr' h.2
  exact ⟨by rw [h.1], rfl⟩

theorem typeParams_determined (Xs : List TypeParamTree) :
    Determined typeParamsPhrase.lexemes (· ≠ .symbol .lt) Xs := by
  intro Ys r r' hr hr' h
  cases Xs with
  | nil =>
    cases Ys with
    | nil => exact ⟨rfl, h⟩
    | cons Y Ys =>
      cases h
      exact absurd rfl hr.of_cons
  | cons X Xs =>
    cases Ys with
    | nil =>
      cases h
      exact absurd rfl hr'.of_cons
    | cons Y Ys =>
      exact bracketed_inj (w := TypeParamTree.phrase.lexemes) (by simp) (by simp)
        (fun X => ⟨.ident X.name, _, rfl, nofun⟩) (fun X _ => X.determined) h

theorem inits_inj {is js : List Initializer}
    (h : (initializerPhrase.list List.flatten).lexemes is ++ .symbol .rbrace :: r =
      (initializerPhrase.list List.flatten).lexemes js ++ .symbol .rbrace :: r') :
    is = js ∧ r = r' := by
  have hstop (i : Initializer) (r : List Lexeme) :
      ¬ Follows (· = .symbol .rbrace) (initializerPhrase.lexemes i ++ r) :=
    fun h => by cases h.of_cons
  have hinj ⦃i j : Initializer⦄ ⦃r r' : List Lexeme⦄
      (h : initializerPhrase.lexemes i ++ r = initializerPhrase.lexemes j ++ r') :
      i = j ∧ r = r' := by
    obtain ⟨f, x⟩ := i
    obtain ⟨g, y⟩ := j
    simpa [initializerPhrase, and_assoc] using h
  obtain ⟨rfl, hr⟩ := flatten_inj hstop hinj (.cons rfl) (.cons rfl) h
  exact ⟨rfl, (List.cons.inj hr).2⟩

theorem ConstructorTree.lexemes_inj {C D : String} {k k' : ConstructorTree}
    (h : (phrase C).lexemes k ++ r = (phrase D).lexemes k' ++ r') : k = k' ∧ r = r' := by
  obtain ⟨x, ps, as, is⟩ := k
  obtain ⟨x', ps', as', is'⟩ := k'
  simp only [phrase, List.cons_append, List.append_assoc, List.cons.injEq,
    Lexeme.ident.injEq, List.nil_append] at h
  obtain ⟨rfl, h⟩ := h
  obtain ⟨rfl, hsuper⟩ := params_inj h
  simp only [List.cons.injEq, true_and] at hsuper
  obtain ⟨rfl, hinits⟩ := names_inj hsuper
  obtain ⟨rfl, rfl⟩ := inits_inj (List.cons.inj hinits).2
  exact ⟨rfl, rfl⟩

theorem MethodTree.lexemes_inj {m m' : MethodTree}
    (h : phrase.lexemes m ++ r = phrase.lexemes m' ++ r') : m = m' ∧ r = r' := by
  obtain ⟨Xs, T, x, ps, e⟩ := m
  obtain ⟨Xs', T', x', ps', e'⟩ := m'
  simp only [phrase, List.cons_append, List.append_assoc, List.nil_append] at h
  have htype (T : TypeTree) (r : List Lexeme) : Follows (· ≠ .symbol .lt) (T.lexemes ++ r) := by
    obtain ⟨C, ls, hlex⟩ := T.lexemes_begins
    rw [hlex]
    exact .cons (by simp)
  obtain ⟨rfl, htail⟩ := typeParams_determined Xs (htype T _) (htype T' _) h
  obtain ⟨rfl, hname⟩ := T.determined (.cons (by simp)) (.cons (by simp)) htail
  simp only [List.cons.injEq, Lexeme.ident.injEq] at hname
  obtain ⟨rfl, hparams⟩ := hname
  obtain ⟨rfl, hbody⟩ := params_inj hparams
  simp only [List.cons.injEq, true_and] at hbody
  have hsemicolon (r : List Lexeme) : Follows Closes (.symbol .semicolon :: r) :=
    .cons (.inr (.inr (.inl rfl)))
  obtain ⟨rfl, hend⟩ := e.determined (hsemicolon _) (hsemicolon _) hbody
  simp only [List.cons.injEq, true_and] at hend
  exact ⟨rfl, hend⟩

def OpensConstructor (ls : List Lexeme) : Prop := ∃ x ms, ls = .ident x :: .symbol .lparen :: ms

theorem BindingTree.not_opensConstructor (f : BindingTree) (r : List Lexeme) :
    ¬ OpensConstructor (fieldPhrase.lexemes f ++ r) := by
  rintro ⟨x, ms, h⟩
  obtain ⟨T, y⟩ := f
  cases T with
  | name C => simp [fieldPhrase, TypeTree.lexemes] at h
  | applied C Ts => simp [fieldPhrase, TypeTree.lexemes_applied, bracketed] at h

theorem ConstructorTree.opensConstructor (C : String) (k : ConstructorTree) (r : List Lexeme) :
    OpensConstructor ((phrase C).lexemes k ++ r) := ⟨_, _, rfl⟩

theorem fields_inj {C D : String} {k k' : ConstructorTree} {fs gs : List BindingTree}
    (h : (BindingTree.fieldPhrase.list List.flatten).lexemes fs ++
        ((ConstructorTree.phrase C).lexemes k ++ r) =
      (BindingTree.fieldPhrase.list List.flatten).lexemes gs ++
        ((ConstructorTree.phrase D).lexemes k' ++ r')) : fs = gs ∧ k = k' ∧ r = r' := by
  obtain ⟨rfl, hrest⟩ := flatten_inj BindingTree.not_opensConstructor
    (fun f g r r' h => BindingTree.field_lexemes_inj h) (k.opensConstructor C r)
    (k'.opensConstructor D r') h
  obtain ⟨rfl, rfl⟩ := ConstructorTree.lexemes_inj hrest
  exact ⟨rfl, rfl, rfl⟩

theorem MethodTree.lexemes_begins (m : MethodTree) (r : List Lexeme) :
    Follows (· ≠ .symbol .rbrace) (phrase.lexemes m ++ r) := by
  obtain ⟨Xs, T, x, ps, e⟩ := m
  cases Xs with
  | nil =>
    cases T with
    | name C => exact .cons (by simp)
    | applied C Ts => exact .cons (by simp)
  | cons X Xs => exact .cons (by simp)

theorem methods_inj {ms ms' : List MethodTree}
    (h : (MethodTree.phrase.list List.flatten).lexemes ms ++ .symbol .rbrace :: r =
      (MethodTree.phrase.list List.flatten).lexemes ms' ++ .symbol .rbrace :: r') :
    ms = ms' ∧ r = r' := by
  have hstop (m : MethodTree) (r : List Lexeme) :
      ¬ Follows (· = .symbol .rbrace) (MethodTree.phrase.lexemes m ++ r) := by
    obtain ⟨l, ls, hlex, hl⟩ := m.lexemes_begins r
    rw [hlex]
    exact fun h => hl h.of_cons
  obtain ⟨rfl, hr⟩ := flatten_inj hstop (fun m m' r r' h => MethodTree.lexemes_inj h)
    (.cons rfl) (.cons rfl) h
  exact ⟨rfl, (List.cons.inj hr).2⟩

theorem ClassTree.lexemes_inj {c c' : ClassTree}
    (h : phrase.lexemes c ++ r = phrase.lexemes c' ++ r') : c = c' ∧ r = r' := by
  obtain ⟨C, Xs, N, fs, k, ms⟩ := c
  obtain ⟨C', Xs', N', fs', k', ms'⟩ := c'
  simp only [phrase, List.cons_append, List.append_assoc, List.cons.injEq, Lexeme.ident.injEq,
    true_and, List.nil_append] at h
  obtain ⟨rfl, h⟩ := h
  obtain ⟨rfl, hsuper⟩ := typeParams_determined Xs (.cons (by simp)) (.cons (by simp)) h
  simp only [List.cons.injEq, true_and] at hsuper
  obtain ⟨rfl, hbody⟩ := N.determined (.cons (by simp)) (.cons (by simp)) hsuper
  obtain ⟨rfl, rfl, hmethods⟩ := fields_inj (List.cons.inj hbody).2
  obtain ⟨rfl, rfl⟩ := methods_inj hmethods
  exact ⟨rfl, rfl⟩

theorem ProgramTree.lexemes_inj {p q : ProgramTree} (h : phrase.lexemes p = phrase.lexemes q) :
    p = q := by
  obtain ⟨cs, e⟩ := p
  obtain ⟨cs', e'⟩ := q
  have hstop (c : ClassTree) (r : List Lexeme) :
      ¬ Follows (Parse.startsTerm · = true) (ClassTree.phrase.lexemes c ++ r) :=
    fun h => by cases h.of_cons
  have hterm (e : TermTree) : Follows (Parse.startsTerm · = true) (e.lexemes ++ [.eof]) := by
    obtain ⟨l, ls, hlex, hl⟩ := e.lexemes_begins
    exact ⟨l, ls ++ [.eof], by rw [hlex]; rfl, hl⟩
  obtain ⟨rfl, hrest⟩ := flatten_inj hstop (fun c c' r r' h => ClassTree.lexemes_inj h)
    (hterm e) (hterm e') h
  have heof : Follows Closes [.eof] := .cons (.inr (.inr (.inr rfl)))
  rw [(e.determined heof heof hrest).1]

end Grammar

end Featherweight

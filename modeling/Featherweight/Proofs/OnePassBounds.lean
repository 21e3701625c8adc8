import Featherweight.Proofs.Cursor
import Featherweight.Proofs.ParsedTypes

/-!
# Type parameters in one pass

A list of type parameters is read with raw bounds, which are resolved once all names of the
list are known. If the names are known beforehand, each bound can be read as a class type
at once. `directTypeParams` looks ahead for the names and reads the list in this way.

The two readers differ in one thing: a raw bound has no empty list of arguments. Where no
`<` of the list has a `>` right behind it, they take the same lists in every state, also
behind the end of a token list, where a last `>` closes as many brackets as are open.
-/

namespace Featherweight

namespace Parse

open Grammar

variable {α β τ : Type} {x : ParseM α} {y : ParseM β} {s s₁ s' : State} {n k : Nat}
  {l : Lexeme} {ls ms : List Lexeme} {σ : List (List String)}

def boundedNames (bound : ParseM α) : Nat → List String → ParseM (List (String × α))
  | 0, _ => endless
  | k + 1, seen => do
    let X ← identifier "type variable"
    requireBehind (X ∉ seen) .duplicateTypeVariable
    expect (.keyword .extendsWord) "\"extends\" in type parameter"
    let N ← bound
    if ← accept (.symbol .comma) then
      return (X, N) :: (← boundedNames bound k (X :: seen))
    else
      return [(X, N)]

theorem rawTypeParams_eq_boundedNames {seen : List String} :
    rawTypeParams n k seen = boundedNames (rawBound n) k seen := by
  induction k generalizing seen with
  | zero => rfl
  | succ k ih => simp only [rawTypeParams, boundedNames, ih]

/-- How many brackets are open behind this lexeme, if `d` are before it and it does not close
the list around them. -/
def openBehind (d : Nat) : Lexeme → Option Nat
  | .symbol .lt => some (d + 1)
  | .symbol .gt => if d = 0 then none else some (d - 1)
  | _ => some d

def upToClosing (d : Nat) : List Lexeme → List Lexeme
  | [] => []
  | l :: ls =>
    match openBehind d l with
    | some d' => l :: upToClosing d' ls
    | none => [l]

def bracketedAhead : List Lexeme → List Lexeme
  | .symbol .lt :: ls => .symbol .lt :: upToClosing 0 ls
  | _ => []

def boundNames : List Lexeme → List String
  | .ident X :: .keyword .extendsWord :: ls => X :: boundNames ls
  | _ :: ls => boundNames ls
  | [] => []

/-- A list of type parameters, possibly missing. The scope of its names is opened first. -/
def directTypeParams (n : Nat) : ParseM (List TypeParam) := do
  openScope (boundNames (bracketedAhead (← get).lexemes))
  if ← accept (.symbol .lt) then
    let Xs ← boundedNames (classTy n "type or type variable name") n []
    expect (.symbol .gt) "'>' at end of type parameter list"
    return Xs.map fun X => ⟨X.1, X.2⟩
  else
    return []

/-- All brackets are closed in these lexemes, so that none of them ends a list around. -/
def Balanced (ls : List Lexeme) : Prop :=
  ∀ d ms, upToClosing d (ls ++ ms) = ls ++ upToClosing d ms

theorem balanced_nil : Balanced [] := fun _ _ => rfl

theorem Balanced.cons (hls : Balanced ls) (hl : ∀ d, openBehind d l = some d) :
    Balanced (l :: ls) := by
  intro d ms
  simp only [List.cons_append, upToClosing, hl, hls d ms]

theorem Balanced.append (hls : Balanced ls) (hms : Balanced ms) : Balanced (ls ++ ms) := by
  intro d rest
  rw [List.append_assoc, hls, hms, List.append_assoc]

theorem balanced_commaSeparated {items : List (List Lexeme)} (h : ∀ ls ∈ items, Balanced ls) :
    Balanced (commaSeparated items) := by
  induction items with
  | nil => exact balanced_nil
  | cons ls items ih =>
    rw [List.forall_mem_cons] at h
    cases items with
    | nil =>
      rw [commaSeparated_singleton]
      exact h.1
    | cons ms items =>
      rw [commaSeparated_cons (List.cons_ne_nil _ _)]
      exact h.1.append ((ih h.2).cons fun _ => rfl)

theorem balanced_bracketed {items : List (List Lexeme)} (h : ∀ ls ∈ items, Balanced ls) :
    Balanced (bracketed items) := by
  intro d ms
  have hitems : upToClosing (d + 1) (commaSeparated items ++ .symbol .gt :: ms) =
      commaSeparated items ++ .symbol .gt :: upToClosing d ms := by
    rw [balanced_commaSeparated h]
    rfl
  simp only [bracketed, List.cons_append, List.append_assoc, List.nil_append, upToClosing,
    openBehind, hitems]

theorem balanced_type (T : TypeTree) : Balanced T.lexemes := by
  induction T using TypeTree.induction with
  | name C => exact balanced_nil.cons fun _ => rfl
  | applied C Ts ih =>
    rw [TypeTree.lexemes_applied]
    exact (balanced_bracketed (List.forall_mem_map.2 ih)).cons fun _ => rfl

theorem bracketedAhead_bracketed {items : List (List Lexeme)} (h : ∀ ls ∈ items, Balanced ls) :
    bracketedAhead (bracketed items ++ ms) = bracketed items := by
  have hitems : upToClosing 0 (commaSeparated items ++ .symbol .gt :: ms) =
      commaSeparated items ++ [.symbol .gt] := by
    rw [balanced_commaSeparated h]
    rfl
  simp only [bracketed, List.cons_append, List.append_assoc, List.nil_append, bracketedAhead,
    hitems]

theorem upToClosing_cut {d : Nat} (h : ms <+: upToClosing d ls) : upToClosing d ms = ms := by
  induction ms generalizing d ls with
  | nil => rfl
  | cons m ms ih =>
    cases ls with
    | nil => exact absurd (List.prefix_nil.1 h) (List.cons_ne_nil _ _)
    | cons l ls =>
      rw [upToClosing] at h
      split at h
      · next d' hd =>
        obtain ⟨rfl, h'⟩ := List.cons_prefix_cons.1 h
        simp only [upToClosing, hd, ih h']
      · next hd =>
        obtain ⟨rfl, h'⟩ := List.cons_prefix_cons.1 h
        rw [upToClosing, hd, List.prefix_nil.1 h']

theorem bracketedAhead_cut (h : ms <+: bracketedAhead ls) : bracketedAhead ms = ms := by
  cases ms with
  | nil => rfl
  | cons m ms =>
    unfold bracketedAhead at h
    split at h
    · obtain ⟨rfl, h'⟩ := List.cons_prefix_cons.1 h
      rw [bracketedAhead, upToClosing_cut h']
    · exact absurd (List.prefix_nil.1 h) (List.cons_ne_nil _ _)

theorem boundNames_append_symbol {c : Symbol} :
    boundNames (ls ++ .symbol c :: ms) = boundNames ls ++ boundNames ms := by
  fun_induction boundNames ls with
  | case1 X ls ih => rw [List.cons_append, List.cons_append, boundNames, ih, List.cons_append]
  | case2 l ls hne ih =>
    rw [List.cons_append, boundNames, ih]
    intro X ms' hl hms
    cases ls with
    | nil => simp at hms
    | cons m ls => exact hne X ls hl (by simpa using (List.cons.inj hms).1)
  | case3 => simp [boundNames]

theorem boundNames_eq_nil (h : .keyword .extendsWord ∉ ls) : boundNames ls = [] := by
  fun_induction boundNames ls with
  | case1 X ls ih => simp at h
  | case2 l ls hne ih => exact ih fun hmem => h (List.mem_cons_of_mem l hmem)
  | case3 => rfl

theorem type_ne_extends (T : TypeTree) : ∀ l ∈ T.lexemes, l ≠ .keyword .extendsWord := by
  induction T using TypeTree.induction with
  | name C => simp [TypeTree.lexemes]
  | applied C Ts ih =>
    have hargs : ∀ l ∈ commaSeparated (Ts.map TypeTree.lexemes), l ≠ .keyword .extendsWord :=
      forall_mem_commaSeparated (by simp) (List.forall_mem_map.2 ih)
    rw [TypeTree.lexemes_applied, bracketed, List.forall_mem_cons, List.forall_mem_cons,
      List.forall_mem_append, List.forall_mem_singleton]
    exact ⟨by simp, by simp, hargs, by simp⟩

theorem boundNames_param (X : TypeParamTree) {c : Symbol} :
    boundNames (TypeParamTree.phrase.lexemes X ++ .symbol c :: ms) = X.name :: boundNames ms := by
  have hbound : boundNames X.bound.lexemes = [] :=
    boundNames_eq_nil fun h => type_ne_extends X.bound _ h rfl
  change X.name :: boundNames (X.bound.lexemes ++ .symbol c :: ms) = _
  rw [boundNames_append_symbol, hbound, List.nil_append]

theorem boundNames_bracketed (Xs : List TypeParamTree) :
    boundNames (bracketed (Xs.map TypeParamTree.phrase.lexemes)) = names Xs := by
  change boundNames (commaSeparated (Xs.map TypeParamTree.phrase.lexemes) ++ [.symbol .gt]) = _
  induction Xs with
  | nil => rfl
  | cons X Xs ih =>
    cases Xs with
    | nil =>
      rw [List.map_singleton, commaSeparated_singleton, boundNames_param]
      rfl
    | cons X' Xs =>
      rw [List.map_cons, commaSeparated_cons (by simp), List.append_assoc, List.cons_append,
        boundNames_param, ih]
      rfl

theorem infix_commaSeparated {items : List (List Lexeme)} (h : ls ∈ items) :
    ls <:+: commaSeparated items := by
  induction items with
  | nil => exact absurd h List.not_mem_nil
  | cons ms items ih =>
    cases items with
    | nil =>
      have hls : ls = commaSeparated [ms] :=
        (List.mem_singleton.1 h).trans (commaSeparated_singleton ms).symm
      exact hls ▸ List.infix_refl ls
    | cons ms' items =>
      rw [commaSeparated_cons (List.cons_ne_nil _ _)]
      rcases List.mem_cons.1 h with rfl | h
      · exact (List.prefix_append _ _).isInfix
      · exact ((ih h).trans (List.suffix_cons _ _).isInfix).trans (List.suffix_append _ _).isInfix

theorem infix_bracketed {items : List (List Lexeme)} (h : ls ∈ items) :
    ls <:+: bracketed items :=
  ((infix_commaSeparated h).trans (List.prefix_append _ _).isInfix).trans
    (List.suffix_cons _ _).isInfix

theorem plain_of_not_infix {T : TypeTree} (h : ¬ [.symbol .lt, .symbol .gt] <:+: T.lexemes) :
    T.Plain := by
  induction T using TypeTree.induction with
  | name C => trivial
  | applied C Ts ih =>
    rw [TypeTree.lexemes_applied] at h
    refine TypeTree.plain_applied_iff.2 ⟨?_, fun T hT => ih T hT fun hempty => h ?_⟩
    · rintro rfl
      exact h (List.suffix_cons _ _).isInfix
    · exact (hempty.trans (infix_bracketed (List.mem_map_of_mem hT))).trans
        (List.suffix_cons _ _).isInfix

theorem State.Past.lexemes_or (h : s.Past ls s') : s.lexemes = ls ++ s'.lexemes ∨
    ∃ m, ls = s.lexemes ++ List.replicate m s.last.lexeme := by
  induction ls generalizing s with
  | nil => exact .inl (by rw [State.past_nil_iff.1 h, List.nil_append])
  | cons l ls ih =>
    obtain ⟨s₁, ⟨hl, hne, rfl⟩, h⟩ := h
    cases hahead : s.ahead with
    | nil =>
      have hadvance : s.advance = s := by simp [State.advance, hahead]
      have hlexemes : s.lexemes = [] := by simp [State.lexemes, hahead]
      have hl : s.last.lexeme = l := by simpa [State.current, hahead] using hl
      rw [hadvance] at h
      rcases ih h with hls | ⟨m, hm⟩
      · have hnil : ls = [] := (List.append_eq_nil_iff.1 (hls.symm.trans hlexemes)).1
        exact .inr ⟨1, by rw [hnil, hlexemes, hl]; rfl⟩
      · refine .inr ⟨m + 1, ?_⟩
        rw [hm, hlexemes, List.replicate_succ, hl]
        rfl
    | cons k ks =>
      have hk : k.lexeme = l := by simpa [State.current, hahead] using hl
      have hrest : s.lexemes = l :: s.advance.lexemes := by
        simp [State.lexemes, State.advance, hahead, hk, hne]
      have hlast : s.advance.last = s.last := by
        simp [State.advance, hahead, hk, hne]
      rcases ih h with hls | ⟨m, hm⟩
      · exact .inl (by rw [hrest, hls, List.cons_append])
      · exact .inr ⟨m, by rw [hrest, hm, hlast, List.cons_append]⟩

theorem State.At.getLast?_lexemes {tokens : List Token} {i : Nat} (hs : s.At tokens i)
    (hne : s.ahead ≠ []) : s.lexemes.getLast? = some s.last.lexeme := by
  have hi : ¬ tokens.length ≤ i := fun hi => hne (by rw [hs.ahead, List.drop_of_length_le hi])
  rw [State.lexemes, List.getLast?_map, hs.ahead, List.getLast?_drop, if_neg hi, hs.last,
    Option.map_some]

section Ahead

variable {tokens : List Token} {i : Nat}

theorem exists_bracketedAhead {items : List (List Lexeme)} (hs : s.At tokens i)
    (hitems : ∀ ls ∈ items, Balanced ls) (h : s.Past (bracketed items) s') :
    ∃ m, bracketed items = bracketedAhead s.lexemes ++ List.replicate m (.symbol .gt) ∧
      (m ≠ 0 → (bracketedAhead s.lexemes).getLast? = some (.symbol .gt)) := by
  rcases h.lexemes_or with hls | ⟨m, hm⟩
  · refine ⟨0, ?_, absurd rfl⟩
    rw [hls, bracketedAhead_bracketed hitems, List.replicate_zero, List.append_nil]
  · have hseen : s.lexemes <+: bracketedAhead (bracketed items ++ []) := by
      rw [bracketedAhead_bracketed hitems, hm]
      exact List.prefix_append _ _
    have hcut : bracketedAhead s.lexemes = s.lexemes := bracketedAhead_cut hseen
    have hne : s.ahead ≠ [] := by
      intro hnil
      have hlexemes : s.lexemes = [] := by simp [State.lexemes, hnil]
      have hall : ∀ l ∈ bracketed items, l = s.last.lexeme := fun l hl =>
        List.eq_of_mem_replicate (by rwa [hm, hlexemes, List.nil_append] at hl)
      have hlt := hall (.symbol .lt) (by simp [bracketed])
      have hgt := hall (.symbol .gt) (by simp [bracketed])
      cases hlt.trans hgt.symm
    cases m with
    | zero => exact ⟨0, by rw [hcut, hm]; rfl, absurd rfl⟩
    | succ m =>
      have hgt : s.last.lexeme = .symbol .gt := by
        have hlast := congrArg List.getLast? hm
        rw [bracketed, ← List.cons_append, List.getLast?_concat] at hlast
        simpa [List.getLast?_append, List.getLast?_replicate] using hlast.symm
      refine ⟨m + 1, by rw [hcut, hm, hgt], fun _ => ?_⟩
      rw [hcut, hs.getLast?_lexemes hne, hgt]

theorem balanced_params {Xs : List TypeParamTree} :
    ∀ ls ∈ Xs.map TypeParamTree.phrase.lexemes, Balanced ls :=
  List.forall_mem_map.2 fun X _ => ((balanced_type X.bound).cons fun _ => rfl).cons fun _ => rfl

theorem boundNames_ahead {Xs : List TypeParamTree} (hs : s.At tokens i)
    (h : s.Past (bracketed (Xs.map TypeParamTree.phrase.lexemes)) s') :
    boundNames (bracketedAhead s.lexemes) = names Xs := by
  obtain ⟨m, hm, -⟩ := exists_bracketedAhead hs balanced_params h
  rw [← boundNames_bracketed, hm]
  cases m with
  | zero => rw [List.replicate_zero, List.append_nil]
  | succ m =>
    have hnil : boundNames (List.replicate m (.symbol .gt)) = [] :=
      boundNames_eq_nil fun hmem => by cases List.eq_of_mem_replicate hmem
    rw [List.replicate_succ, boundNames_append_symbol, hnil, List.append_nil]

theorem infix_of_infix_append_closing {m : Nat}
    (h : [.symbol .lt, .symbol .gt] <:+: ls ++ List.replicate m (.symbol .gt))
    (hls : m ≠ 0 → ls.getLast? = some (.symbol .gt)) : [.symbol .lt, .symbol .gt] <:+: ls := by
  induction m with
  | zero => rwa [List.replicate_zero, List.append_nil] at h
  | succ m ih =>
    have hgt := hls (Nat.succ_ne_zero m)
    rw [List.replicate_succ', ← List.append_assoc, List.infix_concat_iff] at h
    refine ih (h.resolve_left fun hsuffix => ?_) fun _ => hgt
    -- The bracket read last would be right behind a `<`, but another `>` is there.
    have hlast : (ls ++ List.replicate m (Lexeme.symbol .gt)).getLast? = some (.symbol .gt) := by
      cases m with
      | zero => simpa using hgt
      | succ m => simp [List.getLast?_append, List.getLast?_replicate]
    obtain hnil | ⟨t, ht, hsuffix⟩ := List.suffix_concat_iff.1 hsuffix
    · cases hnil
    · obtain rfl : [.symbol .lt] = t := List.append_cancel_right ht
      obtain ⟨ms, hms⟩ := hsuffix
      rw [← hms, List.getLast?_concat] at hlast
      cases hlast

theorem plain_of_ahead {Xs : List TypeParamTree} (hs : s.At tokens i)
    (h : s.Past (bracketed (Xs.map TypeParamTree.phrase.lexemes)) s')
    (hlist : ¬ [.symbol .lt, .symbol .gt] <:+: bracketedAhead s.lexemes) :
    ∀ X ∈ Xs, X.bound.Plain := by
  intro X hX
  obtain ⟨m, hm, hlast⟩ := exists_bracketedAhead hs balanced_params h
  refine plain_of_not_infix fun hempty => hlist (infix_of_infix_append_closing ?_ hlast)
  rw [← hm]
  exact (hempty.trans ((List.suffix_cons _ _).trans (List.suffix_cons _ _)).isInfix).trans
    (infix_bracketed (List.mem_map_of_mem hX))

end Ahead

theorem State.Step.under (h : s.Step l s') : (s.under σ).Step l (s'.under σ) := by
  obtain ⟨hl, hne, rfl⟩ := h
  exact ⟨hl, hne, State.advance_under s σ⟩

theorem State.Past.under (h : s.Past ls s') : (s.under σ).Past ls (s'.under σ) := by
  induction ls generalizing s with
  | nil => rw [State.past_nil_iff.1 h, State.past_nil_iff]
  | cons l ls ih =>
    obtain ⟨s₁, h₁, h⟩ := h
    exact h₁.under.past (ih h)

/-- What `x` reads as a phrase of one kind, `y` reads as a phrase of the other kind under all
scopes where it is admitted. -/
def Retells (x : ParseM α) (P : Phrase τ α) (y : ParseM β) (Q : Phrase τ β) : Prop :=
  ∀ ⦃s a s'⦄, Takes x s a s' → ∃ t, s.Spells P t a s' ∧ ∀ σ : List (List String),
    Q.Valid σ.flatten t → Takes y (s.under σ) (Q.meaning σ.flatten t) (s'.under σ)

theorem Retells.commaSep {P : Phrase τ α} {Q : Phrase τ β} (hx : Retells x P y Q) :
    Retells (commaSep x k) P.items (commaSep y k) Q.items := by
  induction k with
  | zero => exact fun _ _ _ h => absurd h not_takes_endless
  | succ k ih =>
    intro s as s' h
    simp only [Parse.commaSep, takes_bind_iff (x := x), takes_accept_bind_iff (symbol_ne_eof _),
      if_true, Bool.false_eq_true, if_false, takes_pure_iff] at h
    obtain ⟨a, s₁, ha, h⟩ := h
    obtain ⟨t, ht, hy⟩ := hx ha
    rcases h with ⟨s₂, h₂, h⟩ | ⟨hcomma, rfl, rfl⟩
    · obtain ⟨as, _, has, h⟩ := takes_bind_iff.1 h
      obtain ⟨rfl, rfl⟩ := takes_pure_iff.1 h
      obtain ⟨ts, hts, hys⟩ := ih has
      refine ⟨t :: ts, (State.spells_items_cons_iff hts.valid.1).2
        ⟨a, s₁, ht, s₂, h₂, as, hts, rfl⟩, fun σ hvalid => ?_⟩
      obtain ⟨hvalid, hvalids⟩ := List.forall_mem_cons.1 hvalid.2
      refine takes_bind_iff.2 ⟨_, _, hy σ hvalid, ?_⟩
      refine (takes_accept_bind_iff (symbol_ne_eof _)).2 (.inl ⟨_, h₂.under, ?_⟩)
      exact takes_bind_iff.2 ⟨_, _, hys σ ⟨hts.valid.1, hvalids⟩, takes_pure_iff.2 ⟨rfl, rfl⟩⟩
    · refine ⟨[t], State.spells_items_singleton_iff.2 ⟨a, ht, rfl⟩, fun σ hvalid => ?_⟩
      refine takes_bind_iff.2 ⟨_, _, hy σ (hvalid.2 t (List.mem_singleton_self t)), ?_⟩
      exact (takes_accept_bind_iff (symbol_ne_eof _)).2
        (.inr ⟨hcomma, takes_pure_iff.2 ⟨rfl, rfl⟩⟩)

theorem Retells.boundedNames {P : Phrase TypeTree α} {Q : Phrase TypeTree β}
    (hx : Retells x P y Q) {seen : List String} :
    Retells (boundedNames x k seen) (namedPhrase P).items (boundedNames y k seen)
      (namedPhrase Q).items := by
  induction k generalizing seen with
  | zero => exact fun _ _ _ h => absurd h not_takes_endless
  | succ k ih =>
    intro s ps s' h
    simp only [Parse.boundedNames, takes_identifier_bind_iff, takes_requireBehind_bind_iff,
      takes_expect_bind_iff (keyword_ne_eof _), takes_bind_iff (x := x),
      takes_accept_bind_iff (symbol_ne_eof _), if_true, Bool.false_eq_true, if_false,
      takes_pure_iff] at h
    obtain ⟨X, s₁, h₁, hX, s₂, h₂, N, s₃, hN, h⟩ := h
    obtain ⟨t, ht, hy⟩ := hx hN
    have hitem : s.Spells (namedPhrase P) ⟨X, t⟩ (X, N) s₃ :=
      spells_named_iff.2 ⟨s₁, h₁, s₂, h₂, N, ht, rfl⟩
    simp only [Parse.boundedNames, takes_identifier_bind_iff, takes_requireBehind_bind_iff,
      takes_expect_bind_iff (keyword_ne_eof _), takes_bind_iff (x := y),
      takes_accept_bind_iff (symbol_ne_eof _), if_true, Bool.false_eq_true, if_false,
      takes_pure_iff]
    rcases h with ⟨s₄, h₄, h⟩ | ⟨hcomma, rfl, rfl⟩
    · obtain ⟨ps, _, hps, h⟩ := takes_bind_iff.1 h
      obtain ⟨rfl, rfl⟩ := takes_pure_iff.1 h
      obtain ⟨Xs, hXs, hys⟩ := ih hps
      refine ⟨⟨X, t⟩ :: Xs, (State.spells_items_cons_iff hXs.valid.1).2
        ⟨_, s₃, hitem, s₄, h₄, ps, hXs, rfl⟩, fun σ hvalid => ?_⟩
      obtain ⟨hvalid, hvalids⟩ := List.forall_mem_cons.1 hvalid.2
      refine ⟨X, _, h₁.under, hX, _, h₂.under, _, _, hy σ hvalid, .inl ⟨_, h₄.under, ?_⟩⟩
      exact takes_bind_iff.2 ⟨_, _, hys σ ⟨hXs.valid.1, hvalids⟩, takes_pure_iff.2 ⟨rfl, rfl⟩⟩
    · refine ⟨[⟨X, t⟩], State.spells_items_singleton_iff.2 ⟨_, hitem, rfl⟩, fun σ hvalid => ?_⟩
      have hvalid : Q.Valid σ.flatten t := hvalid.2 _ (List.mem_singleton_self _)
      exact ⟨X, _, h₁.under, hX, _, h₂.under, _, _, hy σ hvalid, .inr ⟨hcomma, rfl, rfl⟩⟩

theorem takes_typeArgs_iff {item : ParseM Ty} {Ts : List Ty} :
    Takes (typeArgs item n) s Ts s' ↔ (s.current.lexeme ≠ .symbol .lt ∧ [] = Ts ∧ s = s') ∨
      ∃ s₁, s.Step (.symbol .lt) s₁ ∧ ((s₁.Step (.symbol .gt) s' ∧ [] = Ts) ∨
        (s₁.current.lexeme ≠ .symbol .gt ∧
          ∃ s₂, Takes (commaSep item n) s₁ Ts s₂ ∧ s₂.Step (.symbol .gt) s')) := by
  simp only [typeArgs, takes_accept_bind_iff (symbol_ne_eof _), if_true, Bool.false_eq_true,
    if_false, takes_pure_iff, takes_bind_iff (x := commaSep item n),
    takes_expect_bind_iff (symbol_ne_eof _)]
  grind

theorem begins_raw : Begins rawPhrase fun l => ∃ C, l = .ident C := begins_ident

theorem retells_rawBound (what : String) :
    Retells (rawBound n) rawPhrase (ty n what) TypeTree.phrase := by
  induction n generalizing what with
  | zero => exact fun _ _ _ h => absurd h not_takes_endless
  | succ n ih =>
    intro s T s' h
    obtain ⟨C, s₁, h₁, ⟨s₂, h₂, Ts, s₃, hTs, h₃, rfl⟩ | ⟨hlt, rfl, rfl⟩⟩ :=
      takes_rawBound_succ_iff.1 h
    · obtain ⟨ts, hts, hargs⟩ := (ih "type argument").commaSep hTs
      refine ⟨.applied C ts, ⟨(TypeTree.plain_applied_iff (C := C)).2 hts.valid, ?_,
        past_applied_iff.2 ⟨s₁, h₁, s₂, h₂, s₃, hts.past, h₃⟩⟩, fun σ hvalid => ?_⟩
      · exact congrArg _ ((raws_eq_map ts).trans hts.meaning)
      · obtain ⟨hC, hvalids⟩ := TypeTree.valid_applied_iff.1 hvalid
        obtain ⟨D, hD⟩ := hts.begins_items begins_raw
        have hgt : (s₂.under σ).current.lexeme ≠ .symbol .gt := fun h => by cases hD.symm.trans h
        refine takes_ty_succ_iff.2 ⟨C, _, h₁.under, .inr ⟨hC, _, takes_typeArgs_iff.2 (.inr
          ⟨_, h₂.under, .inr ⟨hgt, _, hargs σ ⟨hts.valid.1, hvalids⟩, h₃.under⟩⟩), ?_⟩⟩
        exact congrArg _ (TypeTree.tys_eq_map _ _).symm
    · refine ⟨.name C, ⟨trivial, rfl, State.past_singleton_iff.2 h₁⟩, fun σ _ => ?_⟩
      refine takes_ty_succ_iff.2 ⟨C, _, h₁.under, ?_⟩
      by_cases hC : C ∈ σ.flatten
      · exact .inl ⟨hC, hlt, (if_pos hC).symm, rfl⟩
      · exact .inr ⟨hC, [], takes_typeArgs_iff.2 (.inl ⟨hlt, rfl, rfl⟩), (if_neg hC).symm⟩

theorem retells_ty {what : String} :
    Retells (ty n what) TypeTree.phrase (rawBound n) rawPhrase := by
  induction n generalizing what with
  | zero => exact fun _ _ _ h => absurd h not_takes_endless
  | succ n ih =>
    intro s T s' h
    -- A name without arguments, whatever it means.
    have hname {σ : List (List String)} {C : String} {s₁ : State} (h₁ : s.Step (.ident C) s₁)
        (hlt : s₁.current.lexeme ≠ .symbol .lt) :
        Takes (rawBound (n + 1)) (s.under σ) (.var C) (s₁.under σ) :=
      takes_rawBound_succ_iff.2 ⟨C, _, h₁.under, .inr ⟨hlt, rfl, rfl⟩⟩
    obtain ⟨C, s₁, h₁, ⟨hC, hlt, rfl, rfl⟩ | ⟨hC, Ts, hTs, rfl⟩⟩ := takes_ty_succ_iff.1 h
    · exact ⟨.name C, ⟨trivial, if_pos hC, State.past_singleton_iff.2 h₁⟩, fun _ _ => hname h₁ hlt⟩
    · rcases takes_typeArgs_iff.1 hTs with ⟨hlt, rfl, rfl⟩ | ⟨s₂, h₂, ⟨h₃, rfl⟩ | ⟨-, s₃, hTs, h₃⟩⟩
      · exact ⟨.name C, ⟨trivial, if_neg hC, State.past_singleton_iff.2 h₁⟩,
          fun _ _ => hname h₁ hlt⟩
      · refine ⟨.applied C [], ⟨TypeTree.valid_applied_iff.2 ⟨hC, nofun⟩, rfl,
          past_applied_iff.2 ⟨s₁, h₁, s₂, h₂, s₂, rfl, h₃⟩⟩, fun σ hplain => ?_⟩
        exact absurd rfl (TypeTree.plain_applied_iff (C := C).1 hplain).1
      · obtain ⟨ts, hts, hargs⟩ := ih.commaSep hTs
        have hvars : s₂.vars = s.vars := h₂.vars.trans h₁.vars
        obtain ⟨⟨hne, hvalids⟩, rfl, hpast⟩ := (State.spells_iff hvars).1 hts
        refine ⟨.applied C ts, ⟨TypeTree.valid_applied_iff.2 ⟨hC, hvalids⟩, ?_,
          past_applied_iff.2 ⟨s₁, h₁, s₂, h₂, s₃, hpast, h₃⟩⟩, fun σ hplain => ?_⟩
        · exact congrArg _ (TypeTree.tys_eq_map _ _)
        · refine takes_rawBound_succ_iff.2 ⟨C, _, h₁.under, .inl ⟨_, h₂.under, _, _,
            hargs σ (TypeTree.plain_applied_iff (C := C).1 hplain), h₃.under, ?_⟩⟩
          exact congrArg _ (raws_eq_map ts).symm

theorem retells_rawBound_classTy (what : String) :
    Retells (rawBound n) rawPhrase (classTy n what) TypeTree.nonVarPhrase := by
  intro s T s' h
  obtain ⟨t, ht, hty⟩ := retells_rawBound what h
  refine ⟨t, ht, fun σ hvalid => takes_classTy_iff.2 ?_⟩
  obtain ⟨hvalid, hmeaning⟩ := TypeTree.nonVar_classTy_iff.1 ⟨hvalid, rfl⟩
  exact hmeaning ▸ hty σ hvalid

theorem retells_classTy {what : String} :
    Retells (classTy n what) TypeTree.nonVarPhrase (rawBound n) rawPhrase := by
  intro s N s' h
  obtain ⟨t, ⟨hvalid, hmeaning, hpast⟩, hraw⟩ := retells_ty (takes_classTy_iff.1 h)
  obtain ⟨hvalid, hmeaning⟩ := TypeTree.nonVar_classTy_iff.2 ⟨hvalid, hmeaning⟩
  exact ⟨t, ⟨hvalid, hmeaning, hpast⟩, hraw⟩

theorem bracketedAhead_eq_nil (h : s.current.lexeme ≠ .symbol .lt) :
    bracketedAhead s.lexemes = [] := by
  unfold bracketedAhead
  split
  · next ls hls =>
    refine absurd ?_ h
    cases hahead : s.ahead with
    | nil => simp [State.lexemes, hahead] at hls
    | cons k ks =>
      rw [State.lexemes, hahead, List.map_cons, List.cons.injEq] at hls
      rw [State.current, hahead, List.headD_cons, hls.1]
  · rfl

theorem map_fst_named {P : Phrase TypeTree α} {vars : List String} (Xs : List TypeParamTree) :
    ((namedPhrase P).items.meaning vars Xs).map Prod.fst = names Xs := by
  simp [namedPhrase, Phrase.items, names]

theorem map_named_classTy {vars : List String} (Xs : List TypeParamTree) :
    ((namedPhrase TypeTree.nonVarPhrase).items.meaning vars Xs).map (fun X => ⟨X.1, X.2⟩) =
      Xs.map (TypeParamTree.phrase.meaning vars) :=
  List.map_map

/-- Wherever a list of type parameters is read, in any scopes and also at the end of the tokens,
reading it in one pass gives the same: it succeeds if the two passes do, with the same
parameters, and leaves the same state. No `<` of the list has a `>` right behind it. -/
theorem takes_typeParams_iff_direct {tokens : List Token} {i : Nat}
    {Ys : List TypeParam} (hs : s.At tokens i)
    (hlist : ¬ [.symbol .lt, .symbol .gt] <:+: bracketedAhead s.lexemes) :
    Takes (typeParams n) s Ys s' ↔ Takes (directTypeParams n) s Ys s' := by
  simp only [typeParams, directTypeParams, rawTypeParams_eq_boundedNames, takes_get_bind_iff,
    takes_openScope_bind_iff, takes_accept_bind_iff (symbol_ne_eof _), if_true,
    Bool.false_eq_true, if_false, takes_bind_iff (x := boundedNames _ _ _),
    takes_expect_bind_iff (symbol_ne_eof _), takes_pure_iff]
  constructor
  · rintro (⟨s₁, h₁, ps, s₂, hps, s₃, h₃, hYs⟩ | ⟨hlt, rfl, rfl⟩)
    · obtain ⟨Xs, ⟨⟨hne, -⟩, rfl, hpast⟩, hdirect⟩ :=
        (retells_rawBound_classTy "type or type variable name").boundedNames hps
      obtain ⟨hbounds, rfl, rfl⟩ := takes_mapM_resolveTypeParam_iff.1 hYs
      have hpast₃ : s.Past (bracketed (Xs.map TypeParamTree.phrase.lexemes)) s₃ :=
        h₁.past (hpast.trans (State.past_singleton_iff.2 h₃))
      have hinside : s₃.inside (names Xs) = s₃.under (names Xs :: s.scopes) := by
        rw [State.inside, hpast₃.scopes, State.under]
      rw [map_fst_named, hinside] at hbounds ⊢
      rw [boundNames_ahead hs hpast₃]
      refine .inl ⟨_, h₁.under, _, _, hdirect _ ⟨hne, hbounds⟩, _, h₃.under,
        map_named_classTy Xs, rfl⟩
    · exact .inr ⟨hlt, rfl, by rw [bracketedAhead_eq_nil hlt]; rfl⟩
  · rintro (⟨s₁, h₁, ps, s₂, hps, s₃, h₃, rfl, rfl⟩ | ⟨hlt, rfl, rfl⟩)
    · obtain ⟨Xs, ⟨⟨hne, hbounds⟩, rfl, hpast⟩, hraw⟩ := retells_classTy.boundedNames hps
      have hpast₃ := h₁.past (hpast.trans (State.past_singleton_iff.2 h₃))
      have hahead : s.Past (bracketed (Xs.map TypeParamTree.phrase.lexemes)) (s₃.under s.scopes) :=
        hpast₃.under
      have hscopes : s₃.scopes = names Xs :: s.scopes := by
        rw [hpast₃.scopes, ← boundNames_ahead hs hahead, State.inside]
      have hinside : (s₃.under s.scopes).inside (names Xs) = s₃ := by
        rw [State.inside, State.under, ← hscopes]
      have hvars : s₃.vars = s₁.vars := by rw [h₃.vars, hpast.vars]
      refine .inl ⟨_, h₁.under, _, _, hraw s.scopes ⟨hne, plain_of_ahead hs hahead hlist⟩, _,
        h₃.under, ?_⟩
      rw [map_fst_named, hinside]
      refine takes_mapM_resolveTypeParam_iff.2 ⟨hvars ▸ hbounds, ?_, rfl⟩
      rw [hvars, map_named_classTy]
    · refine .inr ⟨hlt, rfl, ?_⟩
      have hnil : bracketedAhead s.lexemes = [] := bracketedAhead_eq_nil (s := s) hlt
      rw [hnil]
      rfl

/-- The list `<X extends A<Y>, Y extends B<X>`, where the tokens stop before its closing bracket,
inside of a class with the type variable `Z`. -/
def openList : State :=
  { State.start (tokenize "<X extends A<Y>, Y extends B<X>").dropLast with scopes := [["Z"]] }

theorem takes_typeParams_iff_direct_openList :
    ¬ [.symbol .lt, .symbol .gt] <:+: bracketedAhead openList.lexemes ∧
      ∃ Ys s', Takes (typeParams 20) openList Ys s' ∧ Takes (directTypeParams 20) openList Ys s' ∧
        s'.scopes = [["X", "Y"], ["Z"]] := by
  have hlist : ¬ [.symbol .lt, .symbol .gt] <:+: bracketedAhead openList.lexemes := by
    decide +kernel
  have hruns : ((typeParams 20).run.run openList).map (fun x => (x.1.isOk, x.2.scopes)) =
      some (true, [["X", "Y"], ["Z"]]) := by
    decide +kernel
  obtain ⟨⟨r, s'⟩, h, hruns⟩ := Option.map_eq_some_iff.1 hruns
  simp only [Prod.mk.injEq] at hruns
  obtain ⟨hok, hscopes⟩ := hruns
  cases r with
  | error e => cases hok
  | ok Ys =>
    have hstart := State.at_start (tokenize "<X extends A<Y>, Y extends B<X>").dropLast
    have hdirect : Takes (directTypeParams 20) openList Ys s' :=
      (takes_typeParams_iff_direct (s := openList)
        ⟨hstart.le, hstart.ahead, hstart.previous, hstart.last⟩ hlist).1 h
    exact ⟨hlist, Ys, s', h, hdirect, hscopes⟩

-- A raw bound has no empty list of arguments.
example : let s := State.start (tokenize "<X extends A<>>")
    ((typeParams 9).run.run s).map (·.1.isOk) = some false ∧
      ((directTypeParams 9).run.run s).map (·.1.isOk) = some true := by
  decide +kernel

end Parse

end Featherweight

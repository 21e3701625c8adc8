import Featherweight.Proofs.ParsedTerms
import Featherweight.Proofs.Results

/-!
# Programs as they are read

The parsers for declarations recognize their phrases, up to spans. The type variables
of a declaration are in scope from its parameters to its end, so inside of it every
phrase is read with them.
-/

namespace Featherweight

namespace Parse

open Grammar

variable {s s₁ s' : State} {n k : Nat}

theorem State.beginsConstructor_iff (hs : s.Ample n) :
    s.beginsConstructor = true ↔ OpensConstructor s.lexemes := by
  obtain ⟨ls, hls⟩ := hs.lexemes
  simp only [OpensConstructor, beginsConstructor, peek?_eq, hls, List.cons.injEq]
  split
  · next x h₁ h₂ =>
    simp only [List.getElem?_cons_succ] at h₂
    obtain ⟨ms, rfl⟩ : ∃ ms, ls = .symbol .lparen :: ms := by
      cases ls with
      | nil => cases h₂
      | cons l ms => exact ⟨ms, by simpa using h₂⟩
    exact iff_of_true rfl ⟨x, ms, h₁, rfl⟩
  · next h =>
    refine iff_of_false (by simp) ?_
    rintro ⟨x, ms, hx, rfl⟩
    exact h x hx rfl

theorem field_recognizes (n : Nat) :
    Recognizes n (do
      let T ← ty n "field type"
      let f ← identifier "field name"
      expect (.symbol .semicolon) "';' after field declaration"
      return (⟨T, f⟩ : Binding)) BindingTree.fieldPhrase fun _ => True := by
  intro s b s' hs _
  simp only [takes_bind_iff (x := ty _ _), takes_identifier_bind_iff,
    takes_expect_bind_iff (symbol_ne_eof _), takes_pure_iff]
  constructor
  · rintro ⟨T, s₁, hT, f, s₂, h₂, _, h₃, rfl, rfl⟩
    obtain ⟨t, hvalid, rfl, hpast⟩ := (ty_recognizes n _ hs (by simp [h₂.1])).1 hT
    exact ⟨⟨t, f⟩, hvalid, rfl, hpast.trans (h₂.past (State.past_singleton_iff.2 h₃))⟩
  · rintro ⟨⟨t, f⟩, hvalid, rfl, hpast⟩
    obtain ⟨s₁, hpast, s₂, h₂, h₃⟩ := State.past_append_iff.1 hpast
    rw [State.past_singleton_iff] at h₃
    exact ⟨_, s₁, (ty_recognizes n _ hs (by simp [h₂.1])).2 ⟨t, hvalid, rfl, hpast⟩, f, s₂, h₂,
      s', h₃, rfl, rfl⟩

theorem takes_fields_iff (hs : s.Ample n) {fs : List Binding} :
    Takes (fields n n) s fs s' ↔ s'.beginsConstructor = true ∧
      ∃ ts, s.Spells (BindingTree.fieldPhrase.list List.flatten) ts fs s' := by
  refine (field_recognizes n).loop (y := fields n) (B := fun _ => True)
    (Q := fun s => s.beginsConstructor = true) ?_ ?_ ?_ (Nat.le_refl n) hs
  · intro b
    obtain ⟨C, ls, hlex⟩ := b.ty.lexemes_begins
    exact ⟨_, _, congrArg (· ++ _) hlex, trivial⟩
  · intro s b f s' hs h
    rw [State.beginsConstructor_iff hs, h.past.lexemes hs]
    exact b.not_opensConstructor _
  · intro k s fs s' hs
    rw [fields, takes_get_bind_iff]
    split
    · next h => simp [h, takes_pure_iff]
    · next h =>
      rw [← takes_cons_iff]
      simp [h]

theorem initializer_recognizes (n : Nat) :
    Recognizes n (do
      expect (.keyword .thisWord) "\"this\" in field initialization"
      expect (.symbol .dot) "'.' after \"this\""
      let f ← identifier "field name"
      expect (.symbol .equals) "'=' in field initialization"
      let x ← identifier "parameter name"
      requireBehind (f = x) .initializerName
      expect (.symbol .semicolon) "';' after field initialization"
      return (⟨f, x⟩ : Initializer)) initializerPhrase fun _ => True := by
  intro s i s' hs _
  simp only [takes_expect_bind_iff (keyword_ne_eof _), takes_expect_bind_iff (symbol_ne_eof _),
    takes_identifier_bind_iff, takes_requireBehind_bind_iff, takes_pure_iff]
  constructor
  · rintro ⟨s₁, h₁, s₂, h₂, f, s₃, h₃, s₄, h₄, x, s₅, h₅, hfx, s₆, h₆, rfl, rfl⟩
    exact ⟨⟨f, x⟩, hfx, rfl, s₁, h₁, s₂, h₂, s₃, h₃, s₄, h₄, s₅, h₅, _, h₆, rfl⟩
  · rintro ⟨⟨f, x⟩, hfx, rfl, s₁, h₁, s₂, h₂, s₃, h₃, s₄, h₄, s₅, h₅, s₆, h₆, rfl⟩
    exact ⟨s₁, h₁, s₂, h₂, f, s₃, h₃, s₄, h₄, x, s₅, h₅, hfx, s₆, h₆, rfl, rfl⟩

theorem takes_initializers_iff (hs : s.Ample n) {is : List Initializer} :
    Takes (initializers n) s is s' ↔ s'.current.lexeme = .symbol .rbrace ∧
      ∃ ts, s.Spells (initializerPhrase.list List.flatten) ts is s' := by
  refine (initializer_recognizes n).loop (y := initializers) (B := fun _ => True)
    (Q := fun s => s.current.lexeme = .symbol .rbrace) ?_ ?_ ?_ (Nat.le_refl n) hs
  · exact fun i => ⟨_, _, rfl, trivial⟩
  · intro s i j s' hs h
    obtain ⟨s₁, h₁, -⟩ := h.past
    simp [h₁.1]
  · intro k s is s' hs
    rw [initializers, takes_sees_bind_iff]
    by_cases h : s.current.lexeme = .symbol .rbrace
    · simp [h, takes_pure_iff]
    · rw [← takes_cons_iff]
      simp [h]

theorem superArgs_recognizes (n : Nat) (opening list : String) :
    Recognizes n (parenthesized (identifier "field name") n opening list)
      (Phrase.name.list Grammar.parenthesized) fun _ => True :=
  (identifier_recognizes n _).parenthesized trivial trivial
    (fun x => ⟨.ident x, [], rfl, by simp⟩) _ _

theorem constructor_recognizes (n : Nat) (C : String) :
    Recognizes n (constructor n C) (ConstructorTree.phrase C) fun _ => True := by
  have hnames (vars : List String) (xs : List String) :
      (Phrase.name.list Grammar.parenthesized).meaning vars xs = xs := List.map_id xs
  have hinits (vars : List String) (is : List Initializer) :
      (initializerPhrase.list List.flatten).meaning vars is = is := List.map_id is
  intro s c s' hs _
  simp only [constructor, takes_identifier_bind_iff, takes_requireBehind_bind_iff,
    takes_bind_iff (x := params n), takes_expect_bind_iff (symbol_ne_eof _),
    takes_expect_bind_iff (keyword_ne_eof _), takes_bind_iff (x := parenthesized _ _ _ _),
    takes_bind_iff (x := initializers n), takes_pure_iff]
  constructor
  · rintro ⟨y, s₁, h₁, rfl, ps, s₂, hps, s₃, h₃, s₄, h₄, xs, s₅, hxs, s₆, h₆, is, s₇, his, _, h₈,
      rfl, rfl⟩
    have hs₁ := h₁.ready ⟨hs, rfl⟩
    obtain ⟨bs, hvalid, rfl, hpast₂⟩ := ((params_recognizes n).takes_iff hs₁ trivial).1 hps
    have hs₄ := h₄.ready (h₃.ready (hpast₂.ready hs₁))
    obtain ⟨xs', -, rfl, hpast₅⟩ := (superArgs_recognizes n _ _ hs₄.ample trivial).1 hxs
    have hs₆ := h₆.ready (hpast₅.ready hs₄)
    obtain ⟨-, is', hvalid', rfl, hpast₇⟩ := (takes_initializers_iff hs₆.ample).1 his
    refine ⟨⟨y, bs, xs', is'⟩, ⟨rfl, hvalid, hvalid'⟩, ?_, ?_⟩
    · rw [hnames, hinits]
      rfl
    · exact h₁.past (hpast₂.trans (h₃.past (h₄.past (hpast₅.trans (h₆.past (hpast₇.trans
        (State.past_singleton_iff.2 h₈)))))))
  · rintro ⟨⟨y, bs, xs, is⟩, ⟨rfl, hvalid, hvalid'⟩, rfl, s₁, h₁, hpast⟩
    obtain ⟨s₂, hpast₂, s₃, h₃, s₄, h₄, hpast⟩ := State.past_append_iff.1 hpast
    obtain ⟨s₅, hpast₅, s₆, h₆, hpast⟩ := State.past_append_iff.1 hpast
    obtain ⟨s₇, hpast₇, h₈⟩ := State.past_append_iff.1 hpast
    rw [State.past_singleton_iff] at h₈
    have hs₁ := h₁.ready ⟨hs, rfl⟩
    have hs₄ := h₄.ready (h₃.ready (hpast₂.ready hs₁))
    have hs₆ := h₆.ready (hpast₅.ready hs₄)
    have hps := ((params_recognizes n).takes_iff hs₁ trivial).2 ⟨bs, hvalid, rfl, hpast₂⟩
    have hxs (opening list : String) := (superArgs_recognizes n opening list hs₄.ample trivial).2
      ⟨xs, by simp [Phrase.list, Phrase.name], hnames _ xs, hpast₅⟩
    have his := (takes_initializers_iff hs₆.ample).2 ⟨h₈.1, is, hvalid', hinits _ is, hpast₇⟩
    exact ⟨y, s₁, h₁, rfl, _, s₂, hps, s₃, h₃, s₄, h₄, xs, s₅, hxs _ _, s₆, h₆, is, s₇, his, s',
      h₈, rfl, rfl⟩

theorem takes_method_iff {d : MethodDecl} :
    Takes (method n) s d s' ↔ ∃ Xs s₁, Takes (typeParams n) s Xs s₁ ∧
      ∃ T s₂, Takes (ty n "return type") s₁ T s₂ ∧ ∃ m s₃, s₂.Step (.ident m) s₃ ∧
        ∃ ps s₄, Takes (params n) s₃ ps s₄ ∧ ∃ s₅, s₄.Step (.symbol .lbrace) s₅ ∧
          ∃ s₆, s₅.Step (.keyword .returnWord) s₆ ∧ ∃ e s₇, Takes (term n) s₆ e s₇ ∧
            ∃ s₈, s₇.Step (.symbol .semicolon) s₈ ∧ ∃ s₉, s₈.Step (.symbol .rbrace) s₉ ∧
              Takes (do
                closeScope
                return ⟨Xs, T, m, ps, e, s.current.span.merge (← previousSpan)⟩) s₉ d s' := by
  simp only [method, takes_currentSpan_bind_iff, takes_bind_iff (x := typeParams n),
    takes_bind_iff (x := ty _ _), takes_identifier_bind_iff, takes_bind_iff (x := params n),
    takes_expect_bind_iff (symbol_ne_eof _), takes_expect_bind_iff (keyword_ne_eof _),
    takes_bind_iff (x := term n)]

theorem method_recognizes (n : Nat) :
    Recognizes n (MethodDecl.withoutSpan <$> method n) MethodTree.phrase fun _ => True := by
  intro s d s' hs _
  rw [takes_map_iff]
  simp only [takes_method_iff]
  constructor
  · rintro ⟨d, ⟨Xs, s₁, hXs, T, s₂, hT, m, s₃, h₃, ps, s₄, hps, s₅, h₅, s₆, h₆, e, s₇, he, s₈, h₈,
      s₉, h₉, hd⟩, rfl⟩
    obtain ⟨C, hC⟩ := current_of_takes_ty hT
    obtain ⟨Xs', t₁, ⟨hvalidXs, rfl, hpast₁⟩, rfl⟩ := (takes_typeParams_iff hs (by simp [hC])).1 hXs
    have hs₁ := (hpast₁.ready ⟨hs, rfl⟩).inside (names Xs')
    obtain ⟨T', hvalidT, rfl, hpast₂⟩ :=
      ((ty_recognizes n _).takes_iff hs₁ (by simp [h₃.1])).1 hT
    have hs₃ := h₃.ready (hpast₂.ready hs₁)
    obtain ⟨ps', hvalids, rfl, hpast₄⟩ := ((params_recognizes n).takes_iff hs₃ trivial).1 hps
    have hs₆ := h₆.ready (h₅.ready (hpast₄.ready hs₃))
    obtain ⟨e', hvalid, rfl, hpast₇⟩ :=
      ((term_recognizes n).takes_iff hs₆ (.inr (.inr (.inl h₈.1)))).1 he
    have hpast := hpast₂.trans (h₃.past (hpast₄.trans (h₅.past (h₆.past (hpast₇.trans
      (h₈.past (State.past_singleton_iff.2 h₉)))))))
    obtain ⟨t₉, ht₉, rfl⟩ := State.past_inside_iff.1 hpast
    rw [takes_closeScope_bind_iff, takes_previousSpan_bind_iff, takes_pure_iff] at hd
    obtain ⟨rfl, rfl⟩ := hd
    exact ⟨⟨Xs', T', m, ps', e'⟩, ⟨hvalidXs, hvalidT, hvalids, hvalid⟩, rfl, hpast₁.trans ht₉⟩
  · rintro ⟨⟨Xs, T, m, ps, e⟩, ⟨hvalidXs, hvalidT, hvalids, hvalid⟩, rfl, hpast⟩
    obtain ⟨t₁, hpast₁, hpast⟩ := State.past_append_iff.1 hpast
    have hinside := State.past_inside_iff.2 ⟨s', hpast, rfl (a := s'.inside (names Xs))⟩
    obtain ⟨s₂, hpast₂, s₃, h₃, hinside⟩ := State.past_append_iff.1 hinside
    obtain ⟨s₄, hpast₄, s₅, h₅, s₆, h₆, hinside⟩ := State.past_append_iff.1 hinside
    obtain ⟨s₇, hpast₇, s₈, h₈, h₉⟩ := State.past_append_iff.1 hinside
    rw [State.past_singleton_iff] at h₉
    have hs₁ := (hpast₁.ready ⟨hs, rfl⟩).inside (names Xs)
    have hs₃ := h₃.ready (hpast₂.ready hs₁)
    have hs₆ := h₆.ready (h₅.ready (hpast₄.ready hs₃))
    have hT := ((ty_recognizes n "return type").takes_iff hs₁ (by simp [h₃.1])).2
      ⟨T, hvalidT, rfl, hpast₂⟩
    obtain ⟨C, hC⟩ := current_of_takes_ty hT
    have hXs := (takes_typeParams_iff hs (by simp [hC])).2
      ⟨Xs, t₁, ⟨hvalidXs, rfl, hpast₁⟩, rfl⟩
    have hps := ((params_recognizes n).takes_iff hs₃ trivial).2 ⟨ps, hvalids, rfl, hpast₄⟩
    have he := ((term_recognizes n).takes_iff hs₆ (.inr (.inr (.inl h₈.1)))).2
      ⟨e, hvalid, rfl, hpast₇⟩
    exact ⟨_, ⟨_, _, hXs, _, s₂, hT, m, s₃, h₃, _, s₄, hps, s₅, h₅, s₆, h₆, _, s₇, he, s₈, h₈, _,
      h₉, takes_closeScope_bind_iff.2 (takes_pure_iff.2 ⟨rfl, rfl⟩)⟩, rfl⟩

theorem begins_method : Begins MethodTree.phrase (· ≠ .symbol .rbrace) := by
  intro m
  obtain ⟨l, ls, hlex, hl⟩ := m.lexemes_begins []
  exact ⟨l, ls, by simpa using hlex, hl⟩

theorem State.atEnd_iff (hs : s.Ample n) : s.atEnd = true ↔ s.current.lexeme = .eof := by
  obtain ⟨ts, hts⟩ := hs.ahead
  simp [atEnd, hts]

theorem takes_methods_iff (hs : s.Ample n) {ds : List MethodDecl} :
    Takes (List.map MethodDecl.withoutSpan <$> methods n n) s ds s' ↔
      s'.current.lexeme = .symbol .rbrace ∧
        ∃ ts, s.Spells (MethodTree.phrase.list List.flatten) ts ds s' := by
  refine (method_recognizes n).loop (y := fun k => List.map MethodDecl.withoutSpan <$> methods n k)
    (Q := fun s => s.current.lexeme = .symbol .rbrace) begins_method ?_ ?_ (Nat.le_refl n) hs
  · exact fun s t d s' _ h => h.begins begins_method
  · intro k s ds s' hs
    by_cases h : s.current.lexeme = .symbol .rbrace
    · simp [methods, takes_sees_bind_iff, takes_pure_iff, h]
    · by_cases hend : s.atEnd = true
      · refine iff_of_false ?_ ?_
        · simp [takes_map_iff, methods, takes_sees_bind_iff, takes_get_bind_iff, h, hend,
            not_takes_complain]
        · rintro (⟨hQ, -⟩ | ⟨-, d, s₁, hd, -⟩)
          · exact h hQ
          · obtain ⟨t, ht⟩ := (method_recognizes n hs trivial).1 hd
            exact ht.current_ne_eof begins_method ((State.atEnd_iff hs).1 hend)
      · rw [← takes_map_cons_iff]
        simp [methods, takes_sees_bind_iff, takes_get_bind_iff, h, hend]

theorem takes_classDecl_iff {c : ClassDecl} :
    Takes (classDecl n) s c s' ↔ ∃ s₁, s.Step (.keyword .classWord) s₁ ∧
      ∃ C s₂, s₁.Step (.ident C) s₂ ∧ ∃ Xs s₃, Takes (typeParams n) s₂ Xs s₃ ∧
        ∃ s₄, s₃.Step (.keyword .extendsWord) s₄ ∧ ∃ N s₅, Takes (classTy n "super type") s₄ N s₅ ∧
          ∃ s₆, s₅.Step (.symbol .lbrace) s₆ ∧ ∃ fs s₇, Takes (fields n n) s₆ fs s₇ ∧
            ∃ k s₈, Takes (constructor n C) s₇ k s₈ ∧ ∃ ds s₉, Takes (methods n n) s₈ ds s₉ ∧
              ∃ s₁₀, s₉.Step (.symbol .rbrace) s₁₀ ∧
                Takes (do
                  closeScope
                  return ⟨C, Xs, N, fs, k, ds, s.current.span.merge (← previousSpan)⟩)
                  s₁₀ c s' := by
  simp only [classDecl, takes_currentSpan_bind_iff, takes_expect_bind_iff (keyword_ne_eof _),
    takes_identifier_bind_iff, takes_bind_iff (x := typeParams n),
    takes_bind_iff (x := classTy _ _), takes_expect_bind_iff (symbol_ne_eof _),
    takes_bind_iff (x := fields n n), takes_bind_iff (x := constructor _ _),
    takes_bind_iff (x := methods n n)]

theorem State.inside_inj {t : State} {names : List String}
    (h : s.inside names = t.inside names) : s = t :=
  congrArg (fun s : State => { s with scopes := s.scopes.tail }) h

/-- A class is read as a tree without methods says, and then its methods are read with the type
variables of the class in scope. -/
theorem takes_classDecl_iff_past {vars : List String} (hs : s.Ready n vars) {c : ClassDecl} :
    Takes (classDecl n) s c s' ↔ ∃ (t : ClassTree) (u v : State), t.methods = [] ∧
      ClassTree.phrase.Valid vars t ∧ s.Past t.headLexemes u ∧
      Takes (methods n n) (u.inside (names t.typeParams)) c.methods
        (v.inside (names t.typeParams)) ∧ v.Step (.symbol .rbrace) s' ∧
      { ClassTree.phrase.meaning vars t with
        methods := c.methods, span := s.current.span.merge s'.previous.span } = c := by
  rw [takes_classDecl_iff]
  constructor
  · rintro ⟨s₁, h₁, C, s₂, h₂, Xs, s₃, hXs, s₄, h₄, N, s₅, hN, s₆, h₆, fs, s₇, hfs, k, s₈, hk,
      ds, s₉, hds, s₁₀, h₁₀, hc⟩
    have hs₂ := h₂.ready (h₁.ready hs)
    obtain ⟨Xs', t₃, hXs', rfl⟩ := (takes_typeParams_iff hs₂.ample (by simp [h₄.1])).1 hXs
    obtain ⟨hvalidXs, rfl, hpast₃⟩ := (State.spells_iff hs₂.vars_eq).1 hXs'
    have hs₄ := h₄.ready ((hpast₃.ready hs₂).inside (names Xs'))
    obtain ⟨N', hvalidN, rfl, hpast₅⟩ :=
      ((classTy_recognizes n _).takes_iff hs₄ (by simp [h₆.1])).1 hN
    have hs₆ := h₆.ready (hpast₅.ready hs₄)
    obtain ⟨-, fs', hfs'⟩ := (takes_fields_iff hs₆.ample).1 hfs
    obtain ⟨hvalidfs, rfl, hpast₇⟩ := (State.spells_iff hs₆.vars_eq).1 hfs'
    have hs₇ := hpast₇.ready hs₆
    obtain ⟨k', hvalidk, rfl, hpast₈⟩ := ((constructor_recognizes n C).takes_iff hs₇ trivial).1 hk
    obtain ⟨u, hu, rfl⟩ := State.past_inside_iff.1
      (h₄.past (hpast₅.trans (h₆.past (hpast₇.trans hpast₈))))
    obtain ⟨-, ds', hds'⟩ := (takes_methods_iff (hpast₈.ready hs₇).ample).1
      (takes_map_iff.2 ⟨ds, hds, rfl⟩)
    obtain ⟨v, -, rfl⟩ := State.past_inside_iff.1 hds'.past
    obtain ⟨v', hv', rfl⟩ := State.past_inside_iff.1 (State.past_singleton_iff.2 h₁₀)
    rw [takes_closeScope_bind_iff, takes_previousSpan_bind_iff, takes_pure_iff] at hc
    obtain ⟨rfl, rfl⟩ := hc
    exact ⟨⟨C, Xs', N', fs', k', []⟩, u, v, rfl, ⟨hvalidXs, hvalidN, hvalidfs, hvalidk, nofun⟩,
      h₁.past (h₂.past (hpast₃.trans hu)), hds, State.past_singleton_iff.1 hv', rfl⟩
  · rintro ⟨⟨C, Xs, N, fs, k, _⟩, u, v, rfl, ⟨hvalidXs, hvalidN, hvalidfs, hvalidk, -⟩,
      ⟨s₁, h₁, s₂, h₂, hpast⟩, hds, hv, hc⟩
    obtain ⟨t₃, hpast₃, hpast⟩ := State.past_append_iff.1 hpast
    obtain ⟨s₄, h₄, hinside⟩ :=
      State.past_inside_iff.2 ⟨u, hpast, rfl (a := u.inside (names Xs))⟩
    obtain ⟨s₅, hpast₅, s₆, h₆, hinside⟩ := State.past_append_iff.1 hinside
    obtain ⟨s₇, hpast₇, hpast₈⟩ := State.past_append_iff.1 hinside
    have h₁₀ := State.past_inside_iff.2
      ⟨s', State.past_singleton_iff.2 hv, rfl (a := s'.inside (names Xs))⟩
    have hs₂ := h₂.ready (h₁.ready hs)
    have hs₄ := h₄.ready ((hpast₃.ready hs₂).inside (names Xs))
    have hs₆ := h₆.ready (hpast₅.ready hs₄)
    have hs₇ := hpast₇.ready hs₆
    have hXs := (takes_typeParams_iff hs₂.ample (by simp [h₄.1])).2
      ⟨Xs, t₃, (State.spells_iff hs₂.vars_eq).2 ⟨hvalidXs, rfl, hpast₃⟩, rfl⟩
    have hN := ((classTy_recognizes n "super type").takes_iff hs₄ (by simp [h₆.1])).2
      ⟨N, hvalidN, rfl, hpast₅⟩
    have hctor : s₇.beginsConstructor = true := by
      rw [State.beginsConstructor_iff hs₇.ample, hpast₈.lexemes hs₇.ample]
      exact k.opensConstructor C _
    have hfs := (takes_fields_iff hs₆.ample).2
      ⟨hctor, fs, (State.spells_iff hs₆.vars_eq).2 ⟨hvalidfs, rfl, hpast₇⟩⟩
    have hk := ((constructor_recognizes n C).takes_iff hs₇ trivial).2 ⟨k, hvalidk, rfl, hpast₈⟩
    exact ⟨s₁, h₁, C, s₂, h₂, _, _, hXs, s₄, h₄, _, s₅, hN, s₆, h₆, _, s₇, hfs, _, _, hk, _, _, hds,
      _, State.past_singleton_iff.1 h₁₀,
      takes_closeScope_bind_iff.2 (takes_pure_iff.2 ⟨hc, rfl⟩)⟩

theorem class_recognizes (n : Nat) :
    Recognizes n (ClassDecl.withoutSpans <$> classDecl n) ClassTree.phrase fun _ => True := by
  intro s c s' hs _
  have hready : s.Ready n s.vars := ⟨hs, rfl⟩
  rw [takes_map_iff]
  simp only [takes_classDecl_iff_past hready]
  constructor
  · rintro ⟨c, ⟨t, u, v, -, hvalid, hu, hds, hv, hc⟩, rfl⟩
    have hs₁ := (hu.ready hready).inside (names t.typeParams)
    obtain ⟨-, ds, hds'⟩ := (takes_methods_iff hs₁.ample).1 (takes_map_iff.2 ⟨_, hds, rfl⟩)
    obtain ⟨hvalidds, hmeaning, hpast⟩ := (State.spells_iff hs₁.vars_eq).1 hds'
    obtain ⟨w, hw, hinside⟩ := State.past_inside_iff.1 hpast
    obtain rfl := State.inside_inj hinside
    refine ⟨{ t with methods := ds },
      ⟨hvalid.1, hvalid.2.1, hvalid.2.2.1, hvalid.2.2.2.1, hvalidds⟩, ?_, ?_⟩
    · rw [← hc, ClassDecl.withoutSpans, ← hmeaning]
      rfl
    · rw [ClassTree.lexemes_eq]
      exact hu.trans (hw.trans (State.past_singleton_iff.2 hv))
  · rintro ⟨t, hvalid, rfl, hpast⟩
    rw [ClassTree.lexemes_eq] at hpast
    obtain ⟨u, hu, hpast⟩ := State.past_append_iff.1 hpast
    obtain ⟨v, hds, hv⟩ := State.past_append_iff.1 hpast
    rw [State.past_singleton_iff] at hv
    have hs₁ := (hu.ready hready).inside (names t.typeParams)
    have hinside := State.past_inside_iff.2 ⟨v, hds, rfl (a := v.inside (names t.typeParams))⟩
    have hbrace : (v.inside (names t.typeParams)).current.lexeme = .symbol .rbrace := hv.1
    obtain ⟨ds, hds', hmeaning⟩ := takes_map_iff.1 ((takes_methods_iff hs₁.ample).2
      ⟨hbrace, t.methods, (State.spells_iff hs₁.vars_eq).2 ⟨hvalid.2.2.2.2, rfl, hinside⟩⟩)
    refine ⟨{ ClassTree.phrase.meaning s.vars t with methods := ds, span := _ },
      ⟨{ t with methods := [] }, u, v, rfl,
        ⟨hvalid.1, hvalid.2.1, hvalid.2.2.1, hvalid.2.2.2.1, nofun⟩, hu, hds', hv, rfl⟩, ?_⟩
    rw [ClassDecl.withoutSpans, hmeaning]
    rfl

theorem takes_classes_iff (hs : s.Ample n) {cs : List ClassDecl} :
    Takes (List.map ClassDecl.withoutSpans <$> classes n n) s cs s' ↔
      s'.current.lexeme ≠ .keyword .classWord ∧
        ∃ ts, s.Spells (ClassTree.phrase.list List.flatten) ts cs s' := by
  refine (class_recognizes n).loop (y := fun k => List.map ClassDecl.withoutSpans <$> classes n k)
    (B := fun _ => True) (Q := fun s => s.current.lexeme ≠ .keyword .classWord)
    (fun c => ⟨_, _, rfl, trivial⟩) ?_ ?_ (Nat.le_refl n) hs
  · intro s t c s' _ h
    obtain ⟨s₁, h₁, -⟩ := h.past
    exact not_not_intro h₁.1
  · intro k s cs s' hs
    by_cases h : s.current.lexeme = .keyword .classWord
    · rw [← takes_map_cons_iff]
      simp [classes, takes_sees_bind_iff, h]
    · simp [classes, takes_sees_bind_iff, takes_pure_iff, h]

theorem takes_program_iff {p : Program} :
    Takes program s p s' ↔
      ∃ cs s₁, Takes (classes (s.ahead.length + 2) (s.ahead.length + 2)) s cs s₁ ∧
        ∃ e, Takes (term (s.ahead.length + 2)) s₁ e s' ∧ s'.current.lexeme = .eof ∧
          ⟨cs, e, s₁.current.span.merge s'.previous.span⟩ = p := by
  simp only [program, takes_get_bind_iff, takes_bind_iff (x := classes _ _),
    takes_currentSpan_bind_iff, takes_bind_iff (x := term _), takes_previousSpan_bind_iff,
    takes_expectEnd_bind_iff, takes_pure_iff]
  constructor
  · rintro ⟨cs, s₁, hcs, e, s₂, he, hend, rfl, rfl⟩
    exact ⟨cs, s₁, hcs, e, he, hend, rfl⟩
  · rintro ⟨cs, s₁, hcs, e, he, hend, rfl⟩
    exact ⟨cs, s₁, hcs, e, s', he, hend, rfl, rfl⟩

theorem takes_program_iff_spells (hs : s.Ample (s.ahead.length + 2)) {p : Program} :
    Takes (Program.withoutSpans <$> program) s p s' ↔ s'.current.lexeme = .eof ∧
      ∃ cs e, ProgramTree.phrase.Valid s.vars ⟨cs, e⟩ ∧
        ProgramTree.phrase.meaning s.vars ⟨cs, e⟩ = p ∧
        s.Past ((ClassTree.phrase.list List.flatten).lexemes cs ++ e.lexemes) s' := by
  simp only [takes_map_iff, takes_program_iff]
  constructor
  · rintro ⟨_, ⟨cs, s₁, hcs, _, he, hend, rfl⟩, rfl⟩
    obtain ⟨-, ts, hvalid, hmeaning, hpast₁⟩ :=
      (takes_classes_iff hs).1 (takes_map_iff.2 ⟨cs, hcs, rfl⟩)
    obtain ⟨e, he'⟩ := (term_recognizes _ (hpast₁.ample hs) (.inr (.inr (.inr hend)))).1 he
    obtain ⟨hvalid', rfl, hpast⟩ := (State.spells_iff hpast₁.vars).1 he'
    refine ⟨hend, ts, e, ⟨hvalid, hvalid'⟩, ?_, hpast₁.trans hpast⟩
    rw [Program.withoutSpans, ← hmeaning]
    rfl
  · rintro ⟨hend, ts, e, ⟨hvalid, hvalid'⟩, rfl, hpast⟩
    obtain ⟨s₁, hpast₁, hpast⟩ := State.past_append_iff.1 hpast
    have hspells : s₁.Spells TermTree.phrase e (e.term s.vars) s' :=
      (State.spells_iff hpast₁.vars).2 ⟨hvalid', rfl, hpast⟩
    have hclass : s₁.current.lexeme ≠ .keyword .classWord := by
      intro h
      have hstarts := hspells.begins begins_term
      rw [h] at hstarts
      cases hstarts
    obtain ⟨cs, hcs, hmeaning⟩ :=
      takes_map_iff.1 ((takes_classes_iff hs).2 ⟨hclass, ts, hvalid, rfl, hpast₁⟩)
    refine ⟨_, ⟨cs, s₁, hcs, _, (term_recognizes _ (hpast₁.ample hs)
      (.inr (.inr (.inr hend)))).2 ⟨e, hspells⟩, hend, rfl⟩, ?_⟩
    rw [Program.withoutSpans, hmeaning]
    rfl

theorem State.exists_past_end_iff {ls front : List Lexeme} (hs : s.Ample n)
    (hlex : s.lexemes = front ++ [.eof]) (hfront : .eof ∉ front) :
    (∃ s', s'.current.lexeme = .eof ∧ s.Past ls s') ↔ ls = front := by
  constructor
  · rintro ⟨s', hend, hpast⟩
    obtain ⟨ms, hms⟩ := (hpast.ample hs).lexemes
    have h := hlex.symm.trans (hpast.lexemes hs)
    rw [hms, hend] at h
    rcases List.append_eq_append_iff.1 h with ⟨a, rfl, ha⟩ | ⟨c, rfl, hc⟩
    · cases a with
      | nil => rw [List.append_nil]
      | cons l a => simp at ha
    · cases c with
      | nil => rw [List.append_nil]
      | cons l c =>
        obtain ⟨rfl, -⟩ := List.cons.inj hc
        simp at hfront
  · rintro rfl
    obtain ⟨s', hpast, hs'⟩ := State.exists_past hs hlex hfront
    obtain ⟨ms, hms⟩ := (hpast.ample hs).lexemes
    exact ⟨s', (List.cons.inj (hms.symm.trans hs')).1, hpast⟩

section Start

variable (front : List Token) {last : Token}

theorem State.ahead_start (last : Token) : (start (front ++ [last])).ahead = front ++ [last] := by
  cases front with
  | nil => rfl
  | cons k front => rfl

theorem State.ready_start (hlast : last.lexeme = .eof) :
    (start (front ++ [last])).Ready ((start (front ++ [last])).ahead.length + 2) [] := by
  refine ⟨⟨⟨last, by simp [ahead_start], hlast⟩, Nat.lt_add_of_pos_right (by decide)⟩, ?_⟩
  cases front with
  | nil => rfl
  | cons k front => rfl

end Start

end Parse

namespace Program

open Grammar Parse

variable {front : List Token} {last : Token}

theorem gives_ofTokens_iff {tokens : List Token} {p : Program} :
    (ofTokens tokens).Gives p ↔ ∃ s', Takes program (.start tokens) p s' := by
  simp [ofTokens, Attempt.Gives, Takes]

theorem exists_gives_ofTokens_iff {tokens : List Token} {p : Program} :
    (∃ q, (ofTokens tokens).Gives q ∧ q.withoutSpans = p) ↔
      ∃ s', Takes (withoutSpans <$> program) (.start tokens) p s' := by
  simp only [gives_ofTokens_iff, takes_map_iff]
  constructor
  · rintro ⟨q, ⟨s', hq⟩, hp⟩
    exact ⟨s', q, hq, hp⟩
  · rintro ⟨s', q, hq, hp⟩
    exact ⟨q, ⟨s', hq⟩, hp⟩

theorem exists_takes_iff_exists_derives (hfront : ∀ k ∈ front, k.lexeme ≠ .eof)
    (hlast : last.lexeme = .eof) {p : Program} :
    (∃ s', Takes (withoutSpans <$> program) (.start (front ++ [last])) p s') ↔
      ∃ tree : ProgramTree, tree.Derives ((front ++ [last]).map Token.lexeme) p := by
  have hs := State.ready_start front hlast
  have hlex : (State.start (front ++ [last])).lexemes = front.map Token.lexeme ++ [.eof] := by
    simp [State.lexemes, State.ahead_start, hlast]
  have heof : Lexeme.eof ∉ front.map Token.lexeme := by simpa using hfront
  have hend {ls : List Lexeme} : (∃ s', s'.current.lexeme = .eof ∧
      (State.start (front ++ [last])).Past ls s') ↔ ls = front.map Token.lexeme :=
    State.exists_past_end_iff hs.ample hlex heof
  simp only [takes_program_iff_spells hs.ample, hs.vars_eq]
  constructor
  · rintro ⟨s', h, cs, e, hvalid, rfl, hpast⟩
    refine ⟨⟨cs, e⟩, ?_, hvalid, rfl⟩
    have hfront := hend.1 ⟨s', h, hpast⟩
    simp [ProgramTree.phrase, ← hfront, hlast]
  · rintro ⟨⟨cs, e⟩, hls, hvalid, rfl⟩
    have hfront : (ClassTree.phrase.list List.flatten).lexemes cs ++ e.lexemes =
        front.map Token.lexeme := by
      simpa [ProgramTree.phrase, hlast, ← List.append_assoc] using hls
    obtain ⟨s', h, hpast⟩ := hend.2 hfront
    exact ⟨s', h, cs, e, hvalid, rfl, hpast⟩

/-- Up to spans, a token list that ends with its only end of file is read as `p` exactly if
the grammar derives it as `p`. Its derivation is determined by the lexemes, and a list with
an invalid token has none. -/
theorem ofTokens_gives_iff_derives (hfront : ∀ k ∈ front, k.lexeme ≠ .eof)
    (hlast : last.lexeme = .eof) :
    (∀ p, (∃ q, (ofTokens (front ++ [last])).Gives q ∧ q.withoutSpans = p) ↔
      ∃ tree : ProgramTree, tree.Derives ((front ++ [last]).map Token.lexeme) p) ∧
    (∀ p p' (tree tree' : ProgramTree), tree.Derives ((front ++ [last]).map Token.lexeme) p →
      tree'.Derives ((front ++ [last]).map Token.lexeme) p' → tree = tree') ∧
    ∀ q, (ofTokens (front ++ [last])).Gives q →
      ∀ k ∈ front ++ [last], ∀ m, k.lexeme ≠ .invalid m := by
  have hiff {p : Program} :=
    exists_gives_ofTokens_iff.trans (exists_takes_iff_exists_derives (p := p) hfront hlast)
  refine ⟨fun p => hiff, fun p p' tree tree' h h' => ?_, fun q hq k hk m => ?_⟩
  · exact ProgramTree.lexemes_inj (h.1.trans h'.1.symm)
  · obtain ⟨tree, hlexemes, -⟩ := hiff.1 ⟨q, hq, rfl⟩
    exact tree.noInvalid k.lexeme (hlexemes ▸ List.mem_map_of_mem hk) m

def castSource : String :=
  "class Box<X extends Object> extends Object \x7b X f; Box(X f) \x7b super(); this.f = f; \x7d " ++
    "<Y extends Box<Y>> X m(Y y) \x7b return (y); \x7d \x7d " ++
  "(Box<X<>>) (Box) (b).m<X>((this)).f"

theorem ofTokens_gives_iff_derives_cast :
    ∃ q, (ofSource castSource).Gives q ∧
      q.term = .cast ⟨"Box", [.inst "X" []]⟩ (.cast ⟨"Box", []⟩
        (.field (.call (.var "b") "m" [.inst "X" []] [.var "this"]) "f")) ∧
      ∃ tree : ProgramTree, tree.Derives ((tokenize castSource).map Token.lexeme) q.withoutSpans ∧
        ∀ p' (tree' : ProgramTree), tree'.Derives ((tokenize castSource).map Token.lexeme) p' →
          tree' = tree := by
  have hyps : (ofSource castSource).Yields fun q => q.term = .cast ⟨"Box", [.inst "X" []]⟩
      (.cast ⟨"Box", []⟩
        (.field (.call (.var "b") "m" [.inst "X" []] [.var "this"]) "f")) := by
    decide +kernel
  obtain ⟨q, hq, hterm⟩ := hyps
  have hfront : ∀ k ∈ Position.origin.tokens (pieces castSource.toList), k.lexeme ≠ .eof := by
    decide +kernel
  have hlast : (endToken castSource).lexeme = .eof := rfl
  obtain ⟨hiff, hunique, -⟩ := ofTokens_gives_iff_derives hfront hlast
  obtain ⟨tree, htree⟩ := (hiff _).1 ⟨q, hq, rfl⟩
  exact ⟨q, hq, hterm, tree, htree, fun p' tree' h => hunique _ _ tree' tree h htree⟩

end Program

end Featherweight

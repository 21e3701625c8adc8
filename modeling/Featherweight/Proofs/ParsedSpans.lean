import Featherweight.Proofs.ParsedPrograms
import Featherweight.Proofs.Slices

/-!
# Spans of declarations

`ReadFrom` relates a tree, the tokens that spell it and the declaration read from them, its
span included: this runs from the first of the tokens to the last. A program is read from
tokens exactly if some tree relates the two. The relation holds wherever the tokens stand,
so the slice of a declaration is read as that declaration, moved to the front.
-/

namespace Featherweight

def Span.Before (a b : Span) : Prop := a.stop ≤ b.start

def Span.Within (a b : Span) : Prop := b.start ≤ a.start ∧ a.stop ≤ b.stop

def Span.shift (a : Span) (bytes : Nat) : Span := ⟨a.start + bytes, a.stop + bytes⟩

section Spans

variable {ks ks' : List Token} {k : Token}

theorem exists_spanOf_eq (h : ks ≠ []) : ∃ first ∈ ks, ∃ last ∈ ks, ks.head? = some first ∧
    ks.getLast? = some last ∧ spanOf ks = first.span.merge last.span := by
  have hfirst := List.head?_eq_some_head h
  have hlast := List.getLast?_eq_some_getLast h
  refine ⟨_, List.head_mem h, _, List.getLast_mem h, hfirst, hlast, ?_⟩
  rw [spanOf, hfirst, hlast]

theorem spanOf_before (h : ks ≠ []) (h' : ks' ≠ [])
    (hbefore : ∀ k ∈ ks, ∀ k' ∈ ks', k.span.Before k'.span) :
    (spanOf ks).Before (spanOf ks') := by
  obtain ⟨a, ha, b, hb, -, -, hspan⟩ := exists_spanOf_eq h
  obtain ⟨c, hc, d, hd, -, -, hspan'⟩ := exists_spanOf_eq h'
  rw [hspan, hspan']
  exact max_le (le_min (hbefore a ha c hc) (hbefore a ha d hd))
    (le_min (hbefore b hb c hc) (hbefore b hb d hd))

theorem span_within_spanOf (hbefore : ks.Pairwise fun k k' => k.span.Before k'.span)
    (hle : ∀ k ∈ ks, k.span.start ≤ k.span.stop) (hk : k ∈ ks) : k.span.Within (spanOf ks) := by
  obtain ⟨first, hfirst, last, hlast, hhead, hend, hspan⟩ :=
    exists_spanOf_eq (List.ne_nil_of_mem hk)
  have hstart : first.span.start ≤ k.span.start := by
    obtain ⟨tl, rfl⟩ := List.head?_eq_some_iff.1 hhead
    rcases List.mem_cons.1 hk with rfl | hk
    · exact Nat.le_refl _
    · exact (hle first hfirst).trans (List.rel_of_pairwise_cons hbefore hk)
  have hstop : k.span.stop ≤ last.span.stop := by
    obtain ⟨init, rfl⟩ := List.getLast?_eq_some_iff.1 hend
    rcases List.mem_append.1 hk with hk | hk
    · exact ((List.pairwise_append.1 hbefore).2.2 k hk last (by simp)).trans (hle last hlast)
    · rw [List.mem_singleton.1 hk]
  rw [hspan]
  exact ⟨min_le_of_left_le hstart, le_max_of_le_right hstop⟩

theorem spanOf_within (hbefore : ks.Pairwise fun k k' => k.span.Before k'.span)
    (hle : ∀ k ∈ ks, k.span.start ≤ k.span.stop) (h : ks' ≠ []) (hsub : ks' ⊆ ks) :
    (spanOf ks').Within (spanOf ks) := by
  obtain ⟨a, ha, b, hb, -, -, hspan⟩ := exists_spanOf_eq h
  have hwithin {k : Token} (hk : k ∈ ks') := span_within_spanOf hbefore hle (hsub hk)
  rw [hspan]
  exact ⟨le_min (hwithin ha).1 (hwithin hb).1, max_le (hwithin ha).2 (hwithin hb).2⟩

theorem spanOf_map_shift (h : ks ≠ []) (bytes lines : Nat) :
    spanOf (ks.map (Token.shift · bytes lines)) = (spanOf ks).shift bytes := by
  obtain ⟨first, -, last, -, hfirst, hlast, hspan⟩ := exists_spanOf_eq h
  rw [hspan, spanOf, List.head?_map, List.getLast?_map, hfirst, hlast]
  simp [Token.shift, Span.merge, Span.shift, Nat.add_min_add_right, Nat.add_max_add_right]

theorem map_lexeme_shift (ks : List Token) (bytes lines : Nat) :
    (ks.map (Token.shift · bytes lines)).map Token.lexeme = ks.map Token.lexeme := by
  rw [List.map_map]
  rfl

theorem append_inj_of_lexemes {js js' : List Token} (h : ks ++ ks' = js ++ js')
    (hlex : ks.map Token.lexeme = js.map Token.lexeme) : ks = js ∧ ks' = js' :=
  List.append_inj h (by simpa using congrArg List.length hlex)

end Spans

def MethodDecl.shift (d : MethodDecl) (bytes : Nat) : MethodDecl :=
  { d with span := d.span.shift bytes }

def ClassDecl.shift (c : ClassDecl) (bytes : Nat) : ClassDecl :=
  { c with methods := c.methods.map (MethodDecl.shift · bytes), span := c.span.shift bytes }

namespace Grammar

section InTurn

variable {τ α : Type} {R : τ → List Token → α → Prop}

/-- Each tree is read from tokens of its own, which stand in the order of the trees with
nothing between them. -/
def InTurn (R : τ → List Token → α → Prop) : List τ → List Token → List α → Prop
  | [], ks, as => [] = ks ∧ [] = as
  | t :: ts, ks, as => ∃ ks₁ ks₂ a as', R t ks₁ a ∧ InTurn R ts ks₂ as' ∧ ks₁ ++ ks₂ = ks ∧
      a :: as' = as

namespace InTurn

variable {ts : List τ} {ks : List Token} {as : List α}

theorem lexemes {P : Phrase τ α} (hR : ∀ ⦃t ks a⦄, R t ks a → ks.map Token.lexeme = P.lexemes t)
    (h : InTurn R ts ks as) : ks.map Token.lexeme = (P.list List.flatten).lexemes ts := by
  induction ts generalizing ks as with
  | nil =>
    obtain ⟨rfl, rfl⟩ := h
    rfl
  | cons t ts ih =>
    obtain ⟨ks₁, ks₂, a, as, ht, hts, rfl, rfl⟩ := h
    rw [List.map_append, hR ht, ih hts]
    rfl

theorem forall_tree {p : τ → Prop} (hR : ∀ ⦃t ks a⦄, R t ks a → p t) (h : InTurn R ts ks as) :
    ∀ t ∈ ts, p t := by
  induction ts generalizing ks as with
  | nil => simp
  | cons t ts ih =>
    obtain ⟨ks₁, ks₂, a, as, ht, hts, -⟩ := h
    exact List.forall_mem_cons.2 ⟨hR ht, ih hts⟩

theorem exists_of_mem (h : InTurn R ts ks as) {a : α} (ha : a ∈ as) :
    ∃ t ks₁ ks₂ ks₃, R t ks₂ a ∧ ks₁ ++ (ks₂ ++ ks₃) = ks := by
  induction ts generalizing ks as with
  | nil =>
    obtain ⟨rfl, rfl⟩ := h
    cases ha
  | cons t ts ih =>
    obtain ⟨ks₁, ks₂, b, as, ht, hts, rfl, rfl⟩ := h
    rcases List.mem_cons.1 ha with rfl | ha
    · exact ⟨t, [], ks₁, ks₂, ht, rfl⟩
    · obtain ⟨t', js₁, js₂, js₃, ht', rfl⟩ := ih hts ha
      exact ⟨t', ks₁ ++ js₁, js₂, js₃, ht', List.append_assoc _ _ _⟩

theorem unique {P : Phrase τ α} (hR : ∀ ⦃t ks a⦄, R t ks a → ks.map Token.lexeme = P.lexemes t)
    (hunique : ∀ ⦃t ks a b⦄, R t ks a → R t ks b → a = b) {bs : List α} (h : InTurn R ts ks as)
    (h' : InTurn R ts ks bs) : as = bs := by
  induction ts generalizing ks as bs with
  | nil => exact h.2.symm.trans h'.2
  | cons t ts ih =>
    obtain ⟨ks₁, ks₂, a, as, ht, hts, rfl, rfl⟩ := h
    obtain ⟨js₁, js₂, b, bs, ht', hts', hjs, rfl⟩ := h'
    obtain ⟨rfl, rfl⟩ := append_inj_of_lexemes hjs ((hR ht').trans (hR ht).symm)
    rw [hunique ht ht', ih hts hts']

theorem of_map {f : Token → Token} {g : α → α}
    (hR : ∀ ⦃t ks a⦄, R t (ks.map f) a → ∃ b, R t ks b ∧ g b = a)
    (h : InTurn R ts (ks.map f) as) : ∃ bs, InTurn R ts ks bs ∧ bs.map g = as := by
  induction ts generalizing ks as with
  | nil =>
    obtain ⟨hks, rfl⟩ := h
    exact ⟨[], ⟨(List.map_eq_nil_iff.1 hks.symm).symm, rfl⟩, rfl⟩
  | cons t ts ih =>
    obtain ⟨ks₁, ks₂, a, as, ht, hts, hks, rfl⟩ := h
    obtain ⟨js₁, js₂, rfl, rfl, rfl⟩ := List.map_eq_append_iff.1 hks.symm
    obtain ⟨b, hb, rfl⟩ := hR ht
    obtain ⟨bs, hbs, rfl⟩ := ih hts
    exact ⟨b :: bs, ⟨js₁, js₂, b, bs, hb, hbs, rfl, rfl⟩, rfl⟩

theorem pairwise_before {span : α → Span} (hR : ∀ ⦃t ks a⦄, R t ks a → ks ≠ [] ∧ span a = spanOf ks)
    (h : InTurn R ts ks as) (hks : ks.Pairwise fun k k' => k.span.Before k'.span) :
    (as.map span).Pairwise Span.Before := by
  induction ts generalizing ks as with
  | nil =>
    obtain ⟨-, rfl⟩ := h
    exact .nil
  | cons t ts ih =>
    obtain ⟨ks₁, ks₂, a, as, ht, hts, rfl, rfl⟩ := h
    obtain ⟨-, hks₂, hcross⟩ := List.pairwise_append.1 hks
    refine List.pairwise_cons.2 ⟨List.forall_mem_map.2 fun b hb => ?_, ih hts hks₂⟩
    obtain ⟨t', js₁, js₂, js₃, ht', rfl⟩ := hts.exists_of_mem hb
    rw [(hR ht).2, (hR ht').2]
    exact spanOf_before (hR ht).1 (hR ht').1 fun k hk k' hk' => hcross k hk k' (by simp [hk'])

end InTurn

end InTurn

section ReadFrom

variable {vars : List String} {ks : List Token} {bytes lines : Nat}

structure MethodTree.ReadFrom (vars : List String) (t : MethodTree) (ks : List Token)
    (d : MethodDecl) : Prop where
  valid : phrase.Valid vars t
  lexemes : ks.map Token.lexeme = phrase.lexemes t
  eq : { phrase.meaning vars t with span := spanOf ks } = d

structure ClassTree.ReadFrom (vars : List String) (t : ClassTree) (ks : List Token)
    (c : ClassDecl) : Prop where
  valid : phrase.Valid vars t
  parts : ∃ head body last, head.map Token.lexeme = t.headLexemes ∧
    InTurn (MethodTree.ReadFrom (names t.typeParams ++ vars)) t.methods body c.methods ∧
    last.lexeme = .symbol .rbrace ∧ head ++ (body ++ [last]) = ks
  eq : { phrase.meaning vars t with methods := c.methods, span := spanOf ks } = c

structure ProgramTree.ReadFrom (t : ProgramTree) (ks : List Token) (p : Program) : Prop where
  valid : t.term.Valid []
  term : t.term.term [] = p.term
  parts : ∃ front main last, InTurn (ClassTree.ReadFrom []) t.classes front p.classes ∧
    main.map Token.lexeme = t.term.lexemes ∧ spanOf main = p.span ∧ last.lexeme = .eof ∧
    front ++ (main ++ [last]) = ks

theorem TermTree.lexemes_ne_nil (e : TermTree) : e.lexemes ≠ [] := by
  obtain ⟨l, ls, hlex, -⟩ := Parse.begins_term e
  exact fun h => List.cons_ne_nil l ls (hlex.symm.trans h)

namespace MethodTree

theorem lexemes_ne_nil (t : MethodTree) : phrase.lexemes t ≠ [] := by
  obtain ⟨l, ls, hlex, -⟩ := Parse.begins_method t
  exact fun h => List.cons_ne_nil l ls (hlex.symm.trans h)

variable {t : MethodTree} {d d' : MethodDecl}

theorem ReadFrom.ne_nil (h : t.ReadFrom vars ks d) : ks ≠ [] := by
  rintro rfl
  exact t.lexemes_ne_nil h.lexemes.symm

theorem ReadFrom.span_eq (h : t.ReadFrom vars ks d) : d.span = spanOf ks := by
  rw [← h.eq]

theorem ReadFrom.unique (h : t.ReadFrom vars ks d) (h' : t.ReadFrom vars ks d') : d = d' :=
  h.eq.symm.trans h'.eq

theorem ReadFrom.of_shift (h : t.ReadFrom vars (ks.map (Token.shift · bytes lines)) d) :
    ∃ d', t.ReadFrom vars ks d' ∧ d'.shift bytes = d := by
  have hlex : ks.map Token.lexeme = phrase.lexemes t := by rw [← h.lexemes, map_lexeme_shift]
  have hne : ks ≠ [] := fun hks => h.ne_nil (by rw [hks, List.map_nil])
  refine ⟨_, ⟨h.valid, hlex, rfl⟩, ?_⟩
  rw [← h.eq, spanOf_map_shift hne]
  rfl

end MethodTree

namespace ClassTree

variable {t : ClassTree} {c c' : ClassDecl}

theorem ReadFrom.lexemes (h : t.ReadFrom vars ks c) : ks.map Token.lexeme = phrase.lexemes t := by
  obtain ⟨head, body, last, hhead, hbody, hlast, rfl⟩ := h.parts
  have hmethods := hbody.lexemes fun _ _ _ h => h.lexemes
  rw [lexemes_eq, List.map_append, List.map_append, hhead, hmethods, List.map_singleton, hlast]

theorem ReadFrom.ne_nil (h : t.ReadFrom vars ks c) : ks ≠ [] := by
  obtain ⟨head, body, last, -, -, -, rfl⟩ := h.parts
  simp

theorem ReadFrom.span_eq (h : t.ReadFrom vars ks c) : c.span = spanOf ks := by
  rw [← h.eq]

theorem ReadFrom.unique (h : t.ReadFrom vars ks c) (h' : t.ReadFrom vars ks c') : c = c' := by
  obtain ⟨head, body, last, hhead, hbody, -, rfl⟩ := h.parts
  obtain ⟨head', body', last', hhead', hbody', -, hks⟩ := h'.parts
  obtain ⟨rfl, hrest⟩ := append_inj_of_lexemes hks (hhead'.trans hhead.symm)
  obtain ⟨rfl, -⟩ := List.append_inj' hrest rfl
  have hmethods : c.methods = c'.methods :=
    hbody.unique (fun _ _ _ h => h.lexemes) (fun _ _ _ _ h h' => h.unique h') hbody'
  rw [← h.eq, ← h'.eq, hmethods]

theorem ReadFrom.of_shift (h : t.ReadFrom vars (ks.map (Token.shift · bytes lines)) c) :
    ∃ c', t.ReadFrom vars ks c' ∧ c'.shift bytes = c := by
  obtain ⟨_, _, last, hhead, hbody, hlast, hks⟩ := h.parts
  obtain ⟨head, rest, rfl, rfl, hrest⟩ := List.map_eq_append_iff.1 hks.symm
  obtain ⟨body, lasts, rfl, rfl, hlasts⟩ := List.map_eq_append_iff.1 hrest
  obtain ⟨last, rfl, rfl⟩ := List.map_eq_singleton_iff.1 hlasts
  obtain ⟨ds, hds, hmethods⟩ := hbody.of_map fun _ _ _ h => h.of_shift
  rw [map_lexeme_shift] at hhead
  refine ⟨{ phrase.meaning vars t with methods := ds, span := spanOf (head ++ (body ++ [last])) },
    ⟨h.valid, ⟨head, body, last, hhead, hds, hlast, rfl⟩, rfl⟩, ?_⟩
  rw [← h.eq, spanOf_map_shift (by simp), ← hmethods]
  rfl

theorem ReadFrom.methods_placed (h : t.ReadFrom vars ks c)
    (hbefore : ks.Pairwise fun k k' => k.span.Before k'.span)
    (hle : ∀ k ∈ ks, k.span.start ≤ k.span.stop) :
    (c.methods.map MethodDecl.span).Pairwise Span.Before ∧
      ∀ d ∈ c.methods, d.span.Within c.span := by
  obtain ⟨head, body, last, -, hbody, -, hks⟩ := h.parts
  have hsub : body ⊆ ks := fun k hk => by simp [← hks, hk]
  refine ⟨hbody.pairwise_before (fun _ _ _ h => ⟨h.ne_nil, h.span_eq⟩) ?_, fun d hd => ?_⟩
  · rw [← hks, List.pairwise_append, List.pairwise_append] at hbefore
    exact hbefore.2.1.1
  · obtain ⟨m, js₁, js₂, js₃, hm, hjs⟩ := hbody.exists_of_mem hd
    rw [hm.span_eq, h.span_eq]
    refine spanOf_within hbefore hle hm.ne_nil fun k hk => hsub ?_
    simp [← hjs, hk]

end ClassTree

namespace ProgramTree

variable {t : ProgramTree} {p p' : Program}

theorem ReadFrom.derives (h : t.ReadFrom ks p) : ∃ q, t.Derives (ks.map Token.lexeme) q := by
  obtain ⟨front, main, last, hfront, hmain, -, hlast, rfl⟩ := h.parts
  have hclasses := hfront.lexemes fun _ _ _ h => h.lexemes
  refine ⟨_, ?_, ⟨hfront.forall_tree fun _ _ _ h => h.valid, h.valid⟩, rfl⟩
  rw [List.map_append, List.map_append, hclasses, hmain, List.map_singleton, hlast]
  rfl

theorem ReadFrom.unique (h : t.ReadFrom ks p) (h' : t.ReadFrom ks p') : p = p' := by
  obtain ⟨cs, e, a⟩ := p
  obtain ⟨cs', e', a'⟩ := p'
  obtain ⟨front, main, last, hfront, -, rfl, -, rfl⟩ := h.parts
  obtain ⟨front', main', last', hfront', -, rfl, -, hks⟩ := h'.parts
  have hlex := hfront.lexemes fun _ _ _ h => h.lexemes
  have hlex' := hfront'.lexemes fun _ _ _ h => h.lexemes
  obtain ⟨rfl, hrest⟩ := append_inj_of_lexemes hks (hlex'.trans hlex.symm)
  obtain ⟨rfl, -⟩ := List.append_inj' hrest rfl
  have hclasses : cs = cs' :=
    hfront.unique (fun _ _ _ h => h.lexemes) (fun _ _ _ _ h h' => h.unique h') hfront'
  have hterm : e = e' := h.term.symm.trans h'.term
  rw [hclasses, hterm]

theorem ReadFrom.classes_placed (h : t.ReadFrom ks p)
    (hbefore : ks.Pairwise fun k k' => k.span.Before k'.span) :
    (p.classes.map ClassDecl.span ++ [p.span]).Pairwise Span.Before := by
  obtain ⟨front, main, last, hfront, hmain, hspan, -, rfl⟩ := h.parts
  obtain ⟨hclasses, -, hcross⟩ := List.pairwise_append.1 hbefore
  have hne : main ≠ [] := by
    rintro rfl
    exact t.term.lexemes_ne_nil hmain.symm
  refine List.pairwise_append.2 ⟨?_, List.pairwise_singleton _ _, ?_⟩
  · exact hfront.pairwise_before (fun _ _ _ h => ⟨h.ne_nil, h.span_eq⟩) hclasses
  · rw [List.forall_mem_map]
    intro c hc a ha
    obtain ⟨t', js₁, js₂, js₃, ht', rfl⟩ := hfront.exists_of_mem hc
    rw [List.mem_singleton.1 ha, ← hspan, ht'.span_eq]
    exact spanOf_before ht'.ne_nil hne fun k hk k' hk' => hcross k (by simp [hk]) k' (by simp [hk'])

end ProgramTree

end ReadFrom

end Grammar

namespace Parse

open Grammar

variable {τ α : Type} {R : τ → List Token → α → Prop} {s s₁ s' : State} {l : Lexeme}
  {ls : List Lexeme} {n k : Nat} {vars : List String}

theorem State.Past.exists_tokens (h : s.Past ls s') (hs : s.Ample n) :
    ∃ ks, ks ++ s'.ahead = s.ahead ∧ ks.map Token.lexeme = ls ∧
      (s.previous :: ks).getLast? = some s'.previous := by
  induction ls generalizing s with
  | nil =>
    obtain rfl := past_nil_iff.1 h
    exact ⟨[], rfl, rfl, rfl⟩
  | cons l ls ih =>
    obtain ⟨s₁, h₁, h⟩ := h
    obtain ⟨hahead, rfl⟩ := h₁.ahead_eq hs
    obtain ⟨ks, hks, rfl, hlast⟩ := ih h (h₁.ample_self hs)
    exact ⟨s₁.previous :: ks, by rw [hahead, ← hks]; rfl, rfl, hlast⟩

theorem State.spanOf_eq {ks : List Token} (hks : ks ++ s'.ahead = s.ahead) (hne : ks ≠ [])
    (hlast : ks.getLast? = some s'.previous) :
    spanOf ks = s.current.span.merge s'.previous.span := by
  obtain ⟨k, ks, rfl⟩ := List.exists_cons_of_ne_nil hne
  have hcurrent : s.current = k := by simp [current, ← hks]
  rw [spanOf, hlast, hcurrent]
  rfl

theorem State.Past.exists_spanOf (h : s.Past ls s') (hs : s.Ample n) (hls : ls ≠ []) :
    ∃ ks, ks ++ s'.ahead = s.ahead ∧ ks.map Token.lexeme = ls ∧
      spanOf ks = s.current.span.merge s'.previous.span := by
  obtain ⟨ks, hks, rfl, hlast⟩ := h.exists_tokens hs
  obtain ⟨k, ks, rfl⟩ := List.exists_cons_of_ne_nil fun h => hls (List.map_eq_nil_iff.2 h)
  exact ⟨k :: ks, hks, rfl, State.spanOf_eq hks (List.cons_ne_nil _ _) hlast⟩

/-- Getting from the one state to the other, a declaration is read as `R` says. -/
def State.Reads (s : State) (R : τ → List Token → α → Prop) (a : α) (s' : State) : Prop :=
  ∃ t ks, R t ks a ∧ ks ++ s'.ahead = s.ahead

theorem reads_of_loop {x : ParseM α} {y : Nat → ParseM (List α)}
    (hx : ∀ ⦃s a s'⦄, s.Ready n vars → Takes x s a s' → s'.Ready n vars ∧ s.Reads R a s')
    (hzero : ∀ ⦃s as s'⦄, ¬ Takes (y 0) s as s')
    (hsucc : ∀ k ⦃s as s'⦄, Takes (y (k + 1)) s as s' → ([] = as ∧ s = s') ∨
      ∃ a s₁, Takes x s a s₁ ∧ ∃ as', Takes (y k) s₁ as' s' ∧ a :: as' = as)
    {as : List α} (hs : s.Ready n vars) (h : Takes (y k) s as s') :
    s'.Ready n vars ∧ s.Reads (InTurn R) as s' := by
  induction k generalizing s as with
  | zero => exact (hzero h).elim
  | succ k ih =>
    obtain ⟨rfl, rfl⟩ | ⟨a, s₁, ha, as', has, rfl⟩ := hsucc k h
    · exact ⟨hs, [], [], ⟨rfl, rfl⟩, rfl⟩
    · obtain ⟨hs₁, t, ks₁, ht, hks₁⟩ := hx hs ha
      obtain ⟨hs', ts, ks₂, hts, hks₂⟩ := ih hs₁ has
      refine ⟨hs', t :: ts, ks₁ ++ ks₂, ⟨ks₁, ks₂, a, as', ht, hts, rfl, rfl⟩, ?_⟩
      rw [List.append_assoc, hks₂, hks₁]

theorem span_of_takes_method {d : MethodDecl} (h : Takes (method n) s d s') :
    d.span = s.current.span.merge s'.previous.span := by
  obtain ⟨Xs, s₁, -, T, s₂, -, m, s₃, -, ps, s₄, -, s₅, -, s₆, -, e, s₇, -, s₈, -, s₉, -, hd⟩ :=
    takes_method_iff.1 h
  cases hd
  rfl

theorem reads_of_takes_method {d : MethodDecl} (hs : s.Ready n vars)
    (h : Takes (method n) s d s') :
    s'.Ready n vars ∧ s.Reads (MethodTree.ReadFrom vars) d s' := by
  obtain ⟨t, hvalid, hmeaning, hpast⟩ :=
    ((method_recognizes n).takes_iff hs trivial).1 (takes_map_iff.2 ⟨d, h, rfl⟩)
  obtain ⟨ks, hks, hlex, hspan⟩ := hpast.exists_spanOf hs.ample t.lexemes_ne_nil
  refine ⟨hpast.ready hs, t, ks, ⟨hvalid, hlex, ?_⟩, hks⟩
  rw [hmeaning, hspan, ← span_of_takes_method h]
  rfl

theorem reads_of_takes_methods {ds : List MethodDecl} (hs : s.Ready n vars)
    (h : Takes (methods n k) s ds s') :
    s'.Ready n vars ∧ s.Reads (InTurn (MethodTree.ReadFrom vars)) ds s' := by
  refine reads_of_loop (y := methods n) (fun _ _ _ => reads_of_takes_method)
    (fun _ _ _ => not_takes_endless) ?_ hs h
  intro k s ds s' h
  rw [methods, takes_sees_bind_iff] at h
  split at h
  · exact .inl (takes_pure_iff.1 h)
  · rw [takes_get_bind_iff] at h
    split at h
    · exact absurd h not_takes_complain
    · exact .inr (takes_cons_iff.1 h)

theorem reads_of_takes_classDecl {c : ClassDecl} (hs : s.Ready n vars)
    (h : Takes (classDecl n) s c s') :
    s'.Ready n vars ∧ s.Reads (ClassTree.ReadFrom vars) c s' := by
  obtain ⟨t, u, v, -, hvalid, hu, hds, hv, hc⟩ := (takes_classDecl_iff_past hs).1 h
  obtain ⟨hinside, ts, body, hbody, hahead⟩ :=
    reads_of_takes_methods ((hu.ready hs).inside (names t.typeParams)) hds
  have hready : v.Ready n vars :=
    ⟨⟨hinside.ample.ends, hinside.ample.lt⟩, List.append_cancel_left hinside.vars_eq⟩
  obtain ⟨head, hhead, hlex, -⟩ := hu.exists_tokens hs.ample
  obtain ⟨hlast, hbrace⟩ := hv.ahead_eq hready.ample
  have hks : head ++ (body ++ [s'.previous]) ++ s'.ahead = s.ahead := by
    rw [← hhead, ← show body ++ v.ahead = u.ahead from hahead, hlast]
    simp
  refine ⟨hv.ready hready, { t with methods := ts }, _,
    ⟨?_, ⟨head, body, s'.previous, hlex, hbody, hbrace, rfl⟩, ?_⟩, hks⟩
  · exact ⟨hvalid.1, hvalid.2.1, hvalid.2.2.1, hvalid.2.2.2.1,
      hbody.forall_tree fun _ _ _ h => h.valid⟩
  · rw [State.spanOf_eq hks (by simp) (by simp)]
    exact hc

theorem reads_of_takes_classes {cs : List ClassDecl} (hs : s.Ready n vars)
    (h : Takes (classes n k) s cs s') :
    s'.Ready n vars ∧ s.Reads (InTurn (ClassTree.ReadFrom vars)) cs s' := by
  refine reads_of_loop (y := classes n) (fun _ _ _ => reads_of_takes_classDecl)
    (fun _ _ _ => not_takes_endless) ?_ hs h
  intro k s cs s' h
  rw [classes, takes_sees_bind_iff] at h
  split at h
  · exact .inr (takes_cons_iff.1 h)
  · exact .inl (takes_pure_iff.1 h)

theorem State.ahead_eq_singleton {front ks : List Token} {last : Token} (hs : s.Ample n)
    (hend : s.current.lexeme = .eof) (hfront : ∀ k ∈ front, k.lexeme ≠ .eof)
    (h : ks ++ s.ahead = front ++ [last]) : s.ahead = [last] := by
  obtain ⟨rest, hrest⟩ := hs.ahead
  rw [hrest] at h ⊢
  rcases List.eq_nil_or_concat' rest with rfl | ⟨rest, l, rfl⟩
  · exact (List.append_inj' h rfl).2
  · rw [← List.cons_append, ← List.append_assoc] at h
    obtain ⟨rfl, -⟩ := List.append_inj' h rfl
    exact absurd hend (hfront s.current (by simp))

end Parse

namespace Program

open Grammar Parse

variable {front : List Token} {last : Token} {p : Program} {source : String}

theorem exists_readFrom_of_gives (hfront : ∀ k ∈ front, k.lexeme ≠ .eof)
    (hlast : last.lexeme = .eof) (h : (ofTokens (front ++ [last])).Gives p) :
    ∃ t : ProgramTree, t.ReadFrom (front ++ [last]) p := by
  obtain ⟨s', h⟩ := gives_ofTokens_iff.1 h
  have hs := State.ready_start front hlast
  obtain ⟨cs, s₁, hcs, e, he, hend, rfl⟩ := takes_program_iff.1 h
  obtain ⟨hs₁, ts, ks, hts, hks⟩ := reads_of_takes_classes hs hcs
  obtain ⟨t, hvalid, rfl, hpast⟩ :=
    ((term_recognizes _).takes_iff hs₁ (.inr (.inr (.inr hend)))).1 he
  obtain ⟨main, hmain, hlex, hspan⟩ := hpast.exists_spanOf hs₁.ample t.lexemes_ne_nil
  have htokens : (ks ++ main) ++ s'.ahead = front ++ [last] := by
    rw [List.append_assoc, hmain, hks, State.ahead_start]
  refine ⟨⟨ts, t⟩, hvalid, rfl, ks, main, last, hts, hlex, hspan, hlast, ?_⟩
  rw [← htokens, State.ahead_eq_singleton (hpast.ample hs₁.ample) hend hfront htokens,
    List.append_assoc]

theorem gives_ofTokens_iff_readFrom (hfront : ∀ k ∈ front, k.lexeme ≠ .eof)
    (hlast : last.lexeme = .eof) :
    (ofTokens (front ++ [last])).Gives p ↔ ∃ t : ProgramTree, t.ReadFrom (front ++ [last]) p := by
  refine ⟨exists_readFrom_of_gives hfront hlast, ?_⟩
  rintro ⟨t, ht⟩
  obtain ⟨_, hderives⟩ := ht.derives
  obtain ⟨q, hq, -⟩ := exists_gives_ofTokens_iff.2
    ((exists_takes_iff_exists_derives hfront hlast).2 ⟨t, hderives⟩)
  -- The lexemes have one tree, so what is read agrees with `p` in its spans too.
  obtain ⟨t', ht'⟩ := exists_readFrom_of_gives hfront hlast hq
  obtain ⟨_, hderives'⟩ := ht'.derives
  obtain rfl := ProgramTree.lexemes_inj (hderives'.1.trans hderives.1.symm)
  rwa [ht.unique ht']

theorem gives_ofSource_iff_readFrom :
    (ofSource source).Gives p ↔ ∃ t : ProgramTree, t.ReadFrom (tokenize source) p :=
  gives_ofTokens_iff_readFrom (fun _ hk => lexeme_ne_eof_of_pieces hk) rfl

variable {t : ProgramTree}

theorem exists_gives_slice (h : t.ReadFrom (tokenize source) p) :
    ∃ q, (ofSource (p.span.slice source)).Gives q ∧ q.classes = [] ∧ q.term = p.term ∧
      q.span.shift p.span.start = p.span := by
  obtain ⟨front, main, last, -, hmain, hspan, -, htokens⟩ := h.parts
  obtain ⟨K, l, rfl⟩ : ∃ K l, main = K ++ [l] := by
    apply (List.eq_nil_or_concat' main).resolve_left
    rintro rfl
    exact t.term.lexemes_ne_nil hmain.symm
  have hl : l.lexeme ≠ .eof := by
    rw [← List.append_assoc] at htokens
    obtain ⟨hpieces, -⟩ := List.append_inj' htokens rfl
    have hmem : l ∈ Position.origin.tokens (pieces source.toList) := by simp [← hpieces]
    exact lexeme_ne_eof_of_pieces hmem
  have hvalid : ∀ m, l.lexeme ≠ .invalid m := by
    apply t.term.noInvalid
    rw [← hmain]
    exact List.mem_map_of_mem (by simp)
  have hsplit : tokenize source = front ++ (K ++ l :: [last]) := by simp [← htokens]
  obtain ⟨K', bytes, lines, lines', hK, hslice⟩ := exists_tokenize_slice hsplit hl hvalid
  rw [hspan] at hK hslice
  have hne : K' ≠ [] := by
    rintro rfl
    simp at hK
  have hempty := hslice "" stopsWord_nil
  have hend : tokenize "" = [endToken ""] := by simp [tokenize, pieces, Position.tokens]
  rw [String.append_empty, hend, List.map_singleton] at hempty
  refine ⟨⟨[], p.term, spanOf K'⟩, gives_ofSource_iff_readFrom.2 ⟨⟨[], t.term⟩, h.valid, h.term,
    [], K', _, ⟨rfl, rfl⟩, ?_, rfl, ?_, hempty.symm⟩, rfl, rfl, ?_⟩
  · rw [← hmain, hK, map_lexeme_shift]
  · rfl
  · rw [← spanOf_map_shift hne _ lines, ← hK, hspan]

def newObject : TermTree := .chain (.new (.name "Object") []) .done

theorem tokenize_newObject : ∃ ks last, tokenize " new Object()" = ks ++ [last] ∧
    ks.map Token.lexeme = newObject.lexemes ∧ last.lexeme = .eof :=
  ⟨_, _, rfl, by decide +kernel, rfl⟩

theorem exists_gives_slice_class (h : t.ReadFrom (tokenize source) p) {c : ClassDecl}
    (hc : c ∈ p.classes) :
    ∃ q, (ofSource (c.span.slice source ++ " new Object()")).Gives q ∧
      q.classes.map (ClassDecl.shift · c.span.start) = [c] ∧
      q.term = .new ⟨"Object", []⟩ [] := by
  obtain ⟨front, main, last, hfront, -, -, -, htokens⟩ := h.parts
  obtain ⟨t', ks₁, ks, ks₃, hread, rfl⟩ := hfront.exists_of_mem hc
  obtain ⟨head, body, brace, -, -, hbrace, hks⟩ := hread.parts
  have hsplit : tokenize source =
      ks₁ ++ ((head ++ body) ++ brace :: (ks₃ ++ (main ++ [last]))) := by
    simp [← htokens, ← hks]
  obtain ⟨K', bytes, lines, lines', hK, hslice⟩ :=
    exists_tokenize_slice hsplit (by simp [hbrace]) (by simp [hbrace])
  rw [List.append_assoc, hks, ← hread.span_eq] at hK hslice
  rw [hK] at hread
  obtain ⟨c', hc', hshift⟩ := hread.of_shift
  obtain ⟨object, last', hobject, hlex, hlast'⟩ := tokenize_newObject
  have htokens' := hslice " new Object()" (stopsWord_space _)
  rw [hobject, List.map_append, List.map_singleton] at htokens'
  have hclass : InTurn (ClassTree.ReadFrom []) [t'] K' [c'] :=
    ⟨K', [], c', [], hc', ⟨rfl, rfl⟩, List.append_nil _, rfl⟩
  have hvalid : newObject.Valid [] := ⟨⟨⟨List.not_mem_nil, trivial⟩, trivial⟩, trivial⟩
  refine ⟨⟨[c'], newObject.term [], _⟩, gives_ofSource_iff_readFrom.2 ⟨⟨[t'], newObject⟩, hvalid,
    rfl, K', _, last'.shift bytes lines', hclass, ?_, rfl, hlast', htokens'.symm⟩, ?_, rfl⟩
  · rw [map_lexeme_shift, hlex]
  · rw [List.map_singleton, hshift]

/-- Spans are exact. Those of the classes stand in order in front of that of the main term,
and those of methods in order within that of their class. Taken alone, the slice of the main
term is read as that term, and the slice of a class, with a term behind it, as that class. -/
theorem spans_exact (h : (ofSource source).Gives p) :
    (p.classes.map ClassDecl.span ++ [p.span]).Pairwise Span.Before ∧
    (∀ c ∈ p.classes, (c.methods.map MethodDecl.span).Pairwise Span.Before ∧
      ∀ d ∈ c.methods, d.span.Within c.span) ∧
    (∃ q, (ofSource (p.span.slice source)).Gives q ∧ q.classes = [] ∧ q.term = p.term ∧
      q.span.shift p.span.start = p.span) ∧
    ∀ c ∈ p.classes, ∃ q, (ofSource (c.span.slice source ++ " new Object()")).Gives q ∧
      q.classes.map (ClassDecl.shift · c.span.start) = [c] ∧
      q.term = .new ⟨"Object", []⟩ [] := by
  obtain ⟨t, ht⟩ := gives_ofSource_iff_readFrom.1 h
  have hbefore : (tokenize source).Pairwise fun k k' => k.span.Before k'.span :=
    (tiled_tokenize source).ordered
  refine ⟨ht.classes_placed hbefore, fun c hc => ?_, exists_gives_slice ht,
    fun c hc => exists_gives_slice_class ht hc⟩
  obtain ⟨front, main, last, hfront, -, -, -, htokens⟩ := ht.parts
  obtain ⟨t', ks₁, ks, ks₃, hread, rfl⟩ := hfront.exists_of_mem hc
  have hpart : ks <:+: tokenize source := ⟨ks₁, ks₃ ++ (main ++ [last]), by simp [← htokens]⟩
  refine hread.methods_placed (hbefore.sublist hpart.sublist) fun k hk => ?_
  obtain ⟨b, text, a, -, hspan, -⟩ := exists_text_of_tokenize (hpart.subset hk)
  rw [hspan, String.utf8Len_append]
  exact Nat.le_add_right _ _

def commented : String :=
  "/*é*/class A extends Object \x7bA()\x7bsuper();\x7d A m()\x7breturn this;\x7d/**/" ++
    "A n()\x7breturn (this);\x7d\x7d//\nnew A()"

theorem spans_exact_commented :
    ∃ p, (ofSource commented).Gives p ∧ p.span = ⟨92, 99⟩ ∧ ∃ c ∈ p.classes,
      c.span = ⟨6, 89⟩ ∧ c.methods.map MethodDecl.span = [⟨44, 63⟩, ⟨67, 88⟩] ∧
      (∃ q, (ofSource (p.span.slice commented)).Gives q ∧ q.classes = [] ∧ q.term = p.term) ∧
      ∃ q, (ofSource (c.span.slice commented ++ " new Object()")).Gives q ∧
        q.classes.map (ClassDecl.shift · 6) = [c] ∧ q.term = .new ⟨"Object", []⟩ [] := by
  have hyps : (ofSource commented).Yields fun p => p.span = ⟨92, 99⟩ ∧ ∃ c ∈ p.classes,
      c.span = ⟨6, 89⟩ ∧ c.methods.map MethodDecl.span = [⟨44, 63⟩, ⟨67, 88⟩] := by
    decide +kernel
  obtain ⟨p, hp, hspan, c, hc, hclass, hmethods⟩ := hyps
  obtain ⟨-, -, ⟨q, hq, hclasses, hterm, -⟩, hslices⟩ := spans_exact hp
  have hslice := hslices c hc
  rw [show c.span.start = 6 by rw [hclass]] at hslice
  exact ⟨p, hp, hspan, c, hc, hclass, hmethods, ⟨q, hq, hclasses, hterm⟩, hslice⟩

end Program

end Featherweight

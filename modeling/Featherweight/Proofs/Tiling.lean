import Featherweight.Proofs.Lexing

/-!
# Tokens tile the source

The tokens of a source text cover all of it but white space and comments. `Tiles` states
this of a token list and a source text by the spans alone, in bytes of the source.

`Tiled` follows the lexer: in front of each token stands a gap, and what is behind the last
one is a gap too. Each clause of `Tiles` is read off it.
-/

namespace Featherweight

def Span.slice (s : Span) (source : String) : String :=
  String.Pos.Raw.extract source ⟨s.start⟩ ⟨s.stop⟩

def Span.OnBoundaries (s : Span) (source : String) : Prop :=
  String.Pos.Raw.IsValid source ⟨s.start⟩ ∧ String.Pos.Raw.IsValid source ⟨s.stop⟩

def Lexeme.IsWord : Lexeme → Prop
  | keyword _ | ident _ => True
  | _ => False

/-- Text of white space and complete comments. A line comment is complete with its newline,
or, if `atEnd` holds, at the end of the text. -/
inductive Skipped (atEnd : Prop) : List Char → Prop where
  | nil : Skipped atEnd []
  | blank {c : Char} {cs : List Char} (hc : Text.isBlank c = true) (h : Skipped atEnd cs) :
      Skipped atEnd (c :: cs)
  | line {body cs : List Char} (hbody : '\n' ∉ body) (h : Skipped atEnd cs) :
      Skipped atEnd ('/' :: '/' :: (body ++ '\n' :: cs))
  | block {body cs : List Char} (hbody : ¬ ['*', '/'] <:+: body ++ ['*'])
      (h : Skipped atEnd cs) : Skipped atEnd ('/' :: '*' :: (body ++ '*' :: '/' :: cs))
  | lastLine {body : List Char} (hbody : '\n' ∉ body) (h : atEnd) :
      Skipped atEnd ('/' :: '/' :: body)

/-- Why the text is no token, where this other text is behind it. -/
def LexicalFault.Explains : LexicalFault → List Char → List Char → Prop
  | unexpected c, text, _ =>
    text = [c] ∧ Text.isBlank c = false ∧ c ≠ '/' ∧ isWordStart c = false ∧
      Symbol.ofChar? c = none
  | straySlash, text, after => text = ['/'] ∧ ∀ d ∈ after.head?, d ≠ '/' ∧ d ≠ '*'
  | openComment, text, after =>
    after = [] ∧ ∃ body, text = '/' :: '*' :: body ∧ ¬ ['*', '/'] <:+: body

def gaps : Nat → List Token → List Span
  | _, [] => []
  | start, k :: ks => ⟨start, k.span.start⟩ :: gaps k.span.stop ks

structure Tiles (source : String) (tokens : List Token) : Prop where
  -- The last token and no other is the end of the file, at the end of the source.
  ends : ∃ front line,
    tokens = front ++ [⟨.eof, ⟨source.utf8ByteSize, source.utf8ByteSize⟩, line⟩] ∧
      ∀ k ∈ front, k.lexeme ≠ .eof
  ordered : tokens.Pairwise fun k k' => k.span.stop ≤ k'.span.start
  onBoundaries : ∀ k ∈ tokens, k.span.OnBoundaries source
  nonempty : ∀ k ∈ tokens, k.lexeme ≠ .eof → k.span.start < k.span.stop
  values : ∀ k ∈ tokens, k.lexeme ≠ .eof → (∀ m, k.lexeme ≠ .invalid m) →
    k.lexeme.text = k.span.slice source
  gaps : ∀ g ∈ gaps 0 tokens, Skipped (g.stop = source.utf8ByteSize) (g.slice source).toList
  -- Words are as long as they can be.
  words : ∀ k ∈ tokens, k.lexeme.IsWord →
    StopsWord (Span.slice ⟨k.span.stop, source.utf8ByteSize⟩ source).toList
  faults : ∀ k ∈ tokens, ∀ m, k.lexeme = .invalid m → ∃ f : LexicalFault, m = f.message ∧
    f.Explains (k.span.slice source).toList
      (Span.slice ⟨k.span.stop, source.utf8ByteSize⟩ source).toList
  lines : ∀ k ∈ tokens,
    k.line = 1 + (Span.slice ⟨0, k.span.start⟩ source).toList.count '\n'

variable {c : Char} {cs text rest before after : List Char} {l : Lexeme} {k : Token}
  {ks : List Token} {atEnd : Prop}

namespace Skipped

theorem mono {atEnd' : Prop} (h : Skipped atEnd cs) (hend : atEnd → atEnd') :
    Skipped atEnd' cs := by
  induction h with
  | nil => exact .nil
  | blank hc _ ih => exact .blank hc ih
  | line hbody _ ih => exact .line hbody ih
  | block hbody _ ih => exact .block hbody ih
  | lastLine hbody h => exact .lastLine hbody (hend h)

theorem append (h : Skipped False text) (hrest : Skipped atEnd rest) :
    Skipped atEnd (text ++ rest) := by
  induction h with
  | nil => exact hrest
  | blank hc _ ih => exact .blank hc ih
  | line hbody _ ih =>
    rw [List.cons_append, List.cons_append, List.append_assoc]
    exact .line hbody ih
  | block hbody _ ih =>
    rw [List.cons_append, List.cons_append, List.append_assoc]
    exact .block hbody ih
  | lastLine _ h => exact h.elim

theorem of_blanks (h : ∀ c ∈ cs, Text.isBlank c = true) : Skipped atEnd cs := by
  induction cs with
  | nil => exact .nil
  | cons c cs ih =>
    rw [List.forall_mem_cons] at h
    exact .blank h.1 (ih h.2)

end Skipped

theorem exists_body_of_splitComment? (h : splitComment? cs = some (text, rest)) :
    ∃ body, text = body ++ ['*', '/'] ∧ ¬ ['*', '/'] <:+: body ++ ['*'] := by
  fun_induction splitComment? cs generalizing text with
  | case1 => cases h
  | case2 cs =>
    cases h
    exact ⟨[], rfl, by decide⟩
  | case3 c cs hc ih =>
    obtain ⟨⟨t, r⟩, ht, he⟩ := Option.map_eq_some_iff.1 h
    cases he
    obtain ⟨body, rfl, hbody⟩ := ih ht
    refine ⟨c :: body, rfl, ?_⟩
    rw [List.cons_append, List.infix_cons_iff]
    rintro (hpre | hinfix)
    · -- With the mark in front, the comment would have been closed here.
      obtain ⟨rfl, hslash⟩ := List.cons_prefix_cons.1 hpre
      cases body with
      | nil => simp at hslash
      | cons d body =>
        obtain ⟨rfl, -⟩ := List.cons_prefix_cons.1 hslash
        exact hc _ rfl (splitComment?_append ht).symm
    · exact hbody hinfix

theorem not_infix_of_splitComment? (h : splitComment? cs = none) : ¬ ['*', '/'] <:+: cs := by
  fun_induction splitComment? cs with
  | case1 => decide
  | case2 cs => cases h
  | case3 c cs hc ih =>
    rw [List.infix_cons_iff]
    rintro (hpre | hinfix)
    · obtain ⟨rfl, r, rfl⟩ := List.cons_prefix_cons.1 hpre
      exact hc r rfl rfl
    · exact ih (Option.map_eq_none_iff.1 h) hinfix

theorem skipped_of_cutSlash (h : (cutSlash cs).1.lexeme? = none) :
    Skipped ((cutSlash cs).2 = []) (cutSlash cs).1.text := by
  revert h
  fun_cases cutSlash cs with
  | case1 cs =>
    intro _
    by_cases hmem : '\n' ∈ cs
    · obtain ⟨body, tail, rfl, hbody⟩ := List.eq_append_cons_of_mem hmem
      rw [splitLine_newline hbody]
      exact .line hbody .nil
    · rw [splitLine_of_not_mem hmem]
      exact .lastLine hmem rfl
  | case2 cs text rest hsplit =>
    intro _
    obtain ⟨body, rfl, hbody⟩ := exists_body_of_splitComment? hsplit
    exact .block hbody .nil
  | case3 cs _ =>
    intro h
    cases h
  | case4 cs _ _ =>
    intro h
    cases h

theorem skipped_of_cut (h : (cut c cs).1.lexeme? = none) :
    Skipped ((cut c cs).2 = []) (cut c cs).1.text := by
  revert h
  fun_cases cut c cs with
  | case1 hc =>
    intro _
    exact .blank hc (.of_blanks fun d hd => List.mem_takeWhile_imp hd)
  | case2 => exact skipped_of_cutSlash
  | case3 | case4 | case5 =>
    intro h
    cases h

theorem exists_fault_of_cutSlash (h : (cutSlash cs).1.lexeme? = some l) :
    ∃ f : LexicalFault, l = .invalid f.message ∧
      f.Explains (cutSlash cs).1.text (cutSlash cs).2 := by
  revert h
  fun_cases cutSlash cs with
  | case1 | case2 =>
    intro h
    cases h
  | case3 cs hsplit =>
    intro h
    cases h
    exact ⟨.openComment, rfl, rfl, cs, rfl, not_infix_of_splitComment? hsplit⟩
  | case4 cs hline hblock =>
    intro h
    cases h
    refine ⟨.straySlash, rfl, rfl, fun d hd => ?_⟩
    obtain ⟨ds, rfl⟩ := List.head?_eq_some_iff.1 hd
    constructor
    · rintro rfl
      exact hline ds rfl
    · rintro rfl
      exact hblock ds rfl

theorem Lexeme.text_ofWord (s : String) : (Lexeme.ofWord s).text = s := by
  unfold Lexeme.ofWord
  split
  · next k hk =>
    rw [Keyword.ofText?] at hk
    have htext := List.find?_some hk
    exact of_decide_eq_true htext
  · rfl

theorem stopsWord_dropWhile (cs : List Char) : StopsWord (cs.dropWhile isWordChar) := by
  intro d hd
  have hstop := List.head?_dropWhile_not isWordChar cs
  rw [Option.mem_def.1 hd] at hstop
  exact hstop

/-- What a token says of its text and of the text behind it. -/
structure Stands (text : List Char) (l : Lexeme) (after : List Char) : Prop where
  ne_nil : text ≠ []
  value : (∀ m, l ≠ .invalid m) → l.text = String.ofList text
  stops : l.IsWord → StopsWord after
  fault : ∀ m, l = .invalid m → ∃ f : LexicalFault, m = f.message ∧ f.Explains text after

theorem Stands.of_fault {f : LexicalFault} (htext : text ≠ []) (hf : f.Explains text after) :
    Stands text (.invalid f.message) after where
  ne_nil := htext
  value h := absurd rfl (h _)
  stops := False.elim
  fault _ hm := ⟨f, (Lexeme.invalid.inj hm).symm, hf⟩

theorem Stands.of_valid (htext : text ≠ []) (hm : ∀ m, l ≠ .invalid m)
    (hvalue : l.text = String.ofList text) (hstops : l.IsWord → StopsWord after) :
    Stands text l after :=
  ⟨htext, fun _ => hvalue, hstops, fun m h => absurd h (hm m)⟩

theorem Lexeme.ofWord_ne_invalid (s m : String) : Lexeme.ofWord s ≠ .invalid m := by
  unfold Lexeme.ofWord
  split <;> simp

theorem stands_of_cut (h : (cut c cs).1.lexeme? = some l) :
    Stands (cut c cs).1.text l (cut c cs).2 := by
  have htext := cut_text_ne_nil c cs
  revert h htext
  fun_cases cut c cs with
  | case1 =>
    intro h
    cases h
  | case2 =>
    intro h htext
    obtain ⟨f, rfl, hf⟩ := exists_fault_of_cutSlash h
    exact .of_fault htext hf
  | case3 =>
    intro h htext
    cases h
    exact .of_valid htext (Lexeme.ofWord_ne_invalid _) (Lexeme.text_ofWord _)
      fun _ => stopsWord_dropWhile cs
  | case4 _ _ _ s hs =>
    intro h htext
    cases h
    rw [Symbol.ofChar?] at hs
    have hchar := List.find?_some hs
    refine .of_valid htext (by simp) ?_ False.elim
    rw [Lexeme.text, of_decide_eq_true hchar]
    exact String.singleton_eq_ofList
  | case5 hblank hslash hword hsymbol =>
    intro h htext
    cases h
    rw [Bool.not_eq_true] at hblank hword
    exact .of_fault htext ⟨rfl, hblank, hslash, hword, hsymbol⟩

/-- The tokens of `rest` in a source where `before` stands in front of it. -/
inductive Tiled : List Char → List Char → List Token → Prop where
  | done {before gap : List Char} (hgap : Skipped True gap) :
      Tiled before gap [(Position.origin.past (before ++ gap)).token [] .eof]
  | token {before gap text after : List Char} {l : Lexeme} {ks : List Token}
      (hgap : Skipped False gap) (hl : Stands text l after)
      (hks : Tiled (before ++ gap ++ text) after ks) :
      Tiled before (gap ++ (text ++ after))
        ((Position.origin.past (before ++ gap)).token text l :: ks)

theorem Tiled.skip (htext : Skipped (rest = []) text) (h : Tiled (before ++ text) rest ks) :
    Tiled before (text ++ rest) ks := by
  generalize hb : before ++ text = b at h
  cases h with
  | done hgap =>
    subst hb
    rw [List.append_assoc]
    apply Tiled.done
    by_cases hrest : rest = []
    · rw [hrest, List.append_nil]
      exact htext.mono fun _ => trivial
    · exact (htext.mono hrest).append hgap
  | @token _ gap text' after l ks hgap hl hks =>
    subst hb
    have hrest : gap ++ (text' ++ after) ≠ [] := by simp [hl.ne_nil]
    rw [List.append_assoc before, ← List.append_assoc text]
    rw [List.append_assoc before] at hks
    exact .token ((htext.mono hrest).append hgap) hl hks

theorem tiled_pieces (before cs : List Char) :
    Tiled before cs ((Position.origin.past before).tokens (pieces cs) ++
      [(Position.origin.past (before ++ cs)).token [] .eof]) := by
  fun_induction pieces cs generalizing before with
  | case1 => exact .done .nil
  | case2 c cs ih =>
    have ih := ih (before ++ (cut c cs).1.text)
    rw [List.append_assoc, cut_append] at ih
    rw [Position.tokens_cons, ← Position.past_append, List.append_assoc]
    cases hq : (cut c cs).1.lexeme? with
    | none =>
      have htiled := Tiled.skip (skipped_of_cut hq) ih
      rw [cut_append] at htiled
      simpa only [Position.tokens, hq, List.nil_append] using htiled
    | some l =>
      rw [← List.append_nil before] at ih
      have htiled := Tiled.token .nil (stands_of_cut hq) ih
      rw [List.nil_append, cut_append, List.append_nil] at htiled
      simpa only [Position.tokens, hq, List.singleton_append] using htiled

theorem Position.token_past_origin (b t : List Char) (l : Lexeme) : (origin.past b).token t l =
    ⟨l, ⟨String.utf8Len b, String.utf8Len (b ++ t)⟩, 1 + b.count '\n'⟩ := by
  rw [token, ← past_append, past_eq, past_eq]
  simp [origin]

theorem Span.slice_eq {source : String} {b t a : List Char} (h : source.toList = b ++ (t ++ a)) :
    Span.slice ⟨String.utf8Len b, String.utf8Len (b ++ t)⟩ source = String.ofList t := by
  rw [slice, ← String.ofList_toList (s := source), h, ← List.append_assoc, String.utf8Len_append]
  exact String.extract_of_valid b t a

theorem isValid_of_append {source : String} {b a : List Char} (h : source.toList = b ++ a) :
    String.Pos.Raw.IsValid source ⟨String.utf8Len b⟩ := by
  rw [String.Pos.Raw.isValid_iff_exists_append]
  refine ⟨String.ofList b, String.ofList a, ?_, ?_⟩
  · rw [← String.ofList_append, ← h, String.ofList_toList]
  · rw [String.rawEndPos_ofList]

namespace Tiled

theorem exists_text (h : Tiled before rest ks) (hk : k ∈ ks) : ∃ g t a, rest = g ++ (t ++ a) ∧
    k.span = ⟨String.utf8Len (before ++ g), String.utf8Len (before ++ g ++ t)⟩ ∧
    k.line = 1 + (before ++ g).count '\n' ∧ (k.lexeme ≠ .eof → Stands t k.lexeme a) := by
  induction h with
  | @done before gap hgap =>
    rw [List.mem_singleton.1 hk, Position.token_past_origin]
    exact ⟨gap, [], [], by simp, rfl, rfl, fun h => absurd rfl h⟩
  | @token before gap text after l ks hgap hl hks ih =>
    rcases List.mem_cons.1 hk with rfl | hk
    · rw [Position.token_past_origin]
      exact ⟨gap, text, after, rfl, rfl, rfl, fun _ => hl⟩
    · obtain ⟨g, t, a, rfl, hspan, hline, hstands⟩ := ih hk
      refine ⟨gap ++ text ++ g, t, a, by simp, ?_, ?_, hstands⟩
      · simpa only [List.append_assoc] using hspan
      · simpa only [List.append_assoc] using hline

theorem le_start (h : Tiled before rest ks) (hk : k ∈ ks) :
    String.utf8Len before ≤ k.span.start := by
  obtain ⟨g, t, a, -, hspan, -⟩ := h.exists_text hk
  rw [hspan, String.utf8Len_append]
  exact Nat.le_add_right _ _

theorem ordered (h : Tiled before rest ks) :
    ks.Pairwise fun k k' => k.span.stop ≤ k'.span.start := by
  induction h with
  | done => exact List.pairwise_singleton _ _
  | token hgap hl hks ih =>
    rw [Position.token_past_origin, List.pairwise_cons]
    exact ⟨fun k hk => hks.le_start hk, ih⟩

theorem gaps {source : String} (h : Tiled before rest ks)
    (hsource : source.toList = before ++ rest) :
    ∀ g ∈ gaps (String.utf8Len before) ks,
      Skipped (g.stop = source.utf8ByteSize) (g.slice source).toList := by
  induction h with
  | @done before gap hgap =>
    rw [Position.token_past_origin, Featherweight.gaps, Featherweight.gaps,
      List.forall_mem_singleton, Span.slice_eq (a := []) (by simpa using hsource),
      String.toList_ofList]
    apply hgap.mono
    intro _
    rw [← String.utf8Len_toList, hsource]
  | @token before gap text after l ks hgap hl hks ih =>
    rw [Position.token_past_origin, Featherweight.gaps, List.forall_mem_cons,
      Span.slice_eq hsource, String.toList_ofList]
    exact ⟨hgap.mono False.elim, ih (by rw [hsource]; simp)⟩

end Tiled

theorem tiled_tokenize (source : String) : Tiled [] source.toList (tokenize source) :=
  tiled_pieces [] source.toList

theorem exists_text_of_tokenize {source : String} (hk : k ∈ tokenize source) :
    ∃ b t a, source.toList = b ++ (t ++ a) ∧
      k.span = ⟨String.utf8Len b, String.utf8Len (b ++ t)⟩ ∧ k.line = 1 + b.count '\n' ∧
      (k.lexeme ≠ .eof → Stands t k.lexeme a) := by
  simpa only [List.nil_append] using (tiled_tokenize source).exists_text hk

theorem stands_slice {source : String} (hk : k ∈ tokenize source)
    (hl : k.lexeme ≠ .eof) : Stands (k.span.slice source).toList k.lexeme
      (Span.slice ⟨k.span.stop, source.utf8ByteSize⟩ source).toList := by
  obtain ⟨b, t, a, hsource, hspan, -, hstands⟩ := exists_text_of_tokenize hk
  have hall : source.toList = b ++ t ++ (a ++ []) := by
    rw [hsource, List.append_nil, List.append_assoc]
  have hafter := Span.slice_eq hall
  rw [← List.append_nil a, ← hall, List.append_nil, String.utf8Len_toList] at hafter
  rw [hspan, Span.slice_eq hsource, hafter, String.toList_ofList, String.toList_ofList]
  exact hstands hl

theorem tokenize_tiles (source : String) : Tiles source (tokenize source) where
  ends := by
    refine ⟨Position.origin.tokens (pieces source.toList), (endToken source).line, ?_,
      fun k hk => lexeme_ne_eof_of_pieces hk⟩
    rw [tokenize, endToken, Position.token_past_origin, List.append_nil, String.utf8Len_toList]
  ordered := (tiled_tokenize source).ordered
  onBoundaries k hk := by
    obtain ⟨b, t, a, hsource, hspan, -⟩ := exists_text_of_tokenize hk
    rw [Span.OnBoundaries, hspan]
    refine ⟨isValid_of_append hsource, ?_⟩
    apply isValid_of_append (a := a)
    rw [hsource, List.append_assoc]
  nonempty k hk hl := by
    obtain ⟨b, t, a, -, hspan, -, hstands⟩ := exists_text_of_tokenize hk
    have hlength : String.utf8Len t ≠ 0 := mt String.utf8Len_eq_zero.1 (hstands hl).ne_nil
    rw [hspan, String.utf8Len_append]
    exact Nat.lt_add_of_pos_right (Nat.pos_of_ne_zero hlength)
  values k hk hl hm := by
    rw [(stands_slice hk hl).value hm, String.ofList_toList]
  gaps := (tiled_tokenize source).gaps rfl
  words k hk hw := by
    have hl : k.lexeme ≠ .eof := by
      intro h
      rw [h] at hw
      exact hw
    exact (stands_slice hk hl).stops hw
  faults k hk m hm := by
    have hl : k.lexeme ≠ .eof := by
      rw [hm]
      simp
    exact (stands_slice hk hl).fault m hm
  lines k hk := by
    obtain ⟨b, t, a, hsource, hspan, hline, -⟩ := exists_text_of_tokenize hk
    have hslice := Span.slice_eq (b := []) hsource
    rw [List.nil_append, String.utf8Len_nil] at hslice
    rw [hspan, hslice, String.toList_ofList, hline]

end Featherweight

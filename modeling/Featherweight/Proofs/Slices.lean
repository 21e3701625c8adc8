import Featherweight.Proofs.Tiling

/-!
# Slices of source text

The text from one token of a source to another has the tokens between them, so many bytes
and lines further back. How a text is cut depends on each piece and on the one character
behind it, so nothing that stands before the first token or behind the last one matters. A
word could go on into what follows, so no word may go on there.
-/

namespace Featherweight

variable {c d : Char} {cs text rest r w : List Char} {q : Piece} {qs rs : List Piece}
  {l : Lexeme}

theorem splitLine_local (h : (splitLine cs).2 ≠ []) (r : List Char) :
    splitLine ((splitLine cs).1 ++ r) = ((splitLine cs).1, r) := by
  have hmem : '\n' ∈ cs := by
    by_contra hmem
    exact h (by rw [splitLine_of_not_mem hmem])
  obtain ⟨body, tail, rfl, hbody⟩ := List.eq_append_cons_of_mem hmem
  rw [splitLine_newline hbody, List.append_assoc]
  exact splitLine_newline hbody r

theorem splitComment?_local (h : splitComment? cs = some (text, rest)) (r : List Char) :
    splitComment? (text ++ r) = some (text, r) := by
  have htext : splitComment? text = some (text, []) := by
    fun_induction splitComment? cs generalizing text with
    | case1 => cases h
    | case2 cs =>
      cases h
      rfl
    | case3 c cs hc ih =>
      obtain ⟨⟨t, r⟩, ht, he⟩ := Option.map_eq_some_iff.1 h
      cases he
      have hc' : ∀ ds, c = '*' → t = '/' :: ds → False := by
        rintro ds hstar rfl
        exact hc _ hstar (splitComment?_append ht).symm
      rw [splitComment?.eq_3 _ _ hc', ih ht]
      rfl
  exact splitComment?_append_right htext r

theorem cutSlash_local (h : cutSlash (w ++ d :: rest) = (q, d :: rest)) (r : List Char) :
    cutSlash (w ++ d :: r) = (q, d :: r) := by
  have htext : q.text = '/' :: w := by
    have happend := cutSlash_append (w ++ d :: rest)
    rw [h, ← List.cons_append] at happend
    exact List.append_cancel_right happend
  generalize w ++ d :: rest = cs at h
  revert h
  fun_cases cutSlash cs with
  | case1 cs =>
    intro h
    obtain ⟨rfl, hrest⟩ := Prod.mk.inj h
    obtain ⟨-, hw⟩ := List.cons.inj htext
    rw [← hw, List.cons_append, cutSlash, splitLine_local (by simp [hrest])]
  | case2 cs text tail hsplit =>
    intro h
    obtain ⟨rfl, hrest⟩ := Prod.mk.inj h
    obtain ⟨-, hw⟩ := List.cons.inj htext
    simp only [← hw, List.cons_append, cutSlash, splitComment?_local hsplit]
  | case3 cs _ =>
    intro h
    cases (Prod.mk.inj h).2
  | case4 cs hline hblock =>
    intro h
    obtain ⟨rfl, rfl⟩ := Prod.mk.inj h
    obtain ⟨-, hw⟩ := List.cons.inj htext
    rw [← hw, List.nil_append, cutSlash.eq_3]
    · intro ds hds
      exact hline rest (by rw [(List.cons.inj hds).1])
    · intro ds hds
      exact hblock rest (by rw [(List.cons.inj hds).1])

theorem takeWhile_local {p : Char → Bool} (h : (w ++ d :: rest).dropWhile p = d :: rest)
    (r : List Char) : (w ++ d :: r).takeWhile p = (w ++ d :: rest).takeWhile p ∧
      (w ++ d :: r).dropWhile p = d :: r := by
  have hw : (w ++ d :: rest).takeWhile p = w := by
    have happend := List.takeWhile_append_dropWhile (p := p) (l := w ++ d :: rest)
    rw [h] at happend
    exact List.append_cancel_right happend
  have hall : ∀ x ∈ w, p x = true := fun x hx => List.mem_takeWhile_imp (hw ▸ hx)
  have hd : ¬ p d = true := by
    have hstop := List.head?_dropWhile_not p (w ++ d :: rest)
    rw [h] at hstop
    simpa using hstop
  rw [hw, List.takeWhile_append_of_pos hall, List.dropWhile_append_of_pos hall,
    List.takeWhile_cons_of_neg hd, List.dropWhile_cons_of_neg hd, List.append_nil]
  exact ⟨rfl, rfl⟩

theorem cut_local (h : cut c (w ++ d :: rest) = (q, d :: rest)) (r : List Char) :
    cut c (w ++ d :: r) = (q, d :: r) := by
  have htext : q.text = c :: w := by
    have happend := cut_append c (w ++ d :: rest)
    rw [h, ← List.cons_append] at happend
    exact List.append_cancel_right happend
  revert h
  fun_cases cut c (w ++ d :: rest) with
  | case1 hc =>
    intro h
    obtain ⟨rfl, hrest⟩ := Prod.mk.inj h
    rw [cut, if_pos hc, (takeWhile_local hrest r).1, (takeWhile_local hrest r).2]
  | case2 hb hc =>
    intro h
    rw [cut, if_neg hb, if_pos hc, cutSlash_local h]
  | case3 hb hs hc =>
    intro h
    obtain ⟨rfl, hrest⟩ := Prod.mk.inj h
    rw [cut, if_neg hb, if_neg hs, if_pos hc, (takeWhile_local hrest r).1,
      (takeWhile_local hrest r).2]
  | case4 hb hs hw s hc =>
    intro h
    obtain ⟨rfl, -⟩ := Prod.mk.inj h
    obtain ⟨-, hw'⟩ := List.cons.inj htext
    rw [cut, if_neg hb, if_neg hs, if_neg hw, hc, ← hw']
    rfl
  | case5 hb hs hw hc =>
    intro h
    obtain ⟨rfl, -⟩ := Prod.mk.inj h
    obtain ⟨-, hw'⟩ := List.cons.inj htext
    rw [cut, if_neg hb, if_neg hs, if_neg hw, hc, ← hw']
    rfl

theorem cut_stopped (h : (cut c cs).1.lexeme? = some l) (hl : ∀ m, l ≠ .invalid m)
    (hr : StopsWord r) : ∃ w, (cut c cs).1.text = c :: w ∧ cut c (w ++ r) = ((cut c cs).1, r) := by
  revert h
  fun_cases cut c cs with
  | case1 =>
    intro h
    cases h
  | case2 =>
    intro h
    obtain ⟨f, rfl, -⟩ := exists_fault_of_cutSlash h
    exact absurd rfl (hl _)
  | case3 hb hs hc =>
    intro _
    exact ⟨_, rfl, cut_word hc (fun x hx => List.mem_takeWhile_imp hx) hr⟩
  | case4 hb hs hw s hc =>
    intro _
    exact ⟨[], rfl, by rw [cut, if_neg hb, if_neg hs, if_neg hw, hc]; rfl⟩
  | case5 =>
    intro h
    cases h
    exact absurd rfl (hl _)

theorem exists_text_of_cut (c : Char) (cs : List Char) :
    ∃ w, (cut c cs).1.text = c :: w ∧ w ++ (cut c cs).2 = cs := by
  obtain ⟨c', w, hw⟩ := List.exists_cons_of_ne_nil (cut_text_ne_nil c cs)
  have happend := cut_append c cs
  rw [hw, List.cons_append, List.cons.injEq] at happend
  exact ⟨w, by rw [hw, happend.1], happend.2⟩

theorem flatMap_text_pieces (cs : List Char) : (pieces cs).flatMap Piece.text = cs := by
  fun_induction pieces cs with
  | case1 => rfl
  | case2 c cs ih => rw [List.flatMap_cons, ih, cut_append]

theorem pieces_append_of_pieces (h : pieces cs = qs ++ q :: rs) (hq : q.lexeme? = some l)
    (hl : ∀ m, l ≠ .invalid m) (hr : StopsWord r) :
    pieces ((qs ++ [q]).flatMap Piece.text ++ r) = qs ++ q :: pieces r := by
  have htext : q.text ≠ [] := by
    obtain ⟨c, ds, rfl⟩ := exists_cut (h ▸ List.mem_append_right qs List.mem_cons_self)
    exact cut_text_ne_nil c ds
  induction qs generalizing cs with
  | nil =>
    cases cs with
    | nil => simp [pieces] at h
    | cons c cs =>
      rw [pieces, List.nil_append, List.cons.injEq] at h
      obtain ⟨rfl, -⟩ := h
      obtain ⟨w, hw, hcut⟩ := cut_stopped hq hl hr
      rw [List.nil_append, List.flatMap_singleton, hw, List.cons_append, pieces, hcut,
        List.nil_append]
  | cons q' qs ih =>
    cases cs with
    | nil => simp [pieces] at h
    | cons c cs =>
      rw [pieces, List.cons_append, List.cons.injEq] at h
      obtain ⟨rfl, h⟩ := h
      obtain ⟨w, hw, hcs⟩ := exists_text_of_cut c cs
      obtain ⟨d, x, hx⟩ : ∃ d x, (qs ++ [q]).flatMap Piece.text = d :: x :=
        List.exists_cons_of_ne_nil (by simp [htext])
      have hrest : (cut c cs).2 = d :: (x ++ rs.flatMap Piece.text) := by
        rw [← flatMap_text_pieces (cut c cs).2, h, ← List.singleton_append, ← List.append_assoc,
          List.flatMap_append, hx, List.cons_append]
      have hcut : cut c (w ++ d :: (x ++ rs.flatMap Piece.text)) =
          ((cut c cs).1, d :: (x ++ rs.flatMap Piece.text)) := by
        rw [← hrest, hcs]
      have hrest' := ih h
      rw [hx] at hrest'
      rw [List.cons_append, List.flatMap_cons, hx, hw, List.append_assoc, List.cons_append, pieces,
        List.cons_append, cut_local hcut, ← List.cons_append, hrest']
      rfl

namespace Position

variable {p : Position} {ks ks' : List Token} {k : Token}

theorem exists_split (h : p.tokens qs = ks ++ k :: ks') : ∃ qs₁ q qs₂, qs = qs₁ ++ q :: qs₂ ∧
    p.tokens qs₁ = ks ∧ q.lexeme? = some k.lexeme ∧
      k = (p.past (qs₁.flatMap Piece.text)).token q.text k.lexeme ∧
      (p.past ((qs₁ ++ [q]).flatMap Piece.text)).tokens qs₂ = ks' := by
  induction qs generalizing p ks with
  | nil => simp [tokens] at h
  | cons q qs ih =>
    rw [tokens] at h
    split at h
    · next l hl =>
      cases ks with
      | nil =>
        obtain ⟨rfl, rfl⟩ := List.cons.inj h
        exact ⟨[], q, qs, rfl, rfl, hl, rfl, by simp⟩
      | cons k' ks =>
        obtain ⟨rfl, hrest⟩ := List.cons.inj h
        obtain ⟨qs₁, q', qs₂, rfl, rfl, hq', hk, htail⟩ := ih hrest
        refine ⟨q :: qs₁, q', qs₂, rfl, by simp [tokens, hl], hq', ?_, ?_⟩
        · rw [List.flatMap_cons, past_append, ← hk]
        · rw [List.cons_append, List.flatMap_cons, past_append, htail]
    · next hl =>
      obtain ⟨qs₁, q', qs₂, rfl, rfl, hq', hk, htail⟩ := ih h
      refine ⟨q :: qs₁, q', qs₂, rfl, by simp [tokens, hl], hq', ?_, ?_⟩
      · rw [List.flatMap_cons, past_append, ← hk]
      · rw [List.cons_append, List.flatMap_cons, past_append, htail]

end Position

/-- The span from the first of these tokens to the last. -/
def spanOf (ks : List Token) : Span :=
  match ks.head?, ks.getLast? with
  | some k, some k' => k.span.merge k'.span
  | _, _ => ⟨0, 0⟩

theorem pieces_flatMap_text (h : pieces cs = qs ++ rs) : pieces (rs.flatMap Piece.text) = rs := by
  induction qs generalizing cs with
  | nil =>
    rw [List.nil_append] at h
    rw [← h, flatMap_text_pieces]
  | cons q qs ih =>
    cases cs with
    | nil => simp [pieces] at h
    | cons c cs =>
      rw [pieces, List.cons_append, List.cons.injEq] at h
      exact ih h.2

theorem tokenize_append (t r : String) (h : pieces (t.toList ++ r.toList) = qs ++ pieces r.toList)
    (hqs : qs.flatMap Piece.text = t.toList) :
    tokenize (t ++ r) = Position.origin.tokens qs ++
      (tokenize r).map (Token.shift · t.utf8ByteSize (t.toList.count '\n')) := by
  have hshift : Position.origin.past t.toList =
      Position.origin.shift t.utf8ByteSize (t.toList.count '\n') := by
    rw [Position.past_eq, String.utf8Len_toList]
    rfl
  have hend : endToken (t ++ r) =
      (endToken r).shift t.utf8ByteSize (t.toList.count '\n') := by
    rw [endToken, String.toList_append, Position.past_append, hshift, Position.past_shift,
      Position.token_shift, endToken]
  rw [tokenize, tokenize, String.toList_append, h, Position.tokens_append, hqs, hshift,
    Position.tokens_shift, hend, List.map_append, List.append_assoc, List.map_singleton]

theorem spanOf_eq {K : List Token} {first last : Token} (hfirst : K.head? = some first)
    (hlast : K.getLast? = some last) (hstart : first.span.start ≤ last.span.start)
    (hstop : first.span.stop ≤ last.span.stop) :
    spanOf K = ⟨first.span.start, last.span.stop⟩ := by
  rw [spanOf, hfirst, hlast]
  simp only [Span.merge, Nat.min_eq_left hstart, Nat.max_eq_right hstop]

theorem exists_pieces_of_tokenize {source : String} {K₁ K K₃ : List Token} {last : Token}
    (h : tokenize source = K₁ ++ (K ++ last :: K₃)) (hlast : last.lexeme ≠ .eof) :
    ∃ b qs q a, q.lexeme? = some last.lexeme ∧
      source.toList = b ++ ((qs ++ [q]).flatMap Piece.text ++ a) ∧
      (Position.origin.past b).tokens (qs ++ [q]) = K ++ [last] ∧
      (∃ rs, pieces ((qs ++ q :: rs).flatMap Piece.text) = qs ++ q :: rs) ∧
      spanOf (K ++ [last]) =
        ⟨String.utf8Len b, String.utf8Len (b ++ (qs ++ [q]).flatMap Piece.text)⟩ := by
  -- The end of the file stands behind these tokens.
  obtain ⟨K₃, rfl, htokens⟩ : ∃ L, K₃ = L ++ [endToken source] ∧
      Position.origin.tokens (pieces source.toList) = K₁ ++ (K ++ last :: L) := by
    rcases List.eq_nil_or_concat' K₃ with rfl | ⟨L, e, rfl⟩
    · rw [tokenize, ← List.append_assoc] at h
      obtain ⟨-, hend⟩ := List.append_inj' h rfl
      refine absurd ?_ hlast
      rw [← (List.cons.inj hend).1]
      rfl
    · rw [tokenize, ← List.cons_append, ← List.append_assoc, ← List.append_assoc] at h
      obtain ⟨hfront, hend⟩ := List.append_inj' h rfl
      rw [(List.cons.inj hend).1, hfront, List.append_assoc]
      exact ⟨L, rfl, rfl⟩
  obtain ⟨first, tl, hfirst⟩ : ∃ first tl, K ++ last :: K₃ = first :: tl :=
    List.exists_cons_of_ne_nil (by simp)
  obtain ⟨A, q₁, B, hA, -, hq₁, hk₁, htl⟩ := Position.exists_split (hfirst ▸ htokens)
  have hrest : (Position.origin.past (A.flatMap Piece.text)).tokens (q₁ :: B) =
      K ++ last :: K₃ := by
    rw [List.flatMap_append, List.flatMap_singleton, Position.past_append] at htl
    simp only [Position.tokens, hq₁, htl, hfirst, ← hk₁]
  obtain ⟨D, q₂, E, hD, hK, hq₂, hk₂, -⟩ := Position.exists_split hrest
  refine ⟨A.flatMap Piece.text, D, q₂, E.flatMap Piece.text, hq₂, ?_, ?_, ⟨E, ?_⟩, ?_⟩
  · rw [← flatMap_text_pieces source.toList, hA, hD]
    simp
  · rw [Position.tokens_append, hK]
    simp only [Position.tokens, hq₂, ← hk₂]
  · exact pieces_flatMap_text (hA.trans (by rw [hD]))
  · have hhead : (K ++ [last]).head? = some first := by
      cases K with
      | nil => exact congrArg some (List.cons.inj hfirst).1
      | cons k K => exact congrArg some (List.cons.inj hfirst).1
    have hle : String.utf8Len q₁.text ≤ String.utf8Len ((D ++ [q₂]).flatMap Piece.text) := by
      cases D with
      | nil =>
        obtain ⟨rfl, -⟩ := List.cons.inj hD
        simp
      | cons q D =>
        obtain ⟨rfl, -⟩ := List.cons.inj hD
        simp [String.utf8Len_append]
    have hspan₁ : first.span = ⟨String.utf8Len (A.flatMap Piece.text),
        String.utf8Len (A.flatMap Piece.text ++ q₁.text)⟩ := by
      rw [hk₁, Position.token_past_origin]
    have hspan₂ : last.span = ⟨String.utf8Len (A.flatMap Piece.text ++ D.flatMap Piece.text),
        String.utf8Len (A.flatMap Piece.text ++ (D ++ [q₂]).flatMap Piece.text)⟩ := by
      rw [hk₂, ← Position.past_append, Position.token_past_origin, List.append_assoc,
        List.flatMap_append, List.flatMap_singleton]
    rw [spanOf_eq hhead List.getLast?_concat, hspan₁, hspan₂]
    · simp only [hspan₁, hspan₂, String.utf8Len_append]
      omega
    · simp only [hspan₁, hspan₂, String.utf8Len_append]
      omega

/-- The slice of the source from the first of some tokens to the last has the same tokens, and
behind them those of the text that follows the slice. -/
theorem exists_tokenize_slice {source : String} {K₁ K K₃ : List Token} {last : Token}
    (h : tokenize source = K₁ ++ (K ++ last :: K₃)) (hlast : last.lexeme ≠ .eof)
    (hvalid : ∀ m, last.lexeme ≠ .invalid m) :
    ∃ K' bytes lines lines',
      K ++ [last] = K'.map (Token.shift · (spanOf (K ++ [last])).start lines) ∧
      ∀ r : String, StopsWord r.toList →
        tokenize ((spanOf (K ++ [last])).slice source ++ r) =
          K' ++ (tokenize r).map (Token.shift · bytes lines') := by
  obtain ⟨b, qs, q, a, hq, hsource, hK, ⟨rs, hrs⟩, hspan⟩ := exists_pieces_of_tokenize h hlast
  have hslice : (spanOf (K ++ [last])).slice source =
      String.ofList ((qs ++ [q]).flatMap Piece.text) := by
    rw [hspan, Span.slice_eq hsource]
  have hb : Position.origin.past b = Position.origin.shift (String.utf8Len b) (b.count '\n') := by
    rw [Position.past_eq]
    rfl
  rw [hslice, hspan, ← hK, hb, Position.tokens_shift]
  refine ⟨_, _, _, _, rfl, fun r hr => tokenize_append _ r ?_ ?_⟩
  · rw [String.toList_ofList, pieces_append_of_pieces hrs hq hvalid hr, List.append_assoc]
    rfl
  · rw [String.toList_ofList]

end Featherweight

import Featherweight.Token
import Mathlib.Data.List.TakeWhile
import Mathlib.Data.String.Basic

/-!
# Lexing text in parts

Where one text follows another, the pieces of the first stay as they are as long as the
lexer leaves something of it behind them. Only its last piece can grow into the second
text: white space, a line comment, a word, or a slash that becomes a comment.

A newline stops a word and a slash, and it ends white space and line comments without
starting a token. So the tokens of two texts with a newline between them are those of
both, unless a comment is open at the end of the first.
-/

namespace Featherweight

namespace Position

variable {p : Position} {text : List Char}

theorem past_append (p : Position) (a b : List Char) : p.past (a ++ b) = (p.past a).past b :=
  List.foldl_append

theorem past_eq (p : Position) (text : List Char) :
    p.past text = ⟨p.offset + String.utf8Len text, p.line + text.count '\n'⟩ := by
  induction text generalizing p with
  | nil => rfl
  | cons c text ih =>
    change (p.next c).past text = _
    rw [ih, next, mk.injEq, String.utf8Len_cons, List.count_cons]
    constructor
    · change p.offset + c.utf8Size + String.utf8Len text = _
      omega
    · by_cases hc : c = '\n'
      · simp only [hc, if_true, beq_self_eq_true]
        omega
      · simp [hc]

theorem tokens_append (p : Position) (qs rs : List Piece) :
    p.tokens (qs ++ rs) = p.tokens qs ++ (p.past (qs.flatMap Piece.text)).tokens rs := by
  induction qs generalizing p with
  | nil => rfl
  | cons q qs ih =>
    rw [List.flatMap_cons, past_append]
    cases hq : q.lexeme? with
    | none => simp only [List.cons_append, tokens, hq, ih]
    | some l => simp only [List.cons_append, tokens, hq, ih]

theorem tokens_cons (p : Position) (q : Piece) (qs : List Piece) :
    p.tokens (q :: qs) = p.tokens [q] ++ (p.past q.text).tokens qs := by
  rw [← List.singleton_append, tokens_append, List.flatMap_singleton]

end Position

theorem exists_cut {cs : List Char} {q : Piece} (hq : q ∈ pieces cs) :
    ∃ c ds, q = (cut c ds).1 := by
  fun_induction pieces cs with
  | case1 => simp at hq
  | case2 c cs ih =>
    rcases List.mem_cons.1 hq with rfl | hq
    · exact ⟨c, cs, rfl⟩
    · exact ih hq

theorem Position.exists_piece {qs : List Piece} {p : Position} {k : Token}
    (hk : k ∈ p.tokens qs) : ∃ q ∈ qs, q.lexeme? = some k.lexeme := by
  induction qs generalizing p with
  | nil => simp [Position.tokens] at hk
  | cons q qs ih =>
    rw [Position.tokens] at hk
    split at hk
    · next l hl =>
      rcases List.mem_cons.1 hk with rfl | hk
      · exact ⟨q, List.mem_cons_self, hl⟩
      · obtain ⟨q', hq', h⟩ := ih hk
        exact ⟨q', List.mem_cons_of_mem _ hq', h⟩
    · obtain ⟨q', hq', h⟩ := ih hk
      exact ⟨q', List.mem_cons_of_mem _ hq', h⟩

theorem cut_lexeme_ne_eof (c : Char) (cs : List Char) : (cut c cs).1.lexeme? ≠ some .eof := by
  fun_cases cut c cs with
  | case1 => simp [Piece.skip]
  | case2 => fun_cases cutSlash cs <;> simp [Piece.skip, Piece.fault, Piece.token]
  | case3 =>
    simp only [Piece.word, Piece.token, Lexeme.ofWord]
    split <;> simp
  | case4 => simp [Piece.token]
  | case5 => simp [Piece.fault, Piece.token]

theorem lexeme_ne_eof_of_pieces {cs : List Char} {p : Position} {k : Token}
    (hk : k ∈ p.tokens (pieces cs)) : k.lexeme ≠ .eof := by
  obtain ⟨q, hq, hl⟩ := Position.exists_piece hk
  obtain ⟨c, ds, rfl⟩ := exists_cut hq
  exact fun h => cut_lexeme_ne_eof c ds (hl.trans (congrArg some h))

variable {c : Char} {cs text rest : List Char}

theorem takeWhile_append_left {p : Char → Bool} (h : cs.dropWhile p ≠ []) (r : List Char) :
    (cs ++ r).takeWhile p = cs.takeWhile p := by
  rw [List.takeWhile_append, if_neg]
  intro hlength
  have hsplit := congrArg List.length (List.takeWhile_append_dropWhile (p := p) (l := cs))
  rw [List.length_append] at hsplit
  exact h (List.eq_nil_of_length_eq_zero (by omega))

theorem dropWhile_append_left {p : Char → Bool} (h : cs.dropWhile p ≠ []) (r : List Char) :
    (cs ++ r).dropWhile p = cs.dropWhile p ++ r := by
  rw [List.dropWhile_append, if_neg (by simpa using h)]

theorem splitLine_of_mem (h : '\n' ∈ cs) (r : List Char) :
    splitLine (cs ++ r) = ((splitLine cs).1, (splitLine cs).2 ++ r) := by
  have hdrop : cs.dropWhile (· != '\n') ≠ [] := by
    rw [ne_eq, List.dropWhile_eq_nil_iff]
    intro hall
    simpa using hall '\n' h
  obtain ⟨d, ds, hds⟩ := List.exists_cons_of_ne_nil hdrop
  unfold splitLine
  rw [dropWhile_append_left hdrop, takeWhile_append_left hdrop, hds]
  rfl

theorem splitLine_of_not_mem (h : '\n' ∉ cs) : splitLine cs = (cs, []) := by
  have hdrop : cs.dropWhile (· != '\n') = [] := by
    rw [List.dropWhile_eq_nil_iff]
    intro d hd
    simpa using ne_of_mem_of_not_mem hd h
  rw [splitLine, hdrop]

theorem splitLine_newline (h : '\n' ∉ cs) (r : List Char) :
    splitLine (cs ++ '\n' :: r) = (cs ++ ['\n'], r) := by
  have hall : ∀ d ∈ cs, (d != '\n') = true := fun d hd => by
    simpa using ne_of_mem_of_not_mem hd h
  unfold splitLine
  rw [List.dropWhile_append_of_pos hall, List.takeWhile_append_of_pos hall]
  simp

theorem splitComment?_append_right (h : splitComment? cs = some (text, rest)) (r : List Char) :
    splitComment? (cs ++ r) = some (text, rest ++ r) := by
  fun_induction splitComment? cs generalizing text with
  | case1 => cases h
  | case2 cs =>
    cases h
    rfl
  | case3 c cs hc ih =>
    obtain ⟨⟨t, r'⟩, ht, he⟩ := Option.map_eq_some_iff.1 h
    cases he
    have hc' : ∀ ds, c = '*' → cs ++ r = '/' :: ds → False := by
      intro ds hstar hds
      cases cs with
      | nil => cases ht
      | cons d cs' => exact hc cs' hstar (by rw [(List.cons.inj hds).1])
    rw [List.cons_append, splitComment?.eq_3 _ _ hc', ih ht]
    rfl

theorem cutSlash_append_right (h : (cutSlash cs).2 ≠ []) (r : List Char) :
    cutSlash (cs ++ r) = ((cutSlash cs).1, (cutSlash cs).2 ++ r) := by
  revert h
  fun_cases cutSlash cs with
  | case1 cs =>
    intro h
    have hmem : '\n' ∈ cs := by
      by_contra hmem
      exact h (by rw [splitLine_of_not_mem hmem])
    simp only [List.cons_append, cutSlash, splitLine_of_mem hmem]
  | case2 cs text rest hsplit =>
    intro _
    simp only [List.cons_append, cutSlash, splitComment?_append_right hsplit]
  | case3 cs _ => exact fun h => absurd rfl h
  | case4 cs hline hblock =>
    intro h
    obtain ⟨d, ds, rfl⟩ := List.exists_cons_of_ne_nil h
    rw [List.cons_append, cutSlash.eq_3]
    · rintro ds' hds
      exact hline ds (by rw [(List.cons.inj hds).1])
    · rintro ds' hds
      exact hblock ds (by rw [(List.cons.inj hds).1])

theorem cut_append_right (h : (cut c cs).2 ≠ []) (r : List Char) :
    cut c (cs ++ r) = ((cut c cs).1, (cut c cs).2 ++ r) := by
  revert h
  fun_cases cut c cs with
  | case1 hc =>
    intro h
    rw [cut, if_pos hc, takeWhile_append_left h, dropWhile_append_left h]
  | case2 hb hc =>
    intro h
    rw [cut, if_neg hb, if_pos hc, cutSlash_append_right h]
  | case3 hb hs hc =>
    intro h
    rw [cut, if_neg hb, if_neg hs, if_pos hc, takeWhile_append_left h, dropWhile_append_left h]
  | case4 hb hs hw s hc =>
    intro _
    rw [cut, if_neg hb, if_neg hs, if_neg hw, hc]
  | case5 hb hs hw hc =>
    intro _
    rw [cut, if_neg hb, if_neg hs, if_neg hw, hc]

/-- No word in front of this text goes on into it. -/
def StopsWord (r : List Char) : Prop := ∀ d ∈ r.head?, isWordChar d = false

theorem stopsWord_nil : StopsWord [] := by simp [StopsWord]

theorem stopsWord_symbol (s : Symbol) (cs : List Char) : StopsWord (s.char :: cs) := by
  intro d hd
  cases hd
  cases s with
  | _ => rfl

theorem stopsWord_space (cs : List Char) : StopsWord (' ' :: cs) := by
  intro d hd
  cases hd
  rfl

theorem not_isBlank_of_isWordStart (h : isWordStart c = true) : Text.isBlank c = false := by
  have hrange : 65 ≤ c.toNat ∧ c.toNat ≤ 122 := by
    change (decide (c.val ≥ 'A'.val ∧ c.val ≤ 'Z'.val) ||
      (decide (c.val ≥ 'a'.val) && decide (c.val ≤ 'z'.val)) || c == '_') = true at h
    simp only [Bool.or_eq_true, Bool.and_eq_true, decide_eq_true_eq, beq_iff_eq, ge_iff_le,
      UInt32.le_iff_toNat_le] at h
    rcases h with (⟨hlow, hhigh⟩ | ⟨hlow, hhigh⟩) | rfl
    · exact ⟨hlow, Nat.le_trans hhigh (by decide)⟩
    · exact ⟨Nat.le_trans (by decide) hlow, hhigh⟩
    · decide
  simp only [Text.isBlank, Text.blankRanges, List.any_cons, List.any_nil, Bool.or_eq_false_iff,
    Bool.and_eq_false_iff, decide_eq_false_iff_not, and_true]
  omega

theorem cut_word (hc : isWordStart c = true) (hcs : ∀ d ∈ cs, isWordChar d = true) {r : List Char}
    (hr : StopsWord r) : cut c (cs ++ r) = (.word (c :: cs), r) := by
  have hslash : c ≠ '/' := by
    rintro rfl
    cases hc
  rw [cut, if_neg (by simp [not_isBlank_of_isWordStart hc]), if_neg hslash, if_pos hc,
    List.takeWhile_append_of_pos hcs, List.dropWhile_append_of_pos hcs]
  cases r with
  | nil => simp
  | cons d r => simp [hr d rfl]

theorem cut_symbol (s : Symbol) (r : List Char) :
    cut s.char r = (.token [s.char] (.symbol s), r) := by
  cases s with
  | _ => rfl

namespace Position

theorem tokens_dropWhile_isBlank (p : Position) (cs : List Char) : p.tokens (pieces cs) =
    (p.past (cs.takeWhile Text.isBlank)).tokens (pieces (cs.dropWhile Text.isBlank)) := by
  cases cs with
  | nil => rfl
  | cons c cs =>
    by_cases hc : Text.isBlank c = true
    · rw [List.takeWhile_cons_of_pos hc, List.dropWhile_cons_of_pos hc, pieces, tokens_cons, cut,
        if_pos hc]
      rfl
    · rw [List.takeWhile_cons_of_neg hc, List.dropWhile_cons_of_neg hc]
      rfl

theorem tokens_blank (hc : Text.isBlank c = true) (p : Position) (cs : List Char) :
    p.tokens (pieces (c :: cs)) = (p.next c).tokens (pieces cs) := by
  rw [tokens_dropWhile_isBlank, List.takeWhile_cons_of_pos hc, List.dropWhile_cons_of_pos hc,
    tokens_dropWhile_isBlank (p.next c)]
  rfl

theorem tokens_blanks (hcs : ∀ c ∈ cs, Text.isBlank c = true) (p : Position) (r : List Char) :
    p.tokens (pieces (cs ++ r)) = (p.past cs).tokens (pieces r) := by
  induction cs generalizing p with
  | nil => rfl
  | cons c cs ih =>
    rw [List.forall_mem_cons] at hcs
    rw [List.cons_append, tokens_blank hcs.1, ih hcs.2]
    rfl

end Position

theorem cutSlash_newline (h : (cutSlash cs).2 = [])
    (hopen : (cutSlash cs).1.lexeme? ≠ some (.invalid LexicalFault.openComment.message))
    (b : List Char) : cutSlash (cs ++ '\n' :: b) = ((cutSlash cs).1, '\n' :: b) ∨
      cutSlash cs = (.skip ('/' :: cs), []) ∧
        cutSlash (cs ++ '\n' :: b) = (.skip ('/' :: (cs ++ ['\n'])), b) := by
  revert h hopen
  fun_cases cutSlash cs with
  | case1 cs =>
    intro h _
    by_cases hmem : '\n' ∈ cs
    · left
      dsimp only at h
      simp only [List.cons_append, cutSlash, splitLine_of_mem hmem, h, List.nil_append]
    · right
      simp only [List.cons_append, cutSlash, splitLine_newline hmem, splitLine_of_not_mem hmem,
        and_self]
  | case2 cs text rest hsplit =>
    rintro rfl _
    left
    simp only [List.cons_append, cutSlash, splitComment?_append_right hsplit, List.nil_append]
  | case3 cs _ => exact fun _ hopen => absurd rfl hopen
  | case4 cs _ _ =>
    rintro rfl _
    left
    rfl

namespace Position

theorem tokens_cut_newline (p : Position)
    (hopen : (cut c cs).1.lexeme? ≠ some (.invalid LexicalFault.openComment.message))
    (b : List Char) : p.tokens (pieces (c :: (cs ++ '\n' :: b))) = p.tokens [(cut c cs).1] ++
      (p.past (cut c cs).1.text).tokens (pieces ((cut c cs).2 ++ '\n' :: b)) := by
  by_cases hrest : (cut c cs).2 ≠ []
  · rw [pieces, tokens_cons, cut_append_right hrest]
  rw [not_not] at hrest
  have hnewline (text : List Char) : (p.past text).tokens (pieces ('\n' :: b)) =
      (p.past (text ++ ['\n'])).tokens (pieces b) := by
    rw [tokens_blank (by decide), past_append]
    rfl
  -- The first piece is the whole text. It grows if it is white space or a line comment.
  revert hopen hrest
  fun_cases cut c cs with
  | case1 hc =>
    intro _ hrest
    have hall := List.dropWhile_eq_nil_iff.1 hrest
    dsimp only at hrest ⊢
    rw [hrest, List.takeWhile_eq_self_iff.2 hall, ← List.cons_append,
      tokens_blanks (List.forall_mem_cons.2 ⟨hc, hall⟩)]
    rfl
  | case2 hb hc =>
    intro hopen hrest
    subst hc
    have hcut (r : List Char) : cut '/' r = cutSlash r := by
      rw [cut, if_neg (by decide), if_pos rfl]
    rw [pieces, tokens_cons, hcut]
    rcases cutSlash_newline hrest hopen b with h | ⟨h, hgrown⟩
    · rw [h, hrest]
      rfl
    · rw [h, hgrown]
      exact (hnewline ('/' :: cs)).symm
  | case3 hb hs hc =>
    intro _ hrest
    have hall := List.dropWhile_eq_nil_iff.1 hrest
    dsimp only at hrest ⊢
    rw [hrest, List.takeWhile_eq_self_iff.2 hall, pieces, tokens_cons, cut_word hc hall]
    · rfl
    · rintro d ⟨⟩
      rfl
  | case4 hb hs hw s hc =>
    rintro _ rfl
    rw [pieces, tokens_cons, cut, if_neg hb, if_neg hs, if_neg hw, hc]
  | case5 hb hs hw hc =>
    rintro _ rfl
    rw [pieces, tokens_cons, cut, if_neg hb, if_neg hs, if_neg hw, hc]

theorem tokens_newline (p : Position) {a : List Char}
    (hopen : ∀ k ∈ p.tokens (pieces a), k.lexeme ≠ .invalid LexicalFault.openComment.message)
    (b : List Char) : p.tokens (pieces (a ++ '\n' :: b)) =
      p.tokens (pieces a) ++ (p.past (a ++ ['\n'])).tokens (pieces b) := by
  fun_induction pieces a generalizing p with
  | case1 => exact tokens_blank (by decide) p b
  | case2 c cs ih =>
    rw [tokens_cons] at hopen ⊢
    rw [List.forall_mem_append] at hopen
    have hfirst : (cut c cs).1.lexeme? ≠ some (.invalid LexicalFault.openComment.message) := by
      intro h
      refine hopen.1 (p.token (cut c cs).1.text _) ?_ rfl
      simp [tokens, h]
    rw [List.cons_append, tokens_cut_newline p hfirst, ih _ hopen.2, ← past_append,
      ← List.append_assoc (cut c cs).1.text, cut_append, List.append_assoc]

def shift (p : Position) (bytes lines : Nat) : Position := ⟨p.offset + bytes, p.line + lines⟩

end Position

def Token.shift (k : Token) (bytes lines : Nat) : Token :=
  ⟨k.lexeme, ⟨k.span.start + bytes, k.span.stop + bytes⟩, k.line + lines⟩

namespace Position

variable {bytes lines : Nat}

theorem past_shift (p : Position) (text : List Char) :
    (p.shift bytes lines).past text = (p.past text).shift bytes lines := by
  simp only [past_eq, shift, mk.injEq]
  omega

theorem token_shift (p : Position) (text : List Char) (l : Lexeme) :
    (p.shift bytes lines).token text l = (p.token text l).shift bytes lines := by
  rw [token, past_shift]
  rfl

theorem tokens_shift (p : Position) (qs : List Piece) :
    (p.shift bytes lines).tokens qs = (p.tokens qs).map (Token.shift · bytes lines) := by
  induction qs generalizing p with
  | nil => rfl
  | cons q qs ih =>
    cases hq : q.lexeme? with
    | none => simp only [tokens, hq, past_shift, ih]
    | some l => simp only [tokens, hq, past_shift, token_shift, ih, List.map_cons]

end Position

/-- Two texts with a newline between them have the tokens of the first, without its end of
file, and then those of the second, unless a comment is still open at the newline. -/
theorem tokenize_newline (a b : String)
    (hopen : ∀ k ∈ tokenize a, k.lexeme ≠ .invalid "unterminated comment") :
    tokenize (a ++ "\n" ++ b) = (tokenize a).dropLast ++
      (tokenize b).map (Token.shift · (a.utf8ByteSize + 1) (a.toList.count '\n' + 1)) := by
  have hseam : Position.origin.past (a.toList ++ ['\n']) =
      Position.origin.shift (a.utf8ByteSize + 1) (a.toList.count '\n' + 1) := by
    rw [Position.past_eq, String.utf8Len_append, String.utf8Len_toList, List.count_append]
    rfl
  have htext : (a ++ "\n" ++ b).toList = a.toList ++ '\n' :: b.toList := by
    rw [String.toList_append, String.toList_append, List.append_assoc]
    rfl
  have hend : endToken (a ++ "\n" ++ b) =
      (endToken b).shift (a.utf8ByteSize + 1) (a.toList.count '\n' + 1) := by
    rw [endToken, htext, ← List.singleton_append, ← List.append_assoc, Position.past_append, hseam,
      Position.past_shift, Position.token_shift]
    rfl
  have hfront := (List.forall_mem_append.1 hopen).1
  rw [tokenize, htext, Position.tokens_newline _ hfront, hseam, Position.tokens_shift, hend,
    tokenize, List.dropLast_concat, tokenize, List.map_append, List.append_assoc]
  rfl

theorem tokenize_newline_openLine :
    (∀ k ∈ tokenize "a é/\n// b", k.lexeme ≠ .invalid "unterminated comment") ∧
      tokenize ("a é/\n// b" ++ "\n" ++ "/c") = (tokenize "a é/\n// b").dropLast ++
        (tokenize "/c").map (Token.shift · 11 2) := by
  have hopen : ∀ k ∈ tokenize "a é/\n// b", k.lexeme ≠ .invalid "unterminated comment" := by
    decide +kernel
  exact ⟨hopen, tokenize_newline "a é/\n// b" "/c" hopen⟩

end Featherweight

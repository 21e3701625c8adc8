import Featherweight.Lexeme

/-!
# Pieces of source text

`pieces` cuts source text into consecutive pieces: runs of white space and
comments, which are skipped, and the text of one token each. No character is
dropped and every piece is nonempty, so offsets and line numbers can be counted
from the pieces alone.

A comment runs from `//` to the end of its line or from `/*` to the next `*/`.
One that is never closed is an invalid token reaching to the end of the text. White
space is every character with the Unicode property `White_Space`, whose code points are
listed as closed ranges.
-/

namespace Featherweight.Text

def blankRanges : List (Nat × Nat) :=
  [(0x9, 0xD), (0x20, 0x20), (0x85, 0x85), (0xA0, 0xA0), (0x1680, 0x1680), (0x2000, 0x200A),
    (0x2028, 0x2029), (0x202F, 0x202F), (0x205F, 0x205F), (0x3000, 0x3000)]

def isBlank (c : Char) : Bool :=
  blankRanges.any fun (first, last) => first ≤ c.toNat && c.toNat ≤ last

end Featherweight.Text

namespace Featherweight

/-- A piece of text and what it says as a token, or `none` if it is skipped. -/
structure Piece where
  text : List Char
  lexeme? : Option Lexeme
deriving DecidableEq

namespace Piece

def skip (text : List Char) : Piece := ⟨text, none⟩

def token (text : List Char) (l : Lexeme) : Piece := ⟨text, some l⟩

def word (text : List Char) : Piece := token text (.ofWord (String.ofList text))

def fault (text : List Char) (f : LexicalFault) : Piece := token text (.invalid f.message)

end Piece

def isWordStart (c : Char) : Bool := c.isAlpha || c == '_'

def isWordChar (c : Char) : Bool := c.isAlphanum || c == '_'

def splitLine (cs : List Char) : List Char × List Char :=
  match cs.dropWhile (· != '\n') with
  | [] => (cs, [])
  | c :: rest => (cs.takeWhile (· != '\n') ++ [c], rest)

def splitComment? : List Char → Option (List Char × List Char)
  | [] => none
  | '*' :: '/' :: cs => some (['*', '/'], cs)
  | c :: cs => (splitComment? cs).map fun (text, rest) => (c :: text, rest)

/-- The piece that starts with a slash, and the text after it. The argument is
the text after the slash. -/
def cutSlash : List Char → Piece × List Char
  | '/' :: cs => (.skip ('/' :: '/' :: (splitLine cs).1), (splitLine cs).2)
  | '*' :: cs =>
    match splitComment? cs with
    | some (text, rest) => (.skip ('/' :: '*' :: text), rest)
    | none => (.fault ('/' :: '*' :: cs) .openComment, [])
  | cs => (.fault ['/'] .straySlash, cs)

def cut (c : Char) (cs : List Char) : Piece × List Char :=
  if Text.isBlank c then
    (.skip (c :: cs.takeWhile Text.isBlank), cs.dropWhile Text.isBlank)
  else if c = '/' then
    cutSlash cs
  else if isWordStart c then
    (.word (c :: cs.takeWhile isWordChar), cs.dropWhile isWordChar)
  else
    match Symbol.ofChar? c with
    | some s => (.token [c] (.symbol s), cs)
    | none => (.fault [c] (.unexpected c), cs)

theorem splitLine_append (cs : List Char) : (splitLine cs).1 ++ (splitLine cs).2 = cs := by
  unfold splitLine
  split
  · simp
  · next c rest h => simp [← h]

theorem splitComment?_append {cs text rest : List Char}
    (h : splitComment? cs = some (text, rest)) : text ++ rest = cs := by
  fun_induction splitComment? cs generalizing text rest with
  | case1 => simp at h
  | case2 cs => simp only [Option.some.injEq, Prod.mk.injEq] at h; simp [← h.1, ← h.2]
  | case3 c cs _ ih =>
    obtain ⟨⟨t, r⟩, ht, he⟩ := Option.map_eq_some_iff.1 h
    simp only [Prod.mk.injEq] at he
    simp [← he.1, ← he.2, ih ht]

theorem cutSlash_append (cs : List Char) :
    (cutSlash cs).1.text ++ (cutSlash cs).2 = '/' :: cs := by
  fun_cases cutSlash cs with
  | case1 cs => simp [Piece.skip, splitLine_append]
  | case2 cs text rest h => simp [Piece.skip, splitComment?_append h]
  | case3 cs h => simp [Piece.fault, Piece.token]
  | case4 cs => simp [Piece.fault, Piece.token]

theorem cut_append (c : Char) (cs : List Char) : (cut c cs).1.text ++ (cut c cs).2 = c :: cs := by
  fun_cases cut c cs with
  | case1 => simp [Piece.skip]
  | case2 _ hc => simp [hc, cutSlash_append]
  | case3 => simp [Piece.word, Piece.token]
  | case4 => simp [Piece.token]
  | case5 => simp [Piece.fault, Piece.token]

theorem cut_text_ne_nil (c : Char) (cs : List Char) : (cut c cs).1.text ≠ [] := by
  fun_cases cut c cs with
  | case1 => simp [Piece.skip]
  | case2 => fun_cases cutSlash cs <;> simp [Piece.skip, Piece.fault, Piece.token]
  | case3 => simp [Piece.word, Piece.token]
  | case4 => simp [Piece.token]
  | case5 => simp [Piece.fault, Piece.token]

theorem length_cut_rest (c : Char) (cs : List Char) : (cut c cs).2.length ≤ cs.length := by
  have h := congrArg List.length (cut_append c cs)
  have hpos := List.length_pos_iff.2 (cut_text_ne_nil c cs)
  simp only [List.length_append, List.length_cons] at h
  omega

def pieces : List Char → List Piece
  | [] => []
  | c :: cs => (cut c cs).1 :: pieces (cut c cs).2
termination_by cs => cs.length
decreasing_by exact Nat.lt_succ_of_le (length_cut_rest c cs)

end Featherweight

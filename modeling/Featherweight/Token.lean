import Featherweight.Piece

/-!
# Tokens

A token is a lexeme with its span and line. Spans count bytes of UTF-8 and lines
count newlines, both over all the text before the token, skipped text included.
Every token list ends with the end of the file, an empty span after the last
character.
-/

namespace Featherweight

structure Token where
  lexeme : Lexeme
  span : Span
  line : Nat
deriving DecidableEq

/-- A place between two characters: the bytes before it, and its line. -/
structure Position where
  offset : Nat
  line : Nat
deriving DecidableEq

namespace Position

def origin : Position := ⟨0, 1⟩

def next (p : Position) (c : Char) : Position :=
  ⟨p.offset + c.utf8Size, if c = '\n' then p.line + 1 else p.line⟩

def past (p : Position) (text : List Char) : Position := text.foldl next p

def token (p : Position) (text : List Char) (l : Lexeme) : Token :=
  ⟨l, ⟨p.offset, (p.past text).offset⟩, p.line⟩

def tokens (p : Position) : List Piece → List Token
  | [] => []
  | q :: qs =>
    match q.lexeme? with
    | some l => p.token q.text l :: (p.past q.text).tokens qs
    | none => (p.past q.text).tokens qs

end Position

def endToken (source : String) : Token :=
  (Position.origin.past source.toList).token [] .eof

def tokenize (source : String) : List Token :=
  Position.origin.tokens (pieces source.toList) ++ [endToken source]

theorem tokenize_join (parts : List String) : tokenize (String.join parts) =
    Position.origin.tokens (pieces (parts.flatMap String.toList)) ++
      [(Position.origin.past (parts.flatMap String.toList)).token [] .eof] := by
  rw [tokenize, endToken, String.toList_join]

def firstTokens (source : String) (n : Nat) : List Token :=
  let tokens := tokenize source
  tokens.take n ++ List.replicate (n - tokens.length) (endToken source)

end Featherweight

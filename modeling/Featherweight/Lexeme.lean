/-!
# Lexemes and spans

A lexeme is what a token says: a keyword, a symbol, an identifier, the end of the
file, or the complaint about text that is no token. A span is where something stands,
as a half-open range of byte offsets into UTF-8 source text.
-/

namespace Featherweight

structure Span where
  start : Nat
  stop : Nat
deriving DecidableEq

def Span.merge (a b : Span) : Span :=
  ⟨min a.start b.start, max a.stop b.stop⟩

inductive Keyword where
  | classWord | extendsWord | superWord | thisWord | returnWord | newWord
deriving DecidableEq

namespace Keyword

def all : List Keyword := [classWord, extendsWord, superWord, thisWord, returnWord, newWord]

def text : Keyword → String
  | classWord => "class"
  | extendsWord => "extends"
  | superWord => "super"
  | thisWord => "this"
  | returnWord => "return"
  | newWord => "new"

def ofText? (s : String) : Option Keyword := all.find? (·.text = s)

end Keyword

inductive Symbol where
  | lbrace | rbrace | lparen | rparen | equals | dot | comma | semicolon | lt | gt
deriving DecidableEq

namespace Symbol

def all : List Symbol :=
  [lbrace, rbrace, lparen, rparen, equals, dot, comma, semicolon, lt, gt]

def char : Symbol → Char
  | lbrace => '\x7b'
  | rbrace => '\x7d'
  | lparen => '('
  | rparen => ')'
  | equals => '='
  | dot => '.'
  | comma => ','
  | semicolon => ';'
  | lt => '<'
  | gt => '>'

def ofChar? (c : Char) : Option Symbol := all.find? (·.char = c)

end Symbol

inductive Lexeme where
  | keyword (k : Keyword)
  | symbol (s : Symbol)
  | ident (name : String)
  | eof
  | invalid (message : String)
deriving DecidableEq

namespace Lexeme

def ofWord (s : String) : Lexeme :=
  match Keyword.ofText? s with
  | some k => keyword k
  | none => ident s

def text : Lexeme → String
  | keyword k => k.text
  | symbol s => s.char.toString
  | ident x => x
  | eof => ""
  | invalid message => message

def describe : Lexeme → String
  | keyword k => "\"" ++ k.text ++ "\""
  | symbol s => "'" ++ s.char.toString ++ "'"
  | ident _ => "identifier"
  | eof => "end of file"
  | invalid _ => "invalid token"

end Lexeme

inductive LexicalFault where
  | unexpected (c : Char)
  | straySlash
  | openComment
deriving DecidableEq

def LexicalFault.message : LexicalFault → String
  | unexpected c => "unexpected character '" ++ c.toString ++ "'"
  | straySlash => "invalid character after '/'"
  | openComment => "unterminated comment"

end Featherweight

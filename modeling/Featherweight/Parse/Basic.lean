import Featherweight.Token

/-!
# Reading a token list

A reader walks over a token list and remembers which type variables are in
scope. It never moves past the end of the file. When the list runs out without
one, the last token is seen again and again.

A parser that fails keeps the state it failed in, so that reading can be taken
up again from there. A parser that would never return, because it sees the same
token forever, gives `none`: recursion takes fuel and the fuel is always enough
for the tokens ahead unless no progress is possible.
-/

namespace Featherweight

namespace Parse

inductive Complaint where
  | expected (what : String)
  | malformed (what : String)
  | lexical (message : String)
  | duplicateTypeVariable
  | constructorName
  | initializerName
  | variableApplied
  | variableAsClass
  | variableAsBound
deriving DecidableEq

def Complaint.text : Complaint → String
  | expected what => "expected " ++ what
  | malformed what => "malformed " ++ what
  | lexical message => message
  | duplicateTypeVariable => "duplicate type variable"
  | constructorName => "constructor name must match class name"
  | initializerName => "field initialization name mismatch"
  | variableApplied => "cannot apply type parameters to a type variable"
  | variableAsClass => "cannot use a type variable as a nonvariable type"
  | variableAsBound => "using type variable as a nonvariable type"

structure Error where
  complaint : Complaint
  span : Span
  line : Nat
deriving DecidableEq

namespace Error

def detail (e : Error) : String := e.complaint.text

def message (e : Error) : String :=
  "parse error on line " ++ toString e.line ++ ": " ++ e.detail

end Error

/-- `previous` is the token read last, or the first token if none has been read, and `last`
is the one that stands in once none is ahead. Of the open scopes the innermost is first. -/
structure State where
  ahead : List Token
  previous : Token
  last : Token
  scopes : List (List String)
deriving DecidableEq

namespace State

def start : List Token → State
  | [] =>
    let eof := ⟨.eof, ⟨0, 0⟩, 1⟩
    ⟨[eof], eof, eof, []⟩
  | t :: ts => ⟨t :: ts, t, (t :: ts).getLast nofun, []⟩

def current (s : State) : Token := s.ahead.headD s.last

def atEnd (s : State) : Bool := s.ahead.isEmpty || s.current.lexeme = .eof

def peek? (s : State) (k : Nat) : Option Lexeme := s.ahead[k]?.map Token.lexeme

def advance (s : State) : State :=
  match s.ahead with
  | [] => s
  | t :: ts => if t.lexeme = .eof then s else { s with ahead := ts, previous := t }

def isTypeVar (s : State) (X : String) : Bool := s.scopes.any (·.contains X)

end State

end Parse

abbrev ParseM := ExceptT Parse.Error (StateT Parse.State Option)

namespace Parse

/-- No result: the parser would read forever. -/
def endless {α : Type} : ParseM α := ExceptT.mk fun _ => none

def complain {α : Type} (c : Complaint) : ParseM α := do
  let t := (← get).current
  match t.lexeme with
  -- An invalid token speaks for itself.
  | .invalid message => throw ⟨.lexical message, t.span, t.line⟩
  | _ => throw ⟨c, t.span, t.line⟩

def complainBehind {α : Type} (c : Complaint) : ParseM α := do
  let t := (← get).previous
  throw ⟨c, t.span, t.line⟩

def requireBehind (p : Prop) [Decidable p] (c : Complaint) : ParseM Unit :=
  if p then return else complainBehind c

def currentSpan : ParseM Span := return (← get).current.span

def previousSpan : ParseM Span := return (← get).previous.span

def sees (l : Lexeme) : ParseM Bool := return (← get).current.lexeme = l

def advance : ParseM Unit := modify State.advance

def accept (l : Lexeme) : ParseM Bool := do
  if ← sees l then
    advance
    return true
  else
    return false

def expect (l : Lexeme) (what : String) : ParseM Unit := do
  if ← accept l then return else complain (.expected what)

def identifier (what : String) : ParseM String := do
  match (← get).current.lexeme with
  | .ident x =>
    advance
    return x
  | _ => complain (.expected what)

def isTypeVar (X : String) : ParseM Bool := return (← get).isTypeVar X

def openScope (names : List String) : ParseM Unit :=
  modify fun s => { s with scopes := names :: s.scopes }

def closeScope : ParseM Unit :=
  modify fun s => { s with scopes := s.scopes.tail }

def commaSep {α : Type} (item : ParseM α) : Nat → ParseM (List α)
  | 0 => endless
  | n + 1 => do
    let a ← item
    if ← accept (.symbol .comma) then
      return a :: (← commaSep item n)
    else
      return [a]

def parenthesized {α : Type} (item : ParseM α) (n : Nat) (opening list : String) :
    ParseM (List α) := do
  expect (.symbol .lparen) opening
  if ← accept (.symbol .rparen) then
    return []
  else
    let as ← commaSep item n
    if ← accept (.symbol .rparen) then
      return as
    else
      complain (.malformed list)

end Parse

end Featherweight

import Featherweight.Parse.Type

/-!
# Reading terms

A term is a primary followed by field accesses and calls. A cast is a primary
that takes the whole term behind it, accesses included.

An open parenthesis begins a cast or a term in parentheses; the tokens behind it
decide which. A name followed by `<` can only be a type, and `(C)` is a cast when
the start of another term follows.
-/

namespace Featherweight.Parse

def startsTerm : Lexeme → Bool
  | .keyword .thisWord | .keyword .newWord | .ident _ | .symbol .lparen => true
  | _ => false

def State.beginsCast (s : State) : Bool :=
  match s.peek? 1, s.peek? 2 with
  | some (.ident _), some (.symbol .lt) => true
  | some (.ident _), some (.symbol .rparen) => (s.peek? 3).any startsTerm
  | _, _ => false

def args (term : ParseM Term) (n : Nat) : ParseM (List Term) :=
  parenthesized term n "'(' to begin argument list" "argument list"

def parenthesis (term : ParseM Term) (n : Nat) : ParseM Term := do
  if (← get).beginsCast then
    expect (.symbol .lparen) "'(' to begin cast"
    let N ← classTy n "cast target type"
    expect (.symbol .rparen) "')' after cast type"
    return .cast N (← term)
  else
    advance
    let e ← term
    expect (.symbol .rparen) "')' after parenthesized term"
    return e

def primary (term : ParseM Term) (n : Nat) : ParseM Term := do
  match (← get).current.lexeme with
  | .keyword .thisWord =>
    advance
    return .var "this"
  | .ident x =>
    advance
    return .var x
  | .keyword .newWord =>
    advance
    let N ← classTy n "class name after \"new\""
    return .new N (← args term n)
  | .symbol .lparen => parenthesis term n
  | _ => complain (.expected "a term")

def accesses (term : ParseM Term) (n : Nat) : Nat → Term → ParseM Term
  | 0, _ => endless
  | k + 1, e => do
    if ← accept (.symbol .dot) then
      let x ← identifier "field or method name"
      if (← sees (.symbol .lt)) || (← sees (.symbol .lparen)) then
        let Vs ← typeArgs (ty n "type argument") n
        let es ← args term n
        accesses term n k (.call e x Vs es)
      else
        accesses term n k (.field e x)
    else
      return e

def term : Nat → ParseM Term
  | 0 => endless
  | n + 1 => do
    let e ← primary (term n) n
    accesses (term n) n n e

end Featherweight.Parse

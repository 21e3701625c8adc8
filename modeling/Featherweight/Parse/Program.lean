import Featherweight.Fault
import Featherweight.Parse.Term

/-!
# Reading declarations and programs

A class body holds fields, then one constructor, then methods. What follows the
fields is told apart by its second token: a field has a name there and the
constructor an open parenthesis.
-/

namespace Featherweight

namespace Parse

def State.beginsConstructor (s : State) : Bool :=
  match s.current.lexeme, s.peek? 1 with
  | .ident _, some (.symbol .lparen) => true
  | _, _ => false

def fields (n : Nat) : Nat → ParseM (List Binding)
  | 0 => endless
  | k + 1 => do
    if (← get).beginsConstructor then
      return []
    else
      let T ← ty n "field type"
      let f ← identifier "field name"
      expect (.symbol .semicolon) "';' after field declaration"
      return ⟨T, f⟩ :: (← fields n k)

def initializers : Nat → ParseM (List Initializer)
  | 0 => endless
  | k + 1 => do
    if ← sees (.symbol .rbrace) then
      return []
    else
      expect (.keyword .thisWord) "\"this\" in field initialization"
      expect (.symbol .dot) "'.' after \"this\""
      let f ← identifier "field name"
      expect (.symbol .equals) "'=' in field initialization"
      let x ← identifier "parameter name"
      requireBehind (f = x) .initializerName
      expect (.symbol .semicolon) "';' after field initialization"
      return ⟨f, x⟩ :: (← initializers k)

def constructor (n : Nat) (C : String) : ParseM Constructor := do
  let name ← identifier "class name in constructor"
  requireBehind (name = C) .constructorName
  let xs ← params n
  expect (.symbol .lbrace) "'\x7b' after constructor parameter list"
  expect (.keyword .superWord) "\"super\" invocation"
  let superArgs ← parenthesized (identifier "field name") n "'(' after \"super\" in constructor"
    "\"super\""
  expect (.symbol .semicolon) "';' after \"super\" invocation"
  let inits ← initializers n
  expect (.symbol .rbrace) "'\x7d' at end of constructor"
  return ⟨name, xs, superArgs, inits⟩

def method (n : Nat) : ParseM MethodDecl := do
  let start ← currentSpan
  let Xs ← typeParams n
  let T ← ty n "return type"
  let m ← identifier "method name"
  let xs ← params n
  expect (.symbol .lbrace) "'\x7b' after method parameter list"
  expect (.keyword .returnWord) "\"return\" in method body"
  let body ← term n
  expect (.symbol .semicolon) "';' after return statement"
  expect (.symbol .rbrace) "'\x7d' after method body"
  closeScope
  return ⟨Xs, T, m, xs, body, start.merge (← previousSpan)⟩

def methods (n : Nat) : Nat → ParseM (List MethodDecl)
  | 0 => endless
  | k + 1 => do
    if ← sees (.symbol .rbrace) then
      return []
    else if (← get).atEnd then
      complain (.expected "'\x7d' at end of class")
    else
      let m ← method n
      return m :: (← methods n k)

def classDecl (n : Nat) : ParseM ClassDecl := do
  let start ← currentSpan
  expect (.keyword .classWord) "\"class\""
  let C ← identifier "class name"
  let Xs ← typeParams n
  expect (.keyword .extendsWord) "\"extends\" after class type"
  let N ← classTy n "super type"
  expect (.symbol .lbrace) "'\x7b' after super class type"
  let fs ← fields n n
  let ctor ← constructor n C
  let ms ← methods n n
  expect (.symbol .rbrace) "'\x7d' at end of class"
  closeScope
  return ⟨C, Xs, N, fs, ctor, ms, start.merge (← previousSpan)⟩

def classes (n : Nat) : Nat → ParseM (List ClassDecl)
  | 0 => endless
  | k + 1 => do
    if ← sees (.keyword .classWord) then
      let c ← classDecl n
      return c :: (← classes n k)
    else
      return []

/-- A whole program. A step of a loop or of a recursion reads a token or fails, so
two steps more than there are tokens ahead are enough: one to read the last token
once more, and one to see that nothing follows. -/
def program : ParseM Program := do
  let n := (← get).ahead.length + 2
  let cs ← classes n n
  let start ← currentSpan
  let e ← term n
  let span := start.merge (← previousSpan)
  expect .eof "end of file"
  return ⟨cs, e, span⟩

def programs : Nat → State → List (Option (Except Error Program))
  | 0, _ => []
  | k + 1, s =>
    match program.run.run s with
    | some (r, s') => some r :: programs k s'
    | none => [none]

end Parse

def Program.ofTokens (tokens : List Token) : Attempt Parse.Error Program :=
  ExceptT.mk ((Parse.program.run.run (.start tokens)).map Prod.fst)

def Program.ofSource (source : String) : Attempt Parse.Error Program :=
  ofTokens (tokenize source)

end Featherweight

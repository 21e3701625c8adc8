import Featherweight.Declaration
import Featherweight.Parse.Basic

/-!
# Reading types

A bare name is a type variable when an open declaration introduces it, and a
class otherwise. A list of type parameters may use all of its own names in every
bound, so bounds are read raw first and resolved once the names are in scope.
-/

namespace Featherweight.Parse

/-- Type arguments in angle brackets; both the brackets and their contents may be
missing. -/
def typeArgs (item : ParseM Ty) (n : Nat) : ParseM (List Ty) := do
  if ← accept (.symbol .lt) then
    if ← accept (.symbol .gt) then
      return []
    else
      let Ts ← commaSep item n
      expect (.symbol .gt) "'>' at end of type argument list"
      return Ts
  else
    return []

def ty : Nat → String → ParseM Ty
  | 0, _ => endless
  | n + 1, what => do
    let C ← identifier what
    if ← isTypeVar C then
      if ← sees (.symbol .lt) then
        complain .variableApplied
      else
        return .var C
    else
      return .inst C (← typeArgs (ty n "type argument") n)

def classTy (n : Nat) (what : String) : ParseM ClassTy := do
  match ← ty n what with
  | .var _ => complainBehind .variableAsClass
  | .inst C Ts => return ⟨C, Ts⟩

/-- A bound before it is known which names are type variables: every bare name is
read as a variable. -/
def rawBound : Nat → ParseM Ty
  | 0 => endless
  | n + 1 => do
    let C ← identifier "type or type variable name"
    if ← accept (.symbol .lt) then
      let Ts ← commaSep (rawBound n) n
      expect (.symbol .gt) "'>' at end of type bound argument list"
      return .inst C Ts
    else
      return .var C

def rawTypeParams (n : Nat) : Nat → List String → ParseM (List (String × Ty))
  | 0, _ => endless
  | k + 1, seen => do
    let X ← identifier "type variable"
    requireBehind (X ∉ seen) .duplicateTypeVariable
    expect (.keyword .extendsWord) "\"extends\" in type parameter"
    let bound ← rawBound n
    if ← accept (.symbol .comma) then
      return (X, bound) :: (← rawTypeParams n k (X :: seen))
    else
      return [(X, bound)]

mutual

/-- Turns the bare names of a raw type that are not type variables into classes.
A type variable cannot have arguments. -/
def resolve? (isVar : String → Bool) : Ty → Option Ty
  | .var X => some (if isVar X then .var X else .inst X [])
  | .inst C Ts => if isVar C then none else (resolveAll? isVar Ts).map (.inst C)

def resolveAll? (isVar : String → Bool) : List Ty → Option (List Ty)
  | [] => some []
  | T :: Ts => do
    let T' ← resolve? isVar T
    let Ts' ← resolveAll? isVar Ts
    return T' :: Ts'

end

def resolveBound? (isVar : String → Bool) (T : Ty) : Option ClassTy :=
  match resolve? isVar T with
  | some (.inst C Ts) => some ⟨C, Ts⟩
  | _ => none

def resolveTypeParam (raw : String × Ty) : ParseM TypeParam := do
  match resolveBound? (← get).isTypeVar raw.2 with
  | some bound => return ⟨raw.1, bound⟩
  | none => complainBehind .variableAsBound

/-- A list of type parameters, possibly missing. Opens the scope of its names. -/
def typeParams (n : Nat) : ParseM (List TypeParam) := do
  if ← accept (.symbol .lt) then
    let raw ← rawTypeParams n n []
    expect (.symbol .gt) "'>' at end of type parameter list"
    openScope (raw.map Prod.fst)
    raw.mapM resolveTypeParam
  else
    openScope []
    return []

def params (n : Nat) : ParseM (List Binding) :=
  parenthesized (do return ⟨← ty n "parameter type", ← identifier "variable name"⟩) n
    "'(' to begin parameter list" "parameter list"

end Featherweight.Parse

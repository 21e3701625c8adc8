import Featherweight.ClassTable.Basic

/-!
# Building class tables

A list of classes becomes a table if no class is named twice or `Object`, every
superclass is declared, nothing extends itself, and no class repeats a method, a
type variable of one list, or a field, inherited fields included. The first
fault is reported, in that order of rules; the rules on what a class repeats are
applied class by class.
-/

namespace Featherweight

def firstRepeat? (seen : List String) : List String → Option String
  | [] => none
  | x :: xs => if x ∈ seen then some x else firstRepeat? (x :: seen) xs

def requireDistinct (fault : String → TableFault) (names : List String) : Except TableFault Unit :=
  match firstRepeat? [] names with
  | some x => throw (fault x)
  | none => return

namespace ClassTable

def requireNames (seen : List String) : List String → Except TableFault Unit
  | [] => return
  | C :: Cs => do
    require (C ≠ ClassTy.object.name) .redefinedObject
    require (C ∉ seen) (.duplicateClass C)
    requireNames (C :: seen) Cs

def requireSuperType (t : ClassTable) (c : ClassDecl) : Except TableFault Unit :=
  require (c.superType = .object ∨ (t.find? c.superType.name).isSome)
    (.unknownClass c.superType.name)

/-- Some class among the first `n` from `N` upwards is named `C`. -/
def reaches (t : ClassTable) (C : String) : Nat → ClassTy → Bool
  | 0, _ => false
  | n + 1, N =>
    N ≠ .object && (N.name = C || (t.find? N.name).any fun c => t.reaches C n c.superType)

def requireAcyclic (t : ClassTable) (c : ClassDecl) : Except TableFault Unit :=
  require (t.reaches c.name t.classes.length c.superType = false) (.cycle c.name)

def requireMembers (t : ClassTable) (c : ClassDecl) : Except TableFault Unit := do
  requireDistinct .duplicateMethod (c.methods.map MethodDecl.name)
  requireDistinct .duplicateTypeVar (c.typeParams.map TypeParam.name)
  c.methods.forM fun m => requireDistinct .duplicateTypeVar (m.typeParams.map TypeParam.name)
  requireDistinct .duplicateField ((← t.fields c.thisType).map Binding.name)

def requireValid (t : ClassTable) : Except TableFault Unit := do
  requireNames [] (t.classes.map ClassDecl.name)
  t.classes.forM t.requireSuperType
  t.classes.forM t.requireAcyclic
  t.classes.forM t.requireMembers

def ofClasses (classes : List ClassDecl) : Except TableFault ClassTable := do
  let t : ClassTable := ⟨classes⟩
  t.requireValid
  return t

end ClassTable

end Featherweight

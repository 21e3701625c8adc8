import Featherweight.Substitution

/-!
# Class tables

A class table holds declarations by name. Every look-up in a class type climbs
from its class to the root `Object`. `ancestry` collects the classes on the way,
each with the substitution under which it is seen from below; fields and methods
are read off that list.

In a valid table a climb meets no class twice, so the number of classes bounds
it. A longer climb is reported as a cycle.
-/

namespace Featherweight

structure ClassTable where
  classes : List ClassDecl
deriving DecidableEq

/-- A class met on the way up from a class type, with its type parameters
instantiated as they are seen from there. -/
structure Ancestor where
  decl : ClassDecl
  subst : Subst
deriving DecidableEq

namespace Ancestor

def superType (a : Ancestor) : ClassTy := a.subst.classTy a.decl.superType

def fields (a : Ancestor) : List Binding := a.decl.fields.map a.subst.binding

def methodType? (a : Ancestor) (m : String) : Option MethodType :=
  (a.decl.method? m).map fun d => a.subst.methodType d.type

end Ancestor

structure MethodBody where
  params : List String
  body : Term
deriving DecidableEq

namespace ClassTable

def find? (t : ClassTable) (C : String) : Option ClassDecl :=
  t.classes.find? (·.name = C)

def find (t : ClassTable) (C : String) : Except TableFault ClassDecl :=
  match t.find? C with
  | some c => .ok c
  | none => .error (.unknownClass C)

def typeParams (t : ClassTable) (C : String) : Except TableFault (List TypeParam) :=
  return (← t.find C).typeParams

def superType (t : ClassTable) (C : String) : Except TableFault ClassTy :=
  return (← t.find C).superType

def instantiate (t : ClassTable) (N : ClassTy) : Except TableFault Ancestor := do
  let c ← t.find N.name
  return ⟨c, ← Subst.instantiate c.typeParams N.args⟩

def climb (t : ClassTable) (n : Nat) (N : ClassTy) : Except TableFault (List Ancestor) :=
  if N = .object then
    return []
  else do
    let a ← t.instantiate N
    match n with
    | 0 => throw (.cycle N.name)
    | n + 1 => return a :: (← t.climb n a.superType)

def ancestry (t : ClassTable) (N : ClassTy) : Except TableFault (List Ancestor) :=
  t.climb t.classes.length N

def fields (t : ClassTable) (N : ClassTy) : Except TableFault (List Binding) :=
  return (← t.ancestry N).reverse.flatMap Ancestor.fields

def methodType? (t : ClassTable) (m : String) (N : ClassTy) :
    Except TableFault (Option MethodType) :=
  return (← t.ancestry N).findSome? (·.methodType? m)

/-- The body of a method as seen from a class type: first the class's type
variables are replaced, then the method's own. -/
def methodBody (t : ClassTable) (m : String) (Vs : List Ty) (N : ClassTy) :
    Except TableFault MethodBody := do
  match (← t.ancestry N).findSome? fun a => (a.decl.method? m).map (a, ·) with
  | some (a, d) =>
    let σ ← Subst.instantiate d.typeParams Vs
    return ⟨d.paramNames, σ.term (a.subst.term d.body)⟩
  | none => throw (.unknownMethod m)

end ClassTable

end Featherweight

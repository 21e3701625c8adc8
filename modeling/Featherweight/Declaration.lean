import Featherweight.Lexeme
import Featherweight.Term

/-!
# Declarations

Fields, parameters, constructors, methods, classes and whole programs, each with
the span of source it was read from where a later message points at it.
-/

namespace Featherweight

structure Binding where
  ty : Ty
  name : String
deriving DecidableEq

def Binding.text (b : Binding) : String := b.ty.text ++ " " ++ b.name

structure Initializer where
  field : String
  param : String
deriving DecidableEq

structure Constructor where
  className : String
  params : List Binding
  superArgs : List String
  inits : List Initializer
deriving DecidableEq

structure MethodDecl where
  typeParams : List TypeParam
  returnType : Ty
  name : String
  params : List Binding
  body : Term
  span : Span
deriving DecidableEq

structure MethodType where
  typeParams : List TypeParam
  paramTypes : List Ty
  returnType : Ty
deriving DecidableEq

namespace MethodDecl

def type (m : MethodDecl) : MethodType :=
  ⟨m.typeParams, m.params.map Binding.ty, m.returnType⟩

def paramNames (m : MethodDecl) : List String := m.params.map Binding.name

end MethodDecl

structure ClassDecl where
  name : String
  typeParams : List TypeParam
  superType : ClassTy
  fields : List Binding
  constructor : Constructor
  methods : List MethodDecl
  span : Span
deriving DecidableEq

def ClassDecl.thisType (c : ClassDecl) : ClassTy :=
  ⟨c.name, c.typeParams.map fun X => .var X.name⟩

def ClassDecl.method? (c : ClassDecl) (m : String) : Option MethodDecl :=
  c.methods.find? (·.name = m)

structure Program where
  classes : List ClassDecl
  term : Term
  -- The span of the main term.
  span : Span
deriving DecidableEq

end Featherweight

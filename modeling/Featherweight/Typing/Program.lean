import Featherweight.Typing.Term

/-!
# Well-typed programs

A program is well typed when each of its classes is, in order, and then its main
term. A class is well typed when its types are well formed, its constructor has
the one allowed form, and each method's body fits the method's type, which fits
the method it overrides.
-/

namespace Featherweight.Typing

def requireInherited : List Binding → List Binding → List String → Except ConstructorFault Unit
  | p :: ps, f :: fs, x :: xs => do
    require (p = f) .inheritedParam
    require (x = f.name) .superArg
    requireInherited ps fs xs
  | _, _, _ => return

def requireOwn : List Binding → List Binding → List Initializer → Except ConstructorFault Unit
  | p :: ps, f :: fs, i :: is => do
    require (p = f ∧ i.field = f.name ∧ i.param = p.name) .ownParam
    requireOwn ps fs is
  | _, _, _ => return

/-- The constructor takes all fields, inherited ones first, passes those to `super`
and stores the others. -/
def requireForm (c : ClassDecl) (inherited : List Binding) : Except ConstructorFault Unit := do
  let k := c.constructor
  require (inherited.length ≤ k.params.length ∧ k.superArgs.length = inherited.length)
    .inheritedCount
  requireInherited k.params inherited k.superArgs
  let own := k.params.drop inherited.length
  require (own.length = c.fields.length ∧ k.inits.length = c.fields.length) .ownCount
  requireOwn own c.fields k.inits

def requireConstructor (t : ClassTable) (c : ClassDecl) : Except TypeFault Unit := do
  require (c.constructor.className = c.name)
    (.constructor (.name c.constructor.className c.name))
  let inherited ← t.fields c.superType
  (requireForm c inherited).mapError .constructor

def requireHeader (t : ClassTable) (c : ClassDecl) : Except TypeFault Unit := do
  let Δ := TypeEnv.empty.add c.typeParams
  c.typeParams.forM fun X => t.requireWellFormed Δ X.bound.toTy
  t.requireWellFormed Δ c.superType.toTy
  c.fields.forM fun f => t.requireWellFormed Δ f.ty
  requireConstructor t c

/-- The types of the parameters and of `this`. Of parameters with one name the last
counts, and `this` always means the object. -/
def methodVars (c : ClassDecl) (m : MethodDecl) : VarEnv :=
  ("this", c.thisType.toTy) :: (m.params.map fun p => (p.name, p.ty)).reverse

def requireHead (t : ClassTable) (Δ : TypeEnv) (m : MethodDecl) : Except TypeFault Unit := do
  m.typeParams.forM fun X => t.requireWellFormed Δ X.bound.toTy
  t.requireWellFormed Δ m.returnType
  m.params.forM fun p => t.requireWellFormed Δ p.ty

def requireOverride (t : ClassTable) (Δ : TypeEnv) (c : ClassDecl) (m : MethodDecl) :
    Except TypeFault Unit := do
  require (← t.allowsOverride Δ m.name c.superType m.type) (.invalidOverride m.name)

def requireMethod (t : ClassTable) (c : ClassDecl) (m : MethodDecl) : CheckM TypeFault Unit := do
  let Δ := (TypeEnv.empty.add c.typeParams).add m.typeParams
  requireHead t Δ m
  let T ← typeOf t Δ (methodVars c m) m.span m.body
  requireSubtype t Δ T m.returnType
  requireOverride t Δ c m

def blame {α : Type} (span : Span) (check : CheckM TypeFault α) : CheckM TypeError α :=
  check.adapt fun fault => ⟨fault, span⟩

def requireClass (t : ClassTable) (c : ClassDecl) : CheckM TypeError Unit := do
  blame c.span (requireHeader t c)
  c.methods.forM fun m => blame m.span (requireMethod t c m)

/-- The type of the main term of a well-typed program. The classes of the program
are checked as they stand, whatever the table holds under their names. -/
def typeOfProgram (t : ClassTable) (p : Program) : CheckM TypeError Ty := do
  p.classes.forM (requireClass t)
  blame p.span (typeOf t .empty [] p.span p.term)

end Featherweight.Typing

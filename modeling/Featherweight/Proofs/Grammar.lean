import Featherweight.Declaration
import Featherweight.Lexeme

/-!
# The grammar of programs

A tree is a derivation in the grammar. Its `lexemes` are what it derives, and its
meaning is the declaration, term or type that it stands for. Trees leave nothing
out: `C` and `C<>` are two trees for one type, and parentheses are part of a tree.

    Program   := Class* Term EOF
    Class     := class Name TypeParams? extends NonVarType { Field* Ctor Method* }
    Ctor      := Name ( Params ) { super ( Names ) ; (this . Name = Name ;)* }
    Method    := TypeParams? Type Name ( Params ) { return Term ; }
    Term      := ( NonVarType ) Term | Primary Access*
    Primary   := this | Name | new NonVarType ( Terms ) | ( Term )
    Access    := . Name | . Name TypeArgs? ( Terms )
    Type      := Name TypeArgs?

What a name means depends on the type variables in scope: those of the enclosing
class and method. `Valid` holds what the grammar asks for beyond the shape of a
tree, given these variables.
-/

namespace Featherweight

namespace Grammar

/-- A kind of phrase: the lexemes of a tree, and, where the given type variables are in
scope, whether it is admitted and what it means. -/
structure Phrase (τ α : Type) where
  lexemes : τ → List Lexeme
  Valid : List String → τ → Prop
  meaning : List String → τ → α

def commaSeparated (items : List (List Lexeme)) : List Lexeme :=
  [.symbol .comma].intercalate items

theorem commaSeparated_singleton (ls : List Lexeme) : commaSeparated [ls] = ls :=
  List.intercalate_singleton

theorem commaSeparated_cons {items : List (List Lexeme)} (h : items ≠ []) (ls : List Lexeme) :
    commaSeparated (ls :: items) = ls ++ .symbol .comma :: commaSeparated items := by
  obtain ⟨ms, items, rfl⟩ := List.exists_cons_of_ne_nil h
  simp [commaSeparated, List.intercalate_cons_cons]

theorem forall_mem_commaSeparated {p : Lexeme → Prop} (hcomma : p (.symbol .comma))
    {items : List (List Lexeme)} (h : ∀ ls ∈ items, ∀ l ∈ ls, p l) :
    ∀ l ∈ commaSeparated items, p l := by
  induction items with
  | nil => exact nofun
  | cons ls items ih =>
    rw [List.forall_mem_cons] at h
    cases items with
    | nil =>
      rw [commaSeparated_singleton]
      exact h.1
    | cons ms items =>
      rw [commaSeparated_cons (List.cons_ne_nil _ _), List.forall_mem_append, List.forall_mem_cons]
      exact ⟨h.1, hcomma, ih h.2⟩

def parenthesized (items : List (List Lexeme)) : List Lexeme :=
  .symbol .lparen :: (commaSeparated items ++ [.symbol .rparen])

def bracketed (items : List (List Lexeme)) : List Lexeme :=
  .symbol .lt :: (commaSeparated items ++ [.symbol .gt])

namespace Phrase

variable {τ α : Type}

def list (P : Phrase τ α) (write : List (List Lexeme) → List Lexeme) :
    Phrase (List τ) (List α) where
  lexemes trees := write (trees.map P.lexemes)
  Valid vars trees := ∀ t ∈ trees, P.Valid vars t
  meaning vars trees := trees.map (P.meaning vars)

def items (P : Phrase τ α) : Phrase (List τ) (List α) where
  lexemes trees := commaSeparated (trees.map P.lexemes)
  Valid vars trees := trees ≠ [] ∧ ∀ t ∈ trees, P.Valid vars t
  meaning vars trees := trees.map (P.meaning vars)

def name : Phrase String String where
  lexemes x := [.ident x]
  Valid _ _ := True
  meaning _ x := x

end Phrase

inductive TypeTree where
  | name (C : String)
  | applied (C : String) (args : List TypeTree)

namespace TypeTree

mutual

def lexemes : TypeTree → List Lexeme
  | name C => [.ident C]
  | applied C Ts => .ident C :: bracketed (lexemeLists Ts)

def lexemeLists : List TypeTree → List (List Lexeme)
  | [] => []
  | T :: Ts => T.lexemes :: lexemeLists Ts

end

mutual

def Valid (vars : List String) : TypeTree → Prop
  | name _ => True
  | applied C Ts => C ∉ vars ∧ ValidAll vars Ts

def ValidAll (vars : List String) : List TypeTree → Prop
  | [] => True
  | T :: Ts => T.Valid vars ∧ ValidAll vars Ts

end

mutual

/-- A bare name is a type variable if it is in scope, and a class otherwise. -/
def ty (vars : List String) : TypeTree → Ty
  | name C => if C ∈ vars then .var C else .inst C []
  | applied C Ts => .inst C (tys vars Ts)

def tys (vars : List String) : List TypeTree → List Ty
  | [] => []
  | T :: Ts => T.ty vars :: tys vars Ts

end

mutual

/-- All lists of type arguments have an element, as in bounds. -/
def Plain : TypeTree → Prop
  | name _ => True
  | applied _ Ts => Ts ≠ [] ∧ PlainAll Ts

def PlainAll : List TypeTree → Prop
  | [] => True
  | T :: Ts => T.Plain ∧ PlainAll Ts

end

def head : TypeTree → String
  | name C => C
  | applied C _ => C

def args : TypeTree → List TypeTree
  | name _ => []
  | applied _ Ts => Ts

def NonVar (vars : List String) (N : TypeTree) : Prop := N.head ∉ vars ∧ N.Valid vars

def classTy (vars : List String) (N : TypeTree) : ClassTy := ⟨N.head, tys vars N.args⟩

def phrase : Phrase TypeTree Ty := ⟨lexemes, Valid, ty⟩

def nonVarPhrase : Phrase TypeTree ClassTy := ⟨lexemes, NonVar, classTy⟩

@[elab_as_elim]
theorem induction {motive : TypeTree → Prop} (name : ∀ C, motive (.name C))
    (applied : ∀ C Ts, (∀ T ∈ Ts, motive T) → motive (.applied C Ts)) (T : TypeTree) :
    motive T :=
  @TypeTree.rec motive (fun Ts => ∀ T ∈ Ts, motive T) name applied nofun
    (fun _ _ hT hTs _ h => (List.mem_cons.1 h).elim (fun e => e ▸ hT) (hTs _)) T

variable {vars : List String}

theorem lexemes_applied (C : String) (Ts : List TypeTree) :
    (applied C Ts).lexemes = .ident C :: bracketed (Ts.map lexemes) := by
  have hall : lexemeLists Ts = Ts.map lexemes := by
    induction Ts with
    | nil => rfl
    | cons T Ts ih => rw [lexemeLists, ih, List.map_cons]
  rw [lexemes, hall]

theorem valid_applied_iff {C : String} {Ts : List TypeTree} :
    (applied C Ts).Valid vars ↔ C ∉ vars ∧ ∀ T ∈ Ts, T.Valid vars := by
  have hall : ValidAll vars Ts ↔ ∀ T ∈ Ts, T.Valid vars := by
    induction Ts with
    | nil => simp [ValidAll]
    | cons T Ts ih => rw [ValidAll, ih, List.forall_mem_cons]
  rw [Valid, hall]

theorem plain_applied_iff {C : String} {Ts : List TypeTree} :
    (applied C Ts).Plain ↔ Ts ≠ [] ∧ ∀ T ∈ Ts, T.Plain := by
  have hall : PlainAll Ts ↔ ∀ T ∈ Ts, T.Plain := by
    induction Ts with
    | nil => simp [PlainAll]
    | cons T Ts ih => rw [PlainAll, ih, List.forall_mem_cons]
  rw [Plain, hall]

theorem tys_eq_map (vars : List String) (Ts : List TypeTree) : tys vars Ts = Ts.map (ty vars) := by
  induction Ts with
  | nil => rfl
  | cons T Ts ih => rw [tys, ih, List.map_cons]

theorem nonVar_classTy_iff {N : TypeTree} {C : String} {Ts : List Ty} :
    N.NonVar vars ∧ N.classTy vars = ⟨C, Ts⟩ ↔ N.Valid vars ∧ N.ty vars = .inst C Ts := by
  cases N with
  | name D =>
    by_cases hD : D ∈ vars
    · simp [NonVar, head, ty, hD]
    · simp [NonVar, classTy, head, args, Valid, ty, tys, hD]
  | applied D Ss => simp +contextual [NonVar, classTy, head, args, valid_applied_iff, ty]

end TypeTree

def typeArgsPhrase : Phrase (Option (List TypeTree)) (List Ty) where
  lexemes Ts := Ts.elim [] fun Ts => bracketed (Ts.map TypeTree.lexemes)
  Valid vars Ts := ∀ T ∈ Ts.getD [], T.Valid vars
  meaning vars Ts := (Ts.getD []).map (TypeTree.ty vars)

mutual

inductive TermTree where
  | cast (target : TypeTree) (operand : TermTree)
  | chain (head : Primary) (rest : Accesses)

inductive Primary where
  | this
  | name (x : String)
  | new (cls : TypeTree) (args : List TermTree)
  | paren (e : TermTree)

inductive Accesses where
  | done
  | field (f : String) (rest : Accesses)
  | call (m : String) (Vs : Option (List TypeTree)) (args : List TermTree) (rest : Accesses)

end

mutual

def TermTree.lexemes : TermTree → List Lexeme
  | .cast N e => .symbol .lparen :: (N.lexemes ++ .symbol .rparen :: e.lexemes)
  | .chain h rest => h.lexemes ++ rest.lexemes

def Primary.lexemes : Primary → List Lexeme
  | .this => [.keyword .thisWord]
  | .name x => [.ident x]
  | .new N es => .keyword .newWord :: (N.lexemes ++ parenthesized (TermTree.lexemeLists es))
  | .paren e => .symbol .lparen :: (e.lexemes ++ [.symbol .rparen])

def Accesses.lexemes : Accesses → List Lexeme
  | .done => []
  | .field f rest => .symbol .dot :: .ident f :: rest.lexemes
  | .call m Vs es rest =>
    .symbol .dot :: .ident m ::
      (typeArgsPhrase.lexemes Vs ++ (parenthesized (TermTree.lexemeLists es) ++ rest.lexemes))

def TermTree.lexemeLists : List TermTree → List (List Lexeme)
  | [] => []
  | e :: es => e.lexemes :: TermTree.lexemeLists es

end

mutual

def TermTree.Valid (vars : List String) : TermTree → Prop
  | .cast N e => N.NonVar vars ∧ e.Valid vars
  | .chain h rest => h.Valid vars ∧ rest.Valid vars

def Primary.Valid (vars : List String) : Primary → Prop
  | .this => True
  | .name _ => True
  | .new N es => N.NonVar vars ∧ TermTree.ValidAll vars es
  | .paren e => e.Valid vars

def Accesses.Valid (vars : List String) : Accesses → Prop
  | .done => True
  | .field _ rest => rest.Valid vars
  | .call _ Vs es rest => typeArgsPhrase.Valid vars Vs ∧ TermTree.ValidAll vars es ∧ rest.Valid vars

def TermTree.ValidAll (vars : List String) : List TermTree → Prop
  | [] => True
  | e :: es => e.Valid vars ∧ TermTree.ValidAll vars es

end

mutual

def TermTree.term (vars : List String) : TermTree → Term
  | .cast N e => .cast (N.classTy vars) (e.term vars)
  | .chain h rest => rest.term vars (h.term vars)

def Primary.term (vars : List String) : Primary → Term
  | .this => .var "this"
  | .name x => .var x
  | .new N es => .new (N.classTy vars) (TermTree.terms vars es)
  | .paren e => e.term vars

def Accesses.term (vars : List String) : Accesses → Term → Term
  | .done, e => e
  | .field f rest, e => rest.term vars (.field e f)
  | .call m Vs es rest, e =>
    rest.term vars (.call e m (typeArgsPhrase.meaning vars Vs) (TermTree.terms vars es))

def TermTree.terms (vars : List String) : List TermTree → List Term
  | [] => []
  | e :: es => e.term vars :: TermTree.terms vars es

end

namespace TermTree

theorem lexemeLists_eq_map (es : List TermTree) : lexemeLists es = es.map lexemes := by
  induction es with
  | nil => rfl
  | cons e es ih => rw [lexemeLists, ih, List.map_cons]

theorem validAll_iff {vars : List String} {es : List TermTree} :
    ValidAll vars es ↔ ∀ e ∈ es, e.Valid vars := by
  induction es with
  | nil => simp [ValidAll]
  | cons e es ih => rw [ValidAll, ih, List.forall_mem_cons]

theorem terms_eq_map (vars : List String) (es : List TermTree) :
    terms vars es = es.map (term vars) := by
  induction es with
  | nil => rfl
  | cons e es ih => rw [terms, ih, List.map_cons]

def phrase : Phrase TermTree Term := ⟨lexemes, Valid, term⟩

end TermTree

def Primary.phrase : Phrase Primary Term := ⟨Primary.lexemes, Primary.Valid, Primary.term⟩

def Accesses.phrase (e : Term) : Phrase Accesses Term :=
  ⟨Accesses.lexemes, Accesses.Valid, fun vars rest => rest.term vars e⟩

structure BindingTree where
  ty : TypeTree
  name : String

structure TypeParamTree where
  name : String
  bound : TypeTree

structure ConstructorTree where
  name : String
  params : List BindingTree
  superArgs : List String
  inits : List Initializer

structure MethodTree where
  typeParams : List TypeParamTree
  returnType : TypeTree
  name : String
  params : List BindingTree
  body : TermTree

structure ClassTree where
  name : String
  typeParams : List TypeParamTree
  superType : TypeTree
  fields : List BindingTree
  constructor : ConstructorTree
  methods : List MethodTree

structure ProgramTree where
  classes : List ClassTree
  term : TermTree

def BindingTree.phrase : Phrase BindingTree Binding where
  lexemes b := b.ty.lexemes ++ [.ident b.name]
  Valid vars b := b.ty.Valid vars
  meaning vars b := ⟨b.ty.ty vars, b.name⟩

def BindingTree.fieldPhrase : Phrase BindingTree Binding where
  lexemes b := b.ty.lexemes ++ [.ident b.name, .symbol .semicolon]
  Valid vars b := b.ty.Valid vars
  meaning vars b := ⟨b.ty.ty vars, b.name⟩

def paramsPhrase : Phrase (List BindingTree) (List Binding) := BindingTree.phrase.list parenthesized

def TypeParamTree.phrase : Phrase TypeParamTree TypeParam where
  lexemes p := .ident p.name :: .keyword .extendsWord :: p.bound.lexemes
  Valid vars p := p.bound.Plain ∧ p.bound.NonVar vars
  meaning vars p := ⟨p.name, p.bound.classTy vars⟩

def names (Xs : List TypeParamTree) : List String := Xs.map TypeParamTree.name

/-- Type parameters, which may be missing. Each bound may mention all of them. -/
def typeParamsPhrase : Phrase (List TypeParamTree) (List TypeParam) where
  lexemes Xs := if Xs.isEmpty then [] else bracketed (Xs.map TypeParamTree.phrase.lexemes)
  Valid vars Xs := (names Xs).Nodup ∧ ∀ X ∈ Xs, TypeParamTree.phrase.Valid (names Xs ++ vars) X
  meaning vars Xs := Xs.map (TypeParamTree.phrase.meaning (names Xs ++ vars))

def initializerPhrase : Phrase Initializer Initializer where
  lexemes i :=
    [.keyword .thisWord, .symbol .dot, .ident i.field, .symbol .equals, .ident i.param,
      .symbol .semicolon]
  Valid _ i := i.field = i.param
  meaning _ i := i

def ConstructorTree.phrase (C : String) : Phrase ConstructorTree Constructor where
  lexemes k :=
    .ident k.name :: (paramsPhrase.lexemes k.params ++ .symbol .lbrace :: .keyword .superWord ::
      ((Phrase.name.list parenthesized).lexemes k.superArgs ++ .symbol .semicolon ::
        ((initializerPhrase.list List.flatten).lexemes k.inits ++ [.symbol .rbrace])))
  Valid vars k := k.name = C ∧ paramsPhrase.Valid vars k.params ∧ ∀ i ∈ k.inits, i.field = i.param
  meaning vars k := ⟨k.name, paramsPhrase.meaning vars k.params, k.superArgs, k.inits⟩

/-- A method. The spans of declarations are no part of their meaning. -/
def MethodTree.phrase : Phrase MethodTree MethodDecl where
  lexemes m :=
    typeParamsPhrase.lexemes m.typeParams ++ (m.returnType.lexemes ++ .ident m.name ::
      (paramsPhrase.lexemes m.params ++ .symbol .lbrace :: .keyword .returnWord ::
        (m.body.lexemes ++ [.symbol .semicolon, .symbol .rbrace])))
  Valid vars m :=
    typeParamsPhrase.Valid vars m.typeParams ∧ m.returnType.Valid (names m.typeParams ++ vars) ∧
      paramsPhrase.Valid (names m.typeParams ++ vars) m.params ∧
      m.body.Valid (names m.typeParams ++ vars)
  meaning vars m :=
    ⟨typeParamsPhrase.meaning vars m.typeParams, m.returnType.ty (names m.typeParams ++ vars),
      m.name, paramsPhrase.meaning (names m.typeParams ++ vars) m.params,
      m.body.term (names m.typeParams ++ vars), ⟨0, 0⟩⟩

def ClassTree.phrase : Phrase ClassTree ClassDecl where
  lexemes c :=
    .keyword .classWord :: .ident c.name :: (typeParamsPhrase.lexemes c.typeParams ++
      .keyword .extendsWord :: (c.superType.lexemes ++ .symbol .lbrace ::
        ((BindingTree.fieldPhrase.list List.flatten).lexemes c.fields ++
          ((ConstructorTree.phrase c.name).lexemes c.constructor ++
            ((MethodTree.phrase.list List.flatten).lexemes c.methods ++ [.symbol .rbrace])))))
  Valid vars c :=
    typeParamsPhrase.Valid vars c.typeParams ∧ c.superType.NonVar (names c.typeParams ++ vars) ∧
      (∀ f ∈ c.fields, f.ty.Valid (names c.typeParams ++ vars)) ∧
      (ConstructorTree.phrase c.name).Valid (names c.typeParams ++ vars) c.constructor ∧
      ∀ m ∈ c.methods, MethodTree.phrase.Valid (names c.typeParams ++ vars) m
  meaning vars c :=
    ⟨c.name, typeParamsPhrase.meaning vars c.typeParams,
      c.superType.classTy (names c.typeParams ++ vars),
      c.fields.map (BindingTree.fieldPhrase.meaning (names c.typeParams ++ vars)),
      (ConstructorTree.phrase c.name).meaning (names c.typeParams ++ vars) c.constructor,
      c.methods.map (MethodTree.phrase.meaning (names c.typeParams ++ vars)), ⟨0, 0⟩⟩

def ClassTree.headLexemes (c : ClassTree) : List Lexeme :=
  .keyword .classWord :: .ident c.name :: (typeParamsPhrase.lexemes c.typeParams ++
    .keyword .extendsWord :: (c.superType.lexemes ++ .symbol .lbrace ::
      ((BindingTree.fieldPhrase.list List.flatten).lexemes c.fields ++
        (ConstructorTree.phrase c.name).lexemes c.constructor)))

theorem ClassTree.lexemes_eq (c : ClassTree) : phrase.lexemes c = c.headLexemes ++
    ((MethodTree.phrase.list List.flatten).lexemes c.methods ++ [.symbol .rbrace]) := by
  simp [phrase, headLexemes]

def ProgramTree.phrase : Phrase ProgramTree Program where
  lexemes p :=
    (ClassTree.phrase.list List.flatten).lexemes p.classes ++ (p.term.lexemes ++ [.eof])
  Valid vars p := (∀ c ∈ p.classes, ClassTree.phrase.Valid vars c) ∧ p.term.Valid vars
  meaning vars p := ⟨p.classes.map (ClassTree.phrase.meaning vars), p.term.term vars, ⟨0, 0⟩⟩

def ProgramTree.Derives (tree : ProgramTree) (ls : List Lexeme) (p : Program) : Prop :=
  phrase.lexemes tree = ls ∧ phrase.Valid [] tree ∧ phrase.meaning [] tree = p

def NoInvalid (ls : List Lexeme) : Prop := ∀ l ∈ ls, ∀ m, l ≠ .invalid m

theorem noInvalid_nil : NoInvalid [] := by simp [NoInvalid]

theorem noInvalid_cons_iff {l : Lexeme} {ls : List Lexeme} :
    NoInvalid (l :: ls) ↔ (∀ m, l ≠ .invalid m) ∧ NoInvalid ls := List.forall_mem_cons

theorem noInvalid_append_iff {ls ms : List Lexeme} :
    NoInvalid (ls ++ ms) ↔ NoInvalid ls ∧ NoInvalid ms := List.forall_mem_append

theorem noInvalid_commaSeparated {items : List (List Lexeme)} (h : ∀ ls ∈ items, NoInvalid ls) :
    NoInvalid (commaSeparated items) :=
  forall_mem_commaSeparated (by simp) h

theorem noInvalid_parenthesized {items : List (List Lexeme)} (h : ∀ ls ∈ items, NoInvalid ls) :
    NoInvalid (parenthesized items) := by
  simp [parenthesized, noInvalid_cons_iff, noInvalid_append_iff, noInvalid_commaSeparated h,
    noInvalid_nil]

theorem noInvalid_bracketed {items : List (List Lexeme)} (h : ∀ ls ∈ items, NoInvalid ls) :
    NoInvalid (bracketed items) := by
  simp [bracketed, noInvalid_cons_iff, noInvalid_append_iff, noInvalid_commaSeparated h,
    noInvalid_nil]

theorem noInvalid_flatten {items : List (List Lexeme)} (h : ∀ ls ∈ items, NoInvalid ls) :
    NoInvalid items.flatten := by
  intro l hl
  obtain ⟨ls, hls, hl⟩ := List.mem_flatten.1 hl
  exact h ls hls l hl

theorem TypeTree.noInvalid (T : TypeTree) : NoInvalid T.lexemes := by
  induction T using TypeTree.induction with
  | name C => simp [lexemes, noInvalid_cons_iff, noInvalid_nil]
  | applied C Ts ih =>
    rw [lexemes_applied, noInvalid_cons_iff]
    exact ⟨by simp, noInvalid_bracketed (List.forall_mem_map.2 ih)⟩

theorem noInvalid_typeArgs (Ts : Option (List TypeTree)) :
    NoInvalid (typeArgsPhrase.lexemes Ts) := by
  cases Ts with
  | none => exact noInvalid_nil
  | some Ts => exact noInvalid_bracketed (List.forall_mem_map.2 fun T _ => T.noInvalid)

mutual

theorem TermTree.noInvalid : (e : TermTree) → NoInvalid e.lexemes
  | .cast N e => by
    simp [TermTree.lexemes, noInvalid_cons_iff, noInvalid_append_iff, N.noInvalid, e.noInvalid]
  | .chain h rest => noInvalid_append_iff.2 ⟨h.noInvalid, rest.noInvalid⟩

theorem Primary.noInvalid : (h : Primary) → NoInvalid h.lexemes
  | .this => by simp [Primary.lexemes, noInvalid_cons_iff, noInvalid_nil]
  | .name x => by simp [Primary.lexemes, noInvalid_cons_iff, noInvalid_nil]
  | .new N es => by
    simp [Primary.lexemes, noInvalid_cons_iff, noInvalid_append_iff, N.noInvalid,
      noInvalid_parenthesized (TermTree.all_noInvalid es)]
  | .paren e => by
    simp [Primary.lexemes, noInvalid_cons_iff, noInvalid_append_iff, e.noInvalid, noInvalid_nil]

theorem Accesses.noInvalid : (rest : Accesses) → NoInvalid rest.lexemes
  | .done => noInvalid_nil
  | .field f rest => by simp [Accesses.lexemes, noInvalid_cons_iff, rest.noInvalid]
  | .call m Vs es rest => by
    simp [Accesses.lexemes, noInvalid_cons_iff, noInvalid_append_iff, noInvalid_typeArgs,
      noInvalid_parenthesized (TermTree.all_noInvalid es), rest.noInvalid]

theorem TermTree.all_noInvalid :
    (es : List TermTree) → ∀ ls ∈ TermTree.lexemeLists es, NoInvalid ls
  | [] => fun _ h => absurd h List.not_mem_nil
  | e :: es => List.forall_mem_cons.2 ⟨e.noInvalid, TermTree.all_noInvalid es⟩

end

theorem noInvalid_params (bs : List BindingTree) : NoInvalid (paramsPhrase.lexemes bs) :=
  noInvalid_parenthesized <| List.forall_mem_map.2 fun b _ => by
    simp [BindingTree.phrase, noInvalid_append_iff, noInvalid_cons_iff, noInvalid_nil,
      b.ty.noInvalid]

theorem noInvalid_typeParams (Xs : List TypeParamTree) :
    NoInvalid (typeParamsPhrase.lexemes Xs) := by
  cases Xs with
  | nil => exact noInvalid_nil
  | cons X Xs =>
    refine noInvalid_bracketed (List.forall_mem_map.2 fun X _ => ?_)
    simp [TypeParamTree.phrase, noInvalid_cons_iff, X.bound.noInvalid]

theorem ConstructorTree.noInvalid (C : String) (k : ConstructorTree) :
    NoInvalid ((phrase C).lexemes k) := by
  have hsuper : NoInvalid ((Phrase.name.list parenthesized).lexemes k.superArgs) :=
    noInvalid_parenthesized <| List.forall_mem_map.2 fun x _ => by
      simp [Phrase.name, noInvalid_cons_iff, noInvalid_nil]
  have hinits : NoInvalid ((initializerPhrase.list List.flatten).lexemes k.inits) :=
    noInvalid_flatten <| List.forall_mem_map.2 fun i _ => by
      simp [initializerPhrase, noInvalid_cons_iff, noInvalid_nil]
  simp [phrase, noInvalid_cons_iff, noInvalid_append_iff, noInvalid_params, hsuper, hinits,
    noInvalid_nil]

theorem MethodTree.noInvalid (m : MethodTree) : NoInvalid (phrase.lexemes m) := by
  simp [phrase, noInvalid_cons_iff, noInvalid_append_iff, noInvalid_params, noInvalid_typeParams,
    m.returnType.noInvalid, m.body.noInvalid, noInvalid_nil]

theorem ClassTree.noInvalid (c : ClassTree) : NoInvalid (phrase.lexemes c) := by
  have hfields : NoInvalid ((BindingTree.fieldPhrase.list List.flatten).lexemes c.fields) :=
    noInvalid_flatten <| List.forall_mem_map.2 fun b _ => by
      simp [BindingTree.fieldPhrase, noInvalid_append_iff, noInvalid_cons_iff, noInvalid_nil,
        b.ty.noInvalid]
  have hmethods : NoInvalid ((MethodTree.phrase.list List.flatten).lexemes c.methods) :=
    noInvalid_flatten (List.forall_mem_map.2 fun m _ => m.noInvalid)
  simp [phrase, noInvalid_cons_iff, noInvalid_append_iff, noInvalid_typeParams,
    c.superType.noInvalid, hfields, hmethods, c.constructor.noInvalid, noInvalid_nil]

theorem ProgramTree.noInvalid (p : ProgramTree) : NoInvalid (phrase.lexemes p) := by
  have hclasses : NoInvalid ((ClassTree.phrase.list List.flatten).lexemes p.classes) :=
    noInvalid_flatten (List.forall_mem_map.2 fun c _ => c.noInvalid)
  simp [phrase, noInvalid_cons_iff, noInvalid_append_iff, hclasses, p.term.noInvalid,
    noInvalid_nil]

end Grammar

def MethodDecl.withoutSpan (d : MethodDecl) : MethodDecl := { d with span := ⟨0, 0⟩ }

def ClassDecl.withoutSpans (c : ClassDecl) : ClassDecl :=
  { c with methods := c.methods.map MethodDecl.withoutSpan, span := ⟨0, 0⟩ }

def Program.withoutSpans (p : Program) : Program :=
  { p with classes := p.classes.map ClassDecl.withoutSpans, span := ⟨0, 0⟩ }

end Featherweight

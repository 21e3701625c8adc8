import Featherweight.Proofs.Lexing
import Featherweight.Proofs.ParsedPrograms

/-!
# Terms read back from their text

The text of a term is read as the grammar tree that has the same shape, except for casts. A
cast is written without parentheses around it, so a field or method behind it is read as one
of its operand: `regroup` moves all accesses from casts to their operands.

A term is read back as it was if it has no access right on a cast. Nothing else is lost:
class names, type arguments and argument lists are read as they are written.
-/

namespace Featherweight

open Grammar

def lexemes (cs : List Char) : List Lexeme := (pieces cs).filterMap Piece.lexeme?

theorem Position.map_lexeme_tokens (p : Position) (qs : List Piece) :
    (p.tokens qs).map Token.lexeme = qs.filterMap Piece.lexeme? := by
  induction qs generalizing p with
  | nil => rfl
  | cons q qs ih =>
    cases hq : q.lexeme? with
    | none => simp only [tokens, hq, List.filterMap_cons, ih]
    | some l => simp only [tokens, hq, List.filterMap_cons, List.map_cons, ih, token]

theorem lexemes_nil : lexemes [] = [] := by
  rw [lexemes, pieces]
  rfl

theorem lexemes_cons (c : Char) (cs : List Char) :
    lexemes (c :: cs) = (cut c cs).1.lexeme?.toList ++ lexemes (cut c cs).2 := by
  rw [lexemes, pieces, List.filterMap_cons]
  cases (cut c cs).1.lexeme? with
  | none => rfl
  | some l => rfl

theorem lexemes_blank {c : Char} (hc : Text.isBlank c = true) (cs : List Char) :
    lexemes (c :: cs) = lexemes cs := by
  have h := congrArg (List.map Token.lexeme) (Position.tokens_blank hc Position.origin cs)
  rwa [Position.map_lexeme_tokens, Position.map_lexeme_tokens] at h

/-- Where the text stands in front of other text and no word goes on, its lexemes are these. -/
def Lexes (text : List Char) (ls : List Lexeme) : Prop :=
  ∀ r, StopsWord r → lexemes (text ++ r) = ls ++ lexemes r

theorem StopsWord.append {b r : List Char} (hb : StopsWord b) (hr : StopsWord r) :
    StopsWord (b ++ r) := by
  cases b with
  | nil => exact hr
  | cons d b => exact hb

section Lexes

variable {text a b : List Char} {ls ms : List Lexeme}

theorem Lexes.append (ha : Lexes a ls) (hb : Lexes b ms) (hstops : StopsWord b) :
    Lexes (a ++ b) (ls ++ ms) := by
  intro r hr
  rw [List.append_assoc, ha _ (hstops.append hr), hb r hr, List.append_assoc]

theorem lexes_nil : Lexes [] [] := fun _ _ => rfl

theorem Lexes.symbol (s : Symbol) (h : Lexes text ls) :
    Lexes (s.char :: text) (.symbol s :: ls) := by
  intro r hr
  rw [List.cons_append, lexemes_cons, cut_symbol]
  exact congrArg (Lexeme.symbol s :: ·) (h r hr)

theorem Lexes.blanks (ws : List Char) (hws : ∀ c ∈ ws, Text.isBlank c = true)
    (h : Lexes text ls) : Lexes (ws ++ text) ls := by
  intro r hr
  induction ws with
  | nil => exact h r hr
  | cons c ws ih =>
    rw [List.forall_mem_cons] at hws
    rw [List.cons_append, List.cons_append, lexemes_blank hws.1]
    exact ih hws.2

theorem Lexes.space (h : Lexes text ls) : Lexes (' ' :: text) ls :=
  h.blanks [' '] (List.forall_mem_singleton.2 rfl)

theorem Lexes.intercalate {α : Type} {f : α → List Char} {g : α → List Lexeme} {as : List α}
    (ws : List Char) (hws : ∀ c ∈ ws, Text.isBlank c = true) (h : ∀ a ∈ as, Lexes (f a) (g a)) :
    Lexes ((',' :: ws).intercalate (as.map f)) (commaSeparated (as.map g)) := by
  induction as with
  | nil => exact lexes_nil
  | cons a as ih =>
    rw [List.forall_mem_cons] at h
    cases as with
    | nil =>
      rw [List.map_singleton, List.map_singleton, List.intercalate_singleton,
        commaSeparated_singleton]
      exact h.1
    | cons a' as =>
      have hrest := (ih h.2).blanks ws hws
      simp only [List.map_cons] at hrest ⊢
      rw [commaSeparated_cons (List.cons_ne_nil _ _), List.intercalate_cons_cons,
        List.append_assoc]
      exact h.1.append (hrest.symbol .comma) (stopsWord_symbol .comma _)

end Lexes

def isWord (s : String) : Bool :=
  match s.toList with
  | [] => false
  | c :: cs => isWordStart c && cs.all isWordChar

def IsName (x : String) : Prop := isWord x = true ∧ Keyword.ofText? x = none

instance instDecidablePredIsName : DecidablePred IsName := fun _ =>
  inferInstanceAs (Decidable (_ ∧ _))

theorem lexes_word {s : String} (h : isWord s = true) : Lexes s.toList [.ofWord s] := by
  intro r hr
  unfold isWord at h
  split at h
  · cases h
  · next c cs hs =>
    rw [Bool.and_eq_true, List.all_eq_true] at h
    rw [hs, List.cons_append, lexemes_cons, cut_word h.1 h.2 hr]
    change [Lexeme.ofWord (String.ofList (c :: cs))] ++ lexemes r = _
    rw [← hs, String.ofList_toList]

theorem IsName.lexes {x : String} (h : IsName x) : Lexes x.toList [.ident x] := by
  have hword := lexes_word h.1
  rwa [Lexeme.ofWord, h.2] at hword

inductive Ty.Spelled : Ty → Prop where
  | inst {C : String} {Ts : List Ty} (hC : IsName C) (hTs : ∀ T ∈ Ts, Spelled T) :
      Spelled (.inst C Ts)

/-- A term without type variables whose class, field, method and variable names are names. A
variable may also be `this`. -/
inductive Term.Spelled : Term → Prop where
  | var {x : String} (hx : IsName x ∨ x = "this") : Spelled (.var x)
  | field {e : Term} {f : String} (he : Spelled e) (hf : IsName f) : Spelled (.field e f)
  | call {e : Term} {m : String} {Vs : List Ty} {es : List Term} (he : Spelled e) (hm : IsName m)
      (hVs : ∀ V ∈ Vs, V.Spelled) (hes : ∀ a ∈ es, Spelled a) : Spelled (.call e m Vs es)
  | new {N : ClassTy} {es : List Term} (hN : N.toTy.Spelled) (hes : ∀ a ∈ es, Spelled a) :
      Spelled (.new N es)
  | cast {N : ClassTy} {e : Term} (hN : N.toTy.Spelled) (he : Spelled e) : Spelled (.cast N e)

namespace Ty

theorem texts_eq_map (Ts : List Ty) : texts Ts = Ts.map text := by
  induction Ts with
  | nil => rfl
  | cons T Ts ih => rw [texts, ih, List.map_cons]

mutual

def tree : Ty → TypeTree
  | .var X => .name X
  | .inst C Ts => if Ts.isEmpty then .name C else .applied C (trees Ts)

def trees : List Ty → List TypeTree
  | [] => []
  | T :: Ts => T.tree :: trees Ts

end

theorem trees_eq_map (Ts : List Ty) : trees Ts = Ts.map tree := by
  induction Ts with
  | nil => rfl
  | cons T Ts ih => rw [trees, ih, List.map_cons]

theorem lexes_args {Ts : List Ty} (h : ∀ T ∈ Ts, Lexes T.text.toList T.tree.lexemes) :
    Lexes ('<' :: ((",".intercalate (texts Ts)).toList ++ ['>']))
      (bracketed (Ts.map fun T => T.tree.lexemes)) := by
  have hargs := Lexes.intercalate [] (by simp) h
  rw [texts_eq_map, String.toList_intercalate, List.map_map]
  exact (hargs.append (lexes_nil.symbol .gt) (stopsWord_symbol .gt _)).symbol .lt

theorem Spelled.lexes {T : Ty} (h : T.Spelled) : Lexes T.text.toList T.tree.lexemes := by
  induction h with
  | @inst C Ts hC _ ih =>
    cases Ts with
    | nil => exact hC.lexes
    | cons T Ts =>
      have happend := hC.lexes.append (lexes_args ih) (stopsWord_symbol .lt _)
      have htext : (Ty.inst C (T :: Ts)).text.toList =
          C.toList ++ '<' :: ((",".intercalate (texts (T :: Ts))).toList ++ ['>']) := by
        simp [text]
      rw [htext, tree, if_neg (by simp), TypeTree.lexemes_applied, trees_eq_map, List.map_map]
      exact happend

theorem map_ty_trees {Ts : List Ty} (h : ∀ T ∈ Ts, T.tree.ty [] = T) :
    (trees Ts).map (TypeTree.ty []) = Ts := by
  calc
    _ = Ts.map (TypeTree.ty [] ∘ tree) := by rw [trees_eq_map, List.map_map]
    _ = Ts.map id := List.map_congr_left h
    _ = Ts := List.map_id Ts

theorem Spelled.ty_tree {T : Ty} (h : T.Spelled) : T.tree.ty [] = T := by
  induction h with
  | @inst C Ts _ _ ih =>
    rw [tree]
    split
    · next hTs =>
      rw [List.isEmpty_iff.1 hTs]
      rfl
    · rw [TypeTree.ty, TypeTree.tys_eq_map, map_ty_trees ih]

end Ty

namespace Grammar

theorem TypeTree.valid_nil (T : TypeTree) : T.Valid [] := by
  induction T using TypeTree.induction with
  | name C => trivial
  | applied C Ts ih => exact valid_applied_iff.2 ⟨List.not_mem_nil, ih⟩

theorem TypeTree.nonVar_nil (N : TypeTree) : N.NonVar [] := ⟨List.not_mem_nil, N.valid_nil⟩

mutual

theorem TermTree.valid_nil : (e : TermTree) → e.Valid []
  | .cast N e => ⟨N.nonVar_nil, e.valid_nil⟩
  | .chain h rest => ⟨h.valid_nil, rest.valid_nil⟩

theorem Primary.valid_nil : (h : Primary) → h.Valid []
  | .this => trivial
  | .name _ => trivial
  | .new N es => ⟨N.nonVar_nil, TermTree.validAll_nil es⟩
  | .paren e => e.valid_nil

theorem Accesses.valid_nil : (rest : Accesses) → rest.Valid []
  | .done => trivial
  | .field _ rest => rest.valid_nil
  | .call _ _ es rest => ⟨fun T _ => T.valid_nil, TermTree.validAll_nil es, rest.valid_nil⟩

theorem TermTree.validAll_nil : (es : List TermTree) → TermTree.ValidAll [] es
  | [] => trivial
  | e :: es => ⟨e.valid_nil, TermTree.validAll_nil es⟩

end

def Accesses.append : Accesses → Accesses → Accesses
  | .done, r => r
  | .field f rest, r => .field f (rest.append r)
  | .call m Vs es rest, r => .call m Vs es (rest.append r)

/-- The tree with these accesses behind it. They go to the operand of a cast. -/
def TermTree.access : TermTree → Accesses → TermTree
  | .cast N e, r => .cast N (e.access r)
  | .chain h rest, r => .chain h (rest.append r)

def TermTree.Bare : TermTree → Prop
  | .cast _ e => e.Bare
  | .chain (.paren _) _ => False
  | .chain _ _ => True

theorem Accesses.lexemes_append (rest r : Accesses) :
    (rest.append r).lexemes = rest.lexemes ++ r.lexemes := by
  fun_induction Accesses.append rest r with
  | case1 => rfl
  | case2 f rest r ih => simp [lexemes, ih]
  | case3 m Vs es rest r ih => simp [lexemes, ih]

theorem Accesses.term_append (rest r : Accesses) (vars : List String) (e : Term) :
    (rest.append r).term vars e = r.term vars (rest.term vars e) := by
  fun_induction Accesses.append rest r generalizing e with
  | case1 => rfl
  | case2 f rest r ih => exact ih _
  | case3 m Vs es rest r ih => exact ih _

theorem TermTree.lexemes_access (e : TermTree) (r : Accesses) :
    (e.access r).lexemes = e.lexemes ++ r.lexemes := by
  fun_induction TermTree.access e r with
  | case1 N e r ih => simp [lexemes, ih]
  | case2 h rest r => simp [lexemes, Accesses.lexemes_append]

theorem TermTree.Bare.access {e : TermTree} (he : e.Bare) (r : Accesses) : (e.access r).Bare := by
  fun_induction TermTree.access e r with
  | case1 N e r ih => exact ih he
  | case2 h rest r =>
    cases h with
    | paren e => exact he
    | _ => trivial

end Grammar

theorem ClassTy.classTy_tree {N : ClassTy} (h : N.toTy.Spelled) : N.toTy.tree.classTy [] = N :=
  (TypeTree.nonVar_classTy_iff.2 ⟨TypeTree.valid_nil _, h.ty_tree⟩).2

namespace Term

def IsCast : Term → Prop
  | .cast _ _ => True
  | _ => False

/-- No field is accessed and no method called right on a cast. -/
inductive PlainBases : Term → Prop where
  | var (x : String) : PlainBases (.var x)
  | field {e : Term} {f : String} (he : PlainBases e) (hcast : ¬ e.IsCast) :
      PlainBases (.field e f)
  | call {e : Term} {m : String} {Vs : List Ty} {es : List Term} (he : PlainBases e)
      (hcast : ¬ e.IsCast) (hes : ∀ a ∈ es, PlainBases a) : PlainBases (.call e m Vs es)
  | new {N : ClassTy} {es : List Term} (hes : ∀ a ∈ es, PlainBases a) : PlainBases (.new N es)
  | cast {N : ClassTy} {e : Term} (he : PlainBases e) : PlainBases (.cast N e)

def underCasts (access : Term → Term) : Term → Term
  | .cast N e => .cast N (e.underCasts access)
  | e => access e

mutual

/-- The term that its text is read as. -/
def regroup : Term → Term
  | .var x => .var x
  | .field e f => e.regroup.underCasts (.field · f)
  | .call e m Vs es => e.regroup.underCasts (.call · m Vs (regroupAll es))
  | .new N es => .new N (regroupAll es)
  | .cast N e => .cast N e.regroup

def regroupAll : List Term → List Term
  | [] => []
  | e :: es => e.regroup :: regroupAll es

end

theorem regroupAll_eq_map (es : List Term) : regroupAll es = es.map regroup := by
  induction es with
  | nil => rfl
  | cons e es ih => rw [regroupAll, ih, List.map_cons]

theorem underCasts_of_not_isCast {e : Term} (h : ¬ e.IsCast) (access : Term → Term) :
    e.underCasts access = access e := by
  cases e with
  | cast N e => exact absurd trivial h
  | _ => rfl

theorem PlainBases.underCasts {access : Term → Term} {e : Term} (he : e.PlainBases)
    (haccess : ∀ e, PlainBases e → ¬ e.IsCast → (access e).PlainBases) :
    (e.underCasts access).PlainBases := by
  induction e using Term.induction with
  | cast N e ih =>
    cases he with
    | cast he => exact .cast (ih he)
  | var x => exact haccess _ he id
  | field e f => exact haccess _ he id
  | call e m Vs es => exact haccess _ he id
  | new N es => exact haccess _ he id

theorem plainBases_regroup (e : Term) : e.regroup.PlainBases := by
  have hall {es : List Term} (ihs : ∀ a ∈ es, a.regroup.PlainBases) :
      ∀ a ∈ regroupAll es, a.PlainBases := by
    rw [regroupAll_eq_map]
    exact List.forall_mem_map.2 ihs
  induction e using Term.induction with
  | var x => exact .var x
  | field e f ih => exact ih.underCasts fun e he hcast => .field he hcast
  | call e m Vs es ih ihs => exact ih.underCasts fun e he hcast => .call he hcast (hall ihs)
  | new N es ihs => exact .new (hall ihs)
  | cast N e ih => exact .cast ih

theorem PlainBases.regroup_eq {e : Term} (h : e.PlainBases) : e.regroup = e := by
  have hall {es : List Term} (ihs : ∀ a ∈ es, a.regroup = a) : regroupAll es = es := by
    calc
      _ = es.map regroup := regroupAll_eq_map es
      _ = es.map id := List.map_congr_left ihs
      _ = es := List.map_id es
  induction h with
  | var x => rfl
  | field _ hcast ih => rw [regroup, ih, underCasts_of_not_isCast hcast]
  | call _ hcast _ ih ihs => rw [regroup, ih, hall ihs, underCasts_of_not_isCast hcast]
  | new _ ihs => rw [regroup, hall ihs]
  | cast _ ih => rw [regroup, ih]

theorem regroup_eq_iff {e : Term} : e.regroup = e ↔ e.PlainBases :=
  ⟨fun h => h ▸ e.plainBases_regroup, PlainBases.regroup_eq⟩

end Term

namespace Grammar

theorem Accesses.not_isCast_term (vars : List String) :
    (rest : Accesses) → {e : Term} → ¬ e.IsCast → ¬ (rest.term vars e).IsCast
  | .done, _, h => h
  | .field _ rest, _, _ => rest.not_isCast_term vars id
  | .call _ _ _ rest, _, _ => rest.not_isCast_term vars id

theorem TermTree.Bare.term_access {e : TermTree} (he : e.Bare) (r : Accesses)
    (vars : List String) : (e.access r).term vars = (e.term vars).underCasts (r.term vars) := by
  fun_induction TermTree.access e r with
  | case1 N e r ih => rw [TermTree.term, TermTree.term, ih he, Term.underCasts]
  | case2 h rest r =>
    have hhead : ¬ (h.term vars).IsCast := by
      cases h with
      | paren e => exact he.elim
      | _ => exact id
    rw [TermTree.term, TermTree.term, Accesses.term_append,
      Term.underCasts_of_not_isCast (rest.not_isCast_term vars hhead)]

end Grammar

def typeArgsTree (Vs : List Ty) : Option (List TypeTree) :=
  if Vs.isEmpty then none else some (Ty.trees Vs)

theorem lexes_typeArgs {Vs : List Ty} (h : ∀ V ∈ Vs, V.Spelled) :
    Lexes (Term.typeArgsText Vs).toList (typeArgsPhrase.lexemes (typeArgsTree Vs)) := by
  cases Vs with
  | nil => exact lexes_nil
  | cons V Vs =>
    have hargs := Ty.lexes_args fun V hV => (h V hV).lexes
    have htext : (Term.typeArgsText (V :: Vs)).toList =
        '<' :: ((",".intercalate (Ty.texts (V :: Vs))).toList ++ ['>']) := by
      simp [Term.typeArgsText]
    have htree : typeArgsPhrase.lexemes (typeArgsTree (V :: Vs)) =
        bracketed ((V :: Vs).map fun T => T.tree.lexemes) := by
      simp [typeArgsTree, typeArgsPhrase, Ty.trees_eq_map, Function.comp_def]
    rw [htext, htree]
    exact hargs

theorem stopsWord_typeArgs (Vs : List Ty) : StopsWord (Term.typeArgsText Vs).toList := by
  cases Vs with
  | nil => exact stopsWord_nil
  | cons V Vs =>
    rw [Term.typeArgsText, String.toList_append, String.toList_append]
    exact stopsWord_symbol .lt _

theorem meaning_typeArgsTree {Vs : List Ty} (h : ∀ V ∈ Vs, V.Spelled) :
    typeArgsPhrase.meaning [] (typeArgsTree Vs) = Vs := by
  cases Vs with
  | nil => rfl
  | cons V Vs => exact Ty.map_ty_trees fun V hV => (h V hV).ty_tree

namespace Term

theorem texts_eq_map (es : List Term) : texts es = es.map text := by
  induction es with
  | nil => rfl
  | cons e es ih => rw [texts, ih, List.map_cons]

mutual

def tree : Term → TermTree
  | .var x => .chain (if x = "this" then .this else .name x) .done
  | .field e f => e.tree.access (.field f .done)
  | .call e m Vs es => e.tree.access (.call m (typeArgsTree Vs) (trees es) .done)
  | .new N es => .chain (.new N.toTy.tree (trees es)) .done
  | .cast N e => .cast N.toTy.tree e.tree

def trees : List Term → List TermTree
  | [] => []
  | e :: es => e.tree :: trees es

end

theorem trees_eq_map (es : List Term) : trees es = es.map tree := by
  induction es with
  | nil => rfl
  | cons e es ih => rw [trees, ih, List.map_cons]

theorem lexemeLists_trees (es : List Term) :
    TermTree.lexemeLists (trees es) = es.map fun a => a.tree.lexemes := by
  rw [TermTree.lexemeLists_eq_map, trees_eq_map, List.map_map]
  rfl

theorem lexes_args {es : List Term} (h : ∀ a ∈ es, Lexes a.text.toList a.tree.lexemes) :
    Lexes ('(' :: ((", ".intercalate (texts es)).toList ++ [')']))
      (parenthesized (TermTree.lexemeLists (trees es))) := by
  have hargs := Lexes.intercalate [' '] (List.forall_mem_singleton.2 rfl) h
  rw [texts_eq_map, String.toList_intercalate, List.map_map, lexemeLists_trees]
  exact (hargs.append (lexes_nil.symbol .rparen) (stopsWord_symbol .rparen _)).symbol .lparen

theorem bare_tree (e : Term) : e.tree.Bare := by
  induction e using Term.induction with
  | var x =>
    rw [tree]
    split
    · trivial
    · trivial
  | field e f ih => exact ih.access _
  | call e m Vs es ih _ => exact ih.access _
  | new N es _ => trivial
  | cast N e ih => exact ih

theorem Spelled.lexes {e : Term} (h : e.Spelled) : Lexes e.text.toList e.tree.lexemes := by
  induction h with
  | @var x hx =>
    rcases hx with hx | rfl
    · have hthis : x ≠ "this" := by
        rintro rfl
        exact absurd hx (by decide)
      rw [tree, if_neg hthis]
      exact hx.lexes
    · exact lexes_word (by decide)
  | @field e f _ hf ih =>
    have htext : (Term.field e f).text.toList = e.text.toList ++ '.' :: f.toList := by
      simp [text]
    rw [htext, tree, TermTree.lexemes_access]
    exact ih.append (hf.lexes.symbol .dot) (stopsWord_symbol .dot _)
  | @call e m Vs es _ hm hVs _ ih ihs =>
    have htext : (Term.call e m Vs es).text.toList = e.text.toList ++ '.' :: (m.toList ++
        ((typeArgsText Vs).toList ++ '(' :: ((", ".intercalate (texts es)).toList ++ [')']))) := by
      simp [text]
    have hrest := (lexes_typeArgs hVs).append (lexes_args ihs) (stopsWord_symbol .lparen _)
    have hname := hm.lexes.append hrest
      ((stopsWord_typeArgs Vs).append (stopsWord_symbol .lparen _))
    rw [htext, tree, TermTree.lexemes_access, Accesses.lexemes, Accesses.lexemes, List.append_nil]
    exact ih.append (hname.symbol .dot) (stopsWord_symbol .dot _)
  | @new N es hN _ ihs =>
    have htext : (Term.new N es).text.toList = "new".toList ++ ' ' :: (N.text.toList ++
        '(' :: ((", ".intercalate (texts es)).toList ++ [')'])) := by
      simp [text]
    have hrest := hN.lexes.append (lexes_args ihs) (stopsWord_symbol .lparen _)
    have hword : Lexes "new".toList [.keyword .newWord] := lexes_word (by decide)
    rw [htext, tree, TermTree.lexemes, Primary.lexemes, Accesses.lexemes, List.append_nil]
    exact hword.append hrest.space (stopsWord_space _)
  | @cast N e hN _ ih =>
    have htext : (Term.cast N e).text.toList =
        '(' :: (N.text.toList ++ ')' :: ' ' :: e.text.toList) := by
      simp [text]
    have hrest := ih.space.symbol .rparen
    rw [htext, tree, TermTree.lexemes]
    exact (hN.lexes.append hrest (stopsWord_symbol .rparen _)).symbol .lparen

theorem Spelled.term_tree {e : Term} (h : e.Spelled) : e.tree.term [] = e.regroup := by
  have hall {es : List Term} (ihs : ∀ a ∈ es, a.tree.term [] = a.regroup) :
      TermTree.terms [] (trees es) = regroupAll es := by
    rw [TermTree.terms_eq_map, trees_eq_map, List.map_map, regroupAll_eq_map]
    exact List.map_congr_left ihs
  induction h with
  | @var x hx =>
    rw [tree]
    split
    · next hthis =>
      rw [hthis]
      rfl
    · rfl
  | field _ _ ih =>
    rw [tree, (bare_tree _).term_access, ih]
    rfl
  | @call e m Vs es _ _ hVs _ ih ihs =>
    have haccess : Accesses.term [] (.call m (typeArgsTree Vs) (trees es) .done) =
        (Term.call · m Vs (regroupAll es)) := by
      funext e
      rw [Accesses.term, Accesses.term, meaning_typeArgsTree hVs, hall ihs]
    rw [tree, (bare_tree e).term_access, ih, haccess, regroup]
  | new hN _ ihs =>
    rw [tree, TermTree.term, Accesses.term, Primary.term, ClassTy.classTy_tree hN, hall ihs,
      regroup]
  | cast hN _ ih => rw [tree, TermTree.term, ClassTy.classTy_tree hN, ih, regroup]

end Term

namespace Program

theorem derives_text {e : Term} (h : e.Spelled) :
    ProgramTree.Derives ⟨[], e.tree⟩ ((tokenize e.text).map Token.lexeme)
      ⟨[], e.regroup, ⟨0, 0⟩⟩ := by
  have hlexemes : (tokenize e.text).map Token.lexeme = e.tree.lexemes ++ [.eof] := by
    have htext := h.lexes [] stopsWord_nil
    rw [List.append_nil, lexemes_nil, List.append_nil] at htext
    rw [tokenize, List.map_append, Position.map_lexeme_tokens]
    exact congrArg (· ++ [Lexeme.eof]) htext
  refine ⟨hlexemes.symm, ⟨by simp, e.tree.valid_nil⟩, ?_⟩
  rw [← h.term_tree]
  rfl

theorem exists_gives_text {e : Term} (h : e.Spelled) :
    ∃ p, (ofSource e.text).Gives p ∧ p.classes = [] ∧ p.term = e.regroup := by
  have hfront : ∀ k ∈ Position.origin.tokens (pieces e.text.toList), k.lexeme ≠ .eof :=
    fun k hk => lexeme_ne_eof_of_pieces hk
  have htakes := (exists_takes_iff_exists_derives hfront rfl).2 ⟨_, derives_text h⟩
  obtain ⟨p, hp, hspans⟩ := exists_gives_ofTokens_iff.2 htakes
  refine ⟨p, hp, ?_, congrArg Program.term hspans⟩
  exact List.map_eq_nil_iff.1 (congrArg Program.classes hspans)

/-- The text of a term is read as a program without classes. Its main term is that term
exactly if no field is accessed and no method called right on a cast. -/
theorem ofSource_text_iff {e : Term} (h : e.Spelled) :
    ∃ p, (ofSource e.text).Gives p ∧ p.classes = [] ∧ (p.term = e ↔ e.PlainBases) := by
  obtain ⟨p, hp, hclasses, hterm⟩ := exists_gives_text h
  exact ⟨p, hp, hclasses, by rw [hterm, Term.regroup_eq_iff]⟩

def callOn (base : Term) : Term :=
  .call base "m" [.inst "A" [], .inst "Box" [.inst "A" []]]
    [.new ⟨"A", []⟩ [], .cast ⟨"A", []⟩ (.field (.var "x") "f")]

theorem ofSource_text_iff_call :
    (callOn (.cast ⟨"Box", [.inst "A" []]⟩ (.var "this"))).text =
      (Term.cast ⟨"Box", [.inst "A" []]⟩ (callOn (.var "this"))).text ∧
    ∃ p, (ofSource (callOn (.cast ⟨"Box", [.inst "A" []]⟩ (.var "this"))).text).Gives p ∧
      p.classes = [] ∧ p.term ≠ callOn (.cast ⟨"Box", [.inst "A" []]⟩ (.var "this")) ∧
      p.term = .cast ⟨"Box", [.inst "A" []]⟩ (callOn (.var "this")) := by
  have hA : (Ty.inst "A" []).Spelled := .inst (by decide) (by simp)
  have hBox : (ClassTy.toTy ⟨"Box", [.inst "A" []]⟩).Spelled :=
    .inst (by decide) (by simpa using hA)
  have harg : (Term.cast ⟨"A", []⟩ (.field (.var "x") "f")).Spelled :=
    .cast hA (.field (.var (.inl (by decide))) (by decide))
  have hcall {base : Term} (h : base.Spelled) : (callOn base).Spelled := by
    refine .call h (by decide) ?_ ?_
    · simpa using ⟨hA, hBox⟩
    · simpa using ⟨.new hA (by simp), harg⟩
  have hthis : (Term.var "this").Spelled := .var (.inr rfl)
  have hplain : (Term.cast ⟨"Box", [.inst "A" []]⟩ (callOn (.var "this"))).PlainBases := by
    refine .cast (.call (.var _) id ?_)
    simpa using ⟨.new (by simp), .cast (.field (.var _) id)⟩
  have htext : (callOn (.cast ⟨"Box", [.inst "A" []]⟩ (.var "this"))).text =
      (Term.cast ⟨"Box", [.inst "A" []]⟩ (callOn (.var "this"))).text := by decide +kernel
  obtain ⟨p, hp, hclasses, hterm⟩ := ofSource_text_iff (hcall (.cast hBox hthis))
  obtain ⟨q, hq, -, hterm'⟩ := ofSource_text_iff (Term.Spelled.cast hBox (hcall hthis))
  rw [← htext] at hq
  cases hp.unique hq
  refine ⟨htext, p, hp, hclasses, fun h => ?_, hterm'.2 hplain⟩
  cases hterm.1 h with
  | call _ hcast _ => exact hcast trivial

end Program

end Featherweight

import Featherweight.Parse.Program
import Featherweight.Proofs.Lexing
import Featherweight.Proofs.Results

/-!
# Names in parsed programs

A parser takes names from the identifiers among its tokens only. `Reads p x Q` says
so as a contract: if every identifier ahead satisfies `p`, then this still holds
when `x` returns, and the result satisfies `Q`. A word that spells a keyword is no
identifier, so no parameter of a parsed method has the name of a keyword.
-/

namespace Featherweight

namespace Parse

variable {α β : Type} {p : String → Prop} {x : ParseM α} {f : α → ParseM β} {P : α → Prop}
  {Q : β → Prop}

def State.Names (p : String → Prop) (s : State) : Prop :=
  ∀ k ∈ s.last :: s.ahead, ∀ x, k.lexeme = .ident x → p x

theorem State.Names.current {s : State} (h : s.Names p) {x : String}
    (hx : s.current.lexeme = .ident x) : p x := by
  refine h s.current ?_ x hx
  unfold State.current
  cases s.ahead with
  | nil => exact List.mem_cons_self
  | cons k ks => exact List.mem_cons_of_mem _ List.mem_cons_self

theorem State.Names.advance {s : State} (h : s.Names p) : s.advance.Names p := by
  unfold State.advance
  split
  · exact h
  · next k ks hs =>
    split
    · exact h
    · intro k' hk'
      refine h k' ?_
      rw [hs]
      rcases List.mem_cons.1 hk' with rfl | hk'
      · exact List.mem_cons_self
      · exact List.mem_cons_of_mem _ (List.mem_cons_of_mem _ hk')

/-- A successful run keeps the names ahead in `p` and returns a result in `Q`. -/
def Reads (p : String → Prop) (x : ParseM α) (Q : α → Prop) : Prop :=
  ∀ s, s.Names p → ∀ a s', x.run.run s = some (.ok a, s') → s'.Names p ∧ Q a

theorem Reads.pure {a : α} (h : P a) : Reads p (pure a) P := by
  intro s hs b s' hb
  cases hb
  exact ⟨hs, h⟩

theorem Reads.bind (hx : Reads p x P) (hf : ∀ a, P a → Reads p (f a) Q) :
    Reads p (x >>= f) Q := by
  intro s hs b s' hb
  rw [ExceptT.run_bind, StateT.run_bind] at hb
  obtain ⟨⟨r, s₁⟩, hr, hb⟩ := Option.bind_eq_some_iff.1 hb
  cases r with
  | error e => cases hb
  | ok a =>
    obtain ⟨hs₁, ha⟩ := hx s hs a s₁ hr
    exact hf a ha s₁ hs₁ b s' hb

theorem Reads.mono {P' : α → Prop} (hx : Reads p x P) (h : ∀ a, P a → P' a) : Reads p x P' :=
  fun s hs a s' ha => (hx s hs a s' ha).imp_right (h a)

theorem Reads.get : Reads p get (State.Names p) := by
  intro s hs b s' hb
  cases hb
  exact ⟨hs, hs⟩

theorem Reads.modify {g : State → State} (hg : ∀ s, s.Names p → (g s).Names p) :
    Reads p (modify g) fun _ => True := by
  intro s hs b s' hb
  cases hb
  exact ⟨hg s hs, trivial⟩

theorem Reads.throw {e : Error} : Reads p (throw e : ParseM α) P := by
  intro s hs b s' hb
  change some (Except.error e, s) = some (Except.ok b, s') at hb
  simp at hb

theorem Reads.endless : Reads p (endless : ParseM α) P := by
  intro s hs b s' hb
  change none = some (Except.ok b, s') at hb
  simp at hb

theorem Reads.ite {c : Prop} [Decidable c] {y : ParseM α} (hx : Reads p x P) (hy : Reads p y P) :
    Reads p (if c then x else y) P := by
  split
  · exact hx
  · exact hy

theorem reads_complain {c : Complaint} : Reads p (complain c : ParseM α) P := by
  refine Reads.get.bind fun s _ => ?_
  dsimp only
  split
  · exact .throw
  · exact .throw

theorem reads_complainBehind {c : Complaint} : Reads p (complainBehind c : ParseM α) P :=
  Reads.get.bind fun _ _ => .throw

theorem reads_requireBehind {c : Prop} [Decidable c] {e : Complaint} :
    Reads p (requireBehind c e) fun _ => True :=
  Reads.ite (.pure trivial) reads_complainBehind

theorem reads_currentSpan : Reads p currentSpan fun _ => True :=
  Reads.get.bind fun _ _ => .pure trivial

theorem reads_previousSpan : Reads p previousSpan fun _ => True :=
  Reads.get.bind fun _ _ => .pure trivial

theorem reads_sees {l : Lexeme} : Reads p (sees l) fun _ => True :=
  Reads.get.bind fun _ _ => .pure trivial

theorem reads_isTypeVar {X : String} : Reads p (isTypeVar X) fun _ => True :=
  Reads.get.bind fun _ _ => .pure trivial

theorem reads_advance : Reads p advance fun _ => True :=
  Reads.modify fun _ hs => hs.advance

theorem reads_openScope {names : List String} : Reads p (openScope names) fun _ => True :=
  Reads.modify fun _ hs => hs

theorem reads_closeScope : Reads p closeScope fun _ => True :=
  Reads.modify fun _ hs => hs

theorem reads_accept {l : Lexeme} : Reads p (accept l) fun _ => True :=
  reads_sees.bind fun _ _ => Reads.ite (reads_advance.bind fun _ _ => .pure trivial) (.pure trivial)

theorem reads_expect {l : Lexeme} {what : String} : Reads p (expect l what) fun _ => True :=
  reads_accept.bind fun _ _ => Reads.ite (.pure trivial) reads_complain

theorem reads_identifier {what : String} : Reads p (identifier what) p := by
  refine Reads.get.bind fun s hs => ?_
  split
  · next x hx => exact reads_advance.bind fun _ _ => .pure (hs.current hx)
  · exact reads_complain

theorem Reads.commaSep (hx : Reads p x P) (n : Nat) :
    Reads p (commaSep x n) fun as => ∀ a ∈ as, P a := by
  induction n with
  | zero => exact .endless
  | succ n ih =>
    refine hx.bind fun a ha => reads_accept.bind fun _ _ => .ite ?_ ?_
    · exact ih.bind fun as has => .pure (List.forall_mem_cons.2 ⟨ha, has⟩)
    · exact .pure (by simpa using ha)

theorem Reads.parenthesized (hx : Reads p x P) {n : Nat} {opening list : String} :
    Reads p (parenthesized x n opening list) fun as => ∀ a ∈ as, P a := by
  refine reads_expect.bind fun _ _ => reads_accept.bind fun _ _ => .ite (.pure (by simp)) ?_
  exact (hx.commaSep n).bind fun as has =>
    reads_accept.bind fun _ _ => .ite (.pure has) reads_complain

theorem Reads.mapM {g : β → ParseM α} (hg : ∀ b, Reads p (g b) P) (bs : List β) :
    Reads p (bs.mapM g) fun _ => True := by
  induction bs with
  | nil => exact .pure trivial
  | cons b bs ih =>
    rw [List.mapM_cons]
    exact (hg b).bind fun _ _ => ih.bind fun _ _ => .pure trivial

theorem reads_typeArgs {item : ParseM Ty} (hi : Reads p item fun _ => True) {n : Nat} :
    Reads p (typeArgs item n) fun _ => True := by
  refine reads_accept.bind fun _ _ => .ite (reads_accept.bind fun _ _ => .ite ?_ ?_) ?_
  · exact .pure trivial
  · exact (hi.commaSep n).bind fun _ _ => reads_expect.bind fun _ _ => .pure trivial
  · exact .pure trivial

theorem reads_ty {n : Nat} {what : String} : Reads p (ty n what) fun _ => True := by
  induction n generalizing what with
  | zero => exact .endless
  | succ n ih =>
    refine reads_identifier.bind fun C _ => reads_isTypeVar.bind fun _ _ => .ite ?_ ?_
    · exact reads_sees.bind fun _ _ => .ite reads_complain (.pure trivial)
    · exact (reads_typeArgs ih).bind fun _ _ => .pure trivial

theorem reads_classTy {n : Nat} {what : String} : Reads p (classTy n what) fun _ => True := by
  refine reads_ty.bind fun T _ => ?_
  split
  · exact reads_complainBehind
  · exact .pure trivial

theorem reads_rawBound {n : Nat} : Reads p (rawBound n) fun _ => True := by
  induction n with
  | zero => exact .endless
  | succ n ih =>
    refine reads_identifier.bind fun _ _ => reads_accept.bind fun _ _ => .ite ?_ (.pure trivial)
    exact (ih.commaSep n).bind fun _ _ => reads_expect.bind fun _ _ => .pure trivial

theorem reads_rawTypeParams {n k : Nat} {seen : List String} :
    Reads p (rawTypeParams n k seen) fun _ => True := by
  induction k generalizing seen with
  | zero => exact .endless
  | succ k ih =>
    refine reads_identifier.bind fun X _ => reads_requireBehind.bind fun _ _ =>
      reads_expect.bind fun _ _ => reads_rawBound.bind fun T _ => reads_accept.bind fun _ _ => ?_
    exact .ite (ih.bind fun _ _ => .pure trivial) (.pure trivial)

theorem reads_resolveTypeParam {raw : String × Ty} :
    Reads p (resolveTypeParam raw) fun _ => True := by
  refine Reads.get.bind fun s _ => ?_
  split
  · exact .pure trivial
  · exact reads_complainBehind

theorem reads_typeParams {n : Nat} : Reads p (typeParams n) fun _ => True := by
  refine reads_accept.bind fun _ _ => .ite ?_ (reads_openScope.bind fun _ _ => .pure trivial)
  exact reads_rawTypeParams.bind fun raw _ => reads_expect.bind fun _ _ =>
    reads_openScope.bind fun _ _ => Reads.mapM (fun _ => reads_resolveTypeParam) raw

theorem reads_params {n : Nat} : Reads p (params n) fun bs => ∀ b ∈ bs, p b.name := by
  unfold params
  refine Reads.parenthesized (reads_ty.bind fun T _ => reads_identifier.bind fun x hx => ?_)
  exact .pure hx

section Term

variable {term : ParseM Term} {n k : Nat} (ht : Reads p term fun _ => True)
include ht

theorem reads_args : Reads p (args term n) fun _ => True :=
  (Reads.parenthesized ht).mono fun _ _ => trivial

theorem reads_parenthesis : Reads p (parenthesis term n) fun _ => True := by
  refine Reads.get.bind fun s _ => .ite ?_ ?_
  · exact reads_expect.bind fun _ _ => reads_classTy.bind fun _ _ => reads_expect.bind fun _ _ =>
      ht.bind fun _ _ => .pure trivial
  · exact reads_advance.bind fun _ _ => ht.bind fun _ _ => reads_expect.bind fun _ _ =>
      .pure trivial

theorem reads_primary : Reads p (primary term n) fun _ => True := by
  refine Reads.get.bind fun s _ => ?_
  split
  · exact reads_advance.bind fun _ _ => .pure trivial
  · exact reads_advance.bind fun _ _ => .pure trivial
  · exact reads_advance.bind fun _ _ => reads_classTy.bind fun _ _ =>
      (reads_args ht).bind fun _ _ => .pure trivial
  · exact reads_parenthesis ht
  · exact reads_complain

theorem reads_accesses {e : Featherweight.Term} : Reads p (accesses term n k e) fun _ => True := by
  induction k generalizing e with
  | zero => exact .endless
  | succ k ih =>
    refine reads_accept.bind fun _ _ => .ite ?_ (.pure trivial)
    refine reads_identifier.bind fun x _ => reads_sees.bind fun _ _ => reads_sees.bind fun _ _ => ?_
    refine .ite ?_ ih
    exact (reads_typeArgs reads_ty).bind fun _ _ => (reads_args ht).bind fun _ _ => ih

end Term

theorem reads_term {n : Nat} : Reads p (term n) fun _ => True := by
  induction n with
  | zero => exact .endless
  | succ n ih => exact (reads_primary ih).bind fun _ _ => reads_accesses ih

theorem reads_fields {n k : Nat} : Reads p (fields n k) fun _ => True := by
  induction k with
  | zero => exact .endless
  | succ k ih =>
    refine Reads.get.bind fun s _ => .ite (.pure trivial) ?_
    exact reads_ty.bind fun _ _ => reads_identifier.bind fun _ _ => reads_expect.bind fun _ _ =>
      ih.bind fun _ _ => .pure trivial

theorem reads_initializers {k : Nat} : Reads p (initializers k) fun _ => True := by
  induction k with
  | zero => exact .endless
  | succ k ih =>
    refine reads_sees.bind fun _ _ => .ite (.pure trivial) ?_
    exact reads_expect.bind fun _ _ => reads_expect.bind fun _ _ => reads_identifier.bind fun _ _ =>
      reads_expect.bind fun _ _ => reads_identifier.bind fun _ _ => reads_requireBehind.bind
      fun _ _ => reads_expect.bind fun _ _ => ih.bind fun _ _ => .pure trivial

theorem reads_constructor {n : Nat} {C : String} :
    Reads p (constructor n C) fun _ => True := by
  unfold constructor
  exact reads_identifier.bind fun _ _ => reads_requireBehind.bind fun _ _ => reads_params.bind
    fun _ _ => reads_expect.bind fun _ _ => reads_expect.bind fun _ _ =>
    (Reads.parenthesized reads_identifier).bind fun _ _ => reads_expect.bind fun _ _ =>
    reads_initializers.bind fun _ _ => reads_expect.bind fun _ _ => .pure trivial

theorem reads_method {n : Nat} : Reads p (method n) fun d => ∀ x ∈ d.paramNames, p x := by
  unfold method
  refine reads_currentSpan.bind fun _ _ => reads_typeParams.bind fun _ _ => reads_ty.bind fun _ _ =>
    reads_identifier.bind fun _ _ => reads_params.bind fun xs hxs => reads_expect.bind fun _ _ =>
    reads_expect.bind fun _ _ => reads_term.bind fun _ _ => reads_expect.bind fun _ _ =>
    reads_expect.bind fun _ _ => reads_closeScope.bind fun _ _ => reads_previousSpan.bind
    fun _ _ => .pure ?_
  intro x hx
  obtain ⟨b, hb, rfl⟩ := List.mem_map.1 hx
  exact hxs b hb

theorem reads_methods {n k : Nat} :
    Reads p (methods n k) fun ds => ∀ d ∈ ds, ∀ x ∈ d.paramNames, p x := by
  induction k with
  | zero => exact .endless
  | succ k ih =>
    refine reads_sees.bind fun _ _ => .ite (.pure (by simp)) ?_
    refine Reads.get.bind fun s _ => .ite reads_complain ?_
    exact reads_method.bind fun d hd => ih.bind fun ds hds =>
      .pure (List.forall_mem_cons.2 ⟨hd, hds⟩)

theorem reads_classDecl {n : Nat} :
    Reads p (classDecl n) fun c => ∀ d ∈ c.methods, ∀ x ∈ d.paramNames, p x := by
  unfold classDecl
  exact reads_currentSpan.bind fun _ _ => reads_expect.bind fun _ _ => reads_identifier.bind
    fun _ _ => reads_typeParams.bind fun _ _ => reads_expect.bind fun _ _ => reads_classTy.bind
    fun _ _ => reads_expect.bind fun _ _ => reads_fields.bind fun _ _ => reads_constructor.bind
    fun _ _ => reads_methods.bind fun ms hms => reads_expect.bind fun _ _ => reads_closeScope.bind
    fun _ _ => reads_previousSpan.bind fun _ _ => .pure hms

theorem reads_classes {n k : Nat} :
    Reads p (classes n k) fun cs => ∀ c ∈ cs, ∀ d ∈ c.methods, ∀ x ∈ d.paramNames, p x := by
  induction k with
  | zero => exact .endless
  | succ k ih =>
    refine reads_sees.bind fun _ _ => .ite ?_ (.pure (by simp))
    exact reads_classDecl.bind fun c hc => ih.bind fun cs hcs =>
      .pure (List.forall_mem_cons.2 ⟨hc, hcs⟩)

theorem reads_program :
    Reads p program fun q => ∀ c ∈ q.classes, ∀ d ∈ c.methods, ∀ x ∈ d.paramNames, p x := by
  unfold program
  exact Reads.get.bind fun s _ => reads_classes.bind fun cs hcs => reads_currentSpan.bind
    fun _ _ => reads_term.bind fun _ _ => reads_previousSpan.bind fun _ _ => reads_expect.bind
    fun _ _ => .pure hcs

theorem State.names_start {tokens : List Token}
    (h : ∀ k ∈ tokens, ∀ x, k.lexeme = .ident x → p x) : (State.start tokens).Names p := by
  cases tokens with
  | nil => simp [State.start, State.Names]
  | cons k ks =>
    intro k' hk'
    rcases List.mem_cons.1 hk' with rfl | hk'
    · exact h _ (List.getLast_mem _)
    · exact h k' hk'

end Parse

theorem Lexeme.ofText?_of_ofWord {s x : String} (h : Lexeme.ofWord s = .ident x) :
    Keyword.ofText? x = none := by
  unfold Lexeme.ofWord at h
  split at h
  · cases h
  · next hs =>
    cases h
    exact hs

theorem ofText?_of_cut {c : Char} {cs : List Char} {x : String}
    (h : (cut c cs).1.lexeme? = some (.ident x)) : Keyword.ofText? x = none := by
  revert h
  fun_cases cut c cs with
  | case1 => simp [Piece.skip]
  | case2 => fun_cases cutSlash cs <;> simp [Piece.skip, Piece.fault, Piece.token]
  | case3 =>
    intro h
    exact Lexeme.ofText?_of_ofWord (Option.some.inj h)
  | case4 => simp [Piece.token]
  | case5 => simp [Piece.fault, Piece.token]

theorem ofText?_of_tokenize {source : String} {k : Token} (hk : k ∈ tokenize source) (x : String)
    (h : k.lexeme = .ident x) : Keyword.ofText? x = none := by
  rcases List.mem_append.1 hk with hk | hk
  · obtain ⟨q, hq, hl⟩ := Position.exists_piece hk
    obtain ⟨c, cs, rfl⟩ := exists_cut hq
    exact ofText?_of_cut (hl.trans (congrArg some h))
  · cases List.mem_singleton.1 hk
    cases h

theorem Program.ofText?_paramNames {source : String} {q : Program}
    (hq : (Program.ofSource source).Gives q) {c : ClassDecl} (hc : c ∈ q.classes) {d : MethodDecl}
    (hd : d ∈ c.methods) {x : String} (hx : x ∈ d.paramNames) : Keyword.ofText? x = none := by
  obtain ⟨⟨r, s⟩, hrun, rfl⟩ := Option.map_eq_some_iff.1 hq
  have hstart : (Parse.State.start (tokenize source)).Names fun x => Keyword.ofText? x = none :=
    Parse.State.names_start fun k hk x => ofText?_of_tokenize hk x
  exact (Parse.reads_program _ hstart q s hrun).2 c hc d hd x hx

theorem Program.this_not_mem_paramNames {source : String} {q : Program}
    (hq : (Program.ofSource source).Gives q) {c : ClassDecl} (hc : c ∈ q.classes) {d : MethodDecl}
    (hd : d ∈ c.methods) : "this" ∉ d.paramNames := fun hx =>
  absurd (ofText?_paramNames hq hc hd hx) (by decide)

end Featherweight

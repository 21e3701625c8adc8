import Featherweight.Ty

/-!
# Terms

The five forms of expression: a variable, a field of an object, a method call
with explicit type arguments, the creation of an object, and a cast.
-/

namespace Featherweight

inductive Term where
  | var (name : String)
  | field (base : Term) (name : String)
  | call (base : Term) (method : String) (typeArgs : List Ty) (args : List Term)
  | new (cls : ClassTy) (args : List Term)
  | cast (target : ClassTy) (term : Term)

namespace Term

@[elab_as_elim]
theorem induction {motive : Term → Prop} (var : ∀ x, motive (.var x))
    (field : ∀ e f, motive e → motive (.field e f))
    (call : ∀ e m Vs es, motive e → (∀ a ∈ es, motive a) → motive (.call e m Vs es))
    (new : ∀ N es, (∀ a ∈ es, motive a) → motive (.new N es))
    (cast : ∀ N e, motive e → motive (.cast N e)) (e : Term) : motive e :=
  @Term.rec motive (fun es => ∀ a ∈ es, motive a) var field call new cast nofun
    (fun _ _ he hes _ h => (List.mem_cons.1 h).elim (fun q => q ▸ he) (hes _)) e

mutual

def decEq : (a b : Term) → Decidable (a = b)
  | .var x, .var y => if h : x = y then isTrue (h ▸ rfl) else isFalse (fun e => h (Term.var.inj e))
  | .field a f, .field b g =>
    match decEq a b with
    | isTrue h =>
      if hf : f = g then isTrue (h ▸ hf ▸ rfl) else isFalse (fun e => hf (Term.field.inj e).2)
    | isFalse h => isFalse (fun e => h (Term.field.inj e).1)
  | .call a m Ss as, .call b n Ts bs =>
    if hm : m = n ∧ Ss = Ts then
      match decEq a b with
      | isTrue h =>
        match decEqList as bs with
        | isTrue hs => isTrue (by rw [h, hs, hm.1, hm.2])
        | isFalse hs => isFalse (fun e => hs (Term.call.inj e).2.2.2)
      | isFalse h => isFalse (fun e => h (Term.call.inj e).1)
    else isFalse (fun e => hm ⟨(Term.call.inj e).2.1, (Term.call.inj e).2.2.1⟩)
  | .new M as, .new N bs =>
    if hM : M = N then
      match decEqList as bs with
      | isTrue hs => isTrue (by rw [hM, hs])
      | isFalse hs => isFalse (fun e => hs (Term.new.inj e).2)
    else isFalse (fun e => hM (Term.new.inj e).1)
  | .cast M a, .cast N b =>
    if hM : M = N then
      match decEq a b with
      | isTrue h => isTrue (by rw [hM, h])
      | isFalse h => isFalse (fun e => h (Term.cast.inj e).2)
    else isFalse (fun e => hM (Term.cast.inj e).1)
  | .var _, .field _ _ | .var _, .call _ _ _ _ | .var _, .new _ _ | .var _, .cast _ _
  | .field _ _, .var _ | .field _ _, .call _ _ _ _ | .field _ _, .new _ _ | .field _ _, .cast _ _
  | .call _ _ _ _, .var _ | .call _ _ _ _, .field _ _ | .call _ _ _ _, .new _ _
  | .call _ _ _ _, .cast _ _
  | .new _ _, .var _ | .new _ _, .field _ _ | .new _ _, .call _ _ _ _ | .new _ _, .cast _ _
  | .cast _ _, .var _ | .cast _ _, .field _ _ | .cast _ _, .call _ _ _ _ | .cast _ _, .new _ _ =>
    isFalse nofun

def decEqList : (as bs : List Term) → Decidable (as = bs)
  | [], [] => isTrue rfl
  | [], _ :: _ => isFalse nofun
  | _ :: _, [] => isFalse nofun
  | a :: as, b :: bs =>
    match decEq a b with
    | isTrue h =>
      match decEqList as bs with
      | isTrue hs => isTrue (by rw [h, hs])
      | isFalse hs => isFalse (fun e => hs (List.cons.inj e).2)
    | isFalse h => isFalse (fun e => h (List.cons.inj e).1)

end

instance : DecidableEq Term := decEq

def typeArgsText : List Ty → String
  | [] => ""
  | T :: Ts => "<" ++ ",".intercalate (Ty.texts (T :: Ts)) ++ ">"

mutual

/-- The text of a term. A cast is written without parentheses around it, so the
text of `((N) e).f` is that of `(N) e.f`. -/
def text : Term → String
  | .var x => x
  | .field e f => e.text ++ "." ++ f
  | .call e m Vs es =>
    e.text ++ "." ++ m ++ typeArgsText Vs ++ "(" ++ ", ".intercalate (texts es) ++ ")"
  | .new N es => "new " ++ N.text ++ "(" ++ ", ".intercalate (texts es) ++ ")"
  | .cast N e => "(" ++ N.text ++ ") " ++ e.text

def texts : List Term → List String
  | [] => []
  | e :: es => e.text :: texts es

end

end Term

end Featherweight

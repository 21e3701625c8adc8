/-!
# Types

A type is a type variable or a class applied to types. Only a class type can be
extended, instantiated or cast to, so class types also stand alone as `ClassTy`,
and `ClassTy.toTy` embeds them among all types.

The root of every hierarchy is the class `Object` without arguments. The name
`Object` with arguments denotes no class.
-/

namespace Featherweight

inductive Ty where
  | var (name : String)
  | inst (name : String) (args : List Ty)

namespace Ty

@[elab_as_elim]
theorem induction {motive : Ty → Prop} (var : ∀ X, motive (.var X))
    (inst : ∀ C Ts, (∀ T ∈ Ts, motive T) → motive (.inst C Ts)) (T : Ty) : motive T :=
  @Ty.rec motive (fun Ts => ∀ T ∈ Ts, motive T) var inst nofun
    (fun _ _ hT hTs _ h => (List.mem_cons.1 h).elim (fun e => e ▸ hT) (hTs _)) T

mutual

def decEq : (S T : Ty) → Decidable (S = T)
  | .var X, .var Y =>
    if h : X = Y then isTrue (h ▸ rfl) else isFalse (fun e => h (Ty.var.inj e))
  | .var _, .inst _ _ => isFalse nofun
  | .inst _ _, .var _ => isFalse nofun
  | .inst C Ss, .inst D Ts =>
    if h : C = D then
      match decEqList Ss Ts with
      | isTrue hs => isTrue (h ▸ hs ▸ rfl)
      | isFalse hs => isFalse (fun e => hs (Ty.inst.inj e).2)
    else isFalse (fun e => h (Ty.inst.inj e).1)

def decEqList : (Ss Ts : List Ty) → Decidable (Ss = Ts)
  | [], [] => isTrue rfl
  | [], _ :: _ => isFalse nofun
  | _ :: _, [] => isFalse nofun
  | S :: Ss, T :: Ts =>
    match decEq S T with
    | isTrue h =>
      match decEqList Ss Ts with
      | isTrue hs => isTrue (h ▸ hs ▸ rfl)
      | isFalse hs => isFalse (fun e => hs (List.cons.inj e).2)
    | isFalse h => isFalse (fun e => h (List.cons.inj e).1)

end

instance : DecidableEq Ty := decEq

mutual

def text : Ty → String
  | .var X => X
  | .inst C [] => C
  | .inst C (T :: Ts) => C ++ "<" ++ ",".intercalate (texts (T :: Ts)) ++ ">"

def texts : List Ty → List String
  | [] => []
  | T :: Ts => text T :: texts Ts

end

end Ty

structure ClassTy where
  name : String
  args : List Ty
deriving DecidableEq

namespace ClassTy

def toTy (N : ClassTy) : Ty := .inst N.name N.args

def object : ClassTy := ⟨"Object", []⟩

def text (N : ClassTy) : String := N.toTy.text

end ClassTy

structure TypeParam where
  name : String
  bound : ClassTy
deriving DecidableEq

def TypeParam.text (X : TypeParam) : String :=
  X.name ++ " extends " ++ X.bound.text

end Featherweight

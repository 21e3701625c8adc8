import Featherweight.Term

/-!
# Values and variable environments

A value is an object: its class type and the values of its fields. An
environment is a stack of frames, one for each call under way; a name not found
in the innermost frame is looked up in the frames below it.
-/

namespace Featherweight

structure Value where
  cls : ClassTy
  fields : List Value

namespace Value

@[elab_as_elim]
theorem induction {motive : Value → Prop}
    (mk : ∀ N vs, (∀ v ∈ vs, motive v) → motive ⟨N, vs⟩) (v : Value) : motive v :=
  @Value.rec motive (fun vs => ∀ v ∈ vs, motive v) mk nofun
    (fun _ _ hv hvs _ h => (List.mem_cons.1 h).elim (fun e => e ▸ hv) (hvs _)) v

mutual

def decEq : (v w : Value) → Decidable (v = w)
  | ⟨M, vs⟩, ⟨N, ws⟩ =>
    if h : M = N then
      match decEqList vs ws with
      | isTrue hs => isTrue (by rw [h, hs])
      | isFalse hs => isFalse (fun e => hs (Value.mk.inj e).2)
    else isFalse (fun e => h (Value.mk.inj e).1)

def decEqList : (vs ws : List Value) → Decidable (vs = ws)
  | [], [] => isTrue rfl
  | [], _ :: _ => isFalse nofun
  | _ :: _, [] => isFalse nofun
  | v :: vs, w :: ws =>
    match decEq v w with
    | isTrue h =>
      match decEqList vs ws with
      | isTrue hs => isTrue (by rw [h, hs])
      | isFalse hs => isFalse (fun e => hs (List.cons.inj e).2)
    | isFalse h => isFalse (fun e => h (List.cons.inj e).1)

end

instance : DecidableEq Value := decEq

mutual

def toTerm : Value → Term
  | ⟨N, vs⟩ => .new N (toTerms vs)

def toTerms : List Value → List Term
  | [] => []
  | v :: vs => v.toTerm :: toTerms vs

end

def text (v : Value) : String := v.toTerm.text

end Value

abbrev Frame := List (String × Value)

structure Env where
  frames : List Frame
deriving DecidableEq

namespace Env

def empty : Env := ⟨[]⟩

def push (ρ : Env) (frame : Frame) : Env := ⟨frame :: ρ.frames⟩

def get? (ρ : Env) (x : String) : Option Value := ρ.frames.findSome? (·.lookup x)

def depth (ρ : Env) : Nat := ρ.frames.length

end Env

end Featherweight

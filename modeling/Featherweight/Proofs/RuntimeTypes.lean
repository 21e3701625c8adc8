import Featherweight.Proofs.ParsedScopes
import Featherweight.Proofs.RunInvariants

/-!
# Types at run time

A program read from source runs without type variables, whether or not it has a type: a
call puts types in for all type parameters that its body can mention, and these types
come from the receiver's class type and from the call, which have no variables.
-/

namespace Featherweight

namespace ClassTable

variable {t : ClassTable}

def Resolved (t : ClassTable) : Prop := ∀ c ∈ t.classes, c.Resolved

theorem Resolved.scoped (hr : t.Resolved) : t.Scoped := fun c hc =>
  { superType := fun _ => (hr c hc).superType.mem_scope
    bounds := fun P hP _ => ((hr c hc).bounds P hP).mem_scope
    fields := fun f hf _ => ((hr c hc).fields f hf).mem_scope }

theorem Resolved.runsAlike (hr : t.Resolved) (hv : t.Valid) : t.RunsAlike t Ty.Closed where
  fields _ _ := rfl
  subtype _ _ _ := rfl
  methodBody _ _ _ _ := rfl
  body m Vs N b hN hVs hb := by
    obtain ⟨a, d, κ, hf, hκ, rfl⟩ := hv.methodBody_eq_ok_iff.1 hb
    have hbody := ((hr _ hf.decl_mem).methods d hf.mem).body
    refine hf.closed_body hr.scoped hκ hN hVs (hbody.mono fun T hT Y hY => ?_)
    exact (List.mem_append.1 (hT.mem_scope hY)).symm

end ClassTable

namespace Program

/-- No type variable gets into the run of a program read from source: neither into its
value, nor into a type that a fault carries, nor into a term that is evaluated on the way. -/
theorem run_without_tyVars {source : String} {p : Program} {t : ClassTable}
    (hp : (ofSource source).Gives p) (ht : ClassTable.ofClasses p.classes = .ok t) :
    (∀ v, t.Returns .empty p.term (.ok v) → v.AllTypes Ty.Closed) ∧
    (∀ fault, t.Returns .empty p.term (.error fault) → fault.AllTypes Ty.Closed) ∧
    ∀ ρ e, t.Visits .empty p.term ρ e → e.AllTypes Ty.Closed := by
  have hresolved := resolved_of_ofSource hp
  obtain ⟨rfl, hv⟩ := ClassTable.ofClasses_eq_ok_iff.1 ht
  have hr : ClassTable.Resolved ⟨p.classes⟩ := hresolved.classes
  have halike := hr.runsAlike hv
  have hterm : p.term.AllTypes Ty.Closed := hresolved.term.mono fun T hT =>
    List.eq_nil_iff_forall_not_mem.2 fun X hX => absurd (hT.mem_scope hX) List.not_mem_nil
  refine ⟨fun v h => ?_, fun fault h => ?_, fun ρ e h => ?_⟩
  · exact halike.returns_meets Env.allTypes_empty hterm h
  · exact halike.returns_meets Env.allTypes_empty hterm h
  · exact (halike.visits h Env.allTypes_empty hterm).2

/-- A program without a type: the field of a `Sub<Object>` is no `Box<Object>`. -/
def refusedWrap : List String :=
  ["class Box<X extends Object> extends Object \x7b ",
    "X f; Box(X f) \x7b super(); this.f = f; \x7d ",
    "<Y extends Object> Box<X> wrap(Y y) ", "\x7b return (Box<X>) new Box<Y>(y); \x7d \x7d ",
    "class Sub<Z extends Object> extends Box<Box<Z>> \x7b ",
    "Sub(Box<Z> f) \x7b super(f); \x7d \x7d ",
    "new Sub<Object>(new Object())", ".wrap<Object>(new Object())"]

theorem run_without_tyVars_refusedWrap :
    (ofSource (String.join refusedWrap)).Yields fun p =>
      ∃ t, ClassTable.ofClasses p.classes = .ok t ∧ ∃ v N ρ,
        t.Returns .empty p.term (.error (.badCast v N)) ∧
        N = ⟨"Box", [.inst "Box" [.inst "Object" []]]⟩ ∧ v.AllTypes Ty.Closed ∧ N.toTy.Closed ∧
        t.Visits .empty p.term ρ (.cast N (.new ⟨"Box", [.inst "Object" []]⟩ [.var "y"])) := by
  let object : Value := ⟨.object, []⟩
  let sub : Value := ⟨⟨"Sub", [.inst "Object" []]⟩, [object]⟩
  let box : ClassTy := ⟨"Box", [.inst "Object" []]⟩
  let N : ClassTy := ⟨"Box", [box.toTy]⟩
  have hyps : (ofSource (String.join refusedWrap)).Yields fun p =>
      ClassTable.ofClasses p.classes = .ok ⟨p.classes⟩ ∧
      p.term = .call sub.toTerm "wrap" [.inst "Object" []] [object.toTerm] ∧
      (eval ⟨p.classes⟩ 4 .empty p.term).run = some (.error (.badCast ⟨box, [object]⟩ N)) ∧
      (eval ⟨p.classes⟩ 2 .empty sub.toTerm).run = some (.ok sub) ∧
      ([object.toTerm].mapM (eval ⟨p.classes⟩ 2 .empty)).run = some (.ok [object]) ∧
      sub.invoke ⟨p.classes⟩ "wrap" [.inst "Object" []] [object] =
        .ok ([("y", object), ("this", sub)], .cast N (.new box [.var "y"])) := by
    rw [ofSource, tokenize_join]
    decide +kernel
  obtain ⟨p, hp, ht, hterm, hrun, hsub, hargs, hinvoke⟩ := hyps
  obtain ⟨-, hfault, -⟩ := run_without_tyVars hp ht
  obtain ⟨hclosed, hN⟩ := hfault _ ⟨4, hrun⟩
  have hvisits := ClassTable.Visits.step .start (.body ⟨2, hsub⟩ ⟨2, hargs⟩ hinvoke)
  rw [← hterm] at hvisits
  exact ⟨p, hp, _, ht, _, _, _, ⟨4, hrun⟩, rfl, hclosed, hN, hvisits⟩

end Program

end Featherweight

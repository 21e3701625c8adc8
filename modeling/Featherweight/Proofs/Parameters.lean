import Featherweight.Proofs.ParsedNames
import Featherweight.Proofs.Values

/-!
# Resolving parameters

The checker keeps the types of a method's parameters in a map where a later parameter
replaces an earlier one of the same name. A running call looks names up in a frame,
where the first parameter of a name is found. The two agree exactly if the first and
the last parameter of each name have the same type.
-/

namespace Featherweight

open Typing

/-- The first and the last parameter of a name have the same type. -/
def MethodDecl.ParamsAgree (d : MethodDecl) : Prop :=
  ∀ x ∈ d.paramNames, (d.params.find? (·.name = x)).map Binding.ty =
    (d.params.reverse.find? (·.name = x)).map Binding.ty

instance (d : MethodDecl) : Decidable d.ParamsAgree :=
  inferInstanceAs (Decidable (∀ x ∈ d.paramNames, _ = _))

theorem lookup_bindings (bs : List Binding) (x : String) :
    (bs.map fun b => (b.name, b.ty)).lookup x = (bs.find? (·.name = x)).map Binding.ty := by
  induction bs with
  | nil => rfl
  | cons b bs ih =>
    by_cases h : b.name = x
    · simp [h]
    · have hb : (x == b.name) = false := by simpa using Ne.symm h
      simp [List.lookup_cons, hb, h, ih]

theorem lookup_zip_bindings (bs : List Binding) (args : List Value) (x : String) :
    ((bs.map Binding.name).zip args).lookup x =
      (bs.findIdx? (·.name = x)).bind (args[·]?) := by
  induction bs generalizing args with
  | nil => rfl
  | cons b bs ih =>
    cases args with
    | nil => simp
    | cons v args =>
      by_cases h : b.name = x
      · simp [h, List.findIdx?_cons]
      · have hb : (x == b.name) = false := by simpa using Ne.symm h
        simp only [List.map_cons, List.zip_cons_cons, List.lookup_cons, hb, ih,
          List.findIdx?_cons, h, decide_false, Bool.false_eq_true, if_false]
        cases bs.findIdx? (·.name = x) <;> simp

namespace MethodDecl

variable {c : ClassDecl} {d : MethodDecl} {args : List Value} {v : Value} {x : String}

theorem lookup_methodVars_this (c : ClassDecl) (d : MethodDecl) :
    (methodVars c d).lookup "this" = some c.thisType.toTy := by
  simp [methodVars]

theorem lookup_methodVars (hx : x ≠ "this") :
    (methodVars c d).lookup x = (d.params.reverse.find? (·.name = x)).map Binding.ty := by
  have hb : (x == "this") = false := by simpa using hx
  rw [methodVars, List.lookup_cons, hb, ← List.map_reverse]
  exact lookup_bindings _ x

theorem lookup_frame_this (h : "this" ∉ d.paramNames) :
    (d.frame args v).lookup "this" = some v := by
  have hidx : d.params.findIdx? (·.name = "this") = none := by
    rw [List.findIdx?_eq_none_iff]
    intro b hb
    have hne : b.name ≠ "this" := fun he => h (he ▸ List.mem_map_of_mem hb)
    simpa using hne
  simp [frame, paramNames, List.lookup_append, lookup_zip_bindings, hidx]

theorem lookup_frame (hlen : args.length = d.params.length) (hx : x ∈ d.paramNames) :
    ∃ (i : Nat) (b : Binding) (w : Value), d.params[i]? = some b ∧
      d.params.find? (·.name = x) = some b ∧ args[i]? = some w ∧
        (d.frame args v).lookup x = some w := by
  obtain ⟨b₀, hb₀, rfl⟩ := List.mem_map.1 hx
  obtain ⟨b, hb⟩ := Option.isSome_iff_exists.1
    (List.find?_isSome (p := (·.name = b₀.name)).2 ⟨b₀, hb₀, by simp⟩)
  obtain ⟨i, hi, hib⟩ := Option.bind_eq_some_iff.1 (List.find?_eq_bind_findIdx?_getElem? ▸ hb)
  have hlt : i < args.length := hlen ▸ (List.getElem?_eq_some_iff.1 hib).1
  have hw : args[i]? = some args[i] := List.getElem?_eq_getElem hlt
  refine ⟨i, b, args[i], hib, hb, hw, ?_⟩
  simp [frame, paramNames, List.lookup_append, lookup_zip_bindings, hi, hw]

theorem ParamsAgree.resolves (h : d.ParamsAgree) (hlen : args.length = d.params.length)
    (hx : x ∈ d.paramNames) (hthis : x ≠ "this") :
    ∃ (i : Nat) (b : Binding) (w : Value), (methodVars c d).lookup x = some b.ty ∧
      d.params[i]? = some b ∧ args[i]? = some w ∧ (d.frame args v).lookup x = some w := by
  obtain ⟨i, b, w, hib, hb, hw, hlook⟩ := lookup_frame (v := v) hlen hx
  refine ⟨i, b, w, ?_, hib, hw, hlook⟩
  rw [lookup_methodVars hthis, ← h x hx, hb]
  rfl

theorem paramsAgree_of_nodup (h : d.paramNames.Nodup) : d.ParamsAgree := by
  intro x hx
  obtain ⟨b₀, hb₀, rfl⟩ := List.mem_map.1 hx
  have huniq {b : Binding} (hb : b ∈ d.params) (hname : b.name = b₀.name) : b = b₀ :=
    List.inj_on_of_nodup_map h hb hb₀ hname
  have hfind {bs : List Binding} (hbs : ∀ b, b ∈ bs ↔ b ∈ d.params) :
      bs.find? (·.name = b₀.name) = some b₀ := by
    obtain ⟨b, hb⟩ := Option.isSome_iff_exists.1
      (List.find?_isSome (p := (·.name = b₀.name)).2 ⟨b₀, (hbs b₀).2 hb₀, by simp⟩)
    rw [hb, huniq ((hbs b).1 (List.mem_of_find?_eq_some hb)) (by simpa using List.find?_some hb)]
  rw [hfind fun _ => Iff.rfl, hfind fun _ => List.mem_reverse]

end MethodDecl

theorem ClassTable.Valid.finds_thisType {t : ClassTable} (hv : t.Valid) {c : ClassDecl}
    (hc : c ∈ t.classes) {d : MethodDecl} (hd : d ∈ c.methods) :
    ∃ a, t.Finds d.name c.thisType a d ∧ a.decl = c := by
  have hlen : c.typeParams.length = c.thisType.args.length := by simp [ClassDecl.thisType]
  obtain ⟨σ, hσ⟩ := Subst.exists_instantiate hlen
  exact ⟨⟨c, σ⟩, hv.finds_own hc hd hσ, rfl⟩

def distinctValues (n : Nat) : List Value :=
  (List.range n).map fun i => ⟨.object, List.replicate i ⟨.object, []⟩⟩

theorem getElem?_distinctValues_inj {n i j : Nat} {w : Value} (hi : (distinctValues n)[i]? = some w)
    (hj : (distinctValues n)[j]? = some w) : i = j := by
  have hlen {k : Nat} (hk : (distinctValues n)[k]? = some w) : w.fields.length = k := by
    simp only [distinctValues, List.getElem?_map, Option.map_eq_some_iff] at hk
    obtain ⟨l, hl, rfl⟩ := hk
    obtain ⟨hlt, rfl⟩ := List.getElem?_eq_some_iff.1 hl
    simp
  exact (hlen hi).symm.trans (hlen hj)

/-- In every call that runs the method `d` of the class `c`, the type that the checker
gives a parameter name is the declared type at a position whose argument the frame
gives the name, and `this` is the receiver. -/
def MethodDecl.ResolvesAlike (t : ClassTable) (c : ClassDecl) (d : MethodDecl) : Prop :=
  ∀ (v : Value) (a : Ancestor) (Vs : List Ty) (args : List Value) (frame : Frame) (body : Term),
    t.Finds d.name v.cls a d → a.decl = c → v.invoke t d.name Vs args = .ok (frame, body) →
      (∀ x ∈ d.paramNames, ∃ (i : Nat) (b : Binding) (w : Value),
        (methodVars c d).lookup x = some b.ty ∧ d.params[i]? = some b ∧ args[i]? = some w ∧
          frame.lookup x = some w) ∧
        frame.lookup "this" = some v

/-- For a parsed method of a valid table, checking and running resolve names alike exactly
if the first and the last parameter of each name have the same type. -/
theorem MethodDecl.resolvesAlike_iff {source : String} {q : Program}
    (hq : (Program.ofSource source).Gives q) {t : ClassTable}
    (ht : ClassTable.ofClasses q.classes = .ok t) {c : ClassDecl} (hc : c ∈ q.classes)
    {d : MethodDecl} (hd : d ∈ c.methods) : d.ResolvesAlike t c ↔ d.ParamsAgree := by
  obtain ⟨rfl, hv⟩ := ClassTable.ofClasses_eq_ok_iff.1 ht
  have hthis := Program.this_not_mem_paramNames hq hc hd
  constructor
  · intro h x hx
    obtain ⟨a, hfinds, hac⟩ := hv.finds_thisType hc hd
    have hown : d.typeParams.length = (d.typeParams.map fun P => Ty.var P.name).length := by simp
    obtain ⟨α, hα⟩ := Subst.exists_instantiate hown
    have hlen : (distinctValues d.params.length).length = d.params.length := by
      simp [distinctValues]
    have hinvoke := (Value.invoke_eq_ok_iff hv (v := ⟨c.thisType, []⟩)).2
      ⟨a, d, α, hfinds, hα, hlen, rfl, rfl⟩
    obtain ⟨i, b, w, hty, hib, hiw, hw⟩ := (h _ a _ _ _ _ hfinds hac hinvoke).1 x hx
    obtain ⟨j, b', w', hjb, hb', hjw, hw'⟩ :=
      MethodDecl.lookup_frame (v := ⟨c.thisType, []⟩) hlen hx
    -- The arguments differ, so the position that the frame shows is the first one.
    cases hw.symm.trans hw'
    cases getElem?_distinctValues_inj hiw hjw
    cases hib.symm.trans hjb
    rw [hb', ← MethodDecl.lookup_methodVars (c := c) fun he => hthis (he ▸ hx), hty]
    rfl
  · intro h v a Vs args frame body hfinds hac hinvoke
    obtain ⟨a', d', α, hfinds', -, hlen, rfl, -⟩ := (Value.invoke_eq_ok_iff hv).1 hinvoke
    obtain ⟨rfl, rfl⟩ := hfinds.unique hfinds'
    exact ⟨fun x hx => h.resolves hlen hx fun he => hthis (he ▸ hx),
      MethodDecl.lookup_frame_this hthis⟩

def repeatedParameter : String :=
  "class C extends Object \x7b C() \x7b super(); \x7d " ++
    "C m(Object x, C x) \x7b return x; \x7d \x7d " ++
  "new C().m(new Object(), new C())"

/-- The method is accepted and its name `x` is not resolved alike: the main term has the
type `C` and evaluates to an `Object`. -/
theorem MethodDecl.not_resolvesAlike_repeated :
    (Accepted.ofSource repeatedParameter).Yields fun q => ∃ c ∈ q.program.classes, ∃ d ∈ c.methods,
      CheckM.Gives (requireMethod q.table c d) [] () ∧ ¬ d.ResolvesAlike q.table c ∧
        q.ty = .inst "C" [] ∧
        (eval q.table 3 .empty q.program.term).Yields fun v => v.cls = .object := by
  have hyps : (Accepted.ofSource repeatedParameter).Yields fun q => q.ty = .inst "C" [] ∧
      ((eval q.table 3 .empty q.program.term).Yields fun v => v.cls = .object) ∧
        ∃ c ∈ q.program.classes, ∃ d ∈ c.methods, ¬ d.ParamsAgree := by
    decide +kernel
  obtain ⟨q, hq, hty, heval, c, hc, d, hd, hagree⟩ := hyps
  obtain ⟨hparsed, hs⟩ := Accepted.gives_ofSource hq
  have ht := ClassTable.ofClasses_eq_ok_iff.2 ⟨hs.table, hs.valid⟩
  have hwt : c ∈ q.table.classes := by rwa [hs.table]
  exact ⟨q, hq, c, hc, d, hd, gives_requireMethod_iff.2 ((hs.wellTyped c hwt).methods d hd),
    fun h => hagree ((resolvesAlike_iff hparsed ht hc hd).1 h), hty, heval⟩

end Featherweight

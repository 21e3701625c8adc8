import Featherweight.Proofs.FieldLayout
import Featherweight.Proofs.Subevaluation
import Featherweight.Proofs.Typing

/-!
# Constructors

Evaluation runs no constructor: `new` keeps its arguments as they are. `Constructs` says
what running the declared constructors does, from the superclass down. Checking compares
parameters, arguments of `super` and assignments with the fields pair by pair and up to the
shorter list; together with the numbers it checks this fixes the whole constructor. So
constructors that pass fill the fields with the arguments, each at its place.
-/

namespace Featherweight

namespace Typing

theorem requireInherited_eq_ok_iff {ps fs : List Binding} {xs : List String}
    (hps : fs.length ≤ ps.length) (hxs : xs.length = fs.length) :
    requireInherited ps fs xs = .ok () ↔ fs <+: ps ∧ xs = fs.map Binding.name := by
  induction fs generalizing ps xs with
  | nil =>
    cases List.length_eq_zero_iff.1 hxs
    cases ps <;> simp [requireInherited, pure_eq_ok_iff]
  | cons f fs ih =>
    cases ps with
    | nil => simp at hps
    | cons p ps =>
      cases xs with
      | nil => simp at hxs
      | cons x xs =>
        have hps' : fs.length ≤ ps.length := by simpa using hps
        have hxs' : xs.length = fs.length := by simpa using hxs
        simp only [requireInherited, bind_eq_ok_iff, exists_unit_iff, require_eq_ok_iff,
          ih hps' hxs', List.cons_prefix_cons, List.map_cons, List.cons.injEq]
        grind

theorem requireOwn_eq_ok_iff {ps fs : List Binding} {is : List Initializer}
    (hps : ps.length = fs.length) (his : is.length = fs.length) :
    requireOwn ps fs is = .ok () ↔ ps = fs ∧ is = fs.map fun f => ⟨f.name, f.name⟩ := by
  induction fs generalizing ps is with
  | nil =>
    cases List.length_eq_zero_iff.1 hps
    cases List.length_eq_zero_iff.1 his
    simp [requireOwn, pure_eq_ok_iff]
  | cons f fs ih =>
    cases ps with
    | nil => simp at hps
    | cons p ps =>
      cases is with
      | nil => simp at his
      | cons i is =>
        obtain ⟨field, param⟩ := i
        have hps' : ps.length = fs.length := by simpa using hps
        have his' : is.length = fs.length := by simpa using his
        simp only [requireOwn, bind_eq_ok_iff, exists_unit_iff, require_eq_ok_iff, ih hps' his',
          List.map_cons, List.cons.injEq, Initializer.mk.injEq]
        grind

end Typing

/-- The constructor takes all fields, hands the inherited ones to `super` and assigns each of
the others its parameter. -/
structure ClassDecl.StoresFields (c : ClassDecl) (inherited : List Binding) : Prop where
  params : c.constructor.params = inherited ++ c.fields
  superArgs : c.constructor.superArgs = inherited.map Binding.name
  inits : c.constructor.inits = c.fields.map fun f => ⟨f.name, f.name⟩

namespace Typing

variable {t : ClassTable} {c : ClassDecl} {inherited : List Binding}

theorem requireForm_eq_ok_iff : requireForm c inherited = .ok () ↔ c.StoresFields inherited := by
  simp only [requireForm, bind_eq_ok_iff, exists_unit_iff, require_eq_ok_iff]
  constructor
  · rintro ⟨⟨hle, hsuper⟩, hinherited, ⟨hown, hinits⟩, hfields⟩
    rw [requireInherited_eq_ok_iff hle hsuper] at hinherited
    rw [requireOwn_eq_ok_iff hown hinits] at hfields
    refine ⟨?_, hinherited.2, hfields.2⟩
    rw [← hfields.1]
    exact (List.prefix_iff_eq_append.1 hinherited.1).symm
  · rintro ⟨hparams, hsuper, hinits⟩
    have hdrop : c.constructor.params.drop inherited.length = c.fields := by
      rw [hparams, List.drop_left]
    have hle : inherited.length ≤ c.constructor.params.length := by simp [hparams]
    refine ⟨⟨hle, by simp [hsuper]⟩, ?_, ⟨by rw [hdrop], by simp [hinits]⟩, ?_⟩
    · rw [requireInherited_eq_ok_iff hle (by simp [hsuper]), hparams]
      exact ⟨List.prefix_append _ _, hsuper⟩
    · rw [requireOwn_eq_ok_iff (by rw [hdrop]) (by simp [hinits])]
      exact ⟨hdrop, hinits⟩

theorem requireConstructor_eq_ok_iff : requireConstructor t c = .ok () ↔
    c.constructor.className = c.name ∧
      ∃ inherited, t.fields c.superType = .ok inherited ∧ c.StoresFields inherited := by
  simp only [requireConstructor, bind_eq_ok_iff, exists_unit_iff, require_eq_ok_iff,
    liftTable_eq_ok_iff, mapError_eq_ok_iff, requireForm_eq_ok_iff]

end Typing

def Constructor.frame (k : Constructor) (args : List Value) : Frame :=
  (k.params.map Binding.name).zip args

theorem lookup_of_mem {frame : Frame} {x : String} {v : Value}
    (hd : (frame.map Prod.fst).Nodup) (h : (x, v) ∈ frame) : frame.lookup x = some v := by
  obtain ⟨pre, post, rfl⟩ := List.append_of_mem h
  refine List.lookup_eq_some_iff.2 ⟨pre, post, rfl, fun q hq => ?_⟩
  have hne : q.1 ≠ x := by
    rw [List.map_append, List.nodup_append] at hd
    exact hd.2.2 q.1 (List.mem_map_of_mem hq) x (by simp)
  simpa using hne.symm

theorem map_lookup_of_perm {frame : Frame} {xs : List String} {vs : List Value}
    (hperm : frame.Perm (xs.zip vs)) (hd : xs.Nodup) (hlen : vs.length = xs.length) :
    xs.map (fun x => frame.lookup x) = vs.map some := by
  have hkeys : (frame.map Prod.fst).Nodup := by
    rw [(hperm.map Prod.fst).nodup_iff, List.map_fst_zip (by omega)]
    exact hd
  refine List.ext_getElem (by simp [hlen]) fun i hi hi' => ?_
  rw [List.length_map] at hi hi'
  rw [List.getElem_map, List.getElem_map]
  exact lookup_of_mem hkeys (hperm.mem_iff.2 (getElem_mem_zip hi hi'))

namespace ClassTable

open Typing

variable {t : ClassTable} {C : String} {c : ClassDecl} {N : ClassTy} {a : Ancestor}
  {as : List Ancestor} {fs gs inherited : List Binding} {vs : List Value} {fields : Frame}

/-- Running the constructor of the class named `C` on these values ends with an object of
these fields, the latest assignment first. The constructor of the root takes nothing and
assigns nothing. -/
inductive Constructs (t : ClassTable) : String → List Value → Frame → Prop where
  | object : Constructs t ClassTy.object.name [] []
  | declared {C : String} {c : ClassDecl} {args supers ws : List Value} {inherited : Frame}
      (hc : t.find? C = some c) (hlen : args.length = c.constructor.params.length)
      (hsupers : c.constructor.superArgs.map (fun x => (c.constructor.frame args).lookup x) =
        supers.map some)
      (hinherited : Constructs t c.superType.name supers inherited)
      (hws : c.constructor.inits.map (fun i => (c.constructor.frame args).lookup i.param) =
        ws.map some) :
      Constructs t C args
        (((c.constructor.inits.map Initializer.field).zip ws).reverse ++ inherited)

theorem constructs_append_iff (hc : t.find? C = some c) (hC : C ≠ ClassTy.object.name)
    (hk : c.StoresFields inherited) (hd : ((inherited ++ c.fields).map Binding.name).Nodup)
    {us ws : List Value} (hus : us.length = inherited.length)
    (hws : ws.length = c.fields.length) :
    t.Constructs C (us ++ ws) fields ↔ ∃ above, t.Constructs c.superType.name us above ∧
      ((c.fields.map Binding.name).zip ws).reverse ++ above = fields := by
  have hlen : (us ++ ws).length = c.constructor.params.length := by simp [hk.params, hus, hws]
  have hlook : (inherited.map Binding.name ++ c.fields.map Binding.name).map
      (fun x => (c.constructor.frame (us ++ ws)).lookup x) = us.map some ++ ws.map some := by
    rw [← List.map_append, ← List.map_append, Constructor.frame, hk.params]
    exact map_lookup_of_perm (.refl _) hd (by simp [hus, hws])
  rw [List.map_append] at hlook
  obtain ⟨hsuper, hown⟩ := List.append_inj hlook (by simp [hus])
  have hparams :
      c.constructor.inits.map (fun i => (c.constructor.frame (us ++ ws)).lookup i.param) =
        ws.map some := by
    rw [← hown, hk.inits, List.map_map, List.map_map]
    rfl
  have hassigned : c.constructor.inits.map Initializer.field = c.fields.map Binding.name := by
    rw [hk.inits, List.map_map]
    rfl
  rw [← hk.superArgs] at hsuper
  have hsome : Function.Injective (List.map (some : Value → Option Value)) :=
    List.map_injective_iff.2 fun _ _ => Option.some.inj
  constructor
  · intro h
    -- The arguments are made a variable, so that the root's rule can be ruled out.
    generalize us ++ ws = args at h hsuper hparams
    cases h with
    | object => exact absurd rfl hC
    | @declared _ c' _ us' ws' above hc' _ hsuper' habove hparams' =>
      cases hc.symm.trans hc'
      cases hsome (hsuper.symm.trans hsuper')
      cases hsome (hparams.symm.trans hparams')
      exact ⟨above, habove, by rw [hassigned]⟩
  · rintro ⟨above, habove, rfl⟩
    rw [← hassigned]
    exact .declared hc hlen hsuper habove hparams

theorem Valid.fields_of_instantiate (hv : t.Valid) (ha : t.instantiate N = .ok a) :
    t.fields N = .ok fs ↔ ∃ gs, t.fields a.superType = .ok gs ∧ gs ++ a.fields = fs := by
  have hN := hv.ne_object ha
  simp only [hv.fields_eq_ok_iff]
  constructor
  · rintro ⟨as, has, rfl⟩
    obtain ⟨b, bs, rfl, hb, hbs⟩ := has.exists_step hN
    cases ha.symm.trans hb
    exact ⟨_, ⟨bs, hbs, rfl⟩, by simp⟩
  · rintro ⟨_, ⟨bs, hbs, rfl⟩, rfl⟩
    exact ⟨a :: bs, .step hN ha hbs, by simp⟩

theorem Valid.fields_thisType (hv : t.Valid) (hc : c ∈ t.classes)
    (hgs : t.fields c.superType = .ok gs) : t.fields c.thisType = .ok (gs ++ c.fields) := by
  obtain ⟨σ, ha⟩ := hv.grounded.exists_instantiate_thisType hc
  have hargs := Subst.map_var_of_instantiate (hv.typeParams c hc) (instantiate_eq_ok_iff.1 ha).2
  have hid (X : String) : σ.var X = .var X := by
    by_cases hX : X ∈ σ.names
    · obtain ⟨P, hP, rfl⟩ := List.mem_map.1 ((names_of_instantiate ha).1 hX)
      exact List.map_inj_left.1 hargs P hP
    · exact Subst.var_of_not_mem hX
  have hsuper : (⟨c, σ⟩ : Ancestor).superType = c.superType :=
    Subst.classTy_eq_self fun X _ => hid X
  have hbinding : σ.binding = id := funext fun f => by
    rw [Subst.binding, Subst.ty_eq_self fun X _ => hid X]
    rfl
  have hown : (⟨c, σ⟩ : Ancestor).fields = c.fields := by
    rw [Ancestor.fields, hbinding, List.map_id]
  rw [hv.fields_of_instantiate ha, hsuper, hown]
  exact ⟨gs, hgs, rfl⟩

theorem Scoped.names_fields_classTy (hs : t.Scoped) {σ : Subst} (hgs : t.fields N = .ok gs)
    (hfs : t.fields (σ.classTy N) = .ok fs) : fs.map Binding.name = gs.map Binding.name := by
  rw [hs.fields_classTy, hgs] at hfs
  cases hfs
  simp [Subst.binding]

theorem Valid.constructs_object_iff (hv : t.Valid) :
    t.Constructs ClassTy.object.name [] fields ↔ [] = fields := by
  constructor
  · intro h
    cases h with
    | object => rfl
    | declared hc _ _ _ _ => exact absurd rfl (hv.name_ne_object hc)
  · rintro rfl
    exact .object

theorem Valid.constructs_iff (hv : t.Valid) (hwt : t.WellTyped) (has : t.Chain N as)
    (hfs : t.fields N = .ok fs) (hvs : vs.length = fs.length) :
    t.Constructs N.name vs fields ↔ ((fs.map Binding.name).zip vs).reverse = fields := by
  induction has generalizing fs vs fields with
  | root =>
    obtain ⟨as, has, rfl⟩ := hv.fields_eq_ok_iff.1 hfs
    cases has.eq .root
    cases List.length_eq_zero_iff.1 hvs
    exact hv.constructs_object_iff
  | @step N a as _ ha _ ih =>
    have hc := (instantiate_eq_ok_iff.1 ha).1
    have hk := (hwt _ (mem_of_find? hc)).constructor
    obtain ⟨-, inherited, hinherited, hk⟩ := requireConstructor_eq_ok_iff.1 hk
    obtain ⟨gs, hgs, rfl⟩ := (hv.fields_of_instantiate ha).1 hfs
    -- The constructor is written over the class's own parameters; only types differ from `N`.
    have hsuper : gs.map Binding.name = inherited.map Binding.name :=
      hwt.heads.scoped.names_fields_classTy hinherited hgs
    have hown : a.fields.map Binding.name = a.decl.fields.map Binding.name := by
      simp [Ancestor.fields, Subst.binding]
    have hd : ((inherited ++ a.decl.fields).map Binding.name).Nodup := by
      rw [List.map_append, ← hsuper, ← hown, ← List.map_append]
      exact hv.nodup_names_fields hfs
    have hgs' : gs.length = inherited.length := by simpa using congrArg List.length hsuper
    have hfs' : a.fields.length = a.decl.fields.length := by simpa using congrArg List.length hown
    rw [List.length_append] at hvs
    obtain ⟨us, ws, rfl, hus⟩ : ∃ us ws, vs = us ++ ws ∧ us.length = gs.length :=
      ⟨_, _, (List.take_append_drop gs.length vs).symm, by simp; omega⟩
    rw [List.length_append] at hvs
    rw [constructs_append_iff hc (hv.name_ne_object hc) hk hd (by omega) (by omega),
      List.map_append, List.zip_append (by simp [hus]), List.reverse_append, hown]
    have habove (above : Frame) : t.Constructs a.decl.superType.name us above ↔
        ((gs.map Binding.name).zip us).reverse = above := ih hgs hus
    simp only [habove, exists_eq_left']

theorem Returns.new {ρ : Env} {es : List Term} (h : t.ReturnsAll ρ es vs) (N : ClassTy) :
    t.Returns ρ (.new N es) (.ok ⟨N, vs⟩) := by
  obtain ⟨n, hn⟩ := h
  exact ⟨n + 1, Attempt.gives_bind_iff.2 ⟨vs, hn, rfl⟩⟩

end ClassTable

/-- The constructor of an accepted class takes the fields of the class. Running it on as many
values ends with one possible object, and that holds in each field the value that `new` puts
there. -/
theorem Accepted.constructors_store_arguments {source : String} {a : Accepted}
    (h : (Accepted.ofSource source).Gives a) {c : ClassDecl} (hc : c ∈ a.program.classes) :
    a.table.fields c.thisType = .ok c.constructor.params ∧
      ∀ vs : List Value, vs.length = c.constructor.params.length →
        (∃ fields : Frame, (∀ s, a.table.Constructs c.name vs s ↔ fields = s) ∧
          c.constructor.params.map (fun b => fields.lookup b.name) = vs.map some) ∧
        ∀ Ts ρ es, a.table.ReturnsAll ρ es vs →
          a.table.Returns ρ (.new ⟨c.name, Ts⟩ es) (.ok ⟨⟨c.name, Ts⟩, vs⟩) := by
  obtain ⟨-, hs⟩ := gives_ofSource h
  have hv := hs.valid
  have hmem : c ∈ a.table.classes := by rwa [hs.table]
  obtain ⟨-, gs, hgs, hk⟩ := Typing.requireConstructor_eq_ok_iff.1 (hs.wellTyped c hmem).constructor
  have hfs := hv.fields_thisType hmem hgs
  rw [← hk.params] at hfs
  refine ⟨hfs, fun vs hvs => ⟨?_, fun Ts ρ es hes => .new hes ⟨c.name, Ts⟩⟩⟩
  obtain ⟨as, has, -⟩ := hv.chain_thisType hmem
  have hlen : vs.length = (c.constructor.params.map Binding.name).length := by simpa using hvs
  have hread := map_lookup_of_perm (List.reverse_perm _) (hv.nodup_names_fields hfs) hlen
  rw [List.map_map] at hread
  exact ⟨_, fun s => hv.constructs_iff hs.wellTyped has hfs hvs, hread⟩

def tripleClasses : List String :=
  ["class Pair<X extends Object> extends Object ", "\x7b X a; Object b; ",
    "Pair(X a, Object b) ", "\x7b super(); this.a = a; this.b = b; \x7d \x7d ",
    "class Triple<Y extends Object> ", "extends Pair<Pair<Y>> \x7b Y c; ",
    "Triple(Pair<Y> a, Object b, Y c) ", "\x7b super(a, b); this.c = c; \x7d \x7d ",
    "class Leaf extends Triple<Object> \x7b ", "Leaf(Pair<Object> a, Object b, Object c) ",
    "\x7b super(a, b, c); \x7d \x7d new Object()"]

theorem Accepted.constructors_store_arguments_triple :
    (Accepted.ofSource (String.join tripleClasses)).Yields fun a =>
      let object : Value := ⟨.object, []⟩
      let pair : Value := ⟨⟨"Pair", [.inst "Object" []]⟩, [object, object]⟩
      let pairs : Value := ⟨⟨"Pair", [pair.cls.toTy]⟩, [pair, object]⟩
      ∃ c ∈ a.program.classes, c.name = "Leaf" ∧
        a.table.fields c.thisType = .ok [⟨pair.cls.toTy, "a"⟩, ⟨.inst "Object" [], "b"⟩,
          ⟨.inst "Object" [], "c"⟩] ∧
        (∃ fields, a.table.Constructs "Leaf" [pair, object, pairs] fields ∧
          fields.lookup "a" = some pair ∧ fields.lookup "b" = some object ∧
          fields.lookup "c" = some pairs) ∧
        let es := [pair.toTerm, object.toTerm, pairs.toTerm]
        a.table.ReturnsAll .empty es [pair, object, pairs] ∧
          a.table.Returns .empty (.new ⟨"Leaf", []⟩ es)
            (.ok ⟨⟨"Leaf", []⟩, [pair, object, pairs]⟩) := by
  let object : Value := ⟨.object, []⟩
  let pair : Value := ⟨⟨"Pair", [.inst "Object" []]⟩, [object, object]⟩
  let pairs : Value := ⟨⟨"Pair", [pair.cls.toTy]⟩, [pair, object]⟩
  have hyps : (Accepted.ofSource (String.join tripleClasses)).Yields fun a =>
      (∃ c ∈ a.program.classes, c.name = "Leaf" ∧ c.constructor.params =
        [⟨pair.cls.toTy, "a"⟩, ⟨.inst "Object" [], "b"⟩, ⟨.inst "Object" [], "c"⟩]) ∧
      ([pair.toTerm, object.toTerm, pairs.toTerm].mapM (eval a.table 3 .empty)).run =
        some (.ok [pair, object, pairs]) := by
    rw [ofSource, Program.ofSource, tokenize_join]
    decide +kernel
  obtain ⟨a, ha, ⟨c, hc, hname, hparams⟩, hes⟩ := hyps
  obtain ⟨hfields, hrun⟩ := constructors_store_arguments ha hc
  rw [hparams] at hfields hrun
  rw [hname] at hrun
  obtain ⟨⟨fields, hiff, hread⟩, hnew⟩ := hrun [pair, object, pairs] rfl
  simp only [List.map_cons, List.map_nil, List.cons.injEq, and_true] at hread
  exact ⟨a, ha, c, hc, hname, hfields, ⟨fields, (hiff fields).2 rfl, hread⟩, ⟨3, hes⟩,
    hnew [] .empty _ ⟨3, hes⟩⟩

end Featherweight

import Featherweight.Proofs.Heads
import Featherweight.Proofs.Overriding
import Featherweight.Proofs.Renaming

/-!
# Methods with renamed type parameters

`renamed g` gives each type parameter `X` of a method the name `g X`, also where the
method's types and body mention it. In a program some names `R` are replaced by new
ones, by one map `f` throughout. A look-up with renamed arguments then finds the renamed
type, as long as it captures none of the names in `R`: `Subst.instance_renamed`.
-/

namespace Featherweight

namespace MethodDecl

def ownNames (d : MethodDecl) : List String := d.typeParams.map TypeParam.name

def relabel (g : String → String) (d : MethodDecl) : Subst :=
  ⟨d.ownNames.map fun X => (X, .var (g X))⟩

def renamed (g : String → String) (d : MethodDecl) : MethodDecl :=
  { d with
    typeParams := d.typeParams.map fun P => ⟨g P.name, (d.relabel g).classTy P.bound⟩
    returnType := (d.relabel g).ty d.returnType
    params := d.params.map (d.relabel g).binding
    body := (d.relabel g).term d.body }

variable {d : MethodDecl} {g : String → String} {X : String}

@[simp] theorem names_relabel (g : String → String) (d : MethodDecl) :
    (d.relabel g).names = d.ownNames := by
  simp [relabel, Subst.names, Function.comp_def]

theorem var_relabel (hX : X ∈ d.ownNames) : (d.relabel g).var X = .var (g X) := by
  obtain ⟨T, hT⟩ := Subst.exists_lookup_of_mem (names_relabel g d ▸ hX)
  obtain ⟨Y, -, hY⟩ := List.mem_map.1 (mem_of_lookup hT)
  rw [Prod.mk.injEq] at hY
  rw [Subst.var_of_lookup hT, ← hY.2, hY.1]

theorem var_relabel_of_not_mem (hX : X ∉ d.ownNames) : (d.relabel g).var X = .var X :=
  Subst.var_of_not_mem (names_relabel g d ▸ hX)

theorem ownNames_renamed (g : String → String) (d : MethodDecl) :
    (d.renamed g).ownNames = d.ownNames.map g := by
  simp [renamed, ownNames, Function.comp_def]

theorem length_typeParams_renamed (g : String → String) (d : MethodDecl) :
    (d.renamed g).type.typeParams.length = d.type.typeParams.length :=
  List.length_map _

theorem length_paramTypes_renamed (g : String → String) (d : MethodDecl) :
    (d.renamed g).type.paramTypes.length = d.type.paramTypes.length := by
  simp [renamed, MethodDecl.type]

theorem ownVars_renamed (g : String → String) (d : MethodDecl) :
    ((d.renamed g).typeParams.map fun P => Ty.var P.name) =
      (d.typeParams.map fun P => Ty.var P.name).map (d.relabel g).ty := by
  rw [renamed, List.map_map, List.map_map]
  exact List.map_congr_left fun P hP => (var_relabel (List.mem_map_of_mem hP)).symm

theorem types_renamed (g : String → String) (d : MethodDecl) :
    (d.renamed g).type.types = ((d.relabel g).methodType d.type).types := by
  simp [MethodType.types, MethodType.bounds, MethodDecl.type, renamed, Subst.methodType,
    Subst.typeParam, Subst.binding, Function.comp_def]

theorem renamed_id (d : MethodDecl) : d.renamed id = d := by
  have hvar (X : String) : (d.relabel id).var X = .var X := by
    by_cases hX : X ∈ d.ownNames
    · exact var_relabel hX
    · exact var_relabel_of_not_mem hX
  have hty (T : Ty) : (d.relabel id).ty T = T := Subst.ty_eq_self fun X _ => hvar X
  have hclass (N : ClassTy) : (d.relabel id).classTy N = N :=
    Subst.classTy_eq_self fun X _ => hvar X
  have hterm : (d.relabel id).term d.body = d.body :=
    (Subst.term_congr fun X _ => hvar X).trans (Subst.term_empty d.body)
  have hbinding : (d.relabel id).binding = id := funext fun b => by simp [Subst.binding, hty]
  simp [renamed, hclass, hty, hterm, hbinding]

end MethodDecl

/-- The map renames a variable by `f`, if it is in `R`, or keeps it. -/
def Picks (f : String → String) (R : List String) (g : String → String) : Prop :=
  ∀ X, g X = X ∨ X ∈ R ∧ g X = f X

namespace Subst

open MethodDecl

variable {f g : String → String} {R : List String} {r ω κ κ' : Subst} {d : MethodDecl} {S : Ty}
  {Vs : List Ty} {X : String}

def Relabels (f : String → String) (R : List String) (r : Subst) : Prop :=
  ∀ X, r.var X = .var X ∨ X ∈ R ∧ r.var X = .var (f X)

theorem relabels_empty (f : String → String) (R : List String) : Subst.empty.Relabels f R :=
  fun _ => .inl rfl

theorem relabels_relabel (hg : Picks f R g) (d : MethodDecl) : (d.relabel g).Relabels f R := by
  intro X
  by_cases hX : X ∈ d.ownNames
  · rw [MethodDecl.var_relabel hX]
    exact (hg X).imp (fun h => by rw [h]) fun h => ⟨h.1, by rw [h.2]⟩
  · exact .inl (MethodDecl.var_relabel_of_not_mem hX)

theorem Relabels.renames (hr : r.Relabels f R) (hf : ∀ X ∈ R, ∀ Y ∈ R, f X = f Y → X = Y) :
    r.Renames (R.map f) where
  var X _ := by
    rcases hr X with h | ⟨-, h⟩
    · exact ⟨X, h⟩
    · exact ⟨f X, h⟩
  inj X hX Y hY h := by
    rcases hr X with hX' | ⟨hXR, hX'⟩ <;> rcases hr Y with hY' | ⟨hYR, hY'⟩ <;>
      rw [hX', hY', Ty.var.injEq] at h
    · exact h
    · exact absurd (h ▸ List.mem_map_of_mem hYR) hX
    · exact absurd (h ▸ List.mem_map_of_mem hXR) hY
    · exact hf X hXR Y hYR h

section Instance

variable (hκ : instantiate d.typeParams Vs = .ok κ)
  (hκ' : instantiate (d.renamed g).typeParams (Vs.map r.ty) = .ok κ') (hd : d.ownNames.Nodup)
  (hg : ∀ X ∈ d.ownNames, ∀ Y ∈ d.ownNames, g X = g Y → X = Y)
include hκ hκ' hd hg

theorem var_of_renamed (hX : X ∈ d.ownNames) : κ'.var (g X) = r.ty (κ.var X) := by
  obtain ⟨P, hP, rfl⟩ := List.mem_map.1 hX
  obtain ⟨i, hi, hiV⟩ := List.mem_iff_getElem.1 (exists_arg hd hκ hP)
  have hlen := (instantiate_eq_ok_iff.1 hκ).1
  have hV : i < Vs.length := by
    rw [List.length_zip] at hi
    omega
  have hPs : i < d.typeParams.length := hlen ▸ hV
  rw [List.getElem_zip, Prod.mk.injEq] at hiV
  have hnodup : ((d.renamed g).typeParams.map TypeParam.name).Nodup := by
    have hmap := ownNames_renamed g d
    rw [MethodDecl.ownNames] at hmap
    rw [hmap]
    exact List.Nodup.map_on hg hd
  have hi' : i < (d.renamed g).typeParams.length := by simpa [MethodDecl.renamed] using hPs
  have hV' : i < (Vs.map r.ty).length := by simpa using hV
  have hvar := var_of_mem_zip hnodup hκ' (getElem_mem_zip hi' hV')
  simpa [MethodDecl.renamed, hiV.1, hiV.2] using hvar

/-- Renaming the arguments of a look-up and of a call renames what a declared type becomes
there, if a variable that the class puts in is captured before exactly if it is captured
after, and then by the same type parameter. -/
theorem instance_renamed (hS : ∀ X ∈ S.vars, X ∈ ω.names ∨ X ∈ d.ownNames)
    (hω : ∀ X ∈ d.ownNames, X ∉ ω.names) (hgω : ∀ X ∈ d.ownNames, g X ∉ ω.names)
    (hin : ∀ X ∈ ω.names, ∀ Z ∈ (ω.var X).vars, Z ∈ d.ownNames → r.var Z = .var (g Z))
    (hout : ∀ X ∈ ω.names, ∀ Z ∈ (ω.var X).vars, Z ∉ d.ownNames →
      ∃ Y, r.var Z = .var Y ∧ Y ∉ d.ownNames.map g) :
    κ'.ty ((ω.through r).ty ((d.relabel g).ty S)) = r.ty (κ.ty (ω.ty S)) := by
  have hown {X : String} (hX : X ∈ d.ownNames) : κ'.var (g X) = r.ty (κ.var X) :=
    var_of_renamed hκ hκ' hd hg hX
  have hnot {Y : String} (hY : Y ∉ d.ownNames.map g) : κ'.var Y = .var Y := by
    refine var_of_not_mem fun h => hY ?_
    rw [← ownNames_renamed]
    exact (mem_names_of_instantiate hκ').1 h
  rw [← ty_andThen, ← ty_andThen, ← ty_andThen, ← ty_andThen]
  refine ty_congr fun X hX => ?_
  rw [var_andThen, var_andThen, ty_andThen, ty_andThen]
  by_cases hXω : X ∈ ω.names
  · have hXd : X ∉ d.ownNames := fun h => hω X h hXω
    rw [var_relabel_of_not_mem hXd, ty_var, var_through hXω, ← ty_andThen, ← ty_andThen]
    refine ty_congr fun Z hZ => ?_
    rw [var_andThen, var_andThen]
    by_cases hZd : Z ∈ d.ownNames
    · rw [hin X hXω Z hZ hZd, ty_var, hown hZd]
    · obtain ⟨Y, hY, hYg⟩ := hout X hXω Z hZ hZd
      have hZκ : κ.var Z = .var Z :=
        var_of_not_mem fun h => hZd ((mem_names_of_instantiate hκ).1 h)
      rw [hY, ty_var, hnot hYg, hZκ, ty_var, hY]
  · have hXd : X ∈ d.ownNames := (hS X hX).resolve_left hXω
    rw [var_relabel hXd, ty_var, var_of_not_mem (by simpa using hgω X hXd), ty_var, hown hXd,
      var_of_not_mem hXω, ty_var]

end Instance

end Subst

structure MethodType.Off (W : List String) (T : MethodType) : Prop where
  bounds : ∀ N ∈ T.bounds, N.vars.Disjoint W
  paramTypes : ∀ P ∈ T.paramTypes, P.vars.Disjoint W
  returnType : T.returnType.vars.Disjoint W

structure MethodDecl.Off (W : List String) (d : MethodDecl) : Prop where
  ownNames : d.ownNames.Disjoint W
  bounds : ∀ P ∈ d.typeParams, P.bound.vars.Disjoint W
  returnType : d.returnType.vars.Disjoint W
  params : ∀ b ∈ d.params, b.ty.vars.Disjoint W
  body : d.body.tyVars.Disjoint W

theorem MethodDecl.Off.type {W : List String} {d : MethodDecl} (h : d.Off W) : d.type.Off W where
  bounds := List.forall_mem_map.2 h.bounds
  paramTypes := List.forall_mem_map.2 h.params
  returnType := h.returnType

theorem MethodDecl.Off.ownVars {W : List String} {d : MethodDecl} (h : d.Off W) :
    ∀ V ∈ d.typeParams.map fun P => Ty.var P.name, V.vars.Disjoint W := by
  rw [List.forall_mem_map]
  intro P hP X hX
  cases List.mem_singleton.1 hX
  exact h.ownNames (List.mem_map_of_mem hP)

structure ClassDecl.Off (W : List String) (c : ClassDecl) : Prop where
  names : (c.typeParams.map TypeParam.name).Disjoint W
  bounds : ∀ P ∈ c.typeParams, P.bound.vars.Disjoint W
  superType : c.superType.vars.Disjoint W
  fields : ∀ b ∈ c.fields, b.ty.vars.Disjoint W
  methods : ∀ d ∈ c.methods, d.Off W

/-- In each method some type parameters in `R` are renamed by `f`, to names not used before. -/
structure ClassTable.Relabeling (t : ClassTable) (f : String → String) (R : List String)
    (g : ClassDecl → MethodDecl → String → String) : Prop where
  inj : ∀ X ∈ R, ∀ Y ∈ R, f X = f Y → X = Y
  picks : ∀ c d, Picks f R (g c d)
  off : ∀ c ∈ t.classes, c.Off (R.map f)
  scopes : ∀ c ∈ t.classes, c.DistinctScopes

def ClassTable.ApartOn (t : ClassTable) (R : List String) (m : String) (N : ClassTy) : Prop :=
  ∀ T, t.methodType? m N = .ok (some T) → ∀ P ∈ T.typeParams, P.name ∈ R → P.name ∉ N.vars

instance (t : ClassTable) (R : List String) (m : String) (N : ClassTy) :
    Decidable (t.ApartOn R m N) :=
  match h : t.methodType? m N with
  | .ok (some T) => decidable_of_iff (∀ P ∈ T.typeParams, P.name ∈ R → P.name ∉ N.vars)
      ⟨fun hT U hU => by cases h.symm.trans hU; exact hT, fun hap => hap T h⟩
  | .ok none => isTrue fun _ hT => nomatch h.symm.trans hT
  | .error _ => isTrue fun _ hT => nomatch h.symm.trans hT

namespace ClassTable

def relabel (g : ClassDecl → MethodDecl → String → String) (t : ClassTable) : ClassTable :=
  t.mapMethods fun c d => d.renamed (g c d)

theorem name_renamed (g : ClassDecl → MethodDecl → String → String) (c : ClassDecl)
    (d : MethodDecl) : (d.renamed (g c d)).name = d.name := rfl

variable {t : ClassTable} {f : String → String} {R : List String}
  {g : ClassDecl → MethodDecl → String → String} {c : ClassDecl} {d : MethodDecl} {X Y : String}
  {Δ Δ' : TypeEnv} {r : Subst}

@[simp] theorem fields_relabel (N : ClassTy) : (t.relabel g).fields N = t.fields N :=
  fields_mapMethods ..

@[simp] theorem subtype_relabel (Δ : TypeEnv) (S T : Ty) :
    (t.relabel g).subtype Δ S T = t.subtype Δ S T :=
  subtype_mapMethods ..

theorem subtype_relabel_iff {S T : Ty} : (t.relabel g).Subtype Δ S T ↔ t.Subtype Δ S T :=
  subtype_mapMethods_iff

theorem wellFormed_relabel_iff {T : Ty} : (t.relabel g).WellFormed Δ T ↔ t.WellFormed Δ T :=
  wellFormed_mapMethods_iff

section Relabeling

variable (hg : t.Relabeling f R g) (hc : c ∈ t.classes) (hd : d ∈ c.methods)
include hg hc hd

theorem Relabeling.not_mem_new (hX : X ∈ d.ownNames) : X ∉ R.map f :=
  ((hg.off c hc).methods d hd).ownNames hX

theorem Relabeling.injOn (hX : X ∈ d.ownNames) (hY : Y ∈ d.ownNames) (h : g c d X = g c d Y) :
    X = Y := by
  have hXW := hg.not_mem_new hc hd hX
  have hYW := hg.not_mem_new hc hd hY
  rcases hg.picks c d X with hX' | ⟨hXR, hX'⟩ <;> rcases hg.picks c d Y with hY' | ⟨hYR, hY'⟩ <;>
    rw [hX', hY'] at h
  · exact h
  · exact absurd (h ▸ List.mem_map_of_mem hYR) hXW
  · exact absurd (h ▸ List.mem_map_of_mem hXR) hYW
  · exact hg.inj X hXR Y hYR h

theorem Relabeling.not_mem_typeParams (hX : X ∈ d.ownNames) :
    g c d X ∉ c.typeParams.map TypeParam.name := by
  rcases hg.picks c d X with h | ⟨hXR, h⟩
  · obtain ⟨P, hP, rfl⟩ := List.mem_map.1 hX
    rw [h]
    exact hg.scopes c hc d hd P hP
  · rw [h]
    exact fun hmem => (hg.off c hc).names hmem (List.mem_map_of_mem hXR)

omit hc hd in
theorem Relabeling.not_mem_ownNames (hY : Y ∉ R.map f) (hYd : Y ∉ d.ownNames) :
    Y ∉ d.ownNames.map (g c d) := by
  intro hmem
  obtain ⟨X, hX, rfl⟩ := List.mem_map.1 hmem
  rcases hg.picks c d X with h | ⟨hXR, h⟩
  · rw [h] at hYd
    exact hYd hX
  · rw [h] at hY
    exact hY (List.mem_map_of_mem hXR)

theorem Relabeling.ty_of_classVars {T : Ty}
    (hT : ∀ X ∈ T.vars, X ∈ c.typeParams.map TypeParam.name) :
    (d.relabel (g c d)).ty T = T := by
  refine Subst.ty_eq_self fun X hX => MethodDecl.var_relabel_of_not_mem fun hXd => ?_
  obtain ⟨P, hP, rfl⟩ := List.mem_map.1 hXd
  exact hg.scopes c hc d hd P hP (hT _ hX)

theorem Relabeling.env_renamed (hv : t.Valid) (hs : t.Scoped) :
    TypeEnv.Renamed (d.relabel (g c d)) (R.map f) (d.env c) ((d.renamed (g c d)).env c) where
  bound? X hX Y hY := by
    have hown' : ((d.renamed (g c d)).typeParams.map TypeParam.name) =
      d.ownNames.map (g c d) := MethodDecl.ownNames_renamed (g c d) d
    by_cases hXd : X ∈ d.ownNames
    · rw [MethodDecl.var_relabel hXd] at hY
      cases hY
      have hmem : g c d X ∈ (d.renamed (g c d)).typeParams.map TypeParam.name :=
        hown' ▸ List.mem_map_of_mem hXd
      obtain ⟨P', hP', hname, hb'⟩ := TypeEnv.bound?_add_of_mem (Δ := c.env) hmem
      obtain ⟨Q, hQ, rfl, hb⟩ := TypeEnv.bound?_add_of_mem (Δ := c.env) hXd
      obtain ⟨P, hP, rfl⟩ := List.mem_map.1 hP'
      have hPQ := hg.injOn hc hd (List.mem_map_of_mem hP) hXd hname
      rw [MethodDecl.env, MethodDecl.env, hb, hb',
        List.inj_on_of_nodup_map (hv.methodTypeParams c hc d hd) hP hQ hPQ]
      rfl
    · rw [MethodDecl.var_relabel_of_not_mem hXd] at hY
      cases hY
      rw [MethodDecl.env, MethodDecl.env, TypeEnv.bound?_add_of_not_mem hXd,
        TypeEnv.bound?_add_of_not_mem (hown' ▸ hg.not_mem_ownNames hX hXd)]
      cases hN : c.env.bound? X with
      | none => rfl
      | some N =>
        rcases TypeEnv.bound?_add hN with ⟨P, hP, rfl, rfl⟩ | ⟨-, hN⟩
        · have hfix := hg.ty_of_classVars hc hd ((hs c hc).bounds P hP)
          rw [← Subst.toTy_classTy] at hfix
          exact congrArg some (ClassTy.toTy_inj.1 hfix).symm
        · cases hN
  off X N hN := by
    rcases TypeEnv.bound?_add hN with ⟨P, hP, -, rfl⟩ | ⟨-, hN⟩
    · exact ((hg.off c hc).methods d hd).bounds P hP
    · rcases TypeEnv.bound?_add hN with ⟨P, hP, -, rfl⟩ | ⟨-, hN⟩
      · exact (hg.off c hc).bounds P hP
      · cases hN

end Relabeling

section Call

variable {N : ClassTy} {a : Ancestor} {m : String} {Vs : List Ty} {κ κ' : Subst} {S : Ty}
  (hg : t.Relabeling f R g) (hv : t.Valid)
include hg

theorem Relabeling.valid_iff : (t.relabel g).Valid ↔ t.Valid := by
  refine valid_mapMethods_iff (name_renamed g) fun c hc d hd => ?_
  have hown : (d.renamed (g c d)).typeParams.map TypeParam.name = d.ownNames.map (g c d) :=
    MethodDecl.ownNames_renamed (g c d) d
  rw [hown]
  exact ⟨List.Nodup.of_map _, fun h => h.map_on fun X hX Y hY => hg.injOn hc hd hX hY⟩

variable (hs : t.Scoped) (hr : r.Relabels f R) (hN : N.vars.Disjoint (R.map f))
  (hap : t.ApartOn R m N) (hf : t.Finds m N a d)
  (hκ : Subst.instantiate d.typeParams Vs = .ok κ)
  (hκ' : Subst.instantiate (d.renamed (g a.decl d)).typeParams (Vs.map r.ty) = .ok κ')
include hv hs hr hN hap hf hκ hκ'

theorem Relabeling.instance_eq (hS : t.WellFormed (d.env a.decl) S) :
    κ'.ty ((a.subst.through r).ty ((d.relabel (g a.decl d)).ty S)) =
      r.ty (κ.ty (a.subst.ty S)) := by
  have hc := hf.decl_mem
  have hd := hf.mem
  have hown : ∀ X ∈ d.ownNames, X ∉ a.subst.names := by
    intro X hX hXa
    obtain ⟨P, hP, rfl⟩ := List.mem_map.1 hX
    exact hg.scopes _ hc d hd P hP (hf.mem_names.1 hXa)
  refine Subst.instance_renamed hκ hκ' (hv.methodTypeParams _ hc d hd)
    (fun X hX Y hY => hg.injOn hc hd hX hY) ?_ hown ?_ ?_ ?_
  · exact fun X hX => (MethodDecl.mem_typeParams_of_wellFormed hS hX).imp_left hf.mem_names.2
  · exact fun X hX hXa => hg.not_mem_typeParams hc hd hX (hf.mem_names.1 hXa)
  · -- A captured variable is not in `R`, so neither side renames it.
    intro X hX Z hZ hZd
    have hZN := hf.mem_vars hs hX hZ
    have hZR : Z ∉ R := by
      intro hZR
      rw [MethodDecl.ownNames, ← Subst.names_methodType a.subst d] at hZd
      obtain ⟨P, hP, rfl⟩ := List.mem_map.1 hZd
      exact hap _ (hv.methodType?_eq_some_iff.2 ⟨a, d, hf, rfl⟩) P hP hZR hZN
    have hrZ := (hr Z).resolve_right fun h => hZR h.1
    have hgZ := (hg.picks a.decl d Z).resolve_right fun h => hZR h.1
    rw [hrZ, hgZ]
  · intro X hX Z hZ hZd
    have hZW : Z ∉ R.map f := hN (hf.mem_vars hs hX hZ)
    rcases hr Z with hrZ | ⟨hZR, hrZ⟩
    · exact ⟨Z, hrZ, hg.not_mem_ownNames hZW hZd⟩
    · refine ⟨f Z, hrZ, fun hmem => ?_⟩
      obtain ⟨Y, hY, hYZ⟩ := List.mem_map.1 hmem
      rcases hg.picks a.decl d Y with hgY | ⟨hYR, hgY⟩
      · rw [hgY] at hYZ
        exact hg.not_mem_new hc hd hY (hYZ ▸ List.mem_map_of_mem hZR)
      · rw [hgY] at hYZ
        exact hZd (hg.inj Y hYR Z hZR hYZ ▸ hY)

theorem Relabeling.types_instance (hh : d.HeadWellFormed t a.decl) :
    (κ'.methodType ((a.subst.through r).methodType (d.renamed (g a.decl d)).type)).types =
      (r.methodType (κ.methodType (a.subst.methodType d.type))).types := by
  have key {S : Ty} (hS : t.WellFormed (d.env a.decl) S) :=
    hg.instance_eq hv hs hr hN hap hf hκ hκ' hS
  simp only [MethodType.types, Prod.mk.injEq, Subst.bounds_methodType, List.map_map]
  refine ⟨?_, ?_, key hh.returnType⟩
  · simp only [MethodType.bounds, MethodDecl.type, MethodDecl.renamed, List.map_map]
    refine List.map_congr_left fun P hP => ClassTy.toTy_inj.1 ?_
    exact key (hh.bounds P hP)
  · simp only [Subst.methodType, MethodDecl.type, MethodDecl.renamed, List.map_map]
    exact List.map_congr_left fun p hp => key (hh.params p hp)

end Call

end ClassTable

end Featherweight

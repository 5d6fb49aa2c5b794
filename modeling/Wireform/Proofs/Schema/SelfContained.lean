import Mathlib
import Wireform.Proofs.Module.Closed
import Wireform.Proofs.Schema.Conformance

/-!
# The document of a module is self-contained

Every reference that a schema is made from becomes one `$ref`, and there are no others: no name of a
source starts with a dollar sign. The document has one definition for each declaration of the module
and of the modules below it, under a key of its own, and a `$ref` names the key of the declaration that
its reference leads to.
-/

namespace Wireform

namespace Json

mutual

/-- All that stands under this name, in whatever object of the document, in order. -/
def under (name : String) : Json → List Json
  | .arr items => underItems name items
  | .obj props => underProps name props
  | _ => []

def underItems (name : String) : List Json → List Json
  | [] => []
  | j :: js => under name j ++ underItems name js

def underProps (name : String) : List (String × Json) → List Json
  | [] => []
  | (k, j) :: ps => (if k = name then [j] else []) ++ under name j ++ underProps name ps

end

variable {name k : String}

@[simp] theorem under_str (s : String) : (Json.str s).under name = [] := by simp [under]

@[simp] theorem under_bool (b : Bool) : (Json.bool b).under name = [] := by simp [under]

@[simp] theorem under_num (n : Number) : (Json.num n).under name = [] := by simp [under]

@[simp] theorem under_arr (items : List Json) :
    (Json.arr items).under name = items.flatMap (under name) := by
  rw [under]
  induction items with
  | nil => rw [underItems]; rfl
  | cons j items ih => rw [underItems, ih]; rfl

@[simp] theorem under_nil : (Json.obj []).under name = [] := by rw [under, underProps]

theorem under_cons (p : String × Json) (props : Fields Json) : (Json.obj (p :: props)).under name =
    (if p.1 = name then [p.2] else []) ++ p.2.under name ++ (Json.obj props).under name := by
  rw [under, underProps, under]

theorem under_obj {props : Fields Json} (h : name ∉ Fields.keys props) :
    (Json.obj props).under name = props.flatMap fun p => p.2.under name := by
  induction props with
  | nil => exact under_nil
  | cons p props ih =>
    rw [Fields.keys_cons, List.mem_cons, not_or] at h
    rw [under_cons, if_neg (Ne.symm h.1), ih h.2, List.nil_append, List.flatMap_cons]

/-- Setting a property changes nothing if what was there has as much under the name. -/
theorem under_insert (hk : k ≠ name) {v : Json} {props : Fields Json}
    (hv : (Fields.get? props k).elim [] (under name) = v.under name) :
    (Json.obj (Fields.insert k v props)).under name = (Json.obj props).under name := by
  induction props with
  | nil =>
    have hv : [] = v.under name := hv
    rw [Fields.insert, under_cons, if_neg hk, ← hv]
    rfl
  | cons p props ih =>
    obtain ⟨k', v'⟩ := p
    rw [Fields.insert]
    rw [Fields.get?_cons] at hv
    by_cases hp : k' = k
    · subst hp
      rw [if_pos rfl] at hv ⊢
      have hv : v'.under name = v.under name := hv
      rw [under_cons, under_cons, if_neg hk, hv, if_neg hk]
    · rw [if_neg (Ne.symm hp)] at hv
      rw [if_neg hp, under_cons, under_cons, ih hv]

end Json

/-! ### The references that a declaration makes -/

mutual

/-- The references in the type, in order. -/
def Ty.refs : Ty → List Ref
  | .prim _ => []
  | .optional t => t.refs
  | .list t => t.refs
  | .object t => t.refs
  | .map k v => k.refs ++ v.refs
  | .record fields => Ty.refsOfFields fields
  | .sum variants => Ty.refsOfVariants variants
  | .annot _ t => t.refs
  | .ref r => [r]

def Ty.refsOfFields : List (String × Ty) → List Ref
  | [] => []
  | (_, t) :: fields => t.refs ++ Ty.refsOfFields fields

def Ty.refsOfVariants : List (String × List (String × Ty)) → List Ref
  | [] => []
  | (_, fields) :: variants => Ty.refsOfFields fields ++ Ty.refsOfVariants variants

end

theorem Ty.refsOfFields_eq (fields : Fields Ty) :
    Ty.refsOfFields fields = fields.flatMap fun f => f.2.refs := by
  induction fields with
  | nil => rw [Ty.refsOfFields]; rfl
  | cons f fields ih => rw [Ty.refsOfFields, ih]; rfl

/-- The references from which the schema of a declaration is made, in order. A sum makes none: its
tags are declarations themselves. -/
def Module.refsOf (m : Module) : Decl → List Ref
  | .alias t => t.refs
  | .struct fields => Ty.refsOfFields fields
  | .sum _ => []
  | .variant parent index => (m.variant? parent index).elim [] fun v => Ty.refsOfFields v.2
  | .table spec => spec.objects.flatMap fun kind => (spec.attrsFrom kind).flatMap fun a =>
    (spec.attrType? a.codom).elim [] Ty.refs

theorem Ty.Spelled.of_mem_refs {refs : Ref → Prop} {t : Ty} (h : t.Spelled refs) {r : Ref}
    (hr : r ∈ t.refs) : refs r := by
  induction h with
  | prim _ => simp [Ty.refs] at hr
  | optional _ ih | list _ ih | object _ ih | annot _ _ ih => exact ih (by rwa [Ty.refs] at hr)
  | map _ _ ihk ihv =>
    rw [Ty.refs, List.mem_append] at hr
    exact hr.elim ihk ihv
  | record _ _ _ ih =>
    rw [Ty.refs, Ty.refsOfFields_eq] at hr
    obtain ⟨f, hf, hr⟩ := List.mem_flatMap.1 hr
    exact ih f hf hr
  | ref h =>
    rw [Ty.refs] at hr
    rwa [List.mem_singleton.1 hr]

/-- Every reference that a declaration makes stands in one of its types. -/
theorem Module.exists_type_of_mem_refsOf {m : Module} {decl : Decl} {r : Ref} (h : r ∈ m.refsOf decl) :
    ∃ t ∈ m.typesOf decl, r ∈ t.refs := by
  have hfields : ∀ fields : Fields Ty, r ∈ Ty.refsOfFields fields →
      ∃ t ∈ fields.map Prod.snd, r ∈ t.refs := by
    intro fields h
    rw [Ty.refsOfFields_eq] at h
    obtain ⟨f, hf, hr⟩ := List.mem_flatMap.1 h
    exact ⟨f.2, List.mem_map_of_mem hf, hr⟩
  cases decl with
  | «alias» t => exact ⟨t, List.mem_singleton_self t, h⟩
  | struct fields => exact hfields fields h
  | sum variants => cases h
  | variant parent index =>
    rw [refsOf] at h
    rw [typesOf]
    cases hv : m.variant? parent index with
    | none =>
      rw [hv] at h
      cases h
    | some v =>
      rw [hv] at h
      simpa using hfields v.2 h
  | table spec =>
    obtain ⟨kind, -, h⟩ := List.mem_flatMap.1 h
    obtain ⟨a, -, h⟩ := List.mem_flatMap.1 h
    cases ht : spec.attrType? a.codom with
    | none =>
      rw [ht] at h
      cases h
    | some t =>
      rw [ht] at h
      exact ⟨t, List.mem_map_of_mem (f := Prod.snd) (Fields.mem_of_get? ht), h⟩

namespace Schema

/-! ### The `$ref`s of a schema -/

/-- What stands under a `$ref`. -/
def pointer (key : String) : Json := .str ("#/$defs/" ++ key)

theorem not_mem_of_identifiers {names : List String} (h : ∀ name ∈ names, Source.Identifier name) :
    "$ref" ∉ names := by
  intro hm
  exact (h _ hm).not_mem (c := '$') (by decide) (by decide)

theorem under_objectOf {props : Fields Json} (hd : Fields.Distinct props)
    (hn : "$ref" ∉ Fields.keys props) :
    (objectOf props).under "$ref" = props.flatMap fun p => p.2.under "$ref" := by
  have hnames : (props.map fun p => Json.str p.1).flatMap (Json.under "$ref") = [] := by
    rw [List.flatMap_map]
    simp
  simp [objectOf, Json.under_cons, Fields.ofList_of_distinct hd, Json.under_obj hn, hnames]

theorem under_arrayOf (items : Json) : (arrayOf items).under "$ref" = items.under "$ref" := by
  simp [arrayOf, Json.under_cons]

theorem under_scalar (p : Prim) : (scalar p).under "$ref" = [] := by
  cases p <;> simp [scalar, scalarKeywords, integerBetween, Json.under_cons, Json.ofInt]

theorem under_nullable (schema : Json) : (nullable schema).under "$ref" = schema.under "$ref" := by
  unfold nullable
  split
  · rename_i types hw
    cases schema with
    | obj props =>
      refine Json.under_insert (by simp) ?_
      unfold widenedType? at hw
      split at hw
      · rename_i t ht
        obtain rfl := Option.some.inj hw
        rw [show Fields.get? props "type" = _ from ht]
        simp
      · rename_i ts ht
        obtain rfl := Option.some.inj hw
        rw [show Fields.get? props "type" = _ from ht]
        split <;> simp
      · cases hw
    | _ => rfl
  · simp [Json.under_cons]

theorem under_describe {schema : Json} (doc : String)
    (hd : ∀ v, schema.prop? "description" = some v → ∃ s, v = .str s) :
    (describe doc schema).under "$ref" = schema.under "$ref" := by
  unfold describe
  simp only
  split
  · simp [setKeyword, Fields.insert, Json.under_cons]
  · cases schema with
    | obj props =>
      refine Json.under_insert (by simp) ?_
      cases hg : Fields.get? props "description" with
      | none => simp
      | some v =>
        obtain ⟨s, rfl⟩ := hd v hg
        simp
    | _ => rfl

/-- A description is a text, also where another one is set. -/
theorem description_ofTyWithin (w : Option String) :
    ∀ (t : Ty) (v : Json), (ofTyWithin w t).prop? "description" = some v → ∃ s, v = .str s
  | .prim p, v, h => by
    rw [ofTyWithin] at h
    cases p <;> cases h
  | .optional t, v, h => by
    have ih := description_ofTyWithin w t v
    rw [ofTyWithin, nullable] at h
    split at h
    · cases hs : ofTyWithin w t with
      | obj props =>
        rw [hs] at h ih
        rw [setKeyword, Json.prop?, Fields.get?_insert, if_neg (by simp)] at h
        exact ih h
      | _ =>
        rw [hs] at h
        cases h
    · cases h
  | .annot doc t, v, h => by
    rw [ofTyWithin, describe] at h
    generalize (if ((ofTyWithin w t).prop? "$ref").isSome then
      Json.obj [("allOf", .arr [ofTyWithin w t])] else ofTyWithin w t) = schema at h
    cases schema with
    | obj props =>
      rw [setKeyword, Json.prop?, Fields.get?_insert, if_pos rfl] at h
      exact ⟨doc, (Option.some.inj h).symm⟩
    | _ => cases h
  | .list t, v, h => by rw [ofTyWithin] at h; cases h
  | .object t, v, h => by rw [ofTyWithin] at h; cases h
  | .map k t, v, h => by rw [ofTyWithin] at h; cases h
  | .record fields, v, h => by rw [ofTyWithin] at h; cases h
  | .sum variants, v, h => by rw [ofTyWithin] at h; cases h
  | .ref r, v, h => by rw [ofTyWithin] at h; cases h

variable {refs : Ref → Prop} {w : Option String} {fields : Fields Ty}

theorem flatMap_ofFields (ih : ∀ f ∈ fields, (ofTyWithin w f.2).under "$ref" =
      f.2.refs.map fun r => pointer (refKey w r)) :
    (ofFields w fields).flatMap (fun p => p.2.under "$ref") =
      (Ty.refsOfFields fields).map fun r => pointer (refKey w r) := by
  rw [ofFields_eq, Ty.refsOfFields_eq, List.flatMap_map, List.map_flatMap]
  exact List.flatMap_congr fun f hf => ih f hf

theorem keys_ofFields : Fields.keys (ofFields w fields) = Fields.keys fields := by
  rw [ofFields_eq, Fields.keys, List.map_map]
  rfl

/-- The schema of a type has its references and no others. -/
theorem under_ofTyWithin {t : Ty} (h : t.Spelled refs) :
    (ofTyWithin w t).under "$ref" = t.refs.map fun r => pointer (refKey w r) := by
  induction h with
  | prim p => rw [ofTyWithin, under_scalar, Ty.refs, List.map_nil]
  | optional _ ih => rw [ofTyWithin, under_nullable, ih, Ty.refs]
  | list _ ih => rw [ofTyWithin, under_arrayOf, ih, Ty.refs]
  | object _ ih =>
    rw [ofTyWithin, Json.under_obj (by simp [Fields.keys]), Ty.refs, ← ih]
    simp
  | map _ _ ihk ihv =>
    rw [ofTyWithin, under_arrayOf, under_objectOf (by simp [Fields.Distinct, Fields.keys])
      (by simp [Fields.keys]), Ty.refs, List.map_append, ← ihk, ← ihv]
    simp
  | record hd hi _ ih =>
    rw [ofTyWithin, under_objectOf, flatMap_ofFields ih, Ty.refs]
    · exact Fields.Distinct.congr hd keys_ofFields
    · rw [keys_ofFields]
      exact not_mem_of_identifiers (List.forall_mem_map.2 hi)
  | annot doc _ ih => rw [ofTyWithin, under_describe doc (description_ofTyWithin w _), ih, Ty.refs]
  | ref _ =>
    rw [ofTyWithin, definitionRef, Json.under_cons, Ty.refs]
    simp [pointer]

theorem under_fieldsSchema (tag : Option String) {reserved seen : List String}
    (h : Source.NewFields refs reserved seen fields) (ht : tag.isSome → discriminator ∈ reserved) :
    (fieldsSchema w tag fields).under "$ref" =
      (Ty.refsOfFields fields).map fun r => pointer (refKey w r) := by
  have hn : "$ref" ∉ Fields.keys (tagSchemas tag ++ ofFields w fields) := by
    rw [Fields.keys_append, keys_ofFields, List.mem_append, not_or]
    refine ⟨?_, not_mem_of_identifiers (List.forall_mem_map.2 h.identifiers)⟩
    cases tag <;> simp [tagSchemas, Fields.keys, discriminator]
  have htag : (tagSchemas tag).flatMap (fun p => p.2.under "$ref") = [] := by
    cases tag <;> simp [tagSchemas, Json.under_cons]
  rw [fieldsSchema, under_objectOf (distinct_fieldsSchema (h.proper ht)) hn, List.flatMap_append, htag,
    List.nil_append, flatMap_ofFields fun f hf => under_ofTyWithin (h.types f hf)]

/-! ### Tables -/

variable {spec : TableSpec} {kind : String}

/-- The schemas of attribute cells, by name. -/
def attributeCells (w : Option String) (spec : TableSpec) (attrs : List Arrow) : Fields Json :=
  attrs.filterMap fun a => (spec.attrType? a.codom).map fun t => (a.name, attributeCell w t)

theorem keys_attributeCells (attrs : List Arrow) :
    (Fields.keys (attributeCells w spec attrs)).Sublist (attrs.map Arrow.name) := by
  unfold attributeCells
  induction attrs with
  | nil => exact .slnil
  | cons a attrs ih =>
    rw [List.filterMap_cons, List.map_cons]
    cases spec.attrType? a.codom with
    | none => exact ih.cons _
    | some t => exact ih.cons_cons _

theorem under_positionOf {name : String} (h : name ≠ "$ref") :
    (objectOf [(name, position)]).under "$ref" = [] := by
  rw [under_objectOf (by simp [Fields.Distinct, Fields.keys]) (by simpa [Fields.keys] using h.symm)]
  simp [position, under_scalar]

theorem under_attributeCells (hs : spec.Spelled refs) (attrs : List Arrow) :
    (attributeCells w spec attrs).flatMap (fun p => p.2.under "$ref") =
      (attrs.flatMap fun a => (spec.attrType? a.codom).elim [] Ty.refs).map
        fun r => pointer (refKey w r) := by
  unfold attributeCells
  induction attrs with
  | nil => rfl
  | cons a attrs ih =>
    rw [List.filterMap_cons, List.flatMap_cons, List.map_append]
    cases ht : spec.attrType? a.codom with
    | none => exact ih
    | some t =>
      have hcell : (attributeCell w t).under "$ref" = t.refs.map fun r => pointer (refKey w r) := by
        rw [← under_ofTyWithin (hs.types _ (Fields.mem_of_get? ht)), attributeCell, Json.under_cons]
        simp [under_positionOf, poolVar]
      simp only [Option.map_some, List.flatMap_cons, Option.elim_some]
      rw [hcell, ih]

theorem under_tableRow (hs : spec.Spelled refs) :
    (tableRow w spec kind).under "$ref" =
      ((spec.attrsFrom kind).flatMap fun a => (spec.attrType? a.codom).elim [] Ty.refs).map
        fun r => pointer (refKey w r) := by
  have hsub : ((spec.homsFrom kind).map Arrow.name ++
      Fields.keys (attributeCells w spec (spec.attrsFrom kind))).Sublist
      (spec.objects ++ spec.attrTypes.keys ++ spec.homs.map Arrow.name ++
        spec.attrs.map Arrow.name) := by
    refine List.Sublist.append ?_ ((keys_attributeCells _).trans (List.filter_sublist.map _))
    exact (List.filter_sublist.map _).trans (List.sublist_append_right _ _)
  have hkeys : Fields.keys ((rowId, position) ::
      (spec.homsFrom kind).map (fun h => (h.name, position)) ++
        attributeCells w spec (spec.attrsFrom kind)) =
      rowId :: ((spec.homsFrom kind).map Arrow.name ++
        Fields.keys (attributeCells w spec (spec.attrsFrom kind))) := by
    simp [Fields.keys, Function.comp_def]
  show (objectOf ((rowId, position) :: (spec.homsFrom kind).map (fun h => (h.name, position)) ++
    attributeCells w spec (spec.attrsFrom kind))).under "$ref" = _
  rw [under_objectOf, List.flatMap_append, under_attributeCells hs]
  · simp [List.flatMap_map, position, under_scalar]
  · unfold Fields.Distinct
    rw [hkeys]
    exact List.nodup_cons.2
      ⟨fun h => hs.proper.noRowId (hsub.subset h), hs.proper.members.sublist hsub⟩
  · rw [hkeys, List.mem_cons, not_or]
    exact ⟨by simp [rowId], fun h => not_mem_of_identifiers hs.members (hsub.subset h)⟩

theorem under_ofTable (hs : spec.Spelled refs) (m : Module) :
    (ofTable w spec).under "$ref" = (m.refsOf (.table spec)).map fun r => pointer (refKey w r) := by
  have hkeys : Fields.keys ((spec.objects.map fun kind => (kind, arrayOf (tableRow w spec kind))) ++
      spec.attrTypes.map fun a => (a.1, arrayOf (objectOf [(rowId, position)]))) =
      spec.objects ++ spec.attrTypes.keys := by
    simp [Fields.keys, Function.comp_def]
  have hsub : (spec.objects ++ spec.attrTypes.keys).Sublist (spec.objects ++ spec.attrTypes.keys ++
      spec.homs.map Arrow.name ++ spec.attrs.map Arrow.name) :=
    (List.sublist_append_left _ _).trans (List.sublist_append_left _ _)
  have hd : Fields.Distinct ((spec.objects.map fun kind => (kind, arrayOf (tableRow w spec kind))) ++
      spec.attrTypes.map fun a => (a.1, arrayOf (objectOf [(rowId, position)]))) := by
    unfold Fields.Distinct
    rw [hkeys]
    exact hs.proper.members.sublist hsub
  rw [ofTable, Json.under_obj (by simp [Fields.keys]), Fields.ofList_of_distinct hd]
  simp only [List.flatMap_cons, List.flatMap_nil, Json.under_str, Json.under_bool, Json.under_arr]
  rw [Json.under_obj, List.flatMap_append, List.flatMap_map, List.flatMap_map]
  · simp only [under_arrayOf, under_positionOf (show rowId ≠ "$ref" by decide), under_tableRow hs,
      Module.refsOf, List.map_flatMap]
    simp [List.flatMap_map]
  · rw [hkeys]
    exact fun h => not_mem_of_identifiers hs.members (hsub.subset h)

/-! ### Declarations -/

variable {root m : Module} {name : String} {decl : Decl}

theorem under_ofDecl (hm : m.Complete) (hd : m.get? name = some decl) (hs : ∀ vs, decl ≠ .sum vs) :
    (ofDecl w m decl).under "$ref" = (m.refsOf decl).map fun r => pointer (refKey w r) := by
  have hspelled := hm.spelled name decl hd
  cases decl with
  | «alias» t => exact under_ofTyWithin hspelled
  | struct fields => exact under_fieldsSchema none hspelled (by simp)
  | sum variants => exact absurd rfl (hs variants)
  | variant parent index =>
    obtain ⟨variants, fields, hp, hi⟩ := hm.parents name parent index hd
    have hv : m.variant? parent index = some (name, fields) := by
      rw [Module.variant?, hp]
      exact hi
    rw [ofDecl, Module.refsOf, hv]
    exact under_fieldsSchema (some name)
      (hm.spelled parent _ hp _ (List.mem_of_getElem? hi)) (by simp)
  | table spec => exact under_ofTable hspelled m

theorem under_ofSum (variants : List Variant) : (ofDecl w m (.sum variants)).under "$ref" =
    variants.map fun v => pointer (localKey w v.1) := by
  rw [ofDecl, Json.under_obj (by simp [Fields.keys])]
  simp [List.flatMap_map, definitionRef, Json.under_cons, pointer, ← List.map_eq_flatMap]

/-! ### The keys of the definitions -/

/-- Every key is that of a declaration, and none stands twice. -/
structure Traced (root : Module) (defs : Fields Json) : Prop where
  distinct : Fields.Distinct defs
  keys : ∀ k ∈ Fields.keys defs,
    ∃ w x d, Qualified root w x ∧ d ∈ x.decls ∧ k = localKey w d.1

theorem Traced.addModule {defs : Fields Json} (h : Traced root defs) (hq : Qualified root w m) :
    Traced root (addModule w m defs) := by
  have hfold : ∀ (decls : List (String × Decl)) (defs : Fields Json), (∀ d ∈ decls, d ∈ m.decls) →
      Traced root defs → Traced root (decls.foldl (fun defs d =>
        defs.insert (localKey w d.1) (ofDecl w m d.2)) defs) := by
    intro decls
    induction decls with
    | nil => exact fun defs _ h => h
    | cons d decls ih =>
      intro defs hd h
      refine ih _ (fun d h => hd d (by simp [h])) ⟨Fields.nodup_insert h.distinct _ _, fun k hk => ?_⟩
      rcases Fields.mem_keys_insert.1 hk with rfl | hk
      · exact ⟨w, m, d, hq, hd d (by simp), rfl⟩
      · exact h.keys k hk
  exact hfold m.decls defs (fun _ h => h) h

theorem traced_imports {ms : List (String × Module)} {e : Export}
    (hw : ∀ i ∈ ms, ∀ e : Export, Traced root e.defs → Traced root (addImported i.2 e).defs)
    (he : Traced root e.defs) : Traced root (addImports ms e).defs := by
  induction ms with
  | nil => exact he
  | cons i ms ih =>
    rw [addImports]
    exact hw i (by simp) _ (ih fun i hi => hw i (by simp [hi]))

theorem traced_imported (m : Module) (hm : root.Below m) (e : Export) (he : Traced root e.defs) :
    Traced root (addImported m e).defs := by
  rw [addImported_eq]
  split
  · exact he
  · exact traced_imports (fun i hi e he => traced_imported i.2 (hm.tail ⟨i, hi, rfl⟩) e he)
      (he.addModule (.below hm))
termination_by m
decreasing_by exact Module.Imports.sizeOf_lt ⟨i, hi, rfl⟩

theorem traced_definitions (root : Module) : Traced root (definitions root) :=
  traced_imports (fun i hi e he => traced_imported i.2 (.single ⟨i, hi, rfl⟩) e he)
    (Traced.addModule ⟨List.nodup_nil, by simp⟩ .own)

namespace Qualified

theorem closed (h : Qualified root w m) (hr : root.Closed) : m.Closed := by
  cases h with
  | own => exact hr
  | below h =>
    induction h with
    | single h =>
      obtain ⟨i, hi, rfl⟩ := h
      exact hr.imports i hi
    | tail _ h ih =>
      obtain ⟨i, hi, rfl⟩ := h
      exact ih.imports i hi

theorem unique {m' : Module} (h : Qualified root w m) (h' : Qualified root w m')
    (hu : root.Unambiguous) : m = m' := by
  cases h with
  | own =>
    cases h'
    rfl
  | below h =>
    generalize hw : some m.name = w at h'
    cases h' with
    | own => cases hw
    | below h' => exact hu m m' h h' (Option.some.inj hw)

end Qualified

/-- Under the key of the reference, made in `m`, stands the declaration that it leads to. -/
def Lands (root : Module) (w : Option String) (m : Module) (r : Ref) : Prop :=
  ∃ owner decl w', m.resolve? r = some (owner, decl) ∧ Qualified root w' owner ∧
    refKey w r = localKey w' r.name ∧
    Fields.get? (definitions root) (refKey w r) = some (ofDecl w' owner decl)

theorem Qualified.lands (hq : Qualified root w m) (hr : root.Sound) (hu : root.Unambiguous) {r : Ref}
    (h : m.Resolves r) : Lands root w m r := by
  obtain ⟨owner, decl, -, -, hres⟩ := h
  obtain ⟨w', hq', hk⟩ := hq.refKey_eq hr hres
  refine ⟨owner, decl, w', hres, hq', hk, ?_⟩
  rw [hk]
  exact hq'.get?_definitions hr hu (Module.mem_decls_of_resolve? hres)

section

variable (hr : root.Sound) (hu : root.Unambiguous)
include hr hu

theorem mem_definitions_iff {key : String} {schema : Json} :
    (key, schema) ∈ definitions root ↔ ∃ w m d, Qualified root w m ∧ d ∈ m.decls ∧
      key = localKey w d.1 ∧ schema = ofDecl w m d.2 := by
  have ht := traced_definitions root
  rw [← ht.distinct.get?_eq_some_iff]
  constructor
  · intro hg
    obtain ⟨w, m, d, hq, hd, rfl⟩ := ht.keys key (Fields.mem_keys_of_mem (Fields.mem_of_get? hg))
    rw [hq.get?_definitions hr hu hd, Option.some.injEq] at hg
    exact ⟨w, m, d, hq, hd, rfl, hg.symm⟩
  · rintro ⟨w, m, d, hq, hd, rfl, rfl⟩
    exact hq.get?_definitions hr hu hd

theorem Qualified.eq_of_localKey_eq {w' : Option String} {m' : Module} {d d' : String × Decl}
    (h : Qualified root w m) (hd : d ∈ m.decls) (h' : Qualified root w' m') (hd' : d' ∈ m'.decls)
    (hk : localKey w d.1 = localKey w' d'.1) : m = m' ∧ d = d' := by
  obtain ⟨rfl, hn⟩ := localKey_inj ((h.sound hr).orderly.plain d hd)
    ((h'.sound hr).orderly.plain d' hd') hk
  obtain rfl := h.unique h' hu
  have hdist := (h.sound hr).orderly.distinct
  exact ⟨rfl, List.inj_on_of_nodup_map hdist hd hd' hn⟩

/-- The tags of a sum are defined as such. -/
theorem Qualified.under_sum {variants : List Variant} (hq : Qualified root w m)
    (hd : (name, .sum variants) ∈ m.decls) :
    (ofDecl w m (.sum variants)).under "$ref" = (variants.map fun v => pointer (localKey w v.1)) ∧
      ∀ i v, variants[i]? = some v →
        Fields.get? (definitions root) (localKey w v.1) = some (ofDecl w m (.variant name i)) :=
  ⟨under_ofSum variants, fun i v hi =>
    hq.get?_definitions hr hu ((hq.sound hr).orderly.tags name variants hd i v hi)⟩

/-- The references of a declaration lead to what is defined under their keys. -/
theorem Qualified.under_decl (hc : root.Closed) (hq : Qualified root w m) (hd : (name, decl) ∈ m.decls)
    (hs : ∀ variants, decl ≠ .sum variants) :
    (ofDecl w m decl).under "$ref" = ((m.refsOf decl).map fun r => pointer (refKey w r)) ∧
      ∀ r ∈ m.refsOf decl, Lands root w m r := by
  have hget := (hq.sound hr).orderly.distinct.get?_eq_some hd
  have hm := (hq.closed hc).complete
  refine ⟨under_ofDecl hm hget hs, fun r h => hq.lands hr hu ?_⟩
  obtain ⟨t, ht, h⟩ := Module.exists_type_of_mem_refsOf h
  exact (hm.spelled_of_mem_typesOf hget ht).of_mem_refs h

end

theorem not_mem_keys_definitions (hc : root.Closed) : "$ref" ∉ Fields.keys (definitions root) := by
  intro h
  obtain ⟨w, m, d, hq, hd, hk⟩ := (traced_definitions root).keys _ h
  cases hq with
  | own => exact not_mem_of_identifiers hc.complete.names (hk ▸ Fields.mem_keys_of_mem hd)
  | below _ =>
    -- a qualified key has a point in it
    have hdot : '.' ∈ ("$ref" : String).toList := by
      rw [hk, localKey]
      simp
    exact absurd hdot (by decide)

theorem under_ofModule (hc : root.Closed) :
    (ofModule root).under "$ref" = (definitions root).flatMap fun e => e.2.under "$ref" := by
  rw [ofModule, Json.under_obj (by simp [Fields.keys])]
  simp [Json.under_obj (not_mem_keys_definitions hc)]

/-- The document of a module has one definition for each declaration of the module and of those below
it, and all of its `$ref`s stand in definitions. Those of a sum name its tags in order, those of any
other declaration the references that it makes, and each leads where its reference does. -/
theorem ofModule_selfContained (hm : root.Built) (hu : root.Unambiguous) :
    (ofModule root).prop? "$defs" = some (.obj (definitions root)) ∧
    Fields.Distinct (definitions root) ∧
    (∀ key schema, (key, schema) ∈ definitions root ↔
      ∃ w m d, Qualified root w m ∧ d ∈ m.decls ∧ key = localKey w d.1 ∧ schema = ofDecl w m d.2) ∧
    (∀ w m d w' m' d', Qualified root w m → d ∈ m.decls → Qualified root w' m' → d' ∈ m'.decls →
      localKey w d.1 = localKey w' d'.1 → m = m' ∧ d = d') ∧
    (ofModule root).under "$ref" = ((definitions root).flatMap fun e => e.2.under "$ref") ∧
    (∀ target ∈ (ofModule root).under "$ref", ∃ key ∈ Fields.keys (definitions root),
      target = pointer key) ∧
    ∀ w m, Qualified root w m → ∀ name decl, (name, decl) ∈ m.decls →
      (∀ variants, decl = .sum variants →
        (ofDecl w m decl).under "$ref" = (variants.map fun v => pointer (localKey w v.1)) ∧
        ∀ i v, variants[i]? = some v → Fields.get? (definitions root) (localKey w v.1) =
          some (ofDecl w m (.variant name i))) ∧
      ((∀ variants, decl ≠ .sum variants) →
        (ofDecl w m decl).under "$ref" = ((m.refsOf decl).map fun r => pointer (refKey w r)) ∧
        ∀ r ∈ m.refsOf decl, Lands root w m r) := by
  have hs := hm.sound
  have hc := hm.closed
  refine ⟨rfl, (traced_definitions root).distinct, fun key schema => mem_definitions_iff hs hu,
    fun w m d w' m' d' hq hd hq' hd' => hq.eq_of_localKey_eq hs hu hd hq' hd', under_ofModule hc,
    fun target h => ?_, fun w m hq name decl hd => ⟨?_, hq.under_decl hs hu hc hd⟩⟩
  · rw [under_ofModule hc] at h
    obtain ⟨e, he, h⟩ := List.mem_flatMap.1 h
    obtain ⟨w, m, ⟨name, decl⟩, hq, hd, -, hschema⟩ := (mem_definitions_iff hs hu).1 he
    rw [hschema] at h
    by_cases hsum : ∃ variants, decl = .sum variants
    · obtain ⟨variants, rfl⟩ := hsum
      obtain ⟨hunder, htags⟩ := hq.under_sum hs hu hd
      rw [hunder] at h
      obtain ⟨v, hv, rfl⟩ := List.mem_map.1 h
      obtain ⟨i, hi⟩ := List.getElem?_of_mem hv
      exact ⟨_, Fields.mem_keys_of_mem (Fields.mem_of_get? (htags i v hi)), rfl⟩
    · obtain ⟨hunder, hlands⟩ := hq.under_decl hs hu hc hd fun vs h => hsum ⟨vs, h⟩
      rw [hunder] at h
      obtain ⟨r, hr, rfl⟩ := List.mem_map.1 h
      obtain ⟨owner, target, w', -, -, -, hget⟩ := hlands r hr
      exact ⟨_, Fields.mem_keys_of_mem (Fields.mem_of_get? hget), rfl⟩
  · rintro variants rfl
    exact hq.under_sum hs hu hd

/-! ### Two ways to one import -/

/-- Items, lists of them and marks on them, and a board with both. -/
def items : Module := ⟨"items", [], [("Item", .struct [("size", .prim .i64)])]⟩

def lists : Module :=
  ⟨"lists", [("items", items)], [("Items", .alias (.list (.ref ⟨some "items", "Item", 0⟩)))]⟩

def marks : Module :=
  ⟨"marks", [("items", items)],
    [("Mark", .sum [("Plain", []), ("On", [("item", .ref ⟨some "items", "Item", 0⟩)])]),
      ("Plain", .variant "Mark" 0), ("On", .variant "Mark" 1)]⟩

def board : Module :=
  ⟨"board", [("lists", lists), ("marks", marks)],
    [("Board", .struct [("items", .ref ⟨some "lists", "Items", 0⟩),
      ("mark", .ref ⟨some "marks", "Mark", 0⟩)])]⟩

theorem items_built : items.Built := by
  refine @Module.Built.compile [] "module items struct Item \x7b size :: I64 \x7d" _ (by simp) ?_
  cbv

theorem lists_built : lists.Built := by
  refine @Module.Built.compile [("items", items)]
    "module lists import items alias Items = List(items.Item)" _ (by simpa using items_built) ?_
  cbv

theorem marks_built : marks.Built := by
  refine @Module.Built.compile [("items", items)]
    "module marks import items sum Mark \x7b Plain | On(item :: items.Item) \x7d" _
    (by simpa using items_built) ?_
  cbv

theorem board_built : board.Built := by
  refine @Module.Built.compile [("lists", lists), ("marks", marks)]
    ("module board import lists import marks struct Board \x7b items :: lists.Items, " ++
      "mark :: marks.Mark \x7d")
    _ (by simpa using ⟨lists_built, marks_built⟩) ?_
  cbv

theorem board_below {x : Module} (h : board.Below x) : x = lists ∨ x = marks ∨ x = items := by
  obtain ⟨i, hi, h⟩ := below_iff.1 h
  simp only [board, List.mem_cons, List.not_mem_nil, or_false] at hi
  have hitems : ∀ {m : Module}, m.imports = [("items", items)] → From m x → x = m ∨ x = items := by
    intro m hm h
    rcases h.eq_or with rfl | ⟨i, hi, h⟩
    · exact .inl rfl
    · rw [hm, List.mem_singleton] at hi
      subst hi
      rcases h.eq_or with rfl | ⟨i, hi, -⟩
      · exact .inr rfl
      · cases hi
  rcases hi with rfl | rfl
  · exact (hitems rfl h).imp_right .inr
  · exact .inr (hitems rfl h)

/-- The items stand once in the document, though two ways lead to them, and none directly. -/
theorem ofModule_selfContained_board :
    board.Unambiguous ∧
    Fields.keys (definitions board) =
      ["Board", "marks.Mark", "marks.Plain", "marks.On", "items.Item", "lists.Items"] ∧
    Fields.Distinct (definitions board) ∧
    Qualified board (some "lists") lists ∧
    (ofDecl (some "lists") lists (.alias (.list (.ref ⟨some "items", "Item", 0⟩)))).under "$ref" =
      [pointer "items.Item"] ∧
    Lands board (some "lists") lists ⟨some "items", "Item", 0⟩ := by
  have hu : board.Unambiguous := by
    intro x y hx hy h
    rcases board_below hx with rfl | rfl | rfl <;> rcases board_below hy with rfl | rfl | rfl <;>
      first
      | rfl
      | exact absurd h (by decide)
  have hq : Qualified board (some "lists") lists :=
    .below (.single ⟨("lists", lists), by simp [board], rfl⟩)
  obtain ⟨-, hd, -, -, -, -, h⟩ := ofModule_selfContained board_built hu
  obtain ⟨hunder, hlands⟩ := (h _ _ hq "Items" (.alias (.list (.ref ⟨some "items", "Item", 0⟩)))
    (by simp [lists])).2 (by simp)
  have hrefs : lists.refsOf (.alias (.list (.ref ⟨some "items", "Item", 0⟩))) =
    [⟨some "items", "Item", 0⟩] := by simp [Module.refsOf, Ty.refs]
  rw [hrefs] at hunder hlands
  refine ⟨hu, ?_, hd, hq, hunder, hlands _ (by simp)⟩
  cbv

end Schema

end Wireform

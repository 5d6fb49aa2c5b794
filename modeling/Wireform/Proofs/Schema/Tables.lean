import Mathlib
import Wireform.Proofs.Module.Closed
import Wireform.Proofs.Schema.Conformance
import Wireform.Proofs.Table.Isomorphism

/-!
# Table documents conform to exported schemas

The document of a store validates against the definition of its table. Writer and schema both go through
the kinds, the foreign keys, the attributes and the pools, and they come to the same names; positions are
in the range of their schema as long as no kind and no pool has more rows in use than that range.
-/

namespace Wireform

theorem Store.lt_size_of_position? {s : Store} {kind : String} {row pos : Nat}
    (h : s.position? kind row = some pos) : pos < s.size kind := by
  obtain ⟨hlt, -⟩ := List.findIdx?_eq_some_iff_getElem.1 h
  exact hlt

namespace Schema

open Codec Store

variable {document : Json} {c : Codec} {spec : TableSpec} {s : Store} {kind : String}

/-- One more than the largest position that a schema admits. -/
def positionBound : Nat := 0x100000000

theorem validates_position {pos : Nat} (h : pos < positionBound) :
    Validates document position (.ofNat pos) := by
  refine validates_scalar_of_passes (p := .u32) (passes_integerBetween (by omega) ?_)
  unfold positionBound at h
  omega

/-- An object with a position under one name. -/
theorem validates_pointer {name : String} {pos : Nat} (h : pos < positionBound) :
    Validates document (objectOf [(name, position)]) (.obj [(name, .ofNat pos)]) := by
  refine validates_objectOf (by simp [Fields.Distinct, Fields.keys]) (.refl _) ?_
  simpa [Fields.get?_cons] using validates_position h

/-! ### Rows -/

/-- The schemas of what a row has. -/
def rowSchemas (within : Option String) (s : Store) (kind : String) : Fields Json :=
  (rowId, position) :: (s.foreignKeys kind).map (fun k => (k.name, position)) ++
    (s.attributes kind).map fun a => (a.name, attributeCell within a.ty)

theorem tableRow_eq (w : Option String) (hs : s.spec = spec) (hk : kind ∈ spec.objects) :
    tableRow w spec kind = objectOf (rowSchemas w s kind) := by
  rw [rowSchemas, foreignKeys_eq hs hk, attributes_eq hs hk, List.map_filterMap]
  simp only [tableRow, Option.map_map]
  rfl

theorem keys_rowSchemas (w : Option String) (s : Store) (kind : String) :
    Fields.keys (rowSchemas w s kind) = rowNames (s.foreignKeys kind) (s.attributes kind) := by
  simp [rowSchemas, rowNames, Fields.keys, Function.comp_def]

/-- A cell that points into its pool, or a value of its type. -/
theorem validates_attribute {a : Attribute} {cell : Cell} {x : Json} {w : Option String}
    (h : AttributeWritten c s a cell x) (hp : s.size a.attrType ≤ positionBound)
    (hv : ∀ v, c.encodeAs a.ty v = .ok x → Validates document (ofTyWithin w a.ty) x) :
    Validates document (attributeCell w a.ty) x := by
  rw [attributeCell, validates_obj rfl]
  simp only [List.forall_mem_singleton]
  cases h with
  | var hpos =>
    exact passes_anyOf (by simp) (validates_pointer ((lt_size_of_position? hpos).trans_le hp))
  | value hx _ => exact passes_anyOf (by simp) (hv _ hx)

theorem validates_row {r : WrittenRow} {row pos : Nat} {w : Option String}
    (hd : (rowNames (s.foreignKeys kind) (s.attributes kind)).Nodup) (h : RowWritten c s kind row r)
    (hpos : pos < positionBound) (hkeys : ∀ k ∈ s.foreignKeys kind, s.size k.codom ≤ positionBound)
    (hpools : ∀ a ∈ s.attributes kind, s.size a.attrType ≤ positionBound)
    (hv : ∀ a ∈ s.attributes kind, ∀ v x, c.encodeAs a.ty v = .ok x →
      Validates document (ofTyWithin w a.ty) x) :
    Validates document (objectOf (rowSchemas w s kind)) (.obj (r.props pos)) := by
  refine validates_objectOf ?_ ?_ ?_
  · rw [Fields.Distinct, keys_rowSchemas]
    exact hd
  · rw [keys_rowSchemas, h.keys_props]
  · rw [rowSchemas, List.cons_append, List.forall_mem_cons, List.forall_mem_append]
    refine ⟨⟨_, r.get?_id pos, validates_position hpos⟩, ?_, ?_⟩
    · rw [h.keys_eq, List.map_map, List.forall_mem_map]
      intro p hp
      obtain ⟨target, q, -, hq, hj⟩ := h.refs p hp
      have hk := hkeys p.1 (h.keys_eq ▸ List.mem_map_of_mem hp)
      refine ⟨p.2, h.get?_ref hd hp, ?_⟩
      rw [hj]
      exact validates_position ((lt_size_of_position? hq).trans_le hk)
    · rw [h.attributes_eq, List.map_map, List.forall_mem_map]
      intro p hp
      have ha : p.1 ∈ s.attributes kind := h.attributes_eq ▸ List.mem_map_of_mem hp
      obtain ⟨cell, -, hw⟩ := h.values p hp
      exact ⟨p.2, h.get?_value hd hp,
        validates_attribute hw (hpools p.1 ha) fun v hv' => hv p.1 ha v p.2 hv'⟩

/-! ### Tables -/

/-- The schemas of kinds and pools. -/
def sheetSchemas (within : Option String) (spec : TableSpec) : Fields Json :=
  spec.objects.map (fun kind => (kind, arrayOf (tableRow within spec kind))) ++
    spec.attrTypes.map fun a => (a.1, arrayOf (objectOf [(rowId, position)]))

theorem keys_sheetSchemas (w : Option String) (spec : TableSpec) :
    Fields.keys (sheetSchemas w spec) = spec.objects ++ spec.attrTypes.keys := by
  simp [sheetSchemas, Fields.keys, Function.comp_def]

/-- A document in which every kind and every pool is there and as its schema says. -/
theorem validates_ofTable {props : Fields Json} {w : Option String}
    (hd : (spec.objects ++ spec.attrTypes.keys).Nodup)
    (hk : Fields.keys props = spec.objects ++ spec.attrTypes.keys)
    (hkinds : ∀ kind ∈ spec.objects, ∃ rows, Fields.get? props kind = some (.arr rows) ∧
      ∀ j ∈ rows, Validates document (tableRow w spec kind) j)
    (hpools : ∀ pool ∈ spec.attrTypes.keys, ∃ n ≤ positionBound,
      Fields.get? props pool = some (.arr ((List.range n).map slot))) :
    Validates document (ofTable w spec) (.obj props) := by
  have hn := keys_sheetSchemas w spec
  have hds : Fields.Distinct (sheetSchemas w spec) := by
    rw [Fields.Distinct, hn]
    exact hd
  have he : ofTable w spec = .obj [("type", .str "object"), ("properties", .obj (sheetSchemas w spec)),
      ("required", .arr (spec.objects.map .str)), ("additionalProperties", .bool false)] := by
    rw [← Fields.ofList_of_distinct hds]
    rfl
  rw [he, validates_obj rfl]
  simp only [List.forall_mem_cons, List.not_mem_nil, IsEmpty.forall_iff, implies_true, and_true]
  refine ⟨passes_type rfl, passes_properties (List.forall_mem_append.2 ⟨?_, ?_⟩),
    passes_required fun kind h => ?_, passes_additional fun p hp => .inl ?_⟩
  · refine List.forall_mem_map.2 fun kind h => ?_
    obtain ⟨rows, hg, hrows⟩ := hkinds kind h
    exact ⟨_, hg, validates_arrayOf hrows⟩
  · refine List.forall_mem_map.2 fun a h => ?_
    obtain ⟨n, hle, hg⟩ := hpools a.1 (List.mem_map_of_mem h)
    refine ⟨_, hg, validates_arrayOf (List.forall_mem_map.2 fun i hi => ?_)⟩
    exact validates_pointer ((List.mem_range.1 hi).trans_le hle)
  · rw [hk]
    exact List.mem_append_left _ h
  · show p.1 ∈ Fields.keys (sheetSchemas w spec)
    rw [hn, ← hk]
    exact Fields.mem_keys_of_mem hp

/-- The types of attributes in a declared table tell their variants apart. -/
theorem clear_of_mem_attributes {name : String} (hm : c.scope.Built)
    (hd : (name, .table spec) ∈ c.scope.decls) (hs : s.spec = spec) (hk : kind ∈ spec.objects)
    {a : Attribute} (ha : a ∈ s.attributes kind) : a.ty.Clear := by
  obtain ⟨arrow, -, t, ht, rfl⟩ := (mem_attributes hs hk).1 ha
  have hget : c.scope.get? name = some (.table spec) := hm.sound.orderly.distinct.get?_eq_some hd
  refine (hm.closed.complete.spelled_of_mem_typesOf hget ?_).clear
  exact List.mem_map_of_mem (f := Prod.snd) (Fields.mem_of_get? ht)

/-- What is written of a store validates against the definition of its table, unless some kind or pool
has more than `2 ^ 32` rows in use. -/
theorem validates_write {c : Codec} {name : String} {spec : TableSpec} {s : Store} {j : Json}
    (hm : c.scope.Built) (hu : c.scope.Unambiguous) (hd : (name, .table spec) ∈ c.scope.decls)
    (hs : s.spec = spec) (hsize : ∀ kind ∈ s.objects ++ s.pools, s.size kind ≤ 2 ^ 32)
    (hw : s.write c = .ok j) :
    ∃ defs schema, (ofModule c.scope).prop? "$defs" = some (.obj defs) ∧
      Fields.get? defs name = some schema ∧ Validates (ofModule c.scope) schema j := by
  have hp : spec.Proper := hm.sound.orderly.proper _ hd
  have hnames := nodup_names hp hs
  obtain ⟨props, rfl, h⟩ := written_of_write hnames hw
  have hsize : ∀ kind ∈ s.objects ++ s.pools, s.size kind ≤ positionBound := hsize
  subst hs
  refine ⟨_, _, prop?_ofModule c.scope, Qualified.own.get?_definitions hm.sound hu hd,
    validates_ofTable hnames h.keys (fun kind hk => ?_) fun pool hpool => ?_⟩
  · obtain ⟨rows, hrows, hg⟩ := h.kinds kind hk
    obtain ⟨hlen, hrow⟩ := writeKind_eq_ok_iff.1 hrows
    refine ⟨rows, hg, fun x hx => ?_⟩
    obtain ⟨i, hi⟩ := List.mem_iff_getElem?.1 hx
    have hlt : i < s.size kind := hlen ▸ (List.getElem?_eq_some_iff.1 hi).1
    have hrownames := nodup_rowNames hp rfl hk
    obtain ⟨r, hr, rfl⟩ := (writeRow_eq_ok hrownames).1
      (hrow i _ x (List.getElem?_eq_getElem hlt) hi)
    rw [tableRow_eq none rfl hk]
    refine validates_row hrownames hr (hlt.trans_le (hsize kind (List.mem_append_left _ hk)))
      (fun key hkey => hsize _ (List.mem_append_left _ (codom_mem_of_mem_foreignKeys hp rfl hk hkey)))
      (fun a ha => hsize _ (List.mem_append_right _ (attrType_mem_of_mem_attributes hp rfl hk ha)))
      fun a ha v x hx => ?_
    obtain ⟨hproper, hexclusive⟩ := clear_of_mem_attributes hm hd rfl hk ha
    exact validates_of_onWire hm.sound hu (((writeAs_eq_ok hm.sound).1 hx).onWire hm.sound hproper)
      .own hproper hexclusive
  · exact ⟨_, hsize pool (List.mem_append_right _ hpool), h.pools pool hpool⟩

theorem validates_crossedDoc :
    crossedStore.write ⟨ringModule, 1⟩ = .ok crossedDoc ∧
    ∃ schema, Fields.get? (definitions ringModule) "Ring" = some schema ∧
      Validates (ofModule ringModule) schema crossedDoc := by
  have hw : crossedStore.write ⟨ringModule, 1⟩ = .ok crossedDoc := by cbv
  have hu : ringModule.Unambiguous := by
    intro x y hx
    obtain ⟨i, hi, -⟩ := below_iff.1 hx
    cases hi
  have hsize : ∀ kind ∈ crossedStore.objects ++ crossedStore.pools,
      crossedStore.size kind ≤ 2 ^ 32 := by decide
  obtain ⟨defs, schema, hdefs, hg, hv⟩ := validates_write (c := ⟨ringModule, 1⟩) ringModule_built hu
    (List.mem_singleton.2 rfl) (s := crossedStore) rfl hsize hw
  obtain rfl := Json.obj.inj (Option.some.inj hdefs)
  exact ⟨hw, schema, hg, hv⟩

end Schema

end Wireform

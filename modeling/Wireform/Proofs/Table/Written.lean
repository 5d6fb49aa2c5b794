import Mathlib
import Wireform.Proofs.Table.Append

/-!
# What a store is written as

The writer at each level as an equivalence: a row is written if all its cells are set and point at
rows and slots in use, and then as `WrittenRow.props`; the rows of a kind are written one by one. So
what a document says of a store can be read off it, and a store is written as a given document if its
cells are of this kind.
-/

namespace Wireform.Store

variable {c : Codec} {s : Store} {kind : String} {row pos : Nat}

/-! ### Cells -/

/-- The foreign key points at a row in use and is written as its position. -/
def KeyWritten (s : Store) (kind : String) (row : Nat) (key : Arrow) (j : Json) : Prop :=
  ∃ target pos, s.cell? kind row key.name = some (.row target) ∧
    s.position? key.codom target = some pos ∧ j = .ofNat pos

/-- What the cell of an attribute is written as. -/
inductive AttributeWritten (c : Codec) (s : Store) (a : Attribute) : Cell → Json → Prop
  | var {slot pos : Nat} : s.position? a.attrType slot = some pos →
    AttributeWritten c s a (.var slot) (.obj [(poolVar, .ofNat pos)])
  | value {v : Value} {x : Json} : c.encodeAs a.ty v = .ok x → poolVar? x = none →
    AttributeWritten c s a (.value v) x

theorem writeForeignKey_eq_ok {key : Arrow} {e : String × Json} :
    s.writeForeignKey kind row key = .ok e ↔ ∃ j, KeyWritten s kind row key j ∧ e = (key.name, j) := by
  unfold writeForeignKey
  constructor
  · intro h
    split at h
    · rename_i target hc
      split at h
      · rename_i pos hpos
        exact ⟨_, ⟨target, pos, hc, hpos, rfl⟩, (Except.ok.inj h).symm⟩
      · cases h
    · cases h
    · cases h
  · rintro ⟨_, ⟨target, pos, hc, hpos, rfl⟩, rfl⟩
    simp only [hc, hpos]

theorem writeAttribute_eq_ok {a : Attribute} {e : String × Json} :
    writeAttribute c s kind row a = .ok e ↔ ∃ cell j, s.cell? kind row a.name = some cell ∧
      AttributeWritten c s a cell j ∧ e = (a.name, j) := by
  unfold writeAttribute
  constructor
  · intro h
    split at h
    · rename_i v hc
      obtain ⟨x, hx, h⟩ := bind_eq_ok.1 h
      split at h
      · cases h
      · rename_i hplain
        exact ⟨_, x, hc, .value hx (by simpa using hplain), (Except.ok.inj h).symm⟩
    · rename_i slot hc
      split at h
      · rename_i pos hpos
        exact ⟨_, _, hc, .var hpos, (Except.ok.inj h).symm⟩
      · cases h
    · cases h
    · cases h
  · rintro ⟨cell, j, hc, ha, rfl⟩
    cases ha with
    | var hpos => simp only [hc, hpos]
    | value hx hplain => simp [hc, hx, hplain]

/-! ### Rows -/

/-- The members of a row with their documents. -/
structure WrittenRow where
  refs : List (Arrow × Json)
  values : List (Attribute × Json)

def WrittenRow.props (r : WrittenRow) (pos : Nat) : Fields Json :=
  (rowId, .ofNat pos) :: r.refs.map (fun p => (p.1.name, p.2)) ++
    r.values.map fun p => (p.1.name, p.2)

structure RowWritten (c : Codec) (s : Store) (kind : String) (row : Nat) (r : WrittenRow) : Prop where
  keys_eq : s.foreignKeys kind = r.refs.map Prod.fst
  attributes_eq : s.attributes kind = r.values.map Prod.fst
  refs : ∀ p ∈ r.refs, KeyWritten s kind row p.1 p.2
  values : ∀ p ∈ r.values, ∃ cell, s.cell? kind row p.1.name = some cell ∧
    AttributeWritten c s p.1 cell p.2

namespace RowWritten

variable {r : WrittenRow}

theorem keys_props (h : RowWritten c s kind row r) (pos : Nat) :
    Fields.keys (r.props pos) = rowNames (s.foreignKeys kind) (s.attributes kind) := by
  rw [h.keys_eq, h.attributes_eq]
  simp [WrittenRow.props, rowNames, Fields.keys, Function.comp_def]

variable (hd : (rowNames (s.foreignKeys kind) (s.attributes kind)).Nodup)
include hd

theorem distinct_props (h : RowWritten c s kind row r) (pos : Nat) :
    Fields.Distinct (r.props pos) := by
  unfold Fields.Distinct
  rw [h.keys_props]
  exact hd

theorem get?_ref (h : RowWritten c s kind row r) {p : Arrow × Json} (hp : p ∈ r.refs) :
    Fields.get? (r.props pos) p.1.name = some p.2 := by
  refine (h.distinct_props hd pos).get?_eq_some (List.mem_append_left _ (List.mem_cons_of_mem _ ?_))
  exact List.mem_map.2 ⟨p, hp, rfl⟩

theorem get?_value (h : RowWritten c s kind row r) {p : Attribute × Json} (hp : p ∈ r.values) :
    Fields.get? (r.props pos) p.1.name = some p.2 := by
  refine (h.distinct_props hd pos).get?_eq_some (List.mem_append_right _ ?_)
  exact List.mem_map.2 ⟨p, hp, rfl⟩

end RowWritten

theorem WrittenRow.get?_id (r : WrittenRow) (pos : Nat) :
    Fields.get? (r.props pos) rowId = some (.ofNat pos) := by
  rw [props, List.cons_append, Fields.get?_cons, if_pos rfl]

theorem writeRow_eq_ok (hd : (rowNames (s.foreignKeys kind) (s.attributes kind)).Nodup) {j : Json} :
    writeRow c s kind pos row = .ok j ↔ ∃ r, RowWritten c s kind row r ∧ j = .obj (r.props pos) := by
  constructor
  · intro h
    obtain ⟨refs, hrefs, h⟩ := bind_eq_ok.1 h
    obtain ⟨values, hvalues, h⟩ := bind_eq_ok.1 h
    obtain ⟨kparts, hkeys, rfl, hk⟩ := exists_parts_of_mapM hrefs
    obtain ⟨aparts, hattrs, rfl, ha⟩ := exists_parts_of_mapM hvalues
    have hk : ∀ p ∈ kparts, KeyWritten s kind row p.1 p.2.2 ∧ p.2 = (p.1.name, p.2.2) := by
      intro p hp
      obtain ⟨j, hj, he⟩ := writeForeignKey_eq_ok.1 (hk p hp)
      rw [he]
      exact ⟨hj, rfl⟩
    have ha : ∀ p ∈ aparts, (∃ cell, s.cell? kind row p.1.name = some cell ∧
        AttributeWritten c s p.1 cell p.2.2) ∧ p.2 = (p.1.name, p.2.2) := by
      intro p hp
      obtain ⟨cell, j, hc, hj, he⟩ := writeAttribute_eq_ok.1 (ha p hp)
      rw [he]
      exact ⟨⟨cell, hc, hj⟩, rfl⟩
    let r : WrittenRow := ⟨kparts.map fun p => (p.1, p.2.2), aparts.map fun p => (p.1, p.2.2)⟩
    have hr : RowWritten c s kind row r := by
      refine ⟨by simpa [r, Function.comp_def] using hkeys,
        by simpa [r, Function.comp_def] using hattrs, ?_, ?_⟩
      · exact List.forall_mem_map.2 fun p hp => (hk p hp).1
      · exact List.forall_mem_map.2 fun p hp => (ha p hp).1
    refine ⟨r, hr, ?_⟩
    have hprops : r.props pos = (rowId, .ofNat pos) :: kparts.map Prod.snd ++ aparts.map Prod.snd := by
      rw [List.map_congr_left fun p hp => (hk p hp).2, List.map_congr_left fun p hp => (ha p hp).2]
      simp [WrittenRow.props, r, Function.comp_def]
    rw [← Except.ok.inj h, ← hprops]
    exact congrArg Json.obj (Fields.ofList_of_distinct (hr.distinct_props hd pos))
  · rintro ⟨r, hr, rfl⟩
    have hrefs : (s.foreignKeys kind).mapM (s.writeForeignKey kind row) =
        .ok (r.refs.map fun p => (p.1.name, p.2)) := by
      rw [hr.keys_eq, mapM_map]
      exact mapM_eq_ok_of_forall fun p hp => writeForeignKey_eq_ok.2 ⟨p.2, hr.refs p hp, rfl⟩
    have hvalues : (s.attributes kind).mapM (writeAttribute c s kind row) =
        .ok (r.values.map fun p => (p.1.name, p.2)) := by
      rw [hr.attributes_eq, mapM_map]
      refine mapM_eq_ok_of_forall fun p hp => ?_
      obtain ⟨cell, hc, ha⟩ := hr.values p hp
      exact writeAttribute_eq_ok.2 ⟨cell, p.2, hc, ha, rfl⟩
    rw [writeRow, hrefs, ok_bind, hvalues, ok_bind]
    exact congrArg (Except.ok ∘ Json.obj) (Fields.ofList_of_distinct (hr.distinct_props hd pos))

/-! ### Kinds -/

theorem writeKind_eq_ok_iff {rows : List Json} : writeKind c s kind = .ok (kind, .arr rows) ↔
    rows.length = s.size kind ∧ ∀ (i row : Nat) (j : Json), (s.live kind)[i]? = some row →
      rows[i]? = some j → writeRow c s kind i row = .ok j := by
  have hmap : (s.live kind).zipIdx.mapM (fun p => writeRow c s kind p.2 p.1) = .ok rows ↔
      rows.length = s.size kind ∧ ∀ (i row : Nat) (j : Json), (s.live kind)[i]? = some row →
        rows[i]? = some j → writeRow c s kind i row = .ok j := by
    rw [mapM_eq_ok_iff, List.length_zipIdx, size]
    refine and_congr_right fun _ => forall_congr' fun i => ?_
    simp only [List.getElem?_zipIdx, Option.map_eq_some_iff, Prod.forall, Prod.mk.injEq, Nat.zero_add]
    constructor
    · intro h row j hrow hj
      exact h row i j ⟨row, hrow, rfl, rfl⟩ hj
    · rintro h row k j ⟨row', hrow, rfl, rfl⟩ hj
      exact h row' j hrow hj
  rw [← hmap]
  constructor
  · intro h
    obtain ⟨rows', hrows, he, -⟩ := writeKind_eq_ok h
    rwa [← Json.arr.inj (congrArg Prod.snd he)] at hrows
  · intro h
    change (s.live kind).zipIdx.mapM (fun p => writeRow c s kind p.2 p.1) >>= _ = _
    rw [h, ok_bind]
    rfl

end Wireform.Store

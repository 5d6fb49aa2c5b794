import Mathlib
import Wireform.Proofs.Table.Room

/-!
# What a read adds to a store

`Loaded` is what a read that succeeds has done: the fresh rows stand after the old ones, the cells of
each row of the document are where its `_id` says (`RowStored`), and the old rows keep their cells.
Cells are stored one after the other, but no two rows of a document have a cell in common, so the
order does not matter.
-/

namespace Wireform.Store

/-! ### Storing cells -/

/-- Rows and specification are the same; cells may differ. -/
structure Kept (s s' : Store) : Prop where
  spec : s'.spec = s.spec
  live : ∀ k, s'.live k = s.live k

theorem Kept.trans {s s' s'' : Store} (h : Kept s s') (h' : Kept s' s'') : Kept s s'' where
  spec := h'.spec.trans h.spec
  live k := (h'.live k).trans (h.live k)

/-- The cells of a kind before and after the entries have been stored. -/
structure Stored (entries : List (Nat × String × Cell)) (old new : Nat → String → Option Cell) :
    Prop where
  untouched : ∀ row field, (∀ e ∈ entries, e.1 = row → e.2.1 ≠ field) → new row field = old row field
  stored : ∀ e ∈ entries, (∀ e' ∈ entries, e'.1 = e.1 → e'.2.1 = e.2.1 → e' = e) →
    new e.1 e.2.1 = some e.2.2

theorem kept_of_setCell {s s' : Store} {kind field : String} {row : Nat} {cell : Cell}
    (h : s.setCell kind row field cell = .ok s') : Kept s s' := by
  obtain ⟨sheet, hs, -, rfl⟩ := setCell_eq_ok h
  refine ⟨rfl, fun k => ?_⟩
  by_cases hk : k = kind
  · rw [hk, live_of_sheet hs, live_of_sheet ((get?_setSheet _ _ _ _).trans (if_pos rfl))]
    rfl
  · rw [live, live, get?_setSheet, if_neg hk]

theorem cell?_of_setCell {s s' : Store} {kind field : String} {row : Nat} {cell : Cell}
    (h : s.setCell kind row field cell = .ok s') (k : String) (row' : Nat) (field' : String) :
    s'.cell? k row' field' =
      if k = kind ∧ row' = row ∧ field' = field then some cell else s.cell? k row' field' := by
  obtain ⟨sheet, hs, -, rfl⟩ := setCell_eq_ok h
  rw [cell?, cell?, get?_setSheet]
  by_cases hk : k = kind
  · rw [if_pos hk, Option.bind_some, Sheet.cell?_setCell, hk, hs]
    simp
  · rw [if_neg hk, if_neg fun h => hk h.1]

theorem stored_of_forM {kind : String} {entries : List (Nat × String × Cell)} {s s' : Store}
    (h : entries.forM (storeCell kind) s = .ok () s') :
    Kept s s' ∧ (∀ k ≠ kind, s'.cell? k = s.cell? k) ∧
      Stored entries (s.cell? kind) (s'.cell? kind) := by
  induction entries generalizing s with
  | nil =>
    obtain ⟨-, rfl⟩ := Reading.pure_eq_ok.1 h
    exact ⟨⟨rfl, fun _ => rfl⟩, fun _ _ => rfl, fun _ _ _ => rfl, by simp⟩
  | cons e entries ih =>
    obtain ⟨_, s₁, he, h⟩ := Reading.bind_eq_ok.1 h
    have hset := storeCell_eq_ok he
    obtain ⟨hk, ho, hs⟩ := ih h
    refine ⟨(kept_of_setCell hset).trans hk, fun k hne => ?_, fun row field hno => ?_, ?_⟩
    · rw [ho k hne]
      funext row field
      rw [cell?_of_setCell hset, if_neg fun h => hne h.1]
    · rw [List.forall_mem_cons] at hno
      rw [hs.untouched row field hno.2, cell?_of_setCell hset, if_neg]
      exact fun h => hno.1 h.2.1.symm h.2.2.symm
    · intro d hd honly
      -- A later entry for the same cell is the same entry.
      by_cases hlater : d ∈ entries
      · exact hs.stored d hlater fun d' hd' => honly d' (List.mem_cons_of_mem _ hd')
      · obtain rfl := (List.mem_cons.1 hd).resolve_right hlater
        rw [hs.untouched, cell?_of_setCell hset, if_pos ⟨rfl, rfl, rfl⟩]
        intro d' hd' hrow hfield
        exact hlater (honly d' (List.mem_cons_of_mem _ hd') hrow hfield ▸ hd')

/-- Cells of rows in use can be stored. -/
theorem exists_forM_storeCell {kind : String} {entries : List (Nat × String × Cell)} {s : Store}
    (h : ∀ e ∈ entries, e.1 ∈ s.live kind) :
    ∃ s', entries.forM (storeCell kind) s = .ok () s' := by
  induction entries generalizing s with
  | nil => exact ⟨s, rfl⟩
  | cons e entries ih =>
    rw [List.forall_mem_cons] at h
    obtain ⟨sheet, hsheet⟩ : ∃ sheet, Fields.get? s.sheets kind = some sheet := by
      refine Option.ne_none_iff_exists'.1 fun hnone => ?_
      rw [live, hnone] at h
      exact List.not_mem_nil h.1
    have hset := setCell_of_live hsheet (live_of_sheet hsheet ▸ h.1) e.2.1 e.2.2
    obtain ⟨s', hs'⟩ := @ih (s.setSheet kind (sheet.setCell e.1 e.2.1 e.2.2)) fun e' he' => by
      rw [(kept_of_setCell hset).live]
      exact h.2 e' he'
    have hfirst : storeCell kind e s = .ok () (s.setSheet kind (sheet.setCell e.1 e.2.1 e.2.2)) := by
      rw [storeCell_apply, hset]
    exact ⟨s', (Reading.bind_of_ok hfirst _).trans hs'⟩

/-- What the rows of a kind are read as, and that it is stored. -/
structure Filled (c : Codec) (doc : Fields Json) (fresh : Fields (List Nat)) (s s' : Store)
    (kind : String) (rows : List Json) (cells : List (List (Nat × String × Cell))) : Prop where
  listed : Fields.get? doc kind = some (.arr rows)
  read : rows.mapM (readRow c fresh kind (s.foreignKeys kind) (s.attributes kind)) = .ok cells
  stored : Stored cells.flatten (s.cell? kind) (s'.cell? kind)

theorem filled_of_fillKind {c : Codec} {doc : Fields Json} {fresh : Fields (List Nat)}
    {kind : String} {s s' : Store} (h : fillKind c doc fresh kind s = .ok () s') :
    Kept s s' ∧ (∀ k ≠ kind, s'.cell? k = s.cell? k) ∧
      ∃ rows cells, Filled c doc fresh s s' kind rows cells := by
  rw [fillKind, Reading.get_bind] at h
  obtain ⟨rows, hr, h⟩ := Reading.ofExcept_bind_eq_ok h
  obtain ⟨cells, hc, h⟩ := Reading.ofExcept_bind_eq_ok h
  obtain ⟨hk, ho, hs⟩ := stored_of_forM h
  exact ⟨hk, ho, rows, cells, rowsOf_eq_ok hr, hc, hs⟩

theorem foreignKeys_congr {s s' : Store} (h : s'.spec = s.spec) (kind : String) :
    s'.foreignKeys kind = s.foreignKeys kind := by
  rw [foreignKeys, foreignKeys, objects, objects, h]

theorem attributes_congr {s s' : Store} (h : s'.spec = s.spec) (kind : String) :
    s'.attributes kind = s.attributes kind := by
  rw [attributes, attributes, objects, objects, h]

theorem filled_of_forM {c : Codec} {doc : Fields Json} {fresh : Fields (List Nat)}
    {kinds : List String} (hd : kinds.Nodup) {s s' : Store}
    (h : kinds.forM (fillKind c doc fresh) s = .ok () s') :
    Kept s s' ∧ (∀ k ∉ kinds, s'.cell? k = s.cell? k) ∧
      ∀ kind ∈ kinds, ∃ rows cells, Filled c doc fresh s s' kind rows cells := by
  induction kinds generalizing s with
  | nil =>
    obtain ⟨-, rfl⟩ := Reading.pure_eq_ok.1 h
    exact ⟨⟨rfl, fun _ => rfl⟩, fun _ _ => rfl, by simp⟩
  | cons k kinds ih =>
    rw [List.nodup_cons] at hd
    obtain ⟨_, s₁, hf, h⟩ := Reading.bind_eq_ok.1 h
    obtain ⟨hk, ho, rows, cells, hfilled⟩ := filled_of_fillKind hf
    obtain ⟨hk', ho', hall⟩ := ih hd.2 h
    refine ⟨hk.trans hk', fun k' hk' => ?_, List.forall_mem_cons.2 ⟨?_, fun kind hkind => ?_⟩⟩
    · rw [List.mem_cons, not_or] at hk'
      rw [ho' k' hk'.2, ho k' hk'.1]
    · exact ⟨rows, cells, hfilled.listed, hfilled.read, by rw [ho' k hd.1]; exact hfilled.stored⟩
    · obtain ⟨rows, cells, hfilled⟩ := hall kind hkind
      have hne : kind ≠ k := fun he => hd.1 (he ▸ hkind)
      refine ⟨rows, cells, hfilled.listed, ?_, by rw [← ho kind hne]; exact hfilled.stored⟩
      rw [← foreignKeys_congr hk.spec, ← attributes_congr hk.spec]
      exact hfilled.read

/-! ### The cells of a row -/

/-- The cell points at the row whose number stands in the properties. -/
def Points (n base : String → Nat) (props : Fields Json) (key : Arrow) (cell : Cell) : Prop :=
  ∃ m < n key.codom, Fields.get? props key.name = some (.ofNat m) ∧
    cell = .row (base key.codom + m)

/-- The cell holds the attribute that stands in the properties: a slot of its pool or a value. -/
inductive Holds (c : Codec) (n base : String → Nat) (props : Fields Json) (a : Attribute) :
    Cell → Prop
  | var {m : Nat} : m < n a.attrType →
    Fields.get? props a.name = some (.obj [(poolVar, .ofNat m)]) →
      Holds c n base props a (.var (base a.attrType + m))
  | value {x : Json} {v : Value} : Fields.get? props a.name = some x → poolVar? x = none →
    c.decode a.ty x = .ok v → Holds c n base props a (.value v)

theorem poolVar?_eq_some {j var : Json} (h : poolVar? j = some var) : j = .obj [(poolVar, var)] := by
  unfold poolVar? at h
  split at h
  · split at h
    · rename_i hk
      rw [hk, Option.some.inj h]
    · cases h
  · cases h

section

variable {c : Codec} {names : List String} {n : String → Nat} {s : Store}
  {fresh : Fields (List Nat)} {kind : String} {pos : Nat} {props : Fields Json}

theorem readForeignKey_eq_ok (hr : Rooms names n s fresh) {key : Arrow} (hk : key.codom ∈ names)
    {e : String × Cell} (h : readForeignKey fresh kind pos props key = .ok e) :
    e.1 = key.name ∧ Points n s.nextOf props key e.2 := by
  obtain ⟨found, hf, h⟩ := bind_eq_ok.1 h
  have hget := Codec.field_eq_ok.1 hf
  split at h
  · rename_i row hp
    obtain ⟨m, hm, rfl, rfl⟩ := hr.placed?_eq_some hk hp
    obtain rfl := Except.ok.inj h
    exact ⟨rfl, m, hm, hget, rfl⟩
  · cases h

theorem readAttribute_eq_ok (hr : Rooms names n s fresh) {a : Attribute} (ha : a.attrType ∈ names)
    {e : String × Cell} (h : readAttribute c fresh kind pos props a = .ok e) :
    e.1 = a.name ∧ Holds c n s.nextOf props a e.2 := by
  obtain ⟨found, hf, h⟩ := bind_eq_ok.1 h
  have hget := Codec.field_eq_ok.1 hf
  split at h
  · rename_i var hvar
    split at h
    · rename_i slot hp
      obtain ⟨m, hm, rfl, rfl⟩ := hr.placed?_eq_some ha hp
      obtain rfl := Except.ok.inj h
      exact ⟨rfl, .var hm (hget.trans (congrArg some (poolVar?_eq_some hvar)))⟩
    · cases h
  · rename_i hplain
    obtain ⟨v, hv, h⟩ := bind_eq_ok.1 h
    obtain rfl := Except.ok.inj h
    exact ⟨rfl, .value hget hplain hv⟩

/-- The names that a row of the document has. -/
def rowNames (keys : List Arrow) (attrs : List Attribute) : List String :=
  rowId :: keys.map Arrow.name ++ attrs.map Attribute.name

/-- What the row with the given number is read as. -/
structure RowRead (c : Codec) (n base : String → Nat) (keys : List Arrow) (attrs : List Attribute)
    (row : Nat) (props : Fields Json) (cells : List (Nat × String × Cell)) : Prop where
  names : Codec.hasNames props (rowNames keys attrs) = true
  rows : ∀ e ∈ cells, e.1 = row
  fields : cells.map (fun e => e.2.1) = keys.map Arrow.name ++ attrs.map Attribute.name
  points : ∀ key ∈ keys, ∃ cell, (row, key.name, cell) ∈ cells ∧ Points n base props key cell
  holds : ∀ a ∈ attrs, ∃ cell, (row, a.name, cell) ∈ cells ∧ Holds c n base props a cell

theorem readRow_eq_ok (hr : Rooms names n s fresh) {keys : List Arrow} {attrs : List Attribute}
    (hkind : kind ∈ names) (hkeys : ∀ key ∈ keys, key.codom ∈ names)
    (hattrs : ∀ a ∈ attrs, a.attrType ∈ names) {j : Json} {i : Nat} (hi : i < n kind)
    (hid : j.prop? rowId = some (.ofNat i)) {cells : List (Nat × String × Cell)}
    (h : readRow c fresh kind keys attrs j = .ok cells) :
    ∃ props, j = .obj props ∧ RowRead c n s.nextOf keys attrs (s.nextOf kind + i) props cells := by
  obtain ⟨props, hp, hbody⟩ := bind_eq_ok.1 h
  obtain ⟨id, hf, h⟩ := bind_eq_ok.1 hbody
  clear hbody
  obtain ⟨rfl, hnames⟩ := Codec.expectRecord_eq_ok.1 hp
  obtain rfl : id = .ofNat i := Option.some.inj ((Codec.field_eq_ok.1 hf).symm.trans hid)
  have hrow : ((Fields.get? fresh kind).getD [])[i]? = some (s.nextOf kind + i) := by
    rw [hr.rows kind hkind, List.getElem?_range' hi, Nat.one_mul]
  rw [position?_ofNat, Option.getD_some] at h
  simp only [hrow] at h
  obtain ⟨refs, hrefs, h⟩ := bind_eq_ok.1 h
  obtain ⟨values, hvalues, h⟩ := bind_eq_ok.1 h
  obtain rfl := Except.ok.inj h
  obtain ⟨kparts, rfl, rfl, hk⟩ := exists_parts_of_mapM hrefs
  obtain ⟨aparts, rfl, rfl, ha⟩ := exists_parts_of_mapM hvalues
  have hk : ∀ p ∈ kparts, p.2.1 = p.1.name ∧ Points n s.nextOf props p.1 p.2.2 := fun p hp =>
    readForeignKey_eq_ok hr (hkeys _ (List.mem_map_of_mem hp)) (hk p hp)
  have ha : ∀ p ∈ aparts, p.2.1 = p.1.name ∧ Holds c n s.nextOf props p.1 p.2.2 := fun p hp =>
    readAttribute_eq_ok hr (hattrs _ (List.mem_map_of_mem hp)) (ha p hp)
  refine ⟨props, rfl, hnames, ?_, ?_, ?_, ?_⟩
  · exact List.forall_mem_map.2 fun _ _ => rfl
  · simp only [List.map_append, List.map_map]
    exact congrArg₂ _ (List.map_congr_left fun p hp => (hk p hp).1)
      (List.map_congr_left fun p hp => (ha p hp).1)
  · refine List.forall_mem_map.2 fun p hp => ⟨p.2.2, ?_, (hk p hp).2⟩
    rw [← (hk p hp).1]
    exact List.mem_map_of_mem (List.mem_append_left _ (List.mem_map_of_mem hp))
  · refine List.forall_mem_map.2 fun p hp => ⟨p.2.2, ?_, (ha p hp).2⟩
    rw [← (ha p hp).1]
    exact List.mem_map_of_mem (List.mem_append_right _ (List.mem_map_of_mem hp))

end

theorem RowRead.eq_of_field {c : Codec} {n base : String → Nat} {keys : List Arrow}
    {attrs : List Attribute} {row : Nat} {props : Fields Json} {cells : List (Nat × String × Cell)}
    (h : RowRead c n base keys attrs row props cells) (hd : (rowNames keys attrs).Nodup)
    {e e' : Nat × String × Cell} (he : e ∈ cells) (he' : e' ∈ cells) (hf : e'.2.1 = e.2.1) :
    e' = e := by
  have hnodup : (cells.map fun e => e.2.1).Nodup := by
    rw [h.fields]
    exact (List.nodup_cons.1 hd).2
  exact List.inj_on_of_nodup_map hnodup he' he hf

/-- The cells of a row belong to an index that was handed out. -/
theorem mem_fresh_of_readRow {c : Codec} {fresh : Fields (List Nat)} {kind : String}
    {keys : List Arrow} {attrs : List Attribute} {j : Json} {cells : List (Nat × String × Cell)}
    (h : readRow c fresh kind keys attrs j = .ok cells) :
    ∀ e ∈ cells, e.1 ∈ (Fields.get? fresh kind).getD [] := by
  obtain ⟨props, -, hbody⟩ := bind_eq_ok.1 h
  obtain ⟨id, -, hrow⟩ := bind_eq_ok.1 hbody
  clear h hbody
  simp only at hrow
  split at hrow
  · cases hrow
  rename_i row hget
  obtain ⟨refs, -, h⟩ := bind_eq_ok.1 hrow
  obtain ⟨values, -, h⟩ := bind_eq_ok.1 h
  obtain rfl := Except.ok.inj h
  exact List.forall_mem_map.2 fun _ _ => List.mem_of_getElem? hget

theorem mem_fresh_of_mapM_readRow {c : Codec} {fresh : Fields (List Nat)} {kind : String}
    {keys : List Arrow} {attrs : List Attribute} {rows : List Json}
    {cells : List (List (Nat × String × Cell))}
    (h : rows.mapM (readRow c fresh kind keys attrs) = .ok cells) :
    ∀ e ∈ cells.flatten, e.1 ∈ (Fields.get? fresh kind).getD [] := by
  obtain ⟨parts, rfl, rfl, hparts⟩ := exists_parts_of_mapM h
  intro e he
  obtain ⟨_, hl, he⟩ := List.mem_flatten.1 he
  obtain ⟨p, hp, rfl⟩ := List.mem_map.1 hl
  exact mem_fresh_of_readRow (hparts p hp) e he

/-! ### The members of a declared table -/

section

variable {spec : TableSpec} {s : Store} {kind : String}

theorem foreignKeys_eq (hs : s.spec = spec) (hk : kind ∈ spec.objects) :
    s.foreignKeys kind = spec.homsFrom kind := by
  rw [foreignKeys, objects, hs, if_pos (by simpa using hk)]

theorem attributes_eq (hs : s.spec = spec) (hk : kind ∈ spec.objects) :
    s.attributes kind = (spec.attrsFrom kind).filterMap fun a =>
      (spec.attrType? a.codom).map fun t => ⟨a.name, a.codom, t⟩ := by
  rw [attributes, objects, hs, if_pos (by simpa using hk)]

theorem mem_attributes (hs : s.spec = spec) (hk : kind ∈ spec.objects) {a : Attribute} :
    a ∈ s.attributes kind ↔ ∃ arrow ∈ spec.attrsFrom kind, ∃ t,
      spec.attrType? arrow.codom = some t ∧ a = ⟨arrow.name, arrow.codom, t⟩ := by
  rw [attributes_eq hs hk, List.mem_filterMap]
  simp only [Option.map_eq_some_iff, @eq_comm _ a]

theorem codom_mem_of_mem_foreignKeys (hp : spec.Proper) (hs : s.spec = spec)
    (hk : kind ∈ spec.objects) {key : Arrow} (h : key ∈ s.foreignKeys kind) :
    key.codom ∈ spec.objects := by
  rw [foreignKeys_eq hs hk] at h
  exact (hp.homs key (List.mem_of_mem_filter h)).2

theorem attrType_mem_of_mem_attributes (hp : spec.Proper) (hs : s.spec = spec)
    (hk : kind ∈ spec.objects) {a : Attribute} (h : a ∈ s.attributes kind) :
    a.attrType ∈ spec.attrTypes.keys := by
  obtain ⟨arrow, ha, t, -, rfl⟩ := (mem_attributes hs hk).1 h
  exact (hp.attrs arrow (List.mem_of_mem_filter ha)).2

theorem proper_of_mem_attributes (hp : spec.Proper) (hs : s.spec = spec) (hk : kind ∈ spec.objects)
    {a : Attribute} (h : a ∈ s.attributes kind) : a.ty.Proper := by
  obtain ⟨arrow, -, t, ht, rfl⟩ := (mem_attributes hs hk).1 h
  exact hp.types _ (Fields.mem_of_get? ht)

theorem map_name_attributes (hp : spec.Proper) (hs : s.spec = spec) (hk : kind ∈ spec.objects) :
    (s.attributes kind).map Attribute.name = (spec.attrsFrom kind).map Arrow.name := by
  have htype : ∀ a ∈ spec.attrsFrom kind, ∃ t, spec.attrType? a.codom = some t := fun a ha =>
    Fields.exists_get?_of_mem_keys (hp.attrs a (List.mem_of_mem_filter ha)).2
  rw [attributes_eq hs hk]
  revert htype
  generalize spec.attrsFrom kind = arrows
  intro htype
  induction arrows with
  | nil => rfl
  | cons a arrows ih =>
    rw [List.forall_mem_cons] at htype
    obtain ⟨t, ht⟩ := htype.1
    simp [ht, ih htype.2]

theorem nodup_rowNames (hp : spec.Proper) (hs : s.spec = spec) (hk : kind ∈ spec.objects) :
    (rowNames (s.foreignKeys kind) (s.attributes kind)).Nodup := by
  rw [rowNames, map_name_attributes hp hs hk, foreignKeys_eq hs hk]
  have hsub : ((spec.homsFrom kind).map Arrow.name ++ (spec.attrsFrom kind).map Arrow.name).Sublist
      (spec.objects ++ spec.attrTypes.keys ++ spec.homs.map Arrow.name ++
        spec.attrs.map Arrow.name) := by
    refine List.Sublist.append ?_ (List.filter_sublist.map _)
    exact (List.filter_sublist.map _).trans (List.sublist_append_right _ _)
  exact List.nodup_cons.2 ⟨fun h => hp.noRowId (hsub.subset h), hp.members.sublist hsub⟩

end

/-! ### The store after the read -/

/-- The cells of the row with the given number are those of the properties. -/
structure RowStored (c : Codec) (n base : String → Nat) (s : Store) (kind : String) (i : Nat)
    (props : Fields Json) : Prop where
  names : Codec.hasNames props (rowNames (s.foreignKeys kind) (s.attributes kind)) = true
  points : ∀ key ∈ s.foreignKeys kind, ∃ cell,
    s.cell? kind (base kind + i) key.name = some cell ∧ Points n base props key cell
  holds : ∀ a ∈ s.attributes kind, ∃ cell,
    s.cell? kind (base kind + i) a.name = some cell ∧ Holds c n base props a cell

/-- The rows of a kind, once their cells have been stored. -/
theorem rowStored_of_filled {c : Codec} {doc : Fields Json} {names : List String} {n : String → Nat}
    {s s₁ s' : Store} {fresh : Fields (List Nat)} {kind : String} {rows sorted : List Json}
    {cells : List (List (Nat × String × Cell))} (hr : Rooms names n s fresh) (hkind : kind ∈ names)
    (hkeys : ∀ key ∈ s₁.foreignKeys kind, key.codom ∈ names)
    (hattrs : ∀ a ∈ s₁.attributes kind, a.attrType ∈ names)
    (hd : (rowNames (s₁.foreignKeys kind) (s₁.attributes kind)).Nodup)
    (hn : n kind = rows.length) (ho : InOrder rows sorted) (hkept : Kept s₁ s')
    (h : Filled c doc fresh s₁ s' kind rows cells) :
    (∀ (i : Nat) (row : Json), sorted[i]? = some row →
      ∃ props, row = .obj props ∧ RowStored c n s.nextOf s' kind i props) ∧
    ∀ row field, row < s.nextOf kind → s'.cell? kind row field = s₁.cell? kind row field := by
  obtain ⟨parts, rfl, rfl, hparts⟩ := exists_parts_of_mapM h.read
  have hread : ∀ p ∈ parts, ∀ i, p.1.prop? rowId = some (.ofNat i) → i < n kind →
      ∃ props, p.1 = .obj props ∧ RowRead c n s.nextOf (s₁.foreignKeys kind) (s₁.attributes kind)
        (s.nextOf kind + i) props p.2 := fun p hp i hid hi =>
    readRow_eq_ok hr hkind hkeys hattrs hi hid (hparts p hp)
  have hids : ∀ p ∈ parts, ∃ i < n kind, p.1.prop? rowId = some (.ofNat i) := fun p hp =>
    hn ▸ ho.exists_id (List.mem_map_of_mem hp)
  -- Entries for one cell come from one row, since its index tells the number of the row.
  have honly : ∀ e ∈ (parts.map Prod.snd).flatten, ∀ e' ∈ (parts.map Prod.snd).flatten,
      e'.1 = e.1 → e'.2.1 = e.2.1 → e' = e := by
    intro e he e' he' hrow hfield
    obtain ⟨_, hl, he⟩ := List.mem_flatten.1 he
    obtain ⟨p, hp, rfl⟩ := List.mem_map.1 hl
    obtain ⟨_, hl', he'⟩ := List.mem_flatten.1 he'
    obtain ⟨p', hp', rfl⟩ := List.mem_map.1 hl'
    obtain ⟨i, hi, hid⟩ := hids p hp
    obtain ⟨i', hi', hid'⟩ := hids p' hp'
    obtain ⟨props, -, hrr⟩ := hread p hp i hid hi
    obtain ⟨props', -, hrr'⟩ := hread p' hp' i' hid' hi'
    rw [hrr.rows e he, hrr'.rows e' he', Nat.add_left_cancel_iff] at hrow
    subst hrow
    have heq : p'.1 = p.1 := Option.some.inj
      ((ho.getElem?_of_mem (List.mem_map_of_mem hp') hid').symm.trans
        (ho.getElem?_of_mem (List.mem_map_of_mem hp) hid))
    have hcells : p'.2 = p.2 := Except.ok.inj
      ((hparts p' hp').symm.trans (heq ▸ hparts p hp))
    exact hrr.eq_of_field hd he (hcells ▸ he') hfield
  constructor
  · intro i row hi
    obtain ⟨p, hp, rfl⟩ := List.mem_map.1 (ho.perm.mem_iff.1 (List.mem_of_getElem? hi))
    have hlt : i < n kind := by
      rw [hn, ← ho.length_eq]
      exact (List.getElem?_eq_some_iff.1 hi).1
    obtain ⟨props, hobj, hrr⟩ := hread p hp i (ho.ids i p.1 hi) hlt
    have hstored : ∀ e ∈ p.2, s'.cell? kind e.1 e.2.1 = some e.2.2 := fun e he => by
      have hm : e ∈ (parts.map Prod.snd).flatten :=
        List.mem_flatten.2 ⟨p.2, List.mem_map_of_mem hp, he⟩
      exact h.stored.stored e hm (honly e hm)
    refine ⟨props, hobj, ?_, ?_, ?_⟩
    · rw [foreignKeys_congr hkept.spec, attributes_congr hkept.spec]
      exact hrr.names
    · intro key hkey
      obtain ⟨cell, hm, hc⟩ := hrr.points key (foreignKeys_congr hkept.spec kind ▸ hkey)
      exact ⟨cell, hstored _ hm, hc⟩
    · intro a ha
      obtain ⟨cell, hm, hc⟩ := hrr.holds a (attributes_congr hkept.spec kind ▸ ha)
      exact ⟨cell, hstored _ hm, hc⟩
  · intro row field hlt
    refine h.stored.untouched row field fun e he hrow => ?_
    obtain ⟨_, hl, he⟩ := List.mem_flatten.1 he
    obtain ⟨p, hp, rfl⟩ := List.mem_map.1 hl
    obtain ⟨i, hi, hid⟩ := hids p hp
    obtain ⟨props, -, hrr⟩ := hread p hp i hid hi
    have := hrr.rows e he
    omega

/-- What a read has done to the store once it has filled some kinds; `s₁` is the store in which room
has been made. -/
structure Loading (c : Codec) (doc : Fields Json) (kinds : List String) (s s₁ s' : Store) : Prop where
  kept : Kept s₁ s'
  old : ∀ k row field, row < s.nextOf k → s'.cell? k row field = s.cell? k row field
  other : ∀ k ∉ kinds, s'.cell? k = s.cell? k
  rows : ∀ kind ∈ kinds, ∃ rows sorted, Fields.get? doc kind = some (.arr rows) ∧
    InOrder rows sorted ∧ ∀ (i : Nat) (row : Json), sorted[i]? = some row →
      ∃ props, row = .obj props ∧ RowStored c (roomFor s.caps (.obj doc)) s.nextOf s' kind i props

theorem loading_of_fill {c : Codec} {doc : Fields Json} {spec : TableSpec} {kinds : List String}
    {fresh : Fields (List Nat)} {s s₁ s' : Store} (hp : spec.Proper) (hs : s.spec = spec)
    (hmade : RoomMade doc s s₁ fresh) (hk : ∀ kind ∈ kinds, kind ∈ s.objects) (hd : kinds.Nodup)
    (h : kinds.forM (fillKind c doc fresh) s₁ = .ok () s') : Loading c doc kinds s s₁ s' := by
  obtain ⟨hkept, hother, hfilled⟩ := filled_of_forM hd h
  have hspec : s₁.spec = spec := hmade.grown.spec.trans hs
  have hobjects : s.objects = spec.objects := congrArg TableSpec.objects hs
  have hpools : s.pools = spec.attrTypes.keys := congrArg (fun spec => spec.attrTypes.keys) hs
  have hfill : ∀ kind ∈ kinds, ∃ rows sorted, Fields.get? doc kind = some (.arr rows) ∧
      InOrder rows sorted ∧ (∀ (i : Nat) (row : Json), sorted[i]? = some row → ∃ props,
        row = .obj props ∧ RowStored c (roomFor s.caps (.obj doc)) s.nextOf s' kind i props) ∧
      ∀ row field, row < s.nextOf kind → s'.cell? kind row field = s₁.cell? kind row field := by
    intro kind hkind
    obtain ⟨rows, cells, hf⟩ := hfilled kind hkind
    obtain ⟨⟨rows', sorted, hrows, ho⟩, hroom⟩ := hmade.kinds kind (hk kind hkind)
    obtain rfl : rows' = rows := by simpa [hf.listed] using hrows.symm
    have hk' : kind ∈ spec.objects := hobjects ▸ hk kind hkind
    refine ⟨rows', sorted, hrows, ho, rowStored_of_filled hmade.rooms
      (List.mem_append_left _ (hk kind hkind)) ?_ ?_ (nodup_rowNames hp hspec hk')
      (hroom.trans (rowCount_of_prop? hrows)) ho hkept hf⟩
    · intro key hkey
      rw [hobjects]
      exact List.mem_append_left _ (codom_mem_of_mem_foreignKeys hp hspec hk' hkey)
    · intro a ha
      rw [hpools]
      exact List.mem_append_right _ (attrType_mem_of_mem_attributes hp hspec hk' ha)
  refine ⟨hkept, fun k row field hlt => ?_, fun k hk => ?_, fun kind hkind => ?_⟩
  · by_cases hk : k ∈ kinds
    · obtain ⟨_, _, -, -, -, hold⟩ := hfill k hk
      rw [hold row field hlt, hmade.grown.cell?_eq]
    · rw [hother k hk, hmade.grown.cell?_eq]
  · rw [hother k hk, hmade.grown.cell?_eq]
  · obtain ⟨rows, sorted, hrows, ho, hall, -⟩ := hfill kind hkind
    exact ⟨rows, sorted, hrows, ho, hall⟩

theorem loading_of_read {c : Codec} {spec : TableSpec} {s s' : Store} {j : Json} (hp : spec.Proper)
    (hs : s.spec = spec) (h : read c j s = .ok () s') :
    ∃ doc fresh s₁, j = .obj doc ∧ RoomMade doc s s₁ fresh ∧ Loading c doc s.objects s s₁ s' := by
  generalize hx : read c j = x at h
  unfold read at hx
  split at hx <;> subst hx
  case h_2 => cases h
  rename_i doc
  rw [Reading.get_bind] at h
  obtain ⟨_, -, h⟩ := Reading.ofExcept_bind_eq_ok h
  obtain ⟨kinds, s₁, hkinds, h⟩ := Reading.bind_eq_ok.1 h
  obtain ⟨pools, s₂, hpools, h⟩ := Reading.bind_eq_ok.1 h
  have hnames := nodup_names hp hs
  have hmade := roomMade_of_allocation hnames hkinds hpools
  rw [Fields.ofList_of_distinct hmade.rooms.distinct] at h
  exact ⟨doc, _, s₂, rfl, hmade, loading_of_fill hp hs hmade (fun _ hk => hk)
    (List.nodup_append.1 hnames).1 h⟩

/-- What a read that succeeds has done to the store. -/
structure Loaded (c : Codec) (doc : Fields Json) (s s' : Store) : Prop where
  spec : s'.spec = s.spec
  live : ∀ k ∈ s.objects ++ s.pools,
    s'.live k = s.live k ++ List.range' (s.nextOf k) (rowCount (.obj doc) k)
  old : ∀ k row field, row < s.nextOf k → s'.cell? k row field = s.cell? k row field
  rows : ∀ kind ∈ s.objects, ∃ rows sorted, Fields.get? doc kind = some (.arr rows) ∧
    InOrder rows sorted ∧ ∀ (i : Nat) (row : Json), sorted[i]? = some row →
      ∃ props, row = .obj props ∧ RowStored c (rowCount (.obj doc)) s.nextOf s' kind i props
  pools : ∀ pool ∈ s.pools, ListsPool doc pool

theorem loaded_of_read {c : Codec} {spec : TableSpec} {s s' : Store} {j : Json} (hp : spec.Proper)
    (hs : Sane spec s) (h : read c j s = .ok () s') : ∃ doc, j = .obj doc ∧ Loaded c doc s s' := by
  obtain ⟨doc, fresh, s₁, rfl, hmade, hl⟩ := loading_of_read hp hs.spec_eq h
  have hrows := hl.rows
  have hg := hmade.grown
  rw [hs.uncapped, roomFor_uncapped] at hrows hg
  refine ⟨doc, rfl, hl.kept.spec.trans hg.spec, fun k hk => ?_, hl.old, hrows, hmade.pools⟩
  have hsheet := hs.sheets k (by rwa [← hs.objects_eq, ← hs.pools_eq])
  rw [hl.kept.live, hg.live_eq hsheet, if_pos hk]

end Wireform.Store

import Mathlib
import Wireform.Proofs.Codec.NormalForm
import Wireform.Proofs.Module.Built
import Wireform.Proofs.Table.Load

/-!
# Reading appends a disjoint union

After a read, a store is written as before, followed by the entries of the document in the order of
their numbers (`Appended`). Every number of the document, be it of a row, of a row pointed at or of a
slot, has gone up by the number of entries that stood there before, and plain values are in normal
form. Removed rows leave gaps among the indices of the store, but positions have none, so the shift
is the same for all entries of a kind.
-/

namespace Wireform.Store

/-! ### Moved entries -/

/-- An attribute whose pool has `count` slots already. -/
inductive MovedAttribute (c : Codec) (t : Ty) (count : Nat) : Json → Json → Prop
  | var (n : Nat) :
    MovedAttribute c t count (.obj [(poolVar, .ofNat n)]) (.obj [(poolVar, .ofNat (count + n))])
  | value {x x' : Json} {v : Value} : poolVar? x = none → c.decode t x = .ok v →
    c.encodeAs t v = .ok x' → MovedAttribute c t count x x'

/-- A row when there are already `count` rows of every kind and slots of every pool. -/
structure MovedProps (c : Codec) (spec : TableSpec) (count : String → Nat) (kind : String)
    (props props' : Fields Json) : Prop where
  keys : Fields.keys props' =
    rowId :: (spec.homsFrom kind).map Arrow.name ++ (spec.attrsFrom kind).map Arrow.name
  perm : (Fields.keys props').Perm (Fields.keys props)
  id : ∃ n, Fields.get? props rowId = some (.ofNat n) ∧
    Fields.get? props' rowId = some (.ofNat (count kind + n))
  homs : ∀ key ∈ spec.homsFrom kind, ∃ n, Fields.get? props key.name = some (.ofNat n) ∧
    Fields.get? props' key.name = some (.ofNat (count key.codom + n))
  attrs : ∀ a ∈ spec.attrsFrom kind, ∃ t x x', spec.attrType? a.codom = some t ∧
    Fields.get? props a.name = some x ∧ Fields.get? props' a.name = some x' ∧
    MovedAttribute c t (count a.codom) x x'

def MovedRow (c : Codec) (spec : TableSpec) (count : String → Nat) (kind : String)
    (row row' : Json) : Prop :=
  ∃ props props', row = .obj props ∧ row' = .obj props' ∧ MovedProps c spec count kind props props'

def MovedSlot (count : Nat) (j j' : Json) : Prop := ∃ i, j = slot i ∧ j' = slot (count + i)

/-- The document `j` lists the entries of `j₀` and then those of `j₁`, moved behind them. -/
structure Appended (c : Codec) (spec : TableSpec) (j₀ j₁ j : Json) : Prop where
  names : ∃ props, j = .obj props ∧ Fields.keys props = spec.objects ++ spec.attrTypes.keys
  kinds : ∀ kind ∈ spec.objects, ∃ old rows sorted moved, j₀.prop? kind = some (.arr old) ∧
    j₁.prop? kind = some (.arr rows) ∧ InOrder rows sorted ∧
    List.Forall₂ (MovedRow c spec (rowCount j₀) kind) sorted moved ∧
    j.prop? kind = some (.arr (old ++ moved))
  pools : ∀ pool ∈ spec.attrTypes.keys, ∃ old, j₀.prop? pool = some (.arr old) ∧
    (j₁.prop? pool = none ∧ j.prop? pool = some (.arr old) ∨
      ∃ slots sorted moved, j₁.prop? pool = some (.arr slots) ∧ InOrder slots sorted ∧
        List.Forall₂ (MovedSlot (rowCount j₀ pool)) sorted moved ∧
        j.prop? pool = some (.arr (old ++ moved)))

/-! ### Plain values -/

/-- A plain value is not written as a pool reference, since writing keeps the names of an object. -/
theorem exists_encodeAs_of_decode {c : Codec} {t : Ty} {x : Json} {v : Value}
    (hm : c.scope.Built) (ht : t.Proper) (hx : x.WellFormed) (hplain : poolVar? x = none)
    (h : c.decode t x = .ok v) : ∃ x', c.encodeAs t v = .ok x' ∧ poolVar? x' = none := by
  have hreads := Codec.reads_of_readWithin h
  obtain ⟨x', hs⟩ := hreads.settled hm.sound ht hx
  refine ⟨x', Codec.writeAs_of_writes hm.sound hs.writes, ?_⟩
  by_contra hvar
  obtain ⟨var, hvar⟩ := Option.ne_none_iff_exists'.1 hvar
  have he := hs.encodes
  rw [poolVar?_eq_some hvar] at he
  obtain ⟨props, rfl, hperm⟩ := hreads.keys_of_encode hm.sound ht hx he
  have hkeys : Fields.keys props = [poolVar] := List.perm_singleton.1 hperm.symm
  obtain ⟨⟨k, y⟩, rfl, hk⟩ := List.map_eq_singleton_iff.1 hkeys
  have hk : k = poolVar := hk
  simp [poolVar?, hk] at hplain

/-! ### Positions -/

section

variable {c : Codec} {spec : TableSpec} {doc : Fields Json} {s s' : Store} {kind : String}

theorem Loaded.position?_old (h : Loaded c doc s s') (hk : kind ∈ s.objects ++ s.pools)
    {row pos : Nat} (hr : s.position? kind row = some pos) : s'.position? kind row = some pos := by
  rw [position?, List.idxOf?] at hr
  rw [position?, List.idxOf?, h.live kind hk, List.findIdx?_append, hr, Option.some_or]

theorem Loaded.position?_new (hs : Sane spec s) (h : Loaded c doc s s')
    (hk : kind ∈ s.objects ++ s.pools) {i : Nat} (hi : i < rowCount (.obj doc) kind) :
    s'.position? kind (s.nextOf kind + i) = some (s.size kind + i) := by
  have hold : (s.live kind).findIdx? (· == s.nextOf kind + i) = none := by
    rw [List.findIdx?_eq_none_iff]
    intro row hr
    have := hs.live_lt hr
    exact beq_false_of_ne (by omega)
  have hnew : (List.range' (s.nextOf kind) (rowCount (.obj doc) kind)).findIdx?
      (· == s.nextOf kind + i) = some i := by
    rw [List.findIdx?_eq_some_iff_getElem]
    exact ⟨by simpa using hi, by simp, by simp; omega⟩
  rw [position?, List.idxOf?, h.live kind hk, List.findIdx?_append, hold, hnew, size]
  simp [Nat.add_comm]

/-! ### Rows that were there before -/

theorem writeForeignKey_old (h : Loaded c doc s s') {row : Nat} (hr : row < s.nextOf kind)
    {key : Arrow} (hk : key.codom ∈ s.objects ++ s.pools) {e : String × Json}
    (he : s.writeForeignKey kind row key = .ok e) : s'.writeForeignKey kind row key = .ok e := by
  unfold writeForeignKey at he ⊢
  rw [h.old kind row key.name hr]
  split at he
  · split at he
    · rename_i pos hpos
      simp only [h.position?_old hk hpos]
      exact he
    · cases he
  · cases he
  · cases he

theorem writeAttribute_old (h : Loaded c doc s s') {row : Nat} (hr : row < s.nextOf kind)
    {a : Attribute} (ha : a.attrType ∈ s.objects ++ s.pools) {e : String × Json}
    (he : writeAttribute c s kind row a = .ok e) : writeAttribute c s' kind row a = .ok e := by
  unfold writeAttribute at he ⊢
  rw [h.old kind row a.name hr]
  split at he
  · exact he
  · split at he
    · rename_i pos hpos
      simp only [h.position?_old ha hpos]
      exact he
    · cases he
  · cases he
  · cases he

theorem writeRow_old (hp : spec.Proper) (hs : Sane spec s) (h : Loaded c doc s s')
    (hk : kind ∈ spec.objects) {pos row : Nat} (hr : row ∈ s.live kind) {j : Json}
    (hj : writeRow c s kind pos row = .ok j) : writeRow c s' kind pos row = .ok j := by
  have hlt := hs.live_lt hr
  obtain ⟨refs, hrefs, hbody⟩ := bind_eq_ok.1 hj
  obtain ⟨values, hvalues, hobj⟩ := bind_eq_ok.1 hbody
  rw [writeRow, foreignKeys_congr h.spec, attributes_congr h.spec,
    mapM_mono (fun key hkey e => writeForeignKey_old h hlt ?_) hrefs, ok_bind,
    mapM_mono (fun a ha e => writeAttribute_old h hlt ?_) hvalues, ok_bind]
  · exact hobj
  · rw [hs.pools_eq]
    exact List.mem_append_right _ (attrType_mem_of_mem_attributes hp hs.spec_eq hk ha)
  · rw [hs.objects_eq]
    exact List.mem_append_left _ (codom_mem_of_mem_foreignKeys hp hs.spec_eq hk hkey)

/-! ### Rows of the document -/

theorem writeForeignKey_new (hs : Sane spec s) (h : Loaded c doc s s') {row : Nat} {key : Arrow}
    (hk : key.codom ∈ s.objects ++ s.pools) {props : Fields Json} {cell : Cell}
    (hcell : s'.cell? kind row key.name = some cell)
    (hpoints : Points (rowCount (.obj doc)) s.nextOf props key cell) :
    ∃ n, Fields.get? props key.name = some (.ofNat n) ∧
      s'.writeForeignKey kind row key = .ok (key.name, .ofNat (s.size key.codom + n)) := by
  obtain ⟨n, hn, hget, rfl⟩ := hpoints
  refine ⟨n, hget, ?_⟩
  simp only [writeForeignKey, hcell, h.position?_new hs hk hn]

theorem writeAttribute_new (hm : c.scope.Built) (hs : Sane spec s) (h : Loaded c doc s s')
    {row : Nat} {a : Attribute} (hty : a.ty.Proper) (ha : a.attrType ∈ s.objects ++ s.pools)
    {props : Fields Json} (hprops : (Json.obj props).WellFormed) {cell : Cell}
    (hcell : s'.cell? kind row a.name = some cell)
    (hholds : Holds c (rowCount (.obj doc)) s.nextOf props a cell) :
    ∃ x x', Fields.get? props a.name = some x ∧
      writeAttribute c s' kind row a = .ok (a.name, x') ∧
      MovedAttribute c a.ty (s.size a.attrType) x x' := by
  cases hholds with
  | @var n hn hget =>
    refine ⟨_, _, hget, ?_, .var n⟩
    simp only [writeAttribute, hcell, h.position?_new hs ha hn]
  | @value x v hget hplain hv =>
    obtain ⟨x', hx', hplain'⟩ := exists_encodeAs_of_decode hm hty (hprops.prop hget) hplain hv
    refine ⟨x, x', hget, ?_, .value hplain hv hx'⟩
    simp [writeAttribute, hcell, hx', hplain']

/-- A run over members of a row gives a property under the name of each. -/
theorem exists_props_of_mapM {α : Type} {f : α → Except CodecError (String × Json)}
    {name : α → String} {R : α → Json → Prop} {l : List α}
    (h : ∀ x ∈ l, ∃ y, f x = .ok (name x, y) ∧ R x y) :
    ∃ props : Fields Json, l.mapM f = .ok props ∧ Fields.keys props = l.map name ∧
      ∀ x ∈ l, ∃ y, (name x, y) ∈ props ∧ R x y := by
  obtain ⟨parts, rfl, hp⟩ := exists_parts h
  refine ⟨parts.map fun p => (name p.1, p.2), ?_, ?_, ?_⟩
  · rw [mapM_map]
    exact mapM_eq_ok_of_forall fun p hm => (hp p hm).1
  · rw [Fields.keys, List.map_map, List.map_map]
    rfl
  · exact List.forall_mem_map.2 fun p hm => ⟨p.2, List.mem_map.2 ⟨p, hm, rfl⟩, (hp p hm).2⟩

theorem exists_mapM_writeForeignKey (hp : spec.Proper) (hs : Sane spec s) (h : Loaded c doc s s')
    (hk : kind ∈ spec.objects) {i : Nat} {props : Fields Json}
    (hr : RowStored c (rowCount (.obj doc)) s.nextOf s' kind i props) :
    ∃ refs, (s'.foreignKeys kind).mapM (s'.writeForeignKey kind (s.nextOf kind + i)) = .ok refs ∧
      Fields.keys refs = (s'.foreignKeys kind).map Arrow.name ∧
      ∀ key ∈ s'.foreignKeys kind, ∃ y, (key.name, y) ∈ refs ∧
        ∃ n, Fields.get? props key.name = some (.ofNat n) ∧
          y = .ofNat (s.size key.codom + n) := by
  refine exists_props_of_mapM fun key hkey => ?_
  obtain ⟨cell, hcell, hpoints⟩ := hr.points key hkey
  have hcodom := codom_mem_of_mem_foreignKeys hp (h.spec.trans hs.spec_eq) hk hkey
  obtain ⟨n, hget, hw⟩ :=
    writeForeignKey_new hs h (List.mem_append_left _ (hs.objects_eq ▸ hcodom)) hcell hpoints
  exact ⟨_, hw, n, hget, rfl⟩

theorem exists_mapM_writeAttribute (hm : c.scope.Built) (hp : spec.Proper) (hs : Sane spec s)
    (h : Loaded c doc s s') (hk : kind ∈ spec.objects) {i : Nat} {props : Fields Json}
    (hprops : (Json.obj props).WellFormed)
    (hr : RowStored c (rowCount (.obj doc)) s.nextOf s' kind i props) :
    ∃ values, (s'.attributes kind).mapM (writeAttribute c s' kind (s.nextOf kind + i)) =
        .ok values ∧
      Fields.keys values = (s'.attributes kind).map Attribute.name ∧
      ∀ a ∈ s'.attributes kind, ∃ y, (a.name, y) ∈ values ∧
        ∃ x, Fields.get? props a.name = some x ∧
          MovedAttribute c a.ty (s.size a.attrType) x y := by
  have hspec : s'.spec = spec := h.spec.trans hs.spec_eq
  refine exists_props_of_mapM fun a ha => ?_
  obtain ⟨cell, hcell, hholds⟩ := hr.holds a ha
  have htype := attrType_mem_of_mem_attributes hp hspec hk ha
  have hty := proper_of_mem_attributes hp hspec hk ha
  obtain ⟨x, x', hget, hw, hmoved⟩ :=
    writeAttribute_new hm hs h hty (List.mem_append_right _ (hs.pools_eq ▸ htype)) hprops hcell hholds
  exact ⟨x', hw, x, hget, hmoved⟩

/-- The row of the document with number `i`, written at its position. -/
theorem writeRow_new (hm : c.scope.Built) (hp : spec.Proper) (hs : Sane spec s)
    (h : Loaded c doc s s') (hk : kind ∈ spec.objects) {i : Nat} {props : Fields Json}
    (hprops : (Json.obj props).WellFormed) (hid : Fields.get? props rowId = some (.ofNat i))
    (hr : RowStored c (rowCount (.obj doc)) s.nextOf s' kind i props) :
    ∃ props', writeRow c s' kind (s.size kind + i) (s.nextOf kind + i) = .ok (.obj props') ∧
      MovedProps c spec s.size kind props props' := by
  have hspec : s'.spec = spec := h.spec.trans hs.spec_eq
  obtain ⟨refs, hrefs, hrnames, hrall⟩ := exists_mapM_writeForeignKey hp hs h hk hr
  obtain ⟨values, hvalues, hvnames, hvall⟩ := exists_mapM_writeAttribute hm hp hs h hk hprops hr
  let props' : Fields Json := (rowId, .ofNat (s.size kind + i)) :: refs ++ values
  have hnames : Fields.keys props' = rowNames (s'.foreignKeys kind) (s'.attributes kind) := by
    rw [Fields.keys_append, Fields.keys_cons, hrnames, hvnames, rowNames]
  have hnodup := nodup_rowNames hp hspec hk
  have hdistinct : Fields.Distinct props' := by rw [Fields.Distinct, hnames]; exact hnodup
  refine ⟨props', ?_, ?_, ?_, ⟨i, hid, hdistinct.get?_eq_some (by simp [props'])⟩, ?_, ?_⟩
  · rw [writeRow, hrefs, ok_bind, hvalues, ok_bind]
    exact congrArg (Except.ok ∘ Json.obj) (Fields.ofList_of_distinct hdistinct)
  · rw [hnames, rowNames, foreignKeys_eq hspec hk, map_name_attributes hp hspec hk]
  · rw [hnames]
    exact Codec.perm_of_hasNames hnodup hr.names
  · intro key hkey
    rw [← foreignKeys_eq hspec hk] at hkey
    obtain ⟨y, hy, n, hget, rfl⟩ := hrall key hkey
    exact ⟨n, hget, hdistinct.get?_eq_some (List.mem_append_left _ (List.mem_cons_of_mem _ hy))⟩
  · intro arrow harrow
    obtain ⟨t, ht⟩ := Fields.exists_get?_of_mem_keys
      (hp.attrs arrow (List.mem_of_mem_filter harrow)).2
    obtain ⟨y, hy, x, hget, hmoved⟩ :=
      hvall _ ((mem_attributes hspec hk).2 ⟨arrow, harrow, t, ht, rfl⟩)
    exact ⟨t, x, y, ht, hget, hdistinct.get?_eq_some (List.mem_append_right _ hy), hmoved⟩

/-! ### Whole kinds and pools -/

theorem zipIdx_range' (base n k : Nat) :
    (List.range' base n).zipIdx k = (List.range n).map fun i => (base + i, k + i) := by
  refine List.ext_getElem (by simp) fun i h₁ h₂ => ?_
  simp

theorem writeKind_eq_ok {e : String × Json} (h : writeKind c s kind = .ok e) :
    ∃ rows, (s.live kind).zipIdx.mapM (fun p => writeRow c s kind p.2 p.1) = .ok rows ∧
      e = (kind, .arr rows) ∧ rows.length = s.size kind := by
  obtain ⟨rows, hrows, he⟩ := bind_eq_ok.1 h
  obtain ⟨parts, hparts, hys, -⟩ := exists_parts_of_mapM hrows
  refine ⟨rows, hrows, (Except.ok.inj he).symm, ?_⟩
  rw [hys, List.length_map, ← List.length_map (f := Prod.fst), ← hparts, List.length_zipIdx, size]

theorem writeKind_append (hm : c.scope.Built) (hp : spec.Proper) (hs : Sane spec s)
    (hdoc : (Json.obj doc).WellFormed) (h : Loaded c doc s s') (hk : kind ∈ spec.objects)
    {old : List Json} (hold : writeKind c s kind = .ok (kind, .arr old)) :
    ∃ rows sorted moved, Fields.get? doc kind = some (.arr rows) ∧ InOrder rows sorted ∧
      List.Forall₂ (MovedRow c spec s.size kind) sorted moved ∧
      writeKind c s' kind = .ok (kind, .arr (old ++ moved)) := by
  obtain ⟨rows, sorted, hrows, ho, hstored⟩ := h.rows kind (hs.objects_eq ▸ hk)
  have hn : rowCount (.obj doc) kind = sorted.length :=
    (rowCount_of_prop? (j := .obj doc) hrows).trans ho.length_eq.symm
  have hnew : ∀ i ∈ List.range sorted.length, ∃ row',
      writeRow c s' kind (s.size kind + i) (s.nextOf kind + i) = .ok row' ∧
      ∀ row, sorted[i]? = some row → MovedRow c spec s.size kind row row' := by
    intro i hi
    obtain ⟨row, hrow⟩ : ∃ row, sorted[i]? = some row :=
      ⟨_, List.getElem?_eq_getElem (List.mem_range.1 hi)⟩
    obtain ⟨props, rfl, hr⟩ := hstored i row hrow
    have hwf : (Json.obj props).WellFormed :=
      Json.wellFormed_arr.1 (hdoc.prop hrows) _
        (ho.perm.mem_iff.1 (List.mem_of_getElem? hrow))
    obtain ⟨props', hw, hmoved⟩ := writeRow_new hm hp hs h hk hwf (ho.ids i _ hrow) hr
    refine ⟨_, hw, fun row' hrow' => ?_⟩
    obtain rfl := Option.some.inj (hrow.symm.trans hrow')
    exact ⟨props, props', rfl, rfl, hmoved⟩
  choose! row' hwrite hmoved using hnew
  refine ⟨rows, sorted, (List.range sorted.length).map row', hrows, ho, ?_, ?_⟩
  · refine List.forall₂_iff_get.2 ⟨by simp, fun i h₁ h₂ => ?_⟩
    simpa using hmoved i (List.mem_range.2 h₁) _ (List.getElem?_eq_getElem h₁)
  · obtain ⟨rows₀, hrows₀, he, -⟩ := writeKind_eq_ok hold
    obtain rfl : old = rows₀ := Json.arr.inj (congrArg Prod.snd he)
    have hold' : (s.live kind).zipIdx.mapM (fun p => writeRow c s' kind p.2 p.1) = .ok old :=
      mapM_mono (fun p hpm j => writeRow_old hp hs h hk (List.fst_mem_of_mem_zipIdx hpm)) hrows₀
    have hnew' : ((List.range' (s.nextOf kind) sorted.length).zipIdx (s.live kind).length).mapM
        (fun p => writeRow c s' kind p.2 p.1) = .ok ((List.range sorted.length).map row') := by
      rw [zipIdx_range', mapM_map]
      exact mapM_eq_ok_of_forall hwrite
    have hlive := h.live kind (List.mem_append_left _ (hs.objects_eq ▸ hk))
    have hall : (s'.live kind).zipIdx.mapM (fun p => writeRow c s' kind p.2 p.1) =
        .ok (old ++ (List.range sorted.length).map row') := by
      rw [hlive, hn, List.zipIdx_append, List.mapM_append, hold', ok_bind, Nat.zero_add, hnew',
        ok_bind]
      rfl
    change (s'.live kind).zipIdx.mapM (fun p => writeRow c s' kind p.2 p.1) >>= _ = _
    rw [hall, ok_bind]
    rfl

/-- The document of a store, by its kinds and pools. -/
structure Written (c : Codec) (s : Store) (props : Fields Json) : Prop where
  keys : Fields.keys props = s.objects ++ s.pools
  kinds : ∀ kind ∈ s.objects, ∃ rows, writeKind c s kind = .ok (kind, .arr rows) ∧
    Fields.get? props kind = some (.arr rows)
  pools : ∀ pool ∈ s.pools,
    Fields.get? props pool = some (.arr ((List.range (s.size pool)).map slot))

theorem written_of_kinds (hd : (s.objects ++ s.pools).Nodup)
    (hk : ∀ kind ∈ s.objects, ∃ rows, writeKind c s kind = .ok (kind, .arr rows)) :
    ∃ props, s.write c = .ok (.obj props) ∧ Written c s props := by
  let R kind j := ∃ rows, j = Json.arr rows ∧ writeKind c s kind = .ok (kind, .arr rows)
  have hmem : ∀ kind ∈ s.objects, ∃ j, writeKind c s kind = .ok (id kind, j) ∧ R kind j := by
    intro kind hkind
    obtain ⟨rows, hrows⟩ := hk kind hkind
    exact ⟨_, hrows, rows, rfl, hrows⟩
  obtain ⟨kinds, hkinds, hnames, hall⟩ := exists_props_of_mapM hmem
  have hkeys : Fields.keys (kinds ++ s.pools.map s.writePool) = s.objects ++ s.pools := by
    rw [Fields.keys_append, hnames, List.map_id, Fields.keys, List.map_map]
    exact congrArg _ (List.map_id _)
  have hdistinct : Fields.Distinct (kinds ++ s.pools.map s.writePool) := by
    rw [Fields.Distinct, hkeys]
    exact hd
  refine ⟨kinds ++ s.pools.map s.writePool, ?_, hkeys, fun kind hkind => ?_, fun pool hpool => ?_⟩
  · rw [write, hkinds, ok_bind]
    exact congrArg (Except.ok ∘ Json.obj) (Fields.ofList_of_distinct hdistinct)
  · obtain ⟨_, hj, rows, rfl, hrows⟩ := hall kind hkind
    exact ⟨rows, hrows, hdistinct.get?_eq_some (List.mem_append_left _ hj)⟩
  · exact hdistinct.get?_eq_some (List.mem_append_right _ (List.mem_map_of_mem hpool))

theorem written_of_write (hd : (s.objects ++ s.pools).Nodup) {j : Json} (h : s.write c = .ok j) :
    ∃ props, j = .obj props ∧ Written c s props := by
  obtain ⟨kinds, hkinds, -⟩ := bind_eq_ok.1 h
  obtain ⟨parts, hparts, -, hp⟩ := exists_parts_of_mapM hkinds
  obtain ⟨props, hw, hwritten⟩ := written_of_kinds hd (c := c) fun kind hkind => by
    rw [hparts] at hkind
    obtain ⟨p, hm, rfl⟩ := List.mem_map.1 hkind
    obtain ⟨rows, -, he, -⟩ := writeKind_eq_ok (hp p hm)
    exact ⟨rows, (hp p hm).trans (congrArg _ he)⟩
  exact ⟨props, Except.ok.inj (h.symm.trans hw), hwritten⟩

theorem Written.rowCount_eq {props : Fields Json} (h : Written c s props) {k : String}
    (hk : k ∈ s.objects ++ s.pools) : rowCount (.obj props) k = s.size k := by
  rcases List.mem_append.1 hk with hk | hk
  · obtain ⟨rows, hrows, hget⟩ := h.kinds k hk
    obtain ⟨_, -, he, hlen⟩ := writeKind_eq_ok hrows
    rw [rowCount_of_prop? (j := .obj props) hget, Json.arr.inj (congrArg Prod.snd he), hlen]
  · rw [rowCount_of_prop? (j := .obj props) (h.pools k hk)]
    simp

theorem MovedProps.congr (hp : spec.Proper) (hk : kind ∈ spec.objects)
    {count count' : String → Nat}
    (hc : ∀ k ∈ spec.objects ++ spec.attrTypes.keys, count' k = count k)
    {props props' : Fields Json} (h : MovedProps c spec count kind props props') :
    MovedProps c spec count' kind props props' where
  keys := h.keys
  perm := h.perm
  id := by
    rw [hc kind (List.mem_append_left _ hk)]
    exact h.id
  homs := by
    intro key hkey
    rw [hc _ (List.mem_append_left _ (hp.homs key (List.mem_of_mem_filter hkey)).2)]
    exact h.homs key hkey
  attrs := by
    intro a ha
    rw [hc _ (List.mem_append_right _ (hp.attrs a (List.mem_of_mem_filter ha)).2)]
    exact h.attrs a ha

/-- The rows of a kind, counted by the document written before. -/
theorem Written.kind_append {props₀ : Fields Json} (h₀ : Written c s props₀) (hm : c.scope.Built)
    (hp : spec.Proper) (hs : Sane spec s) (hdoc : (Json.obj doc).WellFormed)
    (h : Loaded c doc s s') (hk : kind ∈ spec.objects) :
    ∃ old rows sorted moved, Fields.get? props₀ kind = some (.arr old) ∧
      Fields.get? doc kind = some (.arr rows) ∧ InOrder rows sorted ∧
      List.Forall₂ (MovedRow c spec (rowCount (.obj props₀)) kind) sorted moved ∧
      writeKind c s' kind = .ok (kind, .arr (old ++ moved)) := by
  have hcount : ∀ k ∈ spec.objects ++ spec.attrTypes.keys, rowCount (.obj props₀) k = s.size k := by
    intro k hk
    rw [← hs.objects_eq, ← hs.pools_eq] at hk
    exact h₀.rowCount_eq hk
  obtain ⟨old, hold, hget⟩ := h₀.kinds kind (hs.objects_eq ▸ hk)
  obtain ⟨rows, sorted, moved, hrows, ho, hmoved, hwrite⟩ :=
    writeKind_append hm hp hs hdoc h hk hold
  refine ⟨old, rows, sorted, moved, hget, hrows, ho, hmoved.imp ?_, hwrite⟩
  rintro row row' ⟨props, props', rfl, rfl, hprops⟩
  exact ⟨props, props', rfl, rfl, hprops.congr hp hk hcount⟩

/-- Slots are appended like rows; they have no cells. -/
theorem pool_append (h : Loaded c doc s s') {pool : String}
    (hpool : pool ∈ s.pools) :
    Fields.get? doc pool = none ∧ s'.size pool = s.size pool ∨
      ∃ slots sorted moved, Fields.get? doc pool = some (.arr slots) ∧ InOrder slots sorted ∧
        List.Forall₂ (MovedSlot (s.size pool)) sorted moved ∧
        (List.range (s'.size pool)).map slot = (List.range (s.size pool)).map slot ++ moved := by
  have hsize : s'.size pool = s.size pool + rowCount (.obj doc) pool := by
    rw [size, h.live pool (List.mem_append_right _ hpool), List.length_append, List.length_range']
    rfl
  rcases h.pools pool hpool with hnone | ⟨slots, sorted, hslots, ho, hshape⟩
  · rw [rowCount_of_none (j := .obj doc) hnone] at hsize
    exact .inl ⟨hnone, hsize⟩
  refine .inr ⟨slots, sorted, (List.range sorted.length).map fun i => slot (s.size pool + i),
    hslots, ho, List.forall₂_iff_get.2 ⟨by simp, fun i h₁ h₂ => ?_⟩, ?_⟩
  · have hi := List.getElem?_eq_getElem h₁
    obtain ⟨k, hslot⟩ := hshape _ (ho.perm.mem_iff.1 (List.getElem_mem h₁))
    have hid := ho.ids i _ hi
    rw [hslot, prop?_slot, Option.some.injEq] at hid
    exact ⟨i, hslot.trans (congrArg slot (ofNat_inj hid)), by simp⟩
  · rw [hsize, rowCount_of_prop? (j := .obj doc) hslots, ← ho.length_eq, List.range_add,
      List.map_append, List.map_map]
    rfl

end

/-- Rows in a ring, each with a number of its own or one that is not known yet. -/
def ringSpec : TableSpec where
  objects := ["O"]
  homs := [⟨"next", "O", "O"⟩]
  attrTypes := [("Label", .prim .i64)]
  attrs := [⟨"label", "O", "Label"⟩]

def ringModule : Module := ⟨"rings", [], [("Ring", .table ringSpec)]⟩

theorem ringModule_built : ringModule.Built := by
  refine @Module.Built.compile [] ("module rings table Ring \x7b ob O  hom next :: O -> O  " ++
    "attrtype Label = I64  attr label :: O -> Label \x7d") _ (by simp) ?_
  cbv

/-- One row that points at itself; the row before it has been removed. -/
def ringStore : Store :=
  ⟨ringSpec, [("O", ⟨2, [1], [((1, "label"), .value (.i64 4)), ((1, "next"), .row 1)]⟩),
    ("Label", ⟨1, [0], []⟩)], []⟩

theorem ringStore_reached : Reached ringSpec ringStore := by
  have h := @Reached.allocate ringSpec _ _ "O" 2 _ .new rfl
  have h := @Reached.setCell ringSpec _ _ "O" 1 "next" (.row 1) h rfl
  have h := @Reached.setCell ringSpec _ _ "O" 1 "label" (.value (.i64 4)) h rfl
  have h := @Reached.allocate ringSpec _ _ "Label" 1 _ h rfl
  exact @Reached.remove ringSpec _ _ "O" 0 _ h rfl

/-- Two rows that point at each other, listed in descending order. -/
def ringDoc : Json :=
  .obj [("Label", .arr [slot 0]), ("O", .arr
    [.obj [("_id", .ofNat 1), ("next", .ofNat 0), ("label", .obj [("_var", .ofNat 0)])],
      .obj [("label", .ofNat 7), ("next", .ofNat 1), ("_id", .ofNat 0)]])]

def ringDocBefore : Json :=
  .obj [("O", .arr [.obj [("_id", .ofNat 0), ("next", .ofNat 0), ("label", .str "4")]]),
    ("Label", .arr [slot 0])]

end Wireform.Store

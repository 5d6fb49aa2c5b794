import Mathlib
import Wireform.Proofs.Codec.RoundTrip
import Wireform.Proofs.Table.Written

/-!
# What a store is written as can be read

A read of it ends with the error that a value is too deep, or it succeeds (`read_written_ends`). The
numbers of rows and slots are their positions, so there is room for all of them, every number that a
cell is written as is one of them, and only the values of the cells are left to fail.
-/

namespace Wireform.Store

/-! ### Runs that go on -/

namespace Reading

variable {α β : Type} {s : Store}

theorem exists_mapM {P : Store → Prop} {f : α → Reading β} {l : List α}
    (h : ∀ a ∈ l, ∀ s, P s → ∃ b s', f a s = .ok b s' ∧ P s') (hs : P s) :
    ∃ bs s', l.mapM f s = .ok bs s' ∧ P s' := by
  induction l generalizing s with
  | nil => exact ⟨[], s, rfl, hs⟩
  | cons a l ih =>
    obtain ⟨b, s₁, hb, hs₁⟩ := h a (by simp) s hs
    obtain ⟨bs, s₂, hbs, hs₂⟩ := ih (fun a ha => h a (by simp [ha])) hs₁
    refine ⟨b :: bs, s₂, ?_, hs₂⟩
    rw [List.mapM_cons, bind_of_ok hb, bind_of_ok hbs]
    rfl

end Reading

/-- A run that ends with the error `e`, or else in a store with the property. -/
def Ends (e : CodecError) (P : Store → Prop) (r : EStateM.Result CodecError Store Unit) : Prop :=
  (∃ s', r = .error e s') ∨ ∃ s', r = .ok () s' ∧ P s'

theorem ends_forM {α : Type} {e : CodecError} {P : Store → Prop} {f : α → Reading Unit} {l : List α}
    (h : ∀ a ∈ l, ∀ s, P s → Ends e P (f a s)) {s : Store} (hs : P s) : Ends e P (l.forM f s) := by
  induction l generalizing s with
  | nil => exact .inr ⟨s, rfl, hs⟩
  | cons a l ih =>
    rcases h a (by simp) s hs with ⟨s₁, h₁⟩ | ⟨s₁, h₁, hs₁⟩
    · exact .inl ⟨s₁, Reading.bind_of_error h₁ _⟩
    · have hl := ih (fun a ha => h a (by simp [ha])) hs₁
      rwa [← Reading.bind_of_ok h₁ fun _ => l.forM f] at hl

/-! ### Room -/

theorem checkRowIds_eq_ok {kind : String} {count i : Nat} {seen : List Nat} {rows : List Json}
    (hids : ∀ (k : Nat) row, rows[k]? = some row → row.prop? rowId = some (.ofNat (i + k)))
    (hc : i + rows.length ≤ count) (hs : ∀ x ∈ seen, x < i) :
    checkRowIds kind count i seen rows = .ok () := by
  induction rows generalizing i seen with
  | nil => rfl
  | cons row rows ih =>
    have hid := hids 0 row rfl
    rw [Nat.add_zero] at hid
    rw [List.length_cons] at hc
    have hnew : ¬ seen.contains i = true := by
      rw [List.contains_iff_mem]
      exact fun hm => Nat.lt_irrefl i (hs i hm)
    rw [checkRowIds, hid, Option.bind_some, position?_ofNat]
    simp only
    rw [if_neg (by omega), if_neg hnew]
    refine ih (fun k row hk => ?_) (by omega) (List.forall_mem_cons.2 ⟨by omega, fun x hx => ?_⟩)
    · rw [Nat.add_assoc, Nat.add_comm 1 k]
      exact hids (k + 1) row hk
    · exact Nat.lt_succ_of_lt (hs x hx)

theorem checkSlotIds_eq_ok {pool : String} {count n i : Nat} {seen : List Nat} (hc : i + n ≤ count)
    (hs : ∀ x ∈ seen, x < i) :
    checkSlotIds pool count seen ((List.range' i n).map slot) = .ok () := by
  induction n generalizing i seen with
  | zero => rfl
  | succ n ih =>
    have hrecord : Codec.expectRecord (slot i) pool false [rowId] = .ok [(rowId, .ofNat i)] :=
      Codec.expectRecord_eq_ok.2 ⟨rfl, Codec.hasNames_keys _⟩
    have hfield : Codec.field [(rowId, .ofNat i)] rowId = .ok (.ofNat i) :=
      Codec.field_eq_ok.2 (by simp [Fields.get?_cons])
    have hnew : seen.contains i = false := by
      rw [← Bool.not_eq_true, List.contains_iff_mem]
      exact fun hm => Nat.lt_irrefl i (hs i hm)
    rw [List.range'_succ, List.map_cons, checkSlotIds, hrecord, ok_bind, hfield, ok_bind,
      position?_ofNat]
    simp only
    rw [if_pos (Bool.and_eq_true_iff.2 ⟨decide_eq_true (by omega), by rw [hnew]; rfl⟩)]
    refine ih (by omega) (List.forall_mem_cons.2 ⟨by omega, fun x hx => ?_⟩)
    exact Nat.lt_succ_of_lt (hs x hx)

section

variable {spec : TableSpec} {doc : Fields Json} {t : Store} {kind : String}

/-- There is always room in a store without caps. -/
theorem Sane.exists_allocating (ht : Sane spec t) (hk : kind ∈ spec.objects ++ spec.attrTypes.keys)
    (n : Nat) : ∃ rows t', allocating kind n t = .ok rows t' ∧ rows.length = n ∧ Sane spec t' := by
  obtain ⟨sheet, hsheet⟩ := ht.sheets kind hk
  have hgrow : t.allocate kind n = .ok (sheet.fresh n, t.setSheet kind (sheet.grow n)) := by
    rw [allocate_of_sheet hsheet, ht.uncapped]
    rfl
  refine ⟨sheet.fresh n, _, ?_, ?_, ht.allocate hgrow⟩
  · rw [allocating_apply, hgrow]
  · simp [Sheet.fresh]

theorem Sane.exists_allocateKind (ht : Sane spec t) (hk : kind ∈ spec.objects) {rows : List Json}
    (hrows : Fields.get? doc kind = some (.arr rows))
    (hids : ∀ (k : Nat) row, rows[k]? = some row → row.prop? rowId = some (.ofNat k)) :
    ∃ room t', allocateKind doc kind t = .ok room t' ∧ Sane spec t' := by
  have hof : rowsOf doc kind = .ok rows := by rw [rowsOf, hrows]
  have hcheck : checkRowIds kind rows.length 0 [] rows = .ok () :=
    checkRowIds_eq_ok (by simpa using hids) (by simp) (by simp)
  obtain ⟨fresh, t', hf, hl, ht'⟩ := ht.exists_allocating (List.mem_append_left _ hk) rows.length
  refine ⟨(kind, fresh), t', ?_, ht'⟩
  rw [allocateKind, Reading.ofExcept_of_ok hof, Reading.ofExcept_of_ok hcheck, Reading.bind_of_ok hf,
    if_neg (not_not.2 hl)]
  rfl

theorem Sane.exists_allocatePool (ht : Sane spec t) {pool : String} (hk : pool ∈ spec.attrTypes.keys)
    {n : Nat} (hslots : Fields.get? doc pool = some (.arr ((List.range n).map slot))) :
    ∃ room t', allocatePool doc pool t = .ok room t' ∧ Sane spec t' := by
  have hcheck : checkSlotIds pool ((List.range n).map slot).length [] ((List.range n).map slot) =
      .ok () := by
    rw [List.range_eq_range']
    exact checkSlotIds_eq_ok (by simp) (by simp)
  obtain ⟨fresh, t', hf, -, ht'⟩ := ht.exists_allocating (List.mem_append_right _ hk)
    ((List.range n).map slot).length
  refine ⟨[(pool, fresh)], t', ?_, ht'⟩
  rw [allocatePool, hslots]
  simp only
  rw [Reading.ofExcept_of_ok hcheck, Reading.bind_of_ok hf]
  rfl

end

/-! ### Cells -/

theorem position?_eq_some_iff {s : Store} {kind : String} {row pos : Nat}
    (hn : (s.live kind).Nodup) : s.position? kind row = some pos ↔ (s.live kind)[pos]? = some row := by
  rw [position?, List.idxOf?, List.findIdx?_eq_some_iff_getElem]
  constructor
  · rintro ⟨hlt, he, -⟩
    rw [List.getElem?_eq_getElem hlt, beq_iff_eq.1 he]
  · intro h
    obtain ⟨hlt, he⟩ := List.getElem?_eq_some_iff.1 h
    refine ⟨hlt, beq_iff_eq.2 he, fun k hk hrow => ?_⟩
    have hkpos := hn.getElem_inj_iff.1 ((beq_iff_eq.1 hrow).trans he.symm)
    exact Nat.ne_of_lt hk hkpos

theorem lt_size_of_getElem? {s : Store} {kind : String} {row pos : Nat}
    (h : (s.live kind)[pos]? = some row) : pos < s.size kind :=
  (List.getElem?_eq_some_iff.1 h).1

theorem Rooms.placed?_ofNat {names : List String} {n : String → Nat} {t : Store}
    {fresh : Fields (List Nat)} (h : Rooms names n t fresh) {kind : String} (hk : kind ∈ names)
    {m : Nat} (hm : m < n kind) : placed? fresh kind (.ofNat m) = some (t.nextOf kind + m) := by
  rw [placed?, position?_ofNat, Option.bind_some, h.rows kind hk, List.getElem?_range' hm, Nat.one_mul]

/-- What a plain value is read as after it has been written. -/
theorem decode_of_encodeAs {c : Codec} {ty : Ty} {v : Value} {x : Json} (hm : c.scope.Built)
    (ht : ty.Proper) (hv : v.WellFormed) (h : c.encodeAs ty v = .ok x) :
    c.decode ty x = .error (.depthLimit c.maxDepth) ∨ ∃ v', c.decode ty x = .ok v' ∧
      (c.equals ty v v' = true ↔ ¬ v.Hollow) ∧ (¬ v.Hollow → c.encodeAs ty v' = .ok x) := by
  have hw : Codec.Writes c.scope ty v x := (Codec.writeAs_eq_ok hm.sound).1 h
  refine (hw.restored hm.sound ht hv c.maxDepth c.maxDepth).imp_right ?_
  rintro ⟨v', hr⟩
  refine ⟨v', Codec.readWithin_of_reads hr.reads, hr.equal, fun hh => ?_⟩
  obtain ⟨x', hs⟩ := hr.reads.settled hm.sound ht (hw.wellFormed hm.sound ht hv)
  obtain rfl := Except.ok.inj ((hr.encodes hh).symm.trans hs.encodes)
  exact Codec.writeAs_of_writes hm.sound hs.writes

/-- The plain values of a store, in the cells of the rows in use. -/
def Values (s : Store) (P : Value → Prop) : Prop :=
  ∀ kind ∈ s.objects, ∀ row ∈ s.live kind, ∀ a ∈ s.attributes kind, ∀ v,
    s.cell? kind row a.name = some (.value v) → P v

section

variable {c : Codec} {spec : TableSpec} {s t : Store} {n : String → Nat} {names : List String}
  {fresh : Fields (List Nat)} {kind : String} {row pos : Nat}

theorem exists_readForeignKey (hs : Ordered spec s) (hr : Rooms names n t fresh) {key : Arrow}
    (hk : key.codom ∈ names) (hn : n key.codom = s.size key.codom) {props : Fields Json} {j : Json}
    (hget : Fields.get? props key.name = some j) (hw : KeyWritten s kind row key j) :
    ∃ e, readForeignKey fresh kind pos props key = .ok e := by
  obtain ⟨target, m, -, hpos, rfl⟩ := hw
  have hm : m < n key.codom :=
    hn ▸ lt_size_of_getElem? ((position?_eq_some_iff (hs.nodup_live _)).1 hpos)
  rw [readForeignKey, Codec.field_eq_ok.2 hget, ok_bind]
  simp only [hr.placed?_ofNat hk hm]
  exact ⟨_, rfl⟩

theorem readAttribute_error_or_ok (hm : c.scope.Built) (hs : Ordered spec s)
    (hr : Rooms names n t fresh) {a : Attribute} (hty : a.ty.Proper) (ha : a.attrType ∈ names)
    (hn : n a.attrType = s.size a.attrType) {props : Fields Json} {cell : Cell} {j : Json}
    (hv : ∀ v, cell = .value v → v.WellFormed) (hget : Fields.get? props a.name = some j)
    (hw : AttributeWritten c s a cell j) :
    readAttribute c fresh kind pos props a = .error (.depthLimit c.maxDepth) ∨
      ∃ e, readAttribute c fresh kind pos props a = .ok e := by
  rw [readAttribute, Codec.field_eq_ok.2 hget, ok_bind]
  cases hw with
  | @var slot m hpos =>
    have hlt : m < n a.attrType :=
      hn ▸ lt_size_of_getElem? ((position?_eq_some_iff (hs.nodup_live _)).1 hpos)
    have hvar : poolVar? (.obj [(poolVar, .ofNat m)]) = some (.ofNat m) := by simp [poolVar?]
    simp only [hvar, hr.placed?_ofNat ha hlt]
    exact .inr ⟨_, rfl⟩
  | @value v x hx hplain =>
    simp only [hplain]
    refine (decode_of_encodeAs hm hty (hv v rfl) hx).imp (fun he => ?_) ?_
    · rw [he, error_bind]
    · rintro ⟨v', hv', -⟩
      exact ⟨_, by rw [hv', ok_bind]; rfl⟩

/-! ### Rows -/

/-- A row that was written is read, unless one of its values is too deep. -/
theorem readRow_error_or_ok (hm : c.scope.Built) (hp : spec.Proper) (hs : Ordered spec s)
    (hv : s.Values Value.WellFormed) (hr : Rooms (s.objects ++ s.pools) n t fresh)
    (hn : ∀ k ∈ s.objects ++ s.pools, n k = s.size k) (hk : kind ∈ s.objects)
    (hrow : (s.live kind)[pos]? = some row) {r : WrittenRow} (hw : RowWritten c s kind row r) :
    readRow c fresh kind (s.foreignKeys kind) (s.attributes kind) (.obj (r.props pos)) =
        .error (.depthLimit c.maxDepth) ∨
      ∃ cells, readRow c fresh kind (s.foreignKeys kind) (s.attributes kind) (.obj (r.props pos)) =
        .ok cells := by
  have hkind : kind ∈ s.objects ++ s.pools := List.mem_append_left _ hk
  have hspec := hs.spec_eq
  have hk' : kind ∈ spec.objects := hs.objects_eq ▸ hk
  have hd := nodup_rowNames hp hspec hk'
  have hrecord : Codec.expectRecord (.obj (r.props pos)) kind false
      (rowNames (s.foreignKeys kind) (s.attributes kind)) = .ok (r.props pos) := by
    rw [← hw.keys_props pos]
    exact Codec.expectRecord_eq_ok.2 ⟨rfl, Codec.hasNames_keys _⟩
  have hplace : ((Fields.get? fresh kind).getD [])[pos]? = some (t.nextOf kind + pos) := by
    rw [hr.rows kind hkind, List.getElem?_range' (hn kind hkind ▸ lt_size_of_getElem? hrow),
      Nat.one_mul]
  have hrefs : ∀ key ∈ s.foreignKeys kind,
      ∃ e, readForeignKey fresh kind pos (r.props pos) key = .ok e := by
    intro key hkey
    have hcodom : key.codom ∈ s.objects ++ s.pools := by
      rw [hs.objects_eq]
      exact List.mem_append_left _ (codom_mem_of_mem_foreignKeys hp hspec hk' hkey)
    rw [hw.keys_eq] at hkey
    obtain ⟨p, hmem, rfl⟩ := List.mem_map.1 hkey
    exact exists_readForeignKey hs hr hcodom (hn _ hcodom) (hw.get?_ref hd hmem) (hw.refs p hmem)
  have hvalues : ∀ a ∈ s.attributes kind,
      readAttribute c fresh kind pos (r.props pos) a = .error (.depthLimit c.maxDepth) ∨
        ∃ e, readAttribute c fresh kind pos (r.props pos) a = .ok e := by
    intro a ha
    have htype : a.attrType ∈ s.objects ++ s.pools := by
      rw [hs.pools_eq]
      exact List.mem_append_right _ (attrType_mem_of_mem_attributes hp hspec hk' ha)
    have hty := proper_of_mem_attributes hp hspec hk' ha
    have hwf := hv kind hk row (List.mem_of_getElem? hrow) a ha
    rw [hw.attributes_eq] at ha
    obtain ⟨p, hmem, rfl⟩ := List.mem_map.1 ha
    obtain ⟨cell, hcell, hwritten⟩ := hw.values p hmem
    refine readAttribute_error_or_ok hm hs hr hty htype (hn _ htype) (fun v he => ?_)
      (hw.get?_value hd hmem) hwritten
    exact hwf v (he ▸ hcell)
  obtain ⟨refs, hrefs⟩ := exists_mapM_eq_ok hrefs
  rw [readRow]
  change Codec.expectRecord _ _ _ (rowNames _ _) >>= _ = _ ∨ ∃ cells,
    Codec.expectRecord _ _ _ (rowNames _ _) >>= _ = _
  rw [hrecord, ok_bind, Codec.field_eq_ok.2 (r.get?_id pos), ok_bind, position?_ofNat,
    Option.getD_some]
  simp only [hplace]
  rw [hrefs, ok_bind]
  refine (mapM_error_or_ok hvalues).imp (fun he => ?_) ?_
  · rw [he, error_bind]
  · rintro ⟨values, he⟩
    exact ⟨_, by rw [he, ok_bind]; rfl⟩

/-! ### Whole documents -/

/-- The row at each position, as the document of its kind lists it. -/
theorem rowWritten_of_writeKind (hp : spec.Proper) (hs : Ordered spec s) (hk : kind ∈ s.objects)
    {rows : List Json} (h : writeKind c s kind = .ok (kind, .arr rows)) {j : Json}
    (hj : rows[pos]? = some j) : ∃ row r, (s.live kind)[pos]? = some row ∧
      RowWritten c s kind row r ∧ j = .obj (r.props pos) := by
  obtain ⟨hl, hrows⟩ := writeKind_eq_ok_iff.1 h
  have hlt : pos < s.size kind := hl ▸ (List.getElem?_eq_some_iff.1 hj).1
  have hrow : (s.live kind)[pos]? = some _ := List.getElem?_eq_getElem hlt
  have hd := nodup_rowNames hp hs.spec_eq (hs.objects_eq ▸ hk)
  obtain ⟨r, hr, hobj⟩ := (writeRow_eq_ok hd).1 (hrows pos _ j hrow hj)
  exact ⟨_, r, hrow, hr, hobj⟩

variable {doc : Fields Json}

theorem fillKind_ends (hm : c.scope.Built) (hp : spec.Proper) (hs : Ordered spec s)
    (hv : s.Values Value.WellFormed) (hw : Written c s doc)
    (hr : Rooms (s.objects ++ s.pools) (rowCount (.obj doc)) t fresh) (hk : kind ∈ s.objects)
    {t₁ : Store} (hspec : t₁.spec = s.spec)
    (hlive : ∀ i < rowCount (.obj doc) kind, t.nextOf kind + i ∈ t₁.live kind) :
    Ends (.depthLimit c.maxDepth) (Kept t₁) (fillKind c doc fresh kind t₁) := by
  have hn : ∀ k ∈ s.objects ++ s.pools, rowCount (.obj doc) k = s.size k := fun k => hw.rowCount_eq
  have hkind : kind ∈ s.objects ++ s.pools := List.mem_append_left _ hk
  have hk' : kind ∈ spec.objects := hs.objects_eq ▸ hk
  obtain ⟨rows, hrows, hget⟩ := hw.kinds kind hk
  have hof : rowsOf doc kind = .ok rows := by rw [rowsOf, hget]
  have hread : ∀ j ∈ rows,
      readRow c fresh kind (s.foreignKeys kind) (s.attributes kind) j =
          .error (.depthLimit c.maxDepth) ∨
        ∃ cells, readRow c fresh kind (s.foreignKeys kind) (s.attributes kind) j = .ok cells := by
    intro j hj
    obtain ⟨i, hi⟩ := List.mem_iff_getElem?.1 hj
    obtain ⟨row, r, hrow, hwritten, rfl⟩ := rowWritten_of_writeKind hp hs hk hrows hi
    exact readRow_error_or_ok hm hp hs hv hr hn hk hrow hwritten
  rw [fillKind, Reading.get_bind, Reading.ofExcept_of_ok hof, foreignKeys_congr hspec,
    attributes_congr hspec]
  rcases mapM_error_or_ok hread with he | ⟨cells, hcells⟩
  · exact .inl ⟨t₁, by rw [he]; rfl⟩
  rw [Reading.ofExcept_of_ok hcells]
  have hrooms : ∀ e ∈ cells.flatten, e.1 ∈ t₁.live kind := by
    intro e he
    have hrow := mem_fresh_of_mapM_readRow hcells e he
    rw [hr.rows kind hkind, List.mem_range'_1] at hrow
    obtain ⟨i, hi⟩ := Nat.exists_eq_add_of_le hrow.1
    rw [hi]
    exact hlive i (by omega)
  obtain ⟨t', ht'⟩ := exists_forM_storeCell hrooms
  exact .inr ⟨t', ht', (stored_of_forM ht').1⟩

/-- A document that a store is written as, read into any store of the table. -/
theorem read_written_ends (hm : c.scope.Built) (hp : spec.Proper) (hs : Ordered spec s)
    (hv : s.Values Value.WellFormed) (hw : Written c s doc) (ht : Sane spec t) :
    (∃ t', read c (.obj doc) t = .error (.depthLimit c.maxDepth) t') ∨
      ∃ t', read c (.obj doc) t = .ok () t' := by
  have hobjects : t.objects = s.objects := ht.objects_eq.trans hs.objects_eq.symm
  have hpoolnames : t.pools = s.pools := ht.pools_eq.trans hs.pools_eq.symm
  have hcheck : checkKinds t doc = .ok () := by
    have hnone : (Fields.keys doc).find? (fun k => !t.objects.contains k && !t.pools.contains k) =
        none := by
      rw [List.find?_eq_none, hw.keys, hobjects, hpoolnames]
      intro k hk
      rcases List.mem_append.1 hk with hk | hk <;> simp [hk]
    rw [checkKinds, hnone]
  obtain ⟨kinds, t₁, hkinds, ht₁⟩ : ∃ kinds t₁, t.objects.mapM (allocateKind doc) t = .ok kinds t₁ ∧
      Sane spec t₁ := by
    refine Reading.exists_mapM (fun kind hk t ht => ?_) ht
    obtain ⟨rows, hrows, hget⟩ := hw.kinds kind (hobjects ▸ hk)
    refine ht.exists_allocateKind (hs.objects_eq ▸ hobjects ▸ hk) hget fun i j hi => ?_
    obtain ⟨row, r, -, -, rfl⟩ := rowWritten_of_writeKind hp hs (hobjects ▸ hk) hrows hi
    exact r.get?_id i
  obtain ⟨pools, t₂, hpools, ht₂⟩ : ∃ pools t₂, t.pools.mapM (allocatePool doc) t₁ = .ok pools t₂ ∧
      Sane spec t₂ := by
    refine Reading.exists_mapM (fun pool hk t ht => ?_) ht₁
    exact ht.exists_allocatePool (hs.pools_eq ▸ hpoolnames ▸ hk) (hw.pools pool (hpoolnames ▸ hk))
  have hmade := roomMade_of_allocation (ht.nodup_names hp) hkinds hpools
  have hg := hmade.grown
  have hr := hmade.rooms
  rw [ht.uncapped, roomFor_uncapped] at hg hr
  have hread : read c (.obj doc) t =
      t.objects.forM (fillKind c doc (kinds ++ pools.flatten)) t₂ := by
    rw [read, Reading.get_bind, Reading.ofExcept_of_ok hcheck, Reading.bind_of_ok hkinds,
      Reading.bind_of_ok hpools, Fields.ofList_of_distinct hr.distinct]
  rw [hobjects, hpoolnames] at hr
  have hstep : ∀ kind ∈ t.objects, ∀ t₃, Kept t₂ t₃ →
      Ends (.depthLimit c.maxDepth) (Kept t₂) (fillKind c doc (kinds ++ pools.flatten) kind t₃) := by
    intro kind hk t₃ hkept
    have hspec : t₃.spec = s.spec := by rw [hkept.spec, ht₂.spec_eq, hs.spec_eq]
    have hends := fillKind_ends hm hp hs hv hw hr (hobjects ▸ hk) hspec fun i hi => by
      rw [hkept.live, hg.live_eq (ht.sheets kind (List.mem_append_left _ (ht.objects_eq ▸ hk))),
        if_pos (List.mem_append_left _ hk)]
      exact List.mem_append_right _ (List.mem_range'_1.2 ⟨by omega, by omega⟩)
    refine hends.imp_right ?_
    rintro ⟨t', h, hk'⟩
    exact ⟨t', h, hkept.trans hk'⟩
  rw [hread]
  refine (ends_forM hstep ⟨rfl, fun _ => rfl⟩).imp_right ?_
  rintro ⟨t', h, -⟩
  exact ⟨t', h⟩

end

end Wireform.Store

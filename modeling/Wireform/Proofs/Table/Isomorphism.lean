import Mathlib
import Wireform.Proofs.Table.Readable

/-!
# A store read back is the same store, renumbered

The rows and slots of a store that has been written and read again are those of the old one, numbered
by position: the row at each position becomes the row with that index, and cells that point at rows or
slots point at the rows and slots that became of them (`Isomorphic`). Values stay the same but for
present options written as `null`, and without these the new store is written as the old one.
-/

namespace Wireform.Store

/-- The row of the other store at the same position. -/
def counterpart (s s' : Store) (kind : String) (row : Nat) : Nat :=
  (s'.live kind).getD ((s.live kind).idxOf row) 0

/-- Cells of an attribute in rows at the same position. Values are equal, but not if a present option
in the old one is written as `null`. -/
inductive Corresponds (c : Codec) (s s' : Store) (a : Attribute) : Cell → Cell → Prop
  | var {slot : Nat} : slot ∈ s.live a.attrType →
    Corresponds c s s' a (.var slot) (.var (counterpart s s' a.attrType slot))
  | value {v v' : Value} : (c.equals a.ty v v' = true ↔ ¬ v.Hollow) →
    Corresponds c s s' a (.value v) (.value v')

/-- Going from each row to the one at the same position is a bijection that keeps all cells. -/
structure Isomorphic (c : Codec) (s s' : Store) : Prop where
  spec : s'.spec = s.spec
  positions : ∀ kind ∈ s.objects ++ s.pools,
    (s.live kind).map (counterpart s s' kind) = s'.live kind
  bijective : ∀ kind ∈ s.objects ++ s.pools,
    Set.BijOn (counterpart s s' kind) {row | row ∈ s.live kind} {row | row ∈ s'.live kind}
  homs : ∀ kind ∈ s.objects, ∀ row ∈ s.live kind, ∀ key ∈ s.foreignKeys kind,
    ∃ target ∈ s.live key.codom, s.cell? kind row key.name = some (.row target) ∧
      s'.cell? kind (counterpart s s' kind row) key.name =
        some (.row (counterpart s s' key.codom target))
  attrs : ∀ kind ∈ s.objects, ∀ row ∈ s.live kind, ∀ a ∈ s.attributes kind, ∃ cell cell',
    s.cell? kind row a.name = some cell ∧
      s'.cell? kind (counterpart s s' kind row) a.name = some cell' ∧ Corresponds c s s' a cell cell'

theorem counterpart_eq {s s' : Store} {kind : String} {row row' pos : Nat}
    (hn : (s.live kind).Nodup) (h : (s.live kind)[pos]? = some row)
    (h' : (s'.live kind)[pos]? = some row') : counterpart s s' kind row = row' := by
  obtain ⟨hlt, rfl⟩ := List.getElem?_eq_some_iff.1 h
  rw [counterpart, hn.idxOf_getElem, List.getD_eq_getElem?_getD, h', Option.getD_some]

theorem bijOn_of_map_eq {f : Nat → Nat} {l l' : List Nat} (hl' : l'.Nodup) (h : l.map f = l') :
    Set.BijOn f {x | x ∈ l} {x | x ∈ l'} := by
  subst h
  refine ⟨fun x hx => List.mem_map_of_mem hx, fun x hx y hy he => ?_, fun y hy => List.mem_map.1 hy⟩
  exact List.inj_on_of_nodup_map hl' hx hy he

/-! ### New stores -/

theorem nextOf_new (spec : TableSpec) : (Store.new spec []).nextOf = fun _ => 0 := by
  funext k
  cases h : Fields.get? (Store.new spec []).sheets k with
  | none => simp [nextOf, h]
  | some sheet => rw [nextOf_of_sheet h, eq_empty_of_new h, Sheet.empty]

theorem live_new (spec : TableSpec) (k : String) : (Store.new spec []).live k = [] := by
  cases h : Fields.get? (Store.new spec []).sheets k with
  | none => simp [live, h]
  | some sheet => rw [live_of_sheet h, eq_empty_of_new h, Sheet.empty]

/-! ### Rows read back -/

section

variable {c : Codec} {spec : TableSpec} {doc : Fields Json} {s s' : Store} {kind : String}
  {row pos : Nat} (hs : Ordered spec s) (hw : Written c s doc)
  (hl : Loaded c doc (Store.new spec []) s')

include hs hw hl

theorem live_reread (hk : kind ∈ s.objects ++ s.pools) : s'.live kind = List.range (s.size kind) := by
  have hnew : kind ∈ (Store.new spec []).objects ++ (Store.new spec []).pools := by
    rw [(Sane.new spec).objects_eq, (Sane.new spec).pools_eq, ← hs.objects_eq, ← hs.pools_eq]
    exact hk
  rw [hl.live kind hnew, live_new, nextOf_new, hw.rowCount_eq hk, List.nil_append,
    List.range_eq_range']

theorem position?_reread (hk : kind ∈ s.objects ++ s.pools) (hrow : (s.live kind)[pos]? = some row) :
    s'.position? kind pos = some pos ∧ counterpart s s' kind row = pos := by
  have hlive := live_reread hs hw hl hk
  have hpos : (s'.live kind)[pos]? = some pos := by
    rw [hlive]
    exact List.getElem?_range (lt_size_of_getElem? hrow)
  refine ⟨(position?_eq_some_iff ?_).2 hpos, counterpart_eq (hs.nodup_live kind) hrow hpos⟩
  rw [hlive]
  exact List.nodup_range

theorem rowStored_reread (hp : spec.Proper) (hk : kind ∈ s.objects)
    (hrow : (s.live kind)[pos]? = some row) : ∃ r, RowWritten c s kind row r ∧
      RowStored c (rowCount (.obj doc)) (fun _ => 0) s' kind pos (r.props pos) := by
  obtain ⟨rows, hrows, hget⟩ := hw.kinds kind hk
  have hnew : kind ∈ (Store.new spec []).objects := by
    rw [(Sane.new spec).objects_eq, ← hs.objects_eq]
    exact hk
  obtain ⟨rows', sorted, hget', ho, hstored⟩ := hl.rows kind hnew
  obtain rfl : rows = rows' := Json.arr.inj (Option.some.inj (hget.symm.trans hget'))
  have hlt : pos < rows.length := by
    rw [(writeKind_eq_ok_iff.1 hrows).1]
    exact lt_size_of_getElem? hrow
  have hj : rows[pos]? = some _ := List.getElem?_eq_getElem hlt
  obtain ⟨row', r, hrow', hr, hobj⟩ := rowWritten_of_writeKind hp hs hk hrows hj
  obtain rfl : row = row' := Option.some.inj (hrow.symm.trans hrow')
  rw [hobj] at hj
  have hsorted := ho.getElem?_of_mem (List.mem_of_getElem? hj) (r.get?_id pos)
  obtain ⟨props, he, hst⟩ := hstored pos _ hsorted
  obtain rfl := Json.obj.inj he
  rw [nextOf_new] at hst
  exact ⟨r, hr, hst⟩

/-- A foreign key of a row read back, and that it is written as before. -/
theorem foreignKey_reread {key : Arrow} (hk : key.codom ∈ s.objects ++ s.pools) {n : String → Nat}
    {props : Fields Json} {j : Json} (hget : Fields.get? props key.name = some j)
    (hkey : KeyWritten s kind row key j) {cell : Cell}
    (hcell : s'.cell? kind pos key.name = some cell) (hpoints : Points n (fun _ => 0) props key cell) :
    (∃ target ∈ s.live key.codom, s.cell? kind row key.name = some (.row target) ∧
      s'.cell? kind pos key.name = some (.row (counterpart s s' key.codom target))) ∧
    KeyWritten s' kind pos key j := by
  obtain ⟨target, m, hold, hpos, rfl⟩ := hkey
  obtain ⟨m', -, hget', rfl⟩ := hpoints
  obtain rfl : m = m' := ofNat_inj (Option.some.inj (hget.symm.trans hget'))
  have htarget := (position?_eq_some_iff (hs.nodup_live _)).1 hpos
  obtain ⟨hpos', hcounter⟩ := position?_reread hs hw hl hk htarget
  rw [Nat.zero_add] at hcell
  refine ⟨⟨target, List.mem_of_getElem? htarget, hold, ?_⟩, m, m, hcell, hpos', rfl⟩
  rw [hcounter]
  exact hcell

/-- An attribute of a row read back. It is written as before if no option was lost in it. -/
theorem attribute_reread (hm : c.scope.Built) {a : Attribute} (ha : a.attrType ∈ s.objects ++ s.pools)
    (hty : a.ty.Proper) {n : String → Nat} {props : Fields Json} {j : Json} {cell cell' : Cell}
    (hv : ∀ v, cell = .value v → v.WellFormed) (hget : Fields.get? props a.name = some j)
    (hattr : AttributeWritten c s a cell j) (hholds : Holds c n (fun _ => 0) props a cell') :
    Corresponds c s s' a cell cell' ∧
      ((∀ v, cell = .value v → ¬ v.Hollow) → AttributeWritten c s' a cell' j) := by
  cases hattr with
  | @var slot m hpos =>
    cases hholds with
    | @var m' hlt hget' =>
      have he := Option.some.inj (hget.symm.trans hget')
      simp only [Json.obj.injEq, List.cons.injEq, Prod.mk.injEq, true_and, and_true] at he
      obtain rfl := ofNat_inj he
      have hslot := (position?_eq_some_iff (hs.nodup_live _)).1 hpos
      obtain ⟨hpos', hcounter⟩ := position?_reread hs hw hl ha hslot
      rw [Nat.zero_add]
      refine ⟨?_, fun _ => .var hpos'⟩
      rw [← hcounter]
      exact .var (List.mem_of_getElem? hslot)
    | @value x v hget' hplain hdec =>
      rw [← Option.some.inj (hget.symm.trans hget')] at hplain
      simp [poolVar?] at hplain
  | @value v x hx hplain =>
    cases hholds with
    | @var m' hlt hget' =>
      rw [Option.some.inj (hget.symm.trans hget')] at hplain
      simp [poolVar?] at hplain
    | @value x' v' hget' hplain' hdec =>
      obtain rfl := Option.some.inj (hget.symm.trans hget')
      rcases decode_of_encodeAs hm hty (hv v rfl) hx with he | ⟨v'', hdec', hequal, hwrite⟩
      · rw [hdec] at he
        cases he
      · obtain rfl := Except.ok.inj (hdec.symm.trans hdec')
        exact ⟨.value hequal, fun hh => .value (hwrite (hh v rfl)) hplain⟩

/-- A row read back: its cells correspond to those of the old row, and it is written as before if no
option was lost in it. -/
theorem row_reread (hm : c.scope.Built) (hp : spec.Proper) (hv : s.Values Value.WellFormed)
    (hk : kind ∈ s.objects) (hrow : (s.live kind)[pos]? = some row) :
    (∀ key ∈ s.foreignKeys kind, ∃ target ∈ s.live key.codom,
      s.cell? kind row key.name = some (.row target) ∧
        s'.cell? kind pos key.name = some (.row (counterpart s s' key.codom target))) ∧
    (∀ a ∈ s.attributes kind, ∃ cell cell', s.cell? kind row a.name = some cell ∧
      s'.cell? kind pos a.name = some cell' ∧ Corresponds c s s' a cell cell') ∧
    ∃ r, RowWritten c s kind row r ∧
      (s.Values (fun v => ¬ v.Hollow) → RowWritten c s' kind pos r) := by
  obtain ⟨r, hr, hst⟩ := rowStored_reread hs hw hl hp hk hrow
  have hspec : s'.spec = s.spec := hl.spec.trans hs.spec_eq.symm
  have hk' : kind ∈ spec.objects := hs.objects_eq ▸ hk
  have hd := nodup_rowNames hp hs.spec_eq hk'
  have hmem := List.mem_of_getElem? hrow
  have hrefs : ∀ p ∈ r.refs, (∃ target ∈ s.live p.1.codom,
      s.cell? kind row p.1.name = some (.row target) ∧
        s'.cell? kind pos p.1.name = some (.row (counterpart s s' p.1.codom target))) ∧
      KeyWritten s' kind pos p.1 p.2 := by
    intro p hpm
    have hkey : p.1 ∈ s.foreignKeys kind := hr.keys_eq ▸ List.mem_map_of_mem hpm
    have hcodom := codom_mem_of_mem_foreignKeys hp hs.spec_eq hk' hkey
    obtain ⟨cell, hcell, hpoints⟩ := hst.points p.1 (foreignKeys_congr hspec kind ▸ hkey)
    rw [Nat.zero_add] at hcell
    exact foreignKey_reread hs hw hl (List.mem_append_left _ (hs.objects_eq ▸ hcodom))
      (hr.get?_ref hd hpm) (hr.refs p hpm) hcell hpoints
  have hvalues : ∀ p ∈ r.values, ∃ cell cell', s.cell? kind row p.1.name = some cell ∧
      s'.cell? kind pos p.1.name = some cell' ∧ Corresponds c s s' p.1 cell cell' ∧
      ((∀ v, cell = .value v → ¬ v.Hollow) → AttributeWritten c s' p.1 cell' p.2) := by
    intro p hpm
    have ha : p.1 ∈ s.attributes kind := hr.attributes_eq ▸ List.mem_map_of_mem hpm
    have htype := attrType_mem_of_mem_attributes hp hs.spec_eq hk' ha
    obtain ⟨cell, hcell, hattr⟩ := hr.values p hpm
    obtain ⟨cell', hcell', hholds⟩ := hst.holds p.1 (attributes_congr hspec kind ▸ ha)
    rw [Nat.zero_add] at hcell'
    refine ⟨cell, cell', hcell, hcell', attribute_reread hs hw hl hm
      (List.mem_append_right _ (hs.pools_eq ▸ htype)) (proper_of_mem_attributes hp hs.spec_eq hk' ha)
      (fun v he => ?_) (hr.get?_value hd hpm) hattr hholds⟩
    exact hv kind hk row hmem p.1 ha v (he ▸ hcell)
  refine ⟨?_, ?_, r, hr, fun hh => ⟨?_, ?_, fun p hpm => (hrefs p hpm).2, fun p hpm => ?_⟩⟩
  · rw [hr.keys_eq, List.forall_mem_map]
    exact fun p hpm => (hrefs p hpm).1
  · rw [hr.attributes_eq, List.forall_mem_map]
    intro p hpm
    obtain ⟨cell, cell', hcell, hcell', hcorr, -⟩ := hvalues p hpm
    exact ⟨cell, cell', hcell, hcell', hcorr⟩
  · rw [foreignKeys_congr hspec, hr.keys_eq]
  · rw [attributes_congr hspec, hr.attributes_eq]
  · obtain ⟨cell, cell', hcell, hcell', -, hwrite⟩ := hvalues p hpm
    refine ⟨cell', hcell', hwrite fun v he => ?_⟩
    exact hh kind hk row hmem p.1 (hr.attributes_eq ▸ List.mem_map_of_mem hpm) v (he ▸ hcell)

/-! ### Stores read back -/

theorem isomorphic_reread (hm : c.scope.Built) (hp : spec.Proper) (hv : s.Values Value.WellFormed) :
    Isomorphic c s s' := by
  have hat : ∀ kind ∈ s.objects, ∀ row ∈ s.live kind,
      ∃ pos, (s.live kind)[pos]? = some row ∧ counterpart s s' kind row = pos := by
    intro kind hk row hrow
    obtain ⟨pos, hpos⟩ := List.mem_iff_getElem?.1 hrow
    exact ⟨pos, hpos, (position?_reread hs hw hl (List.mem_append_left _ hk) hpos).2⟩
  have hpositions : ∀ kind ∈ s.objects ++ s.pools,
      (s.live kind).map (counterpart s s' kind) = s'.live kind := by
    intro kind hk
    rw [live_reread hs hw hl hk]
    refine List.ext_getElem (by simp [size]) fun i hi _ => ?_
    rw [List.length_map] at hi
    rw [List.getElem_map, List.getElem_range]
    exact (position?_reread hs hw hl hk (List.getElem?_eq_getElem hi)).2
  refine ⟨hl.spec.trans hs.spec_eq.symm, hpositions, fun kind hk => ?_, fun kind hk row hrow => ?_,
    fun kind hk row hrow => ?_⟩
  · refine bijOn_of_map_eq ?_ (hpositions kind hk)
    rw [live_reread hs hw hl hk]
    exact List.nodup_range
  · obtain ⟨pos, hpos, hcounter⟩ := hat kind hk row hrow
    rw [hcounter]
    exact (row_reread hs hw hl hm hp hv hk hpos).1
  · obtain ⟨pos, hpos, hcounter⟩ := hat kind hk row hrow
    rw [hcounter]
    exact (row_reread hs hw hl hm hp hv hk hpos).2.1

theorem write_reread (hm : c.scope.Built) (hp : spec.Proper) (hv : s.Values Value.WellFormed)
    (hh : s.Values fun v => ¬ v.Hollow) : s'.write c = .ok (.obj doc) := by
  have hspec : s'.spec = s.spec := hl.spec.trans hs.spec_eq.symm
  have hobjects : s'.objects = s.objects := congrArg TableSpec.objects hspec
  have hpools : s'.pools = s.pools := congrArg (fun spec => spec.attrTypes.keys) hspec
  have hsize : ∀ k ∈ s.objects ++ s.pools, s'.size k = s.size k := by
    intro k hk
    rw [size, live_reread hs hw hl hk, List.length_range]
  have hkinds : ∀ kind ∈ s.objects, ∃ rows, writeKind c s' kind = .ok (kind, .arr rows) ∧
      Fields.get? doc kind = some (.arr rows) := by
    intro kind hk
    have hkind : kind ∈ s.objects ++ s.pools := List.mem_append_left _ hk
    have hk' : kind ∈ spec.objects := hs.objects_eq ▸ hk
    obtain ⟨rows, hrows, hget⟩ := hw.kinds kind hk
    obtain ⟨hlen, hwrite⟩ := writeKind_eq_ok_iff.1 hrows
    refine ⟨rows, writeKind_eq_ok_iff.2 ⟨hlen.trans (hsize kind hkind).symm, ?_⟩, hget⟩
    intro pos row' j hrow' hj
    rw [live_reread hs hw hl hkind, List.getElem?_eq_some_iff] at hrow'
    obtain ⟨hlt, hrow'⟩ := hrow'
    rw [List.length_range] at hlt
    rw [List.getElem_range] at hrow'
    have hrow : (s.live kind)[pos]? = some _ := List.getElem?_eq_getElem hlt
    obtain ⟨-, -, r, hr, hr'⟩ := row_reread hs hw hl hm hp hv hk hrow
    have hj : j = .obj (r.props pos) := Except.ok.inj ((hwrite pos _ j hrow hj).symm.trans
      ((writeRow_eq_ok (nodup_rowNames hp hs.spec_eq hk')).2 ⟨r, hr, rfl⟩))
    rw [← hrow', writeRow_eq_ok (nodup_rowNames hp (hspec.trans hs.spec_eq) hk')]
    exact ⟨r, hr' hh, hj⟩
  have hnames : (s'.objects ++ s'.pools).Nodup := by
    rw [hobjects, hpools]
    exact hs.nodup_names hp
  obtain ⟨props, hwrite, hw'⟩ := written_of_kinds hnames (c := c) fun kind hk => by
    obtain ⟨rows, hrows, -⟩ := hkinds kind (hobjects ▸ hk)
    exact ⟨rows, hrows⟩
  have hkeys : Fields.keys props = Fields.keys doc := by
    rw [hw'.keys, hw.keys, hobjects, hpools]
  have hdoc : props = doc := by
    refine Fields.eq_of_keys_eq hkeys (by rw [Fields.Distinct, hw'.keys]; exact hnames) fun k hk => ?_
    rw [hkeys, hw.keys] at hk
    rcases List.mem_append.1 hk with hobj | hpool
    · obtain ⟨rows, hrows, hget⟩ := hkinds k hobj
      obtain ⟨rows', hrows', hget'⟩ := hw'.kinds k (hobjects ▸ hobj)
      rw [hget, hget']
      exact congrArg (some ∘ Prod.snd) (Except.ok.inj (hrows'.symm.trans hrows))
    · rw [hw.pools k hpool, hw'.pools k (hpools ▸ hpool), hsize k hk]
  rw [hwrite, hdoc]

end

/-- Two rows that point at each other, one with a number and one with a slot. The row and the slot
before them have been removed. -/
def crossedStore : Store :=
  ⟨ringSpec, [("O", ⟨3, [1, 2], [((2, "label"), .var 1), ((1, "label"), .value (.i64 4)),
    ((2, "next"), .row 1), ((1, "next"), .row 2)]⟩), ("Label", ⟨2, [1], []⟩)], []⟩

theorem crossedStore_reached : Reached ringSpec crossedStore := by
  have h := @Reached.allocate ringSpec _ _ "O" 3 _ .new rfl
  have h := @Reached.setCell ringSpec _ _ "O" 1 "next" (.row 2) h rfl
  have h := @Reached.setCell ringSpec _ _ "O" 2 "next" (.row 1) h rfl
  have h := @Reached.setCell ringSpec _ _ "O" 1 "label" (.value (.i64 4)) h rfl
  have h := @Reached.allocate ringSpec _ _ "Label" 2 _ h rfl
  have h := @Reached.setCell ringSpec _ _ "O" 2 "label" (.var 1) h rfl
  have h := @Reached.remove ringSpec _ _ "Label" 0 _ h rfl
  exact @Reached.remove ringSpec _ _ "O" 0 _ h rfl

theorem crossedStore_values {P : Value → Prop} (h : P (.i64 4)) : crossedStore.Values P := by
  intro kind hk row hrow a ha v hcell
  obtain rfl : kind = "O" := List.mem_singleton.1 hk
  obtain rfl : a = ⟨"label", "Label", .prim .i64⟩ := List.mem_singleton.1 ha
  have hrow : row = 1 ∨ row = 2 := by simpa [crossedStore, live, Fields.get?] using hrow
  rcases hrow with rfl | rfl
  · have hfour : crossedStore.cell? "O" 1 "label" = some (.value (.i64 4)) := rfl
    cases hfour.symm.trans hcell
    exact h
  · have hslot : crossedStore.cell? "O" 2 "label" = some (.var 1) := rfl
    cases hslot.symm.trans hcell

def crossedDoc : Json :=
  .obj [("O", .arr [.obj [("_id", .ofNat 0), ("next", .ofNat 1), ("label", .str "4")],
    .obj [("_id", .ofNat 1), ("next", .ofNat 0), ("label", .obj [("_var", .ofNat 0)])]]),
    ("Label", .arr [slot 0])]

end Wireform.Store

import Mathlib
import Wireform.Table.Document
import Wireform.Proofs.Fields
import Wireform.Proofs.Sequence
import Wireform.Proofs.Ty

/-!
# Stores that can come about

`Store.Sane` holds of a new store and is kept by every operation, reads that fail half way included
(`Reached.sane`): there is a sheet for every kind and pool, and all rows in use are below the next
index, so that a fresh row is never one of the old ones. So the rows in use are ascending
(`Reached.ordered`), and none of them stands twice. Only rows in use have cells (`Reached.housed`).
-/

namespace Wireform

namespace Sheet

theorem grow_zero (sheet : Sheet) : sheet.grow 0 = sheet := by
  simp [grow, fresh]

theorem grow_grow (sheet : Sheet) (m n : Nat) : (sheet.grow m).grow n = sheet.grow (m + n) := by
  simp [grow, fresh, Nat.add_assoc, List.range'_append_1]

theorem cell?_setCell (sheet : Sheet) (row : Nat) (field : String) (cell : Cell) (row' : Nat)
    (field' : String) : (sheet.setCell row field cell).cell? row' field' =
      if row' = row ∧ field' = field then some cell else sheet.cell? row' field' := by
  unfold cell? setCell
  rw [List.find?_cons]
  split
  · rename_i h
    obtain ⟨rfl, rfl⟩ := Prod.mk.inj (beq_iff_eq.1 h)
    simp
  · rename_i h
    have hne : ¬(row' = row ∧ field' = field) := by
      rintro ⟨rfl, rfl⟩
      simp at h
    rw [if_neg hne, List.find?_filter]
    congr 2
    funext c
    by_cases hc : c.1 = (row', field')
    · have hc' : c.1 ≠ (row, field) := fun he => hne (Prod.mk.inj (hc.symm.trans he))
      simp [hc, bne_iff_ne.2 (hc ▸ hc')]
    · simp [hc]

end Sheet

namespace Store

variable {s s' : Store} {kind : String} {sheet : Sheet}

/-! ### Single operations -/

theorem get?_setSheet (s : Store) (kind : String) (sheet : Sheet) (k : String) :
    Fields.get? (s.setSheet kind sheet).sheets k =
      if k = kind then some sheet else Fields.get? s.sheets k :=
  Fields.get?_insert _ _ _ _

theorem sheet_eq_ok : s.sheet kind = .ok sheet ↔ Fields.get? s.sheets kind = some sheet := by
  unfold Store.sheet
  split
  · rename_i sheet' h
    rw [h, Except.ok.injEq, Option.some.injEq]
  · rename_i h
    simp [h]

/-- The rows that an allocation of `n` hands out: all of them, unless the kind has a cap. -/
def granted (caps : Fields Nat) (kind : String) (n : Nat) : Nat :=
  match caps.get? kind with
  | some cap => min n cap
  | none => n

theorem granted_le (caps : Fields Nat) (kind : String) (n : Nat) : granted caps kind n ≤ n := by
  unfold granted
  split
  · exact Nat.min_le_left _ _
  · exact Nat.le_refl n

theorem allocate_of_sheet (h : Fields.get? s.sheets kind = some sheet) (n : Nat) :
    s.allocate kind n = .ok (sheet.fresh (granted s.caps kind n),
      s.setSheet kind (sheet.grow (granted s.caps kind n))) := by
  change s.grow kind (granted s.caps kind n) = _
  rw [grow, sheet_eq_ok.2 h]
  rfl

theorem allocate_eq_ok {n : Nat} {rows : List Nat} (h : s.allocate kind n = .ok (rows, s')) :
    ∃ sheet, Fields.get? s.sheets kind = some sheet ∧ rows = sheet.fresh (granted s.caps kind n) ∧
      s' = s.setSheet kind (sheet.grow (granted s.caps kind n)) := by
  change s.grow kind (granted s.caps kind n) = _ at h
  obtain ⟨sheet, hs, h⟩ := bind_eq_ok.1 h
  obtain ⟨rfl, rfl⟩ := Prod.mk.inj (Except.ok.inj h)
  exact ⟨sheet, sheet_eq_ok.1 hs, rfl, rfl⟩

theorem add_eq_ok {row : Nat} (h : s.add kind = .ok (row, s')) :
    ∃ sheet, Fields.get? s.sheets kind = some sheet ∧ row = sheet.next ∧
      s' = s.setSheet kind (sheet.grow 1) := by
  obtain ⟨sheet, hs, h⟩ := bind_eq_ok.1 h
  obtain ⟨rfl, rfl⟩ := Prod.mk.inj (Except.ok.inj h)
  exact ⟨sheet, sheet_eq_ok.1 hs, rfl, rfl⟩

theorem remove_eq_ok {row : Nat} {there : Bool} (h : s.remove kind row = .ok (there, s')) :
    ∃ sheet, Fields.get? s.sheets kind = some sheet ∧ s' = s.setSheet kind (sheet.remove row) := by
  obtain ⟨sheet, hs, h⟩ := bind_eq_ok.1 h
  exact ⟨sheet, sheet_eq_ok.1 hs, (congrArg Prod.snd (Except.ok.inj h)).symm⟩

theorem setCell_of_live (h : Fields.get? s.sheets kind = some sheet) {row : Nat}
    (hl : row ∈ sheet.live) (field : String) (cell : Cell) :
    s.setCell kind row field cell = .ok (s.setSheet kind (sheet.setCell row field cell)) := by
  rw [setCell, sheet_eq_ok.2 h, ok_bind, if_pos (List.contains_iff_mem.2 hl)]
  rfl

theorem setCell_eq_ok {row : Nat} {field : String} {cell : Cell}
    (h : s.setCell kind row field cell = .ok s') :
    ∃ sheet, Fields.get? s.sheets kind = some sheet ∧ row ∈ sheet.live ∧
      s' = s.setSheet kind (sheet.setCell row field cell) := by
  obtain ⟨sheet, hs, h⟩ := bind_eq_ok.1 h
  split at h
  · rename_i hl
    exact ⟨sheet, sheet_eq_ok.1 hs, List.contains_iff_mem.1 hl, (Except.ok.inj h).symm⟩
  · cases h

theorem eq_empty_of_new {spec : TableSpec} {caps : Fields Nat}
    (h : Fields.get? (Store.new spec caps).sheets kind = some sheet) : sheet = Sheet.empty := by
  obtain ⟨k, -, he⟩ := List.mem_map.1 (Fields.mem_of_mem_ofList (Fields.mem_of_get? h))
  exact (Prod.mk.inj he).2.symm

theorem nodup_names {spec : TableSpec} (hp : spec.Proper) (hs : s.spec = spec) :
    (s.objects ++ s.pools).Nodup := by
  rw [objects, pools, hs]
  exact (List.nodup_append.1 (List.nodup_append.1 hp.members).1).1

/-! ### The invariant -/

structure Sane (spec : TableSpec) (s : Store) : Prop where
  spec_eq : s.spec = spec
  uncapped : s.caps = []
  sheets : ∀ kind ∈ spec.objects ++ spec.attrTypes.keys,
    ∃ sheet, Fields.get? s.sheets kind = some sheet
  below : ∀ kind sheet, Fields.get? s.sheets kind = some sheet → ∀ row ∈ sheet.live, row < sheet.next

namespace Sane

variable {spec : TableSpec}

theorem objects_eq (h : Sane spec s) : s.objects = spec.objects :=
  congrArg TableSpec.objects h.spec_eq

theorem pools_eq (h : Sane spec s) : s.pools = spec.attrTypes.keys :=
  congrArg (fun spec => spec.attrTypes.keys) h.spec_eq

theorem nodup_names (h : Sane spec s) (hp : spec.Proper) : (s.objects ++ s.pools).Nodup :=
  Store.nodup_names hp h.spec_eq

theorem new (spec : TableSpec) : Sane spec (Store.new spec []) where
  spec_eq := rfl
  uncapped := rfl
  sheets := by
    intro kind hk
    refine Fields.exists_get?_of_mem_keys (Fields.mem_keys_ofList.2 ?_)
    exact Fields.mem_keys_of_mem (List.mem_map.2 ⟨kind, hk, rfl⟩)
  below := by
    intro kind sheet h
    rw [eq_empty_of_new h]
    simp [Sheet.empty]

theorem setSheet (h : Sane spec s) {new : Sheet} (hn : ∀ row ∈ new.live, row < new.next) :
    Sane spec (s.setSheet kind new) where
  spec_eq := h.spec_eq
  uncapped := h.uncapped
  sheets := by
    intro k hk
    rw [get?_setSheet]
    split
    · exact ⟨_, rfl⟩
    · exact h.sheets k hk
  below := by
    intro k sheet hs
    rw [get?_setSheet] at hs
    split at hs
    · obtain rfl := Option.some.inj hs
      exact hn
    · exact h.below k sheet hs

theorem allocate (h : Sane spec s) {n : Nat} {rows : List Nat}
    (ha : s.allocate kind n = .ok (rows, s')) : Sane spec s' := by
  obtain ⟨sheet, hs, -, rfl⟩ := allocate_eq_ok ha
  refine h.setSheet fun row hr => ?_
  rcases List.mem_append.1 hr with hr | hr
  · exact Nat.lt_of_lt_of_le (h.below kind sheet hs row hr) (Nat.le_add_right _ _)
  · exact (List.mem_range'_1.1 hr).2

theorem remove (h : Sane spec s) {row : Nat} {there : Bool}
    (hr : s.remove kind row = .ok (there, s')) : Sane spec s' := by
  obtain ⟨sheet, hs, rfl⟩ := remove_eq_ok hr
  exact h.setSheet fun row hm => h.below kind sheet hs row (List.mem_of_mem_filter hm)

theorem setCell (h : Sane spec s) {row : Nat} {field : String} {cell : Cell}
    (hs : s.setCell kind row field cell = .ok s') : Sane spec s' := by
  obtain ⟨sheet, hk, -, rfl⟩ := setCell_eq_ok hs
  exact h.setSheet (h.below kind sheet hk)

end Sane

/-! ### What a read keeps on every way out -/

/-- The store after a read, whether it has failed or not. -/
def after {α : Type} : EStateM.Result CodecError Store α → Store
  | .ok _ s => s
  | .error _ s => s

def Keeps (P : Store → Prop) {α : Type} (x : Reading α) : Prop := ∀ s, P s → P (after (x s))

namespace Keeps

variable {P : Store → Prop} {α β : Type} {x : Reading α} {f : α → Reading β}

theorem of_pure (a : α) : Keeps P (pure a : Reading α) := fun _ h => h

theorem of_throw (e : CodecError) : Keeps P (throw e : Reading α) := fun _ h => h

theorem of_get : Keeps P (get : Reading Store) := fun _ h => h

theorem of_ofExcept (x : Except CodecError α) : Keeps P (ofExcept x : Reading α) := by
  cases x <;> exact fun _ h => h

theorem bind (hx : Keeps P x) (hf : ∀ a, Keeps P (f a)) : Keeps P (x >>= f) := by
  intro s h
  have hs := hx s h
  change P (after (EStateM.bind x f s))
  unfold EStateM.bind
  split
  · rename_i a s' he
    rw [he] at hs
    exact hf a s' hs
  · rename_i e s' he
    rw [he] at hs
    exact hs

theorem mapM {l : List α} (hf : ∀ a, Keeps P (f a)) : Keeps P (l.mapM f) := by
  induction l with
  | nil => exact of_pure _
  | cons a l ih =>
    rw [List.mapM_cons]
    exact (hf a).bind fun b => ih.bind fun bs => of_pure _

theorem forM {l : List α} {f : α → Reading Unit} (hf : ∀ a, Keeps P (f a)) : Keeps P (l.forM f) := by
  induction l with
  | nil => exact of_pure _
  | cons a l ih => exact (hf a).bind fun _ => ih

end Keeps

theorem allocating_apply (kind : String) (n : Nat) (s : Store) :
    allocating kind n s = match s.allocate kind n with
      | .ok (rows, s') => .ok rows s'
      | .error e => .error e s := by
  change (match s.allocate kind n with
    | .ok (rows, s) => do set s; return rows
    | .error e => throw e : Reading (List Nat)) s = _
  cases s.allocate kind n <;> rfl

theorem storeCell_apply (kind : String) (cell : Nat × String × Cell) (s : Store) :
    storeCell kind cell s = match s.setCell kind cell.1 cell.2.1 cell.2.2 with
      | .ok s' => .ok () s'
      | .error e => .error e s := by
  change (match s.setCell kind cell.1 cell.2.1 cell.2.2 with
    | .ok s => set s
    | .error e => throw e : Reading Unit) s = _
  cases s.setCell kind cell.1 cell.2.1 cell.2.2 <;> rfl

/-- Allocations keep the property. -/
def Extensible (P : Store → Prop) : Prop :=
  ∀ s s' kind n rows, P s → s.allocate kind n = .ok (rows, s') → P s'

namespace Extensible

variable {P : Store → Prop}

theorem keeps_allocating (hP : Extensible P) (kind : String) (n : Nat) : Keeps P (allocating kind n) := by
  intro s h
  rw [allocating_apply]
  split
  · rename_i rows s' ha
    exact hP s s' kind n rows h ha
  · exact h

theorem keeps_allocateKind (hP : Extensible P) (doc : Fields Json) (kind : String) :
    Keeps P (allocateKind doc kind) := by
  refine (Keeps.of_ofExcept _).bind fun rows => (Keeps.of_ofExcept _).bind fun _ =>
    (hP.keeps_allocating _ _).bind fun fresh => ?_
  split
  · exact Keeps.of_throw _
  · exact Keeps.of_pure _

theorem keeps_allocatePool (hP : Extensible P) (doc : Fields Json) (pool : String) :
    Keeps P (allocatePool doc pool) := by
  unfold allocatePool
  split
  · exact Keeps.of_pure _
  · exact (Keeps.of_ofExcept _).bind fun _ => (hP.keeps_allocating _ _).bind fun _ => Keeps.of_pure _
  · exact Keeps.of_throw _

end Extensible

/-- A read changes the store by allocations and cell writes only. -/
structure Carried (P : Store → Prop) : Prop where
  allocate : Extensible P
  setCell : ∀ s s' kind row field cell, P s → s.setCell kind row field cell = .ok s' → P s'

namespace Carried

variable {P : Store → Prop}

theorem keeps_storeCell (hP : Carried P) (kind : String) (cell : Nat × String × Cell) :
    Keeps P (storeCell kind cell) := by
  intro s h
  rw [storeCell_apply]
  split
  · rename_i s' hs
    exact hP.setCell s s' kind _ _ _ h hs
  · exact h

theorem keeps_fillKind (hP : Carried P) (c : Codec) (doc : Fields Json) (fresh : Fields (List Nat))
    (kind : String) : Keeps P (fillKind c doc fresh kind) :=
  Keeps.of_get.bind fun _ => (Keeps.of_ofExcept _).bind fun _ =>
    (Keeps.of_ofExcept _).bind fun _ => Keeps.forM (hP.keeps_storeCell kind)

theorem keeps_read (hP : Carried P) (c : Codec) (j : Json) : Keeps P (read c j) := by
  unfold read
  split
  · exact Keeps.of_get.bind fun s => (Keeps.of_ofExcept _).bind fun _ =>
      (Keeps.mapM (hP.allocate.keeps_allocateKind _)).bind fun _ =>
      (Keeps.mapM (hP.allocate.keeps_allocatePool _)).bind fun _ =>
      Keeps.forM (hP.keeps_fillKind c _ _)
  · exact Keeps.of_throw _

end Carried

theorem carried_sane (spec : TableSpec) : Carried (Sane spec) where
  allocate _ _ _ _ _ h := h.allocate
  setCell _ _ _ _ _ _ h := h.setCell

theorem keeps_read {spec : TableSpec} (c : Codec) (j : Json) : Keeps (Sane spec) (read c j) :=
  (carried_sane spec).keeps_read c j

/-! ### Rows in use are ascending -/

/-- A sane store, the rows in use of which stand in ascending order. -/
structure Ordered (spec : TableSpec) (s : Store) : Prop extends Sane spec s where
  ascending : ∀ kind sheet, Fields.get? s.sheets kind = some sheet → sheet.live.Pairwise (· < ·)

namespace Ordered

variable {spec : TableSpec}

theorem new (spec : TableSpec) : Ordered spec (Store.new spec []) where
  toSane := Sane.new spec
  ascending := by
    intro kind sheet h
    rw [eq_empty_of_new h]
    exact .nil

theorem setSheet (h : Ordered spec s) {new : Sheet} (hs : Sane spec (s.setSheet kind new))
    (hn : new.live.Pairwise (· < ·)) : Ordered spec (s.setSheet kind new) where
  toSane := hs
  ascending := by
    intro k sheet hk
    rw [get?_setSheet] at hk
    split at hk
    · obtain rfl := Option.some.inj hk
      exact hn
    · exact h.ascending k sheet hk

theorem allocate (h : Ordered spec s) {n : Nat} {rows : List Nat}
    (ha : s.allocate kind n = .ok (rows, s')) : Ordered spec s' := by
  have hs := h.toSane.allocate ha
  obtain ⟨sheet, hk, -, rfl⟩ := allocate_eq_ok ha
  refine h.setSheet hs (List.pairwise_append.2 ⟨h.ascending kind sheet hk, ?_, ?_⟩)
  · exact List.pairwise_lt_range'
  · intro a ha b hb
    exact Nat.lt_of_lt_of_le (h.below kind sheet hk a ha) (List.mem_range'_1.1 hb).1

theorem remove (h : Ordered spec s) {row : Nat} {there : Bool}
    (hr : s.remove kind row = .ok (there, s')) : Ordered spec s' := by
  have hs := h.toSane.remove hr
  obtain ⟨sheet, hk, rfl⟩ := remove_eq_ok hr
  exact h.setSheet hs ((h.ascending kind sheet hk).filter _)

theorem setCell (h : Ordered spec s) {row : Nat} {field : String} {cell : Cell}
    (hs : s.setCell kind row field cell = .ok s') : Ordered spec s' := by
  have hsane := h.toSane.setCell hs
  obtain ⟨sheet, hk, -, rfl⟩ := setCell_eq_ok hs
  exact h.setSheet hsane (h.ascending kind sheet hk)

theorem carried (spec : TableSpec) : Carried (Ordered spec) where
  allocate _ _ _ _ _ h := h.allocate
  setCell _ _ _ _ _ _ h := h.setCell

theorem nodup_live (h : Ordered spec s) (kind : String) : (s.live kind).Nodup := by
  unfold live
  split
  · rename_i sheet hs
    exact (h.ascending kind sheet hs).imp Nat.ne_of_lt
  · exact List.nodup_nil

end Ordered

/-- The stores of a table that allocations, removals, cell writes and reads lead to. A read that
fails keeps what it has stored so far. -/
inductive Reached (spec : TableSpec) : Store → Prop
  | new : Reached spec (Store.new spec [])
  | allocate {s s' : Store} {kind : String} {n : Nat} {rows : List Nat} :
    Reached spec s → s.allocate kind n = .ok (rows, s') → Reached spec s'
  | remove {s s' : Store} {kind : String} {row : Nat} {there : Bool} :
    Reached spec s → s.remove kind row = .ok (there, s') → Reached spec s'
  | setCell {s s' : Store} {kind : String} {row : Nat} {field : String} {cell : Cell} :
    Reached spec s → s.setCell kind row field cell = .ok s' → Reached spec s'
  | read {s : Store} (c : Codec) (j : Json) : Reached spec s → Reached spec (after (read c j s))

theorem Reached.ordered {spec : TableSpec} (h : Reached spec s) : Ordered spec s := by
  induction h with
  | new => exact Ordered.new spec
  | allocate _ ha ih => exact ih.allocate ha
  | remove _ hr ih => exact ih.remove hr
  | setCell _ hs ih => exact ih.setCell hs
  | read c j _ ih => exact (Ordered.carried spec).keeps_read c j _ ih

theorem Reached.sane {spec : TableSpec} (h : Reached spec s) : Sane spec s := h.ordered.toSane

/-! ### Cells are those of rows in use -/

/-- Every cell belongs to a row in use. -/
def Housed (s : Store) : Prop :=
  ∀ kind sheet, Fields.get? s.sheets kind = some sheet → ∀ c ∈ sheet.cells, c.1.1 ∈ sheet.live

namespace Housed

theorem setSheet (h : Housed s) {new : Sheet} (hn : ∀ c ∈ new.cells, c.1.1 ∈ new.live) :
    Housed (s.setSheet kind new) := by
  intro k sheet hk
  rw [get?_setSheet] at hk
  split at hk
  · obtain rfl := Option.some.inj hk
    exact hn
  · exact h k sheet hk

theorem carried : Carried Housed where
  allocate s s' kind n rows h ha := by
    obtain ⟨sheet, hk, -, rfl⟩ := allocate_eq_ok ha
    exact h.setSheet fun c hc => List.mem_append_left _ (h kind sheet hk c hc)
  setCell s s' kind row field cell h hs := by
    obtain ⟨sheet, hk, hl, rfl⟩ := setCell_eq_ok hs
    refine h.setSheet (List.forall_mem_cons.2 ⟨hl, fun c hc => ?_⟩)
    exact h kind sheet hk c (List.mem_of_mem_filter hc)

theorem remove (h : Housed s) {row : Nat} {there : Bool}
    (hr : s.remove kind row = .ok (there, s')) : Housed s' := by
  obtain ⟨sheet, hk, rfl⟩ := remove_eq_ok hr
  refine h.setSheet fun c hc => ?_
  obtain ⟨hc, hne⟩ := List.mem_filter.1 hc
  exact List.mem_filter.2 ⟨h kind sheet hk c hc, hne⟩

end Housed

theorem Reached.housed {spec : TableSpec} (h : Reached spec s) : Housed s := by
  induction h with
  | new =>
    intro kind sheet hk
    rw [eq_empty_of_new hk]
    simp [Sheet.empty]
  | allocate _ ha ih => exact Housed.carried.allocate _ _ _ _ _ ih ha
  | remove _ hr ih => exact ih.remove hr
  | setCell _ hs ih => exact Housed.carried.setCell _ _ _ _ _ _ ih hs
  | read c j _ ih => exact Housed.carried.keeps_read c j _ ih

end Store

end Wireform

import Mathlib
import Wireform.Proofs.Codec.Reads
import Wireform.Proofs.Table.Store

/-!
# Room for the entries of a document

The `_id`s of the entries that a document lists for a kind are `0`, `1`, … in some order
(`InOrder`). A read that succeeds has first made room for them: every sheet has grown by their number
(`Grown`), and the entries take the indices from the next one of the old store on (`Rooms`). A kind
with a cap has been given room for all of its rows, or the read would have stopped (`TakesAll`); a pool with
a cap may have been given less (`roomFor`).
-/

namespace Wireform.Store

/-! ### Runs that succeed -/

namespace Reading

variable {α β : Type} {s s' : Store}

theorem bind_eq_ok {x : Reading α} {f : α → Reading β} {b : β} :
    (x >>= f) s = .ok b s' ↔ ∃ a t, x s = .ok a t ∧ f a t = .ok b s' := bind_run_eq_ok

theorem ofExcept_bind_eq_ok {x : Except CodecError α} {f : α → Reading β} {b : β}
    (h : (ofExcept x >>= f) s = .ok b s') : ∃ a, x = .ok a ∧ f a s = .ok b s' := by
  cases x with
  | ok a => exact ⟨a, rfl, h⟩
  | error e => cases h

theorem pure_eq_ok {a b : α} : (pure a : Reading α) s = .ok b s' ↔ a = b ∧ s = s' := pure_run_eq_ok

theorem get_bind (f : Store → Reading β) (s : Store) : (get >>= f) s = f s s := get_bind_run f s

theorem bind_of_ok {x : Reading α} {a : α} (h : x s = .ok a s') (f : α → Reading β) :
    (x >>= f) s = f a s' := bind_run_of_ok h f

theorem bind_of_error {x : Reading α} {e : CodecError} (h : x s = .error e s') (f : α → Reading β) :
    (x >>= f) s = .error e s' := bind_run_of_error h f

theorem ok_of_ofExcept {x : Except CodecError α} {a : α} (h : (ofExcept x : Reading α) s = .ok a s') :
    x = .ok a ∧ s = s' := by
  cases x with
  | ok b =>
    obtain ⟨rfl, hs⟩ := pure_eq_ok.1 h
    exact ⟨rfl, hs⟩
  | error e => cases h

theorem ofExcept_of_ok {x : Except CodecError α} {a : α} (h : x = .ok a) (f : α → Reading β) :
    (ofExcept x >>= f) s = f a s := by
  rw [h]
  rfl

theorem ofExcept_of_error {x : Except CodecError α} {e : CodecError} (h : x = .error e)
    (f : α → Reading β) : (ofExcept x >>= f) s = .error e s := by
  rw [h]
  rfl

end Reading

theorem allocating_eq_ok {s s' : Store} {kind : String} {n : Nat} {rows : List Nat}
    (h : allocating kind n s = .ok rows s') : s.allocate kind n = .ok (rows, s') := by
  rw [allocating_apply] at h
  split at h
  · rename_i he
    cases h
    exact he
  · cases h

theorem storeCell_eq_ok {s s' : Store} {kind : String} {cell : Nat × String × Cell}
    (h : storeCell kind cell s = .ok () s') :
    s.setCell kind cell.1 cell.2.1 cell.2.2 = .ok s' := by
  rw [storeCell_apply] at h
  split at h
  · rename_i he
    cases h
    exact he
  · cases h

/-! ### Numbered entries -/

/-- Entries of a document in ascending `_id`. The numbers leave no gap. -/
structure InOrder (rows sorted : List Json) : Prop where
  perm : sorted.Perm rows
  ids : ∀ (i : Nat) (row : Json), sorted[i]? = some row → row.prop? rowId = some (.ofNat i)

theorem ofNat_inj {m n : Nat} (h : Json.ofNat m = .ofNat n) : m = n := by
  simpa [Json.ofNat, Json.ofInt] using h

@[simp] theorem position?_ofNat (n : Nat) : (Json.ofNat n).position? = some n := by
  simp [Json.position?, Json.ofNat, Json.ofInt, Json.int?]

theorem position?_eq_some {j : Json} {n : Nat} : j.position? = some n ↔ j = .ofNat n := by
  constructor
  · intro h
    unfold Json.position? Json.int? at h
    split at h
    · rename_i m he
      split at he
      · cases he
        split at h
        · rename_i hm
          cases h
          rw [Json.ofNat, Json.ofInt, Int.toNat_of_nonneg hm]
        · cases h
      · cases he
    · cases h
  · rintro rfl
    exact position?_ofNat n

namespace InOrder

variable {rows sorted : List Json} {row : Json} {i : Nat}

theorem length_eq (h : InOrder rows sorted) : sorted.length = rows.length := h.perm.length_eq

theorem getElem?_of_mem (h : InOrder rows sorted) (hr : row ∈ rows)
    (hi : row.prop? rowId = some (.ofNat i)) : sorted[i]? = some row := by
  obtain ⟨k, hk⟩ := List.mem_iff_getElem?.1 (h.perm.mem_iff.2 hr)
  have he := h.ids k row hk
  rw [hi, Option.some.injEq] at he
  rw [ofNat_inj he, hk]

theorem exists_id (h : InOrder rows sorted) (hr : row ∈ rows) :
    ∃ i < rows.length, row.prop? rowId = some (.ofNat i) := by
  obtain ⟨i, hi⟩ := List.mem_iff_getElem?.1 (h.perm.mem_iff.2 hr)
  have hlt := (List.getElem?_eq_some_iff.1 hi).1
  exact ⟨i, h.length_eq ▸ hlt, h.ids i row hi⟩

end InOrder

/-- Numbers below the number of entries that are all different are all the numbers there are. -/
theorem exists_inOrder {rows : List Json} {ids : List Nat}
    (h : List.Forall₂ (fun row i => row.prop? rowId = some (.ofNat i)) rows ids) (hd : ids.Nodup)
    (hlt : ∀ i ∈ ids, i < rows.length) : ∃ sorted, InOrder rows sorted := by
  have hp : (List.range rows.length).Perm ids := by
    have hs : ids ⊆ List.range rows.length := fun i hi => List.mem_range.2 (hlt i hi)
    refine ((hd.subperm hs).perm_of_length_le ?_).symm
    rw [List.length_range, h.length_eq]
  obtain ⟨sorted, hs, hperm⟩ := List.perm_comp_forall₂ hp h.flip
  refine ⟨sorted, hperm, fun i row hi => ?_⟩
  obtain ⟨hlt, rfl⟩ := List.getElem?_eq_some_iff.1 hi
  have hg := List.Forall₂.get hs (by rw [hs.length_eq]; exact hlt) hlt
  simpa [flip] using hg

theorem forall₂_of_checkRowIds {kind : String} {count i : Nat} {seen : List Nat} {rows : List Json}
    (h : checkRowIds kind count i seen rows = .ok ()) :
    ∃ ids, List.Forall₂ (fun row i => row.prop? rowId = some (.ofNat i)) rows ids ∧ ids.Nodup ∧
      ∀ i ∈ ids, i < count ∧ i ∉ seen := by
  induction rows generalizing i seen with
  | nil => exact ⟨[], .nil, List.nodup_nil, by simp⟩
  | cons row rows ih =>
    rw [checkRowIds] at h
    split at h
    · cases h
    rename_i id hid
    obtain ⟨j, hj, hp⟩ := Option.bind_eq_some_iff.1 hid
    obtain rfl := position?_eq_some.1 hp
    split at h
    · cases h
    rename_i hlt
    split at h
    · cases h
    rename_i hseen
    obtain ⟨ids, hr, hd, hall⟩ := ih h
    have hid : id ∉ ids := fun hm => (hall id hm).2 List.mem_cons_self
    refine ⟨id :: ids, .cons hj hr, List.nodup_cons.2 ⟨hid, hd⟩, ?_⟩
    refine List.forall_mem_cons.2 ⟨⟨Nat.lt_of_not_le hlt, by simpa using hseen⟩, fun i hi => ?_⟩
    exact ⟨(hall i hi).1, fun hm => (hall i hi).2 (List.mem_cons_of_mem _ hm)⟩

/-- A slot of a pool is nothing but its number. -/
def slot (i : Nat) : Json := .obj [(rowId, .ofNat i)]

theorem prop?_slot (i : Nat) : (slot i).prop? rowId = some (.ofNat i) := by
  simp [slot, Json.prop?, Fields.get?_cons]

theorem eq_singleton_of_hasNames {props : Fields Json} {k : String} {j : Json}
    (h : Codec.hasNames props [k] = true) (hj : Fields.get? props k = some j) :
    props = [(k, j)] := by
  rw [Codec.hasNames, Bool.and_eq_true, beq_iff_eq] at h
  obtain ⟨e, rfl⟩ := List.length_eq_one_iff.1 h.1
  rw [Fields.get?_cons] at hj
  split at hj
  · rename_i hk
    rw [hk, ← Option.some.inj hj]
  · cases hj

theorem eq_map_slot_of_checkSlotIds {pool : String} {count : Nat} {seen : List Nat} {slots : List Json}
    (h : checkSlotIds pool count seen slots = .ok ()) :
    ∃ ids : List Nat, slots = ids.map slot ∧ ids.Nodup ∧ ∀ i ∈ ids, i < count ∧ i ∉ seen := by
  induction slots generalizing seen with
  | nil => exact ⟨[], rfl, List.nodup_nil, by simp⟩
  | cons j slots ih =>
    rw [checkSlotIds] at h
    obtain ⟨props, hp, hprops⟩ := Wireform.bind_eq_ok.1 h
    obtain ⟨found, hf, hfound⟩ := Wireform.bind_eq_ok.1 hprops
    clear h hprops
    split at hfound
    · rename_i id hid
      obtain rfl := position?_eq_some.1 hid
      obtain ⟨rfl, hn⟩ := Codec.expectRecord_eq_ok.1 hp
      obtain rfl := eq_singleton_of_hasNames hn (Codec.field_eq_ok.1 hf)
      split at hfound
      · rename_i hok
        rw [Bool.and_eq_true, decide_eq_true_eq, Bool.not_eq_true'] at hok
        obtain ⟨ids, rfl, hd, hall⟩ := ih hfound
        have hid : id ∉ ids := fun hm => (hall id hm).2 List.mem_cons_self
        refine ⟨id :: ids, rfl, List.nodup_cons.2 ⟨hid, hd⟩, ?_⟩
        refine List.forall_mem_cons.2 ⟨⟨hok.1, by simpa using hok.2⟩, fun i hi => ?_⟩
        exact ⟨(hall i hi).1, fun hm => (hall i hi).2 (List.mem_cons_of_mem _ hm)⟩
      · cases hfound
    · cases hfound

/-! ### Making room -/

/-- The number of entries that a document lists for a kind or a pool. -/
def rowCount (j : Json) (kind : String) : Nat :=
  match j.prop? kind with
  | some (.arr rows) => rows.length
  | _ => 0

theorem rowCount_of_prop? {j : Json} {kind : String} {rows : List Json}
    (h : j.prop? kind = some (.arr rows)) : rowCount j kind = rows.length := by
  rw [rowCount, h]

theorem rowCount_of_none {j : Json} {kind : String} (h : j.prop? kind = none) :
    rowCount j kind = 0 := by
  rw [rowCount, h]

theorem rowsOf_eq_ok {doc : Fields Json} {kind : String} {rows : List Json}
    (h : rowsOf doc kind = .ok rows) : Fields.get? doc kind = some (.arr rows) := by
  unfold rowsOf at h
  split at h
  · rename_i he
    rw [he, Except.ok.inj h]
  · cases h
  · cases h

/-- The next index of a kind. -/
def nextOf (s : Store) (kind : String) : Nat := ((Fields.get? s.sheets kind).map Sheet.next).getD 0

theorem nextOf_of_sheet {s : Store} {kind : String} {sheet : Sheet}
    (h : Fields.get? s.sheets kind = some sheet) : s.nextOf kind = sheet.next := by
  simp [nextOf, h]

theorem live_of_sheet {s : Store} {kind : String} {sheet : Sheet}
    (h : Fields.get? s.sheets kind = some sheet) : s.live kind = sheet.live := by
  simp [live, h]

theorem Sane.live_lt {spec : TableSpec} {s : Store} (h : Sane spec s) {kind : String} {row : Nat}
    (hr : row ∈ s.live kind) : row < s.nextOf kind := by
  cases hs : Fields.get? s.sheets kind with
  | none => simp [live, hs] at hr
  | some sheet =>
    rw [live_of_sheet hs] at hr
    rw [nextOf_of_sheet hs]
    exact h.below kind sheet hs row hr

/-- Every kind has `n` more rows, and nothing else has changed. -/
structure Grown (n : String → Nat) (s s' : Store) : Prop where
  spec : s'.spec = s.spec
  caps : s'.caps = s.caps
  sheets : ∀ k, Fields.get? s'.sheets k = (Fields.get? s.sheets k).map fun sheet => sheet.grow (n k)

namespace Grown

variable {m n : String → Nat} {s s' s'' : Store} {k : String}

theorem refl (s : Store) : Grown (fun _ => 0) s s where
  spec := rfl
  caps := rfl
  sheets k := by simp [Sheet.grow_zero]

theorem trans (h : Grown m s s') (h' : Grown n s' s'') : Grown (fun k => m k + n k) s s'' where
  spec := h'.spec.trans h.spec
  caps := h'.caps.trans h.caps
  sheets k := by
    rw [h'.sheets, h.sheets, Option.map_map]
    simp only [Function.comp_def, Sheet.grow_grow]

theorem nextOf_eq (h : Grown n s s') (hk : n k = 0) : s'.nextOf k = s.nextOf k := by
  simp [nextOf, h.sheets, hk, Sheet.grow_zero]

theorem live_eq (h : Grown n s s') (hk : ∃ sheet, Fields.get? s.sheets k = some sheet) :
    s'.live k = s.live k ++ List.range' (s.nextOf k) (n k) := by
  obtain ⟨sheet, hs⟩ := hk
  have hs' : Fields.get? s'.sheets k = some (sheet.grow (n k)) := by rw [h.sheets, hs]; rfl
  rw [live_of_sheet hs', live_of_sheet hs, nextOf_of_sheet hs]
  rfl

theorem cell?_eq (h : Grown n s s') (k : String) : s'.cell? k = s.cell? k := by
  funext row field
  rw [cell?, cell?, h.sheets]
  cases Fields.get? s.sheets k <;> rfl

end Grown

theorem grown_of_allocate {s s' : Store} {kind : String} {n : Nat} {rows : List Nat}
    (h : s.allocate kind n = .ok (rows, s')) :
    Grown (fun k => if k = kind then granted s.caps kind n else 0) s s' ∧
      rows = List.range' (s.nextOf kind) (granted s.caps kind n) := by
  obtain ⟨sheet, hs, rfl, rfl⟩ := allocate_eq_ok h
  refine ⟨⟨rfl, rfl, fun k => ?_⟩, by rw [nextOf_of_sheet hs]; rfl⟩
  rw [get?_setSheet]
  split
  · rename_i hk
    rw [hk, hs]
    rfl
  · simp [Sheet.grow_zero]

/-- The indices handed out for each of the names, counted from the next ones of the store. -/
structure Rooms (names : List String) (n : String → Nat) (s : Store) (fresh : Fields (List Nat)) :
    Prop where
  distinct : Fields.Distinct fresh
  keys : ∀ k ∈ Fields.keys fresh, k ∈ names
  rows : ∀ k ∈ names, (Fields.get? fresh k).getD [] = List.range' (s.nextOf k) (n k)

namespace Rooms

variable {names names' : List String} {n : String → Nat} {s s' : Store}
  {fresh fresh' : Fields (List Nat)}

theorem single {k : String} {rows : List Nat} (h : rows = List.range' (s.nextOf k) (n k)) :
    Rooms [k] n s [(k, rows)] where
  distinct := by simp [Fields.Distinct]
  keys := by simp
  rows := by simp [Fields.get?_cons, h]

theorem append (h : Rooms names n s fresh) (h' : Rooms names' n s' fresh')
    (hd : names.Disjoint names') (hs : ∀ k ∈ names', s'.nextOf k = s.nextOf k) :
    Rooms (names ++ names') n s (fresh ++ fresh') where
  distinct := by
    rw [Fields.Distinct, Fields.keys_append]
    exact List.Nodup.append h.distinct h'.distinct fun k hk hk' =>
      hd (h.keys k hk) (h'.keys k hk')
  keys := by
    intro k hk
    rw [Fields.keys_append, List.mem_append] at hk
    exact List.mem_append.2 (hk.imp (h.keys k) (h'.keys k))
  rows := by
    intro k hk
    rw [Fields.get?_append]
    rcases List.mem_append.1 hk with hk | hk
    · have hnone : Fields.get? fresh' k = none :=
        Fields.get?_eq_none_iff.2 fun hm => hd hk (h'.keys k hm)
      rw [hnone, Option.or_none, h.rows k hk]
    · have hnone : Fields.get? fresh k = none :=
        Fields.get?_eq_none_iff.2 fun hm => hd (h.keys k hm) hk
      rw [hnone, Option.none_or, h'.rows k hk, hs k hk]

/-- What a number of the document stands for. -/
theorem placed?_eq_some (h : Rooms names n s fresh) {kind : String} (hk : kind ∈ names) {j : Json}
    {row : Nat} (hp : placed? fresh kind j = some row) :
    ∃ m < n kind, j = .ofNat m ∧ row = s.nextOf kind + m := by
  obtain ⟨m, hm, hrow⟩ := Option.bind_eq_some_iff.1 hp
  rw [h.rows kind hk] at hrow
  obtain ⟨hlt, he⟩ := List.getElem?_eq_some_iff.1 hrow
  rw [List.length_range'] at hlt
  refine ⟨m, hlt, position?_eq_some.1 hm, ?_⟩
  simpa using he.symm

end Rooms

/-- A run that makes room for one name after the other makes room for all of them. -/
theorem mapM_rooms {β : Type} {f : String → Reading β} {g : β → Fields (List Nat)}
    {n : String → Nat} {P : String → Prop} {caps : Fields Nat} {names : List String}
    (hd : names.Nodup) (hf : ∀ k ∈ names, ∀ s b s', s.caps = caps → f k s = .ok b s' →
      P k ∧ Grown (fun k' => if k' = k then n k else 0) s s' ∧ Rooms [k] n s (g b))
    {s s' : Store} {bs : List β} (hc : s.caps = caps) (h : names.mapM f s = .ok bs s') :
    (∀ k ∈ names, P k) ∧ Grown (fun k => if k ∈ names then n k else 0) s s' ∧
      Rooms names n s (bs.flatMap g) := by
  induction names generalizing s bs with
  | nil =>
    obtain ⟨rfl, rfl⟩ := Reading.pure_eq_ok.1 h
    exact ⟨by simp, by simpa using Grown.refl s, by simp [Fields.Distinct], by simp, by simp⟩
  | cons k names ih =>
    rw [List.nodup_cons] at hd
    rw [List.mapM_cons] at h
    obtain ⟨b, s₁, hb, h⟩ := Reading.bind_eq_ok.1 h
    obtain ⟨bs', s₂, hbs, h⟩ := Reading.bind_eq_ok.1 h
    obtain ⟨rfl, rfl⟩ := Reading.pure_eq_ok.1 h
    obtain ⟨hP, hg, hr⟩ := hf k List.mem_cons_self s b s₁ hc hb
    obtain ⟨hP', hg', hr'⟩ := ih hd.2 (fun k hk => hf k (List.mem_cons_of_mem _ hk))
      (hg.caps.trans hc) hbs
    have hne : ∀ k' ∈ names, k' ≠ k := fun k' hk' he => hd.1 (he ▸ hk')
    refine ⟨List.forall_mem_cons.2 ⟨hP, hP'⟩, ?_, ?_⟩
    · have hsum : (fun k' => (if k' = k then n k else 0) + if k' ∈ names then n k' else 0) =
          fun k' => if k' ∈ k :: names then n k' else 0 := by
        funext k'
        by_cases hk : k' = k
        · simp [hk, hd.1]
        · simp [hk]
      exact hsum ▸ hg.trans hg'
    · refine hr.append hr' (List.singleton_disjoint.2 hd.1) fun k' hk' => ?_
      exact hg.nextOf_eq (if_neg (hne k' hk'))

/-- The document numbers the rows of the kind. -/
def ListsKind (doc : Fields Json) (kind : String) : Prop :=
  ∃ rows sorted, Fields.get? doc kind = some (.arr rows) ∧ InOrder rows sorted

/-- The document numbers the slots of the pool, or leaves the pool out. -/
def ListsPool (doc : Fields Json) (pool : String) : Prop :=
  Fields.get? doc pool = none ∨ ∃ slots sorted, Fields.get? doc pool = some (.arr slots) ∧
    InOrder slots sorted ∧ ∀ j ∈ slots, ∃ i, j = slot i

/-- The entries of a kind or a pool that there is room for. -/
def roomFor (caps : Fields Nat) (j : Json) (kind : String) : Nat :=
  granted caps kind (rowCount j kind)

theorem roomFor_uncapped (j : Json) : roomFor [] j = rowCount j := rfl

/-- There is room for all rows of the kind. -/
def TakesAll (caps : Fields Nat) (doc : Fields Json) (kind : String) : Prop :=
  ListsKind doc kind ∧ roomFor caps (.obj doc) kind = rowCount (.obj doc) kind

variable {caps : Fields Nat} {doc : Fields Json} {s s' : Store}

theorem rooms_of_allocateKind {kind : String} {room : String × List Nat} (hc : s.caps = caps)
    (h : allocateKind doc kind s = .ok room s') :
    TakesAll caps doc kind ∧
      Grown (fun k => if k = kind then roomFor caps (.obj doc) kind else 0) s s' ∧
      Rooms [kind] (roomFor caps (.obj doc)) s [room] := by
  obtain ⟨rows, hr, h⟩ := Reading.ofExcept_bind_eq_ok h
  obtain ⟨_, hids, h⟩ := Reading.ofExcept_bind_eq_ok h
  obtain ⟨fresh, t, hf, h⟩ := Reading.bind_eq_ok.1 h
  split at h
  · cases h
  rename_i hlen
  obtain ⟨rfl, rfl⟩ := Reading.pure_eq_ok.1 h
  have hrows := rowsOf_eq_ok hr
  have hn : rowCount (.obj doc) kind = rows.length := rowCount_of_prop? hrows
  obtain ⟨ids, hall, hd, hlt⟩ := forall₂_of_checkRowIds hids
  obtain ⟨sorted, hs⟩ := exists_inOrder hall hd fun i hi => (hlt i hi).1
  obtain ⟨hg, hfresh⟩ := grown_of_allocate (allocating_eq_ok hf)
  rw [hc, ← hn] at hg hfresh
  -- A short allocation has been refused.
  have hroom : roomFor caps (.obj doc) kind = rowCount (.obj doc) kind := by
    rw [hfresh, List.length_range', not_not] at hlen
    exact hlen.trans hn.symm
  exact ⟨⟨⟨rows, sorted, hrows, hs⟩, hroom⟩, hg, .single hfresh⟩

theorem rooms_of_allocatePool {pool : String} {room : Fields (List Nat)} (hc : s.caps = caps)
    (h : allocatePool doc pool s = .ok room s') :
    ListsPool doc pool ∧
      Grown (fun k => if k = pool then roomFor caps (.obj doc) pool else 0) s s' ∧
      Rooms [pool] (roomFor caps (.obj doc)) s room := by
  generalize hx : allocatePool doc pool = x at h
  unfold allocatePool at hx
  split at hx <;> subst hx
  · rename_i hnone
    obtain ⟨rfl, rfl⟩ := Reading.pure_eq_ok.1 h
    have hn : roomFor caps (.obj doc) pool = 0 := by
      rw [roomFor, rowCount_of_none (j := .obj doc) hnone]
      exact Nat.le_zero.1 (granted_le caps pool 0)
    refine ⟨.inl hnone, by simpa [hn] using Grown.refl s, by simp [Fields.Distinct], by simp, ?_⟩
    simp [hn]
  · rename_i slots hslots
    obtain ⟨_, hids, h⟩ := Reading.ofExcept_bind_eq_ok h
    obtain ⟨fresh, t, hf, h⟩ := Reading.bind_eq_ok.1 h
    obtain ⟨rfl, rfl⟩ := Reading.pure_eq_ok.1 h
    have hn : rowCount (.obj doc) pool = slots.length := rowCount_of_prop? hslots
    obtain ⟨ids, rfl, hd, hlt⟩ := eq_map_slot_of_checkSlotIds hids
    have hids : List.Forall₂ (fun j i => j.prop? rowId = some (.ofNat i)) (ids.map slot) ids :=
      List.forall₂_map_left_iff.2 (List.forall₂_same.2 fun i _ => prop?_slot i)
    obtain ⟨sorted, hs⟩ := exists_inOrder hids hd fun i hi => (hlt i hi).1
    obtain ⟨hg, hfresh⟩ := grown_of_allocate (allocating_eq_ok hf)
    rw [hc, ← hn] at hg hfresh
    refine ⟨.inr ⟨_, sorted, hslots, hs, fun j hj => ?_⟩, hg, .single hfresh⟩
    obtain ⟨i, -, he⟩ := List.mem_map.1 hj
    exact ⟨i, he.symm⟩
  · cases h

/-- Room has been made for the rows of all kinds and then for the slots of all pools. -/
structure RoomMade (doc : Fields Json) (s s' : Store) (fresh : Fields (List Nat)) : Prop where
  kinds : ∀ kind ∈ s.objects, TakesAll s.caps doc kind
  pools : ∀ pool ∈ s.pools, ListsPool doc pool
  grown : Grown (fun k => if k ∈ s.objects ++ s.pools then roomFor s.caps (.obj doc) k else 0) s s'
  rooms : Rooms (s.objects ++ s.pools) (roomFor s.caps (.obj doc)) s fresh

theorem roomMade_of_allocation {s₁ s₂ : Store} (hd : (s.objects ++ s.pools).Nodup)
    {kinds : Fields (List Nat)} {pools : List (Fields (List Nat))}
    (hkinds : s.objects.mapM (allocateKind doc) s = .ok kinds s₁)
    (hpools : s.pools.mapM (allocatePool doc) s₁ = .ok pools s₂) :
    RoomMade doc s s₂ (kinds ++ pools.flatten) := by
  obtain ⟨hok, hpk, hdisj⟩ := List.nodup_append'.1 hd
  obtain ⟨hlk, hgk, hrk⟩ := mapM_rooms hok (g := fun room => [room])
    (fun k _ s b s' => rooms_of_allocateKind) rfl hkinds
  obtain ⟨hlp, hgp, hrp⟩ := mapM_rooms hpk (g := id)
    (fun k _ s b s' => rooms_of_allocatePool) hgk.caps hpools
  have hr := hrk.append hrp hdisj fun k hk => hgk.nextOf_eq (if_neg fun hm => hdisj hm hk)
  rw [List.flatMap_singleton', List.flatMap_id] at hr
  refine ⟨hlk, hlp, ?_, hr⟩
  convert hgk.trans hgp using 2 with k
  by_cases hk : k ∈ s.objects
  · have hnot : k ∉ s.pools := fun hm => hdisj hk hm
    simp [hk, hnot]
  · simp [hk]

end Wireform.Store

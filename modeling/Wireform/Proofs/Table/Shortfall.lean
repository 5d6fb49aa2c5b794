import Mathlib
import Wireform.Proofs.Codec.Resolution
import Wireform.Proofs.Table.Append

/-!
# Stores that run short

A store with caps hands out fewer rows than it is asked for. A read into such a store never looks for
a row outside of those it was given, and a read that succeeds has made room for all rows of every
kind. Not so for pools: their slots are not counted, so a pool that runs short takes as many as it has
room for, and the read fails only if a cell refers to one of the others. Nothing is lost exactly if no
pool of the document runs short (`read_capped`).
-/

namespace Wireform.Store

open Codec (Avoids Unrelated)

/-- The same store with bounds on what it hands out. -/
def capped (s : Store) (caps : Fields Nat) : Store := { s with caps := caps }

/-! ### Runs that avoid an error -/

/-- The run does not end in one of the given errors. -/
def Spares {ι α : Type} (bad : ι → CodecError) (r : EStateM.Result CodecError Store α) : Prop :=
  ∀ i s, r ≠ .error (bad i) s

namespace Spares

variable {ι α β : Type} {bad : ι → CodecError} {s : Store}

theorem ok (a : α) (s : Store) : Spares bad (.ok a s) := by
  rintro i s' ⟨⟩

theorem error {e : CodecError} (h : ∀ i, e ≠ bad i) (s : Store) :
    Spares bad (.error e s : EStateM.Result _ _ α) := by
  rintro i s' he
  exact h i ((EStateM.Result.error.injEq ..).mp he).1

theorem of_ofExcept {x : Except CodecError α} (h : Avoids bad x) (s : Store) :
    Spares bad ((ofExcept x : Reading α) s) := by
  cases x with
  | ok a => exact .ok a s
  | error e => exact .error (fun i he => h i (congrArg _ he)) s

theorem bind {x : Reading α} {f : α → Reading β} (hx : Spares bad (x s))
    (hf : ∀ a s', x s = .ok a s' → Spares bad (f a s')) : Spares bad ((x >>= f) s) := by
  cases h : x s with
  | ok a s' =>
    rw [Reading.bind_of_ok h]
    exact hf a s' h
  | error e s' =>
    rw [Reading.bind_of_error h]
    rw [h] at hx
    exact fun i t he => hx i t (by cases he; rfl)

theorem mapM {f : α → Reading β} {l : List α} (hf : ∀ a s, Spares bad (f a s)) (s : Store) :
    Spares bad (l.mapM f s) := by
  induction l generalizing s with
  | nil => exact .ok _ s
  | cons a l ih =>
    rw [List.mapM_cons]
    exact (hf a s).bind fun b t _ => (ih t).bind fun bs u _ => .ok _ u

/-- What every step keeps may be used at every step. -/
theorem forM {P : Store → Prop} {f : α → Reading Unit} {l : List α} (hk : ∀ a, Keeps P (f a))
    (hf : ∀ a ∈ l, ∀ s, P s → Spares bad (f a s)) (hs : P s) : Spares bad (l.forM f s) := by
  induction l generalizing s with
  | nil => exact .ok _ s
  | cons a l ih =>
    refine (hf a List.mem_cons_self s hs).bind fun u t ht => ?_
    refine ih (fun a ha => hf a (List.mem_cons_of_mem _ ha)) ?_
    have h := hk a s hs
    rw [ht] at h
    exact h

end Spares

/-! ### Rows inside of what was handed out -/

/-- The report that the number of a row leads outside of the rows handed out for its kind. -/
def misplaced (row : String × Nat × Json × String) : CodecError :=
  .badCell row.1 row.2.1 rowId (.noRow row.2.2.1 row.2.2.2)

theorem unrelated_misplaced (row : String × Nat × Json × String) : Unrelated (misplaced row) := trivial

theorem decode_avoids (c : Codec) (t : Ty) (j : Json) : Avoids misplaced (c.decode t j) := by
  refine Codec.readWithin_avoids unrelated_misplaced (fun i he => nomatch he) c.maxDepth c.scope t j ?_
  rintro ⟨i, path, he⟩
  cases he

section

variable {c : Codec} {fresh : Fields (List Nat)} {kind : String} {pos : Nat} {props : Fields Json}

theorem readForeignKey_avoids {key : Arrow} (hkey : key.name ≠ rowId) :
    Avoids misplaced (readForeignKey fresh kind pos props key) := by
  refine (Codec.field_avoids unrelated_misplaced props key.name).bind fun found _ => ?_
  split
  · exact .ok _
  · exact .error fun i he => hkey (CodecError.badCell.inj he).2.2.1

theorem readAttribute_avoids (a : Attribute) :
    Avoids misplaced (readAttribute c fresh kind pos props a) := by
  refine (Codec.field_avoids unrelated_misplaced props a.name).bind fun found _ => ?_
  split
  · split
    · exact .ok _
    · exact .error fun i he => nomatch (CodecError.badCell.inj he).2.2.2
  · exact (decode_avoids c a.ty found).bind fun v _ => .ok _

theorem readRow_avoids {names : List String} {n : String → Nat} {s : Store}
    (hr : Rooms names n s fresh) {keys : List Arrow} {attrs : List Attribute} (hkind : kind ∈ names)
    (hkeys : ∀ key ∈ keys, key.name ≠ rowId) {j : Json} {i : Nat} (hi : i < n kind)
    (hid : j.prop? rowId = some (.ofNat i)) :
    Avoids misplaced (readRow c fresh kind keys attrs j) := by
  refine (Codec.expectRecord_avoids unrelated_misplaced j kind false _).bind fun props hp => ?_
  refine (Codec.field_avoids unrelated_misplaced props rowId).bind fun id hf => ?_
  obtain ⟨rfl, -⟩ := Codec.expectRecord_eq_ok.1 hp
  obtain rfl : id = .ofNat i := Option.some.inj ((Codec.field_eq_ok.1 hf).symm.trans hid)
  have hrow : ((Fields.get? fresh kind).getD [])[i]? = some (s.nextOf kind + i) := by
    rw [hr.rows kind hkind, List.getElem?_range' hi, Nat.one_mul]
  simp only [position?_ofNat, Option.getD_some, hrow]
  refine Avoids.bind (.mapM fun key hkey => readForeignKey_avoids (hkeys key hkey)) fun refs _ => ?_
  exact Avoids.bind (.mapM fun a _ => readAttribute_avoids a) fun values _ => .ok _

end

/-! ### Making room and filling it -/

theorem rowsOf_avoids (doc : Fields Json) (kind : String) : Avoids misplaced (rowsOf doc kind) := by
  unfold rowsOf
  split
  · exact .ok _
  · exact .related unrelated_misplaced id
  · exact .related unrelated_misplaced id

theorem checkRowIds_avoids (kind : String) (count i : Nat) (seen : List Nat) (rows : List Json) :
    Avoids misplaced (checkRowIds kind count i seen rows) := by
  induction rows generalizing i seen with
  | nil => exact .ok _
  | cons row rows ih =>
    rw [checkRowIds]
    split
    · exact .related unrelated_misplaced id
    split
    · exact .related unrelated_misplaced id
    split
    · exact .related unrelated_misplaced id
    · exact ih _ _

theorem checkSlotIds_avoids (pool : String) (count : Nat) (seen : List Nat) (slots : List Json) :
    Avoids misplaced (checkSlotIds pool count seen slots) := by
  induction slots generalizing seen with
  | nil => exact .ok _
  | cons slot slots ih =>
    rw [checkSlotIds]
    refine (Codec.expectRecord_avoids unrelated_misplaced slot pool false _).bind fun props _ => ?_
    refine (Codec.field_avoids unrelated_misplaced props rowId).bind fun found _ => ?_
    split
    · split
      · exact ih _
      · exact .related unrelated_misplaced id
    · exact .related unrelated_misplaced id

theorem sheet_avoids (s : Store) (kind : String) : Avoids misplaced (s.sheet kind) := by
  unfold Store.sheet
  split
  · exact .ok _
  · exact .error fun i he => nomatch he

theorem allocating_spares (kind : String) (n : Nat) (s : Store) :
    Spares misplaced (allocating kind n s) := by
  have h : Avoids misplaced (s.allocate kind n) := (sheet_avoids s kind).bind fun _ _ => .ok _
  rw [allocating_apply]
  split
  · exact .ok _ _
  · rename_i e he
    exact .error (fun i hi => h i (he.trans (congrArg _ hi))) s

theorem storeCell_spares (kind : String) (cell : Nat × String × Cell) (s : Store) :
    Spares misplaced (storeCell kind cell s) := by
  have h : Avoids misplaced (s.setCell kind cell.1 cell.2.1 cell.2.2) := by
    refine (sheet_avoids s kind).bind fun sheet _ => ?_
    split
    · exact .ok _
    · exact .error fun i he => nomatch (CodecError.badCell.inj he).2.2.2
  rw [storeCell_apply]
  split
  · exact .ok _ _
  · rename_i e he
    exact .error (fun i hi => h i (he.trans (congrArg _ hi))) s

theorem allocateKind_spares (doc : Fields Json) (kind : String) (s : Store) :
    Spares misplaced (allocateKind doc kind s) := by
  refine (Spares.of_ofExcept (rowsOf_avoids doc kind) s).bind fun rows s₁ _ => ?_
  refine (Spares.of_ofExcept (checkRowIds_avoids kind _ 0 [] rows) s₁).bind fun _ s₂ _ => ?_
  refine (allocating_spares kind _ s₂).bind fun fresh s₃ _ => ?_
  split
  · exact .error (e := .shortAllocation fresh.length rows.length kind) (by rintro i ⟨⟩) s₃
  · exact .ok _ s₃

theorem allocatePool_spares (doc : Fields Json) (pool : String) (s : Store) :
    Spares misplaced (allocatePool doc pool s) := by
  generalize hx : allocatePool doc pool = x
  unfold allocatePool at hx
  split at hx <;> subst hx
  · exact .ok _ s
  · rename_i slots _
    refine (Spares.of_ofExcept (checkSlotIds_avoids pool _ [] slots) s).bind fun _ s₁ _ => ?_
    exact (allocating_spares pool _ s₁).bind fun fresh s₂ _ => .ok _ s₂
  · rename_i other _ _
    exact .error (e := .conversion _ other) (by rintro i ⟨⟩) s

theorem carried_spec (spec : TableSpec) : Carried fun s => s.spec = spec where
  allocate s s' kind n rows h ha := by
    obtain ⟨sheet, -, -, rfl⟩ := allocate_eq_ok ha
    exact h
  setCell s s' kind row field cell h hs := by
    obtain ⟨sheet, -, -, rfl⟩ := setCell_eq_ok hs
    exact h

section

variable {c : Codec} {spec : TableSpec} {s s₁ : Store} {doc : Fields Json} {fresh : Fields (List Nat)}

theorem name_ne_rowId (hp : spec.Proper) (hs : s.spec = spec) {kind : String}
    (hk : kind ∈ spec.objects) {key : Arrow} (h : key ∈ s.foreignKeys kind) : key.name ≠ rowId := by
  rintro he
  have hnot := (List.nodup_cons.1 (nodup_rowNames hp hs hk)).1
  exact hnot (he ▸ List.mem_append_left _ (List.mem_map_of_mem h))

/-- The numbers of the rows are below their number, and there is room for all of them. -/
theorem fillKind_spares (hp : spec.Proper) (hs : s.spec = spec) (hmade : RoomMade doc s s₁ fresh)
    {kind : String} (hk : kind ∈ s.objects) {t : Store} (ht : t.spec = spec) :
    Spares misplaced (fillKind c doc fresh kind t) := by
  have hk' : kind ∈ spec.objects := hs ▸ hk
  rw [fillKind, Reading.get_bind]
  refine (Spares.of_ofExcept (rowsOf_avoids doc kind) t).bind fun rows t₁ hrows => ?_
  refine Spares.bind (.of_ofExcept (.mapM fun row hrow => ?_) t₁) fun cells t₂ _ => ?_
  · obtain ⟨⟨rows', sorted, hlisted, ho⟩, hroom⟩ := hmade.kinds kind hk
    obtain rfl : rows' = rows := by
      have hget := rowsOf_eq_ok (Reading.ok_of_ofExcept hrows).1
      rw [hlisted] at hget
      exact Json.arr.inj (Option.some.inj hget)
    obtain ⟨i, hi, hid⟩ := ho.exists_id hrow
    refine readRow_avoids hmade.rooms (List.mem_append_left _ hk)
      (fun key => name_ne_rowId hp ht hk') ?_ hid
    rw [hroom, rowCount_of_prop? (j := .obj doc) hlisted]
    exact hi
  · exact Spares.forM (P := fun _ => True) (fun _ _ _ => trivial)
      (fun cell _ t _ => storeCell_spares kind cell t) trivial

theorem checkKinds_avoids (s : Store) (doc : Fields Json) : Avoids misplaced (checkKinds s doc) := by
  unfold checkKinds
  split
  · exact .related unrelated_misplaced id
  · exact .ok _

theorem read_spares (hp : spec.Proper) (hs : s.spec = spec) (c : Codec) (j : Json) :
    Spares misplaced (read c j s) := by
  have hnames := nodup_names hp hs
  generalize hx : read c j = x
  unfold read at hx
  split at hx <;> subst hx
  · rename_i doc
    rw [Reading.get_bind]
    refine (Spares.of_ofExcept (checkKinds_avoids s doc) s).bind fun _ t hcheck => ?_
    obtain ⟨-, rfl⟩ := Reading.ok_of_ofExcept hcheck
    refine (Spares.mapM (allocateKind_spares doc) s).bind fun kinds s₁ hkinds => ?_
    refine (Spares.mapM (allocatePool_spares doc) s₁).bind fun pools s₂ hpools => ?_
    have hmade := roomMade_of_allocation hnames hkinds hpools
    rw [Fields.ofList_of_distinct hmade.rooms.distinct]
    exact Spares.forM ((carried_spec spec).keeps_fillKind c doc _)
      (fun kind hk t ht => fillKind_spares hp hs hmade hk ht) (hmade.grown.spec.trans hs)
  · exact .error (e := .conversion _ j) (by rintro i ⟨⟩) s

end

/-! ### What a store that runs short has gained -/

theorem granted_eq_self_iff {caps : Fields Nat} {kind : String} {n : Nat} :
    granted caps kind n = n ↔ ∀ cap, Fields.get? caps kind = some cap → n ≤ cap := by
  unfold granted
  split
  · rename_i cap hcap
    simp [hcap]
  · rename_i hnone
    simp [hnone]

/-- To hand out less than one is asked for is to be asked for less. -/
theorem carried_capped (spec : TableSpec) (caps : Fields Nat) :
    Carried fun t => ∃ s, Reached spec s ∧ t = s.capped caps where
  allocate t t' kind n rows h ha := by
    obtain ⟨s, hs, rfl⟩ := h
    obtain ⟨sheet, hsheet, -, rfl⟩ := allocate_eq_ok ha
    have hless := allocate_of_sheet (s := s) hsheet (granted caps kind n)
    rw [hs.sane.uncapped] at hless
    exact ⟨_, hs.allocate hless, rfl⟩
  setCell t t' kind row field cell h ha := by
    obtain ⟨s, hs, rfl⟩ := h
    obtain ⟨sheet, hsheet, hlive, rfl⟩ := setCell_eq_ok ha
    exact ⟨_, hs.setCell (setCell_of_live (s := s) hsheet hlive field cell), rfl⟩

theorem live_of_read_capped {c : Codec} {spec : TableSpec} {s s' : Store} {caps : Fields Nat} {j : Json}
    (hp : spec.Proper) (hs : Sane spec s) (h : read c j (s.capped caps) = .ok () s') :
    (∀ kind ∈ spec.objects, roomFor caps j kind = rowCount j kind) ∧
    ∀ k ∈ spec.objects ++ spec.attrTypes.keys,
      s'.live k = s.live k ++ List.range' (s.nextOf k) (roomFor caps j k) := by
  obtain ⟨doc, fresh, s₁, rfl, hmade, hl⟩ := loading_of_read hp (s := s.capped caps) hs.spec_eq h
  refine ⟨fun kind hk => (hmade.kinds kind (hs.objects_eq ▸ hk)).2, fun k hk => ?_⟩
  have hk' : k ∈ (s.capped caps).objects ++ (s.capped caps).pools := by
    show k ∈ s.objects ++ s.pools
    rwa [hs.objects_eq, hs.pools_eq]
  rw [hl.kept.live, hmade.grown.live_eq (hs.sheets k hk), if_pos hk']
  rfl

/-- A read into a store that hands out less than it is asked for never looks for a row outside of what
it was given. If it succeeds, all rows of the document are there, and of the slots as many as there was
room for: all of them exactly if no pool of the document runs short. -/
theorem read_capped {m : Module} {name : String} {spec : TableSpec} {s : Store} (hm : m.Built)
    (hd : (name, .table spec) ∈ m.decls) (hs : Reached spec s) (caps : Fields Nat) (c : Codec)
    (j : Json) :
    (∀ kind pos found target s', read c j (s.capped caps) ≠
      .error (.badCell kind pos rowId (.noRow found target)) s') ∧
    (∀ s', read c j (s.capped caps) = .ok () s' →
      (∀ kind ∈ spec.objects, s'.size kind = s.size kind + rowCount j kind) ∧
      (∀ pool ∈ spec.attrTypes.keys,
        s'.size pool = s.size pool + granted caps pool (rowCount j pool)) ∧
      ((∀ pool ∈ spec.attrTypes.keys, s'.size pool = s.size pool + rowCount j pool) ↔
        ∀ pool ∈ spec.attrTypes.keys, ∀ cap, Fields.get? caps pool = some cap →
          rowCount j pool ≤ cap)) ∧
    -- whatever such a store has been through, it is a store that was asked for less
    ∃ s', Reached spec s' ∧ after (read c j (s.capped caps)) = s'.capped caps := by
  have hp : spec.Proper := hm.sound.orderly.proper _ hd
  have hspec : (s.capped caps).spec = spec := hs.sane.spec_eq
  refine ⟨fun kind pos found target => read_spares hp hspec c j (kind, pos, found, target),
    fun s' hr => ?_, (carried_capped spec caps).keeps_read c j _ ⟨s, hs, rfl⟩⟩
  obtain ⟨hkinds, hlive⟩ := live_of_read_capped hp hs.sane hr
  have hsize : ∀ k ∈ spec.objects ++ spec.attrTypes.keys,
      s'.size k = s.size k + roomFor caps j k := by
    intro k hk
    rw [size, size, hlive k hk, List.length_append, List.length_range']
  have hpools : ∀ pool ∈ spec.attrTypes.keys, s'.size pool = s.size pool + roomFor caps j pool :=
    fun pool hpool => hsize pool (List.mem_append_right _ hpool)
  refine ⟨fun kind hk => ?_, hpools, forall₂_congr fun pool hpool => ?_⟩
  · rw [hsize kind (List.mem_append_left _ hk), hkinds kind hk]
  · rw [hpools pool hpool, Nat.add_left_cancel_iff]
    exact granted_eq_self_iff

/-- Two slots, of which the only row uses the first. -/
def spareDoc : Json :=
  .obj [("O", .arr [.obj [("_id", .ofNat 0), ("next", .ofNat 0), ("label", .obj [("_var", .ofNat 0)])]]),
    ("Label", .arr [slot 0, slot 1])]

/-- A store with room for one slot takes the first. -/
theorem read_capped_spareDoc :
    ∃ s', read ⟨ringModule, 1⟩ spareDoc (ringStore.capped [("Label", 1)]) = .ok () s' ∧
      s'.size "O" = ringStore.size "O" + 1 ∧ s'.size "Label" = ringStore.size "Label" + 1 := by
  obtain ⟨s', hr⟩ : ∃ s', read ⟨ringModule, 1⟩ spareDoc (ringStore.capped [("Label", 1)]) = .ok () s' :=
    ⟨_, rfl⟩
  obtain ⟨-, hok, -⟩ := read_capped ringModule_built (List.mem_singleton.2 rfl) ringStore_reached
    [("Label", 1)] ⟨ringModule, 1⟩ spareDoc
  obtain ⟨hkinds, hpools, -⟩ := hok s' hr
  exact ⟨s', hr, hkinds "O" (List.mem_singleton.2 rfl), hpools "Label" (List.mem_singleton.2 rfl)⟩

/-- A slot that no cell refers to is lost without a word. -/
theorem read_capped_loses_slot :
    ∃ s', read ⟨ringModule, 1⟩ (.obj [("O", .arr []), ("Label", .arr [slot 0])])
        (Store.new ringSpec [("Label", 0)]) = .ok () s' ∧
      rowCount (.obj [("O", .arr []), ("Label", .arr [slot 0])]) "Label" = 1 ∧
      s'.size "Label" = 0 :=
  ⟨_, rfl, rfl, rfl⟩

end Wireform.Store

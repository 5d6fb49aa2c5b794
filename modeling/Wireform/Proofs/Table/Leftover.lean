import Mathlib
import Wireform.Proofs.Table.Append

/-!
# What a read leaves behind

A read that fails is not undone: the rows it has made room for stay. They do no harm
(`read_all_or_nothing`). What was there before is as it was, indices that have been given up stay
unused, and the rows of a kind are stored together or not at all: each kind is read to its end before
its first cell is stored, and by then nothing can go wrong any more, since all indices in question are
in use. So a failed read has stored the kinds before the one at fault, and of the others it has left
rows without cells.
-/

namespace Wireform.Store

/-! ### Runs that fail -/

theorem Reading.forM_eq_error {α : Type} {f : α → Reading Unit} {l : List α} {e : CodecError}
    {s s' : Store} (h : l.forM f s = .error e s') :
    ∃ done a rest t, l = done ++ a :: rest ∧ done.forM f s = .ok () t ∧ f a t = .error e s' := by
  induction l generalizing s with
  | nil => cases h
  | cons a l ih =>
    cases ha : f a s with
    | ok u t =>
      obtain ⟨done, b, rest, t', rfl, hdone, hb⟩ := ih ((Reading.bind_of_ok ha _).symm.trans h)
      exact ⟨a :: done, b, rest, t', rfl, (Reading.bind_of_ok ha _).trans hdone, hb⟩
    | error e' t =>
      have he := (Reading.bind_of_error ha _).symm.trans h
      exact ⟨[], a, l, s, rfl, rfl, ha.trans he⟩

/-- A kind that cannot be read leaves the store as it is. -/
theorem eq_of_fillKind_error {c : Codec} {doc : Fields Json} {fresh : Fields (List Nat)}
    {kind : String} {e : CodecError} {s s' : Store}
    (hf : ∀ row ∈ (Fields.get? fresh kind).getD [], row ∈ s.live kind)
    (h : fillKind c doc fresh kind s = .error e s') : s' = s := by
  rw [fillKind, Reading.get_bind] at h
  cases hr : rowsOf doc kind with
  | error e' =>
    rw [Reading.ofExcept_of_error hr] at h
    exact ((EStateM.Result.error.injEq ..).mp h).2.symm
  | ok rows =>
    rw [Reading.ofExcept_of_ok hr] at h
    cases hc : rows.mapM (readRow c fresh kind (s.foreignKeys kind) (s.attributes kind)) with
    | error e' =>
      rw [Reading.ofExcept_of_error hc] at h
      exact ((EStateM.Result.error.injEq ..).mp h).2.symm
    | ok cells =>
      rw [Reading.ofExcept_of_ok hc] at h
      have hlive : ∀ cell ∈ cells.flatten, cell.1 ∈ s.live kind := fun cell hcell =>
        hf _ (mem_fresh_of_mapM_readRow hc cell hcell)
      obtain ⟨t, ht⟩ := exists_forM_storeCell hlive
      cases ht.symm.trans h

/-! ### Rows with all cells or with none -/

/-- The names of the cells of a kind. -/
def cellNames (s : Store) (kind : String) : List String :=
  (s.foreignKeys kind).map Arrow.name ++ (s.attributes kind).map Attribute.name

/-- All cells of the row are set. -/
def Complete (s : Store) (kind : String) (row : Nat) : Prop :=
  ∀ field ∈ s.cellNames kind, ∃ cell, s.cell? kind row field = some cell

/-- No cell of the row is set. -/
def Blank (s : Store) (kind : String) (row : Nat) : Prop := ∀ field, s.cell? kind row field = none

/-- The row has come into use. -/
def Added (s s' : Store) (kind : String) (row : Nat) : Prop :=
  row ∈ s'.live kind ∧ row ∉ s.live kind

/-- Nothing that was there is lost or changed, and no index is used again. -/
structure Retains (s s' : Store) : Prop where
  live : ∀ k, ∀ row ∈ s.live k, row ∈ s'.live k
  cells : ∀ k, ∀ row ∈ s.live k, ∀ field, s'.cell? k row field = s.cell? k row field
  dead : ∀ k, ∀ row < s.nextOf k, row ∉ s.live k → row ∉ s'.live k
  added : ∀ k row, Added s s' k row → s.nextOf k ≤ row

/-- What a read has left, and the kinds whose rows it has stored. -/
structure Leftover (s s' : Store) (filled : List String) : Prop where
  retains : Retains s s'
  complete : ∀ kind ∈ filled, ∀ row, Added s s' kind row → Complete s' kind row
  blank : ∀ kind ∉ filled, ∀ row, Added s s' kind row → Blank s' kind row

theorem Housed.blank {s : Store} (h : Housed s) {kind : String} {row : Nat}
    (hr : row ∉ s.live kind) : Blank s kind row := by
  intro field
  cases hs : Fields.get? s.sheets kind with
  | none => rw [cell?, hs, Option.bind_none]
  | some sheet =>
    rw [live_of_sheet hs] at hr
    rw [cell?, hs, Option.bind_some, Sheet.cell?, Option.map_eq_none_iff, List.find?_eq_none]
    intro c hc he
    obtain ⟨hrow, -⟩ := Prod.mk.inj (beq_iff_eq.1 he)
    exact hr (hrow ▸ h kind sheet hs c hc)

section

variable {n : String → Nat} {s s₁ s' : Store} {k : String} {row : Nat}

theorem Grown.live_eq_or_nil (h : Grown n s s') (k : String) :
    s'.live k = s.live k ++ List.range' (s.nextOf k) (n k) ∨ s'.live k = [] ∧ s.live k = [] := by
  cases hk : Fields.get? s.sheets k with
  | some sheet => exact .inl (h.live_eq ⟨sheet, hk⟩)
  | none =>
    refine .inr ⟨?_, ?_⟩
    · rw [live, h.sheets, hk, Option.map_none]
    · rw [live, hk]

theorem Grown.exists_of_added (h : Grown n s s') (ha : Added s s' k row) :
    ∃ i < n k, row = s.nextOf k + i := by
  obtain ⟨hnew, hold⟩ := ha
  rcases h.live_eq_or_nil k with hl | ⟨hl, -⟩
  · rw [hl, List.mem_append] at hnew
    obtain ⟨i, hi, rfl⟩ := List.mem_range'.1 (hnew.resolve_left hold)
    exact ⟨i, hi, by rw [Nat.one_mul]⟩
  · rw [hl] at hnew
    cases hnew

theorem Retains.of_grown {spec : TableSpec} (hs : Sane spec s) (hg : Grown n s s₁) (hk : Kept s₁ s')
    (hold : ∀ k row field, row < s.nextOf k → s'.cell? k row field = s.cell? k row field) :
    Retains s s' := by
  have hle : ∀ k row, Added s s' k row → s.nextOf k ≤ row := by
    rintro k row ⟨hnew, hrow⟩
    obtain ⟨i, -, rfl⟩ := hg.exists_of_added ⟨hk.live k ▸ hnew, hrow⟩
    exact Nat.le_add_right _ _
  refine ⟨fun k row hrow => ?_, fun k row hrow field => hold k row field (hs.live_lt hrow),
    fun k row hlt hdead hlive => Nat.not_le_of_lt hlt (hle k row ⟨hlive, hdead⟩), hle⟩
  rw [hk.live]
  rcases hg.live_eq_or_nil k with hl | ⟨-, hl⟩
  · rw [hl]
    exact List.mem_append_left _ hrow
  · rw [hl] at hrow
    cases hrow

/-- Room has no cells. -/
theorem leftover_of_grown {spec : TableSpec} (hs : Reached spec s) (h : Grown n s s') :
    Leftover s s' [] where
  retains := .of_grown hs.sane h ⟨rfl, fun _ => rfl⟩ fun k row field _ => by rw [h.cell?_eq]
  complete := by simp
  blank kind _ row ha field := by
    rw [h.cell?_eq]
    exact hs.housed.blank ha.2 field

theorem leftover_of_loading {c : Codec} {spec : TableSpec} {doc : Fields Json} {kinds : List String}
    {fresh : Fields (List Nat)} (hs : Reached spec s) (hmade : RoomMade doc s s₁ fresh)
    (hk : ∀ kind ∈ kinds, kind ∈ s.objects) (h : Loading c doc kinds s s₁ s') :
    Leftover s s' kinds where
  retains := .of_grown hs.sane hmade.grown h.kept h.old
  complete := by
    rintro kind hkind row ⟨hnew, hold⟩ field hfield
    rw [h.kept.live] at hnew
    obtain ⟨i, hi, rfl⟩ := hmade.grown.exists_of_added ⟨hnew, hold⟩
    rw [if_pos (List.mem_append_left _ (hk kind hkind)), (hmade.kinds kind (hk kind hkind)).2] at hi
    obtain ⟨rows, sorted, hrows, ho, hall⟩ := h.rows kind hkind
    rw [rowCount_of_prop? (j := .obj doc) hrows, ← ho.length_eq] at hi
    -- There is room for as many rows as the document lists, so it has one with this number.
    obtain ⟨props, -, hrow⟩ := hall i sorted[i] (List.getElem?_eq_getElem hi)
    rcases List.mem_append.1 hfield with hfield | hfield
    · obtain ⟨key, hkey, rfl⟩ := List.mem_map.1 hfield
      obtain ⟨cell, hcell, -⟩ := hrow.points key hkey
      exact ⟨cell, hcell⟩
    · obtain ⟨a, ha, rfl⟩ := List.mem_map.1 hfield
      obtain ⟨cell, hcell, -⟩ := hrow.holds a ha
      exact ⟨cell, hcell⟩
  blank kind hkind row ha field := by
    rw [h.other kind hkind]
    exact hs.housed.blank ha.2 field

end

/-! ### The whole read -/

/-- The kinds whose rows a read has stored are all of them, if it has succeeded, and the first ones
in any case. -/
def Outcome (s : Store) : EStateM.Result CodecError Store Unit → Prop
  | .ok _ s' => Leftover s s' s.objects
  | .error _ s' => ∃ filled rest, s.objects = filled ++ rest ∧ Leftover s s' filled

theorem extensible_grown (s : Store) : Extensible fun s' => ∃ n, Grown n s s' := by
  rintro s₁ s₂ kind n rows ⟨m, hm⟩ ha
  exact ⟨_, hm.trans (grown_of_allocate ha).1⟩

section

variable {spec : TableSpec} {s : Store}

/-- A step that only makes room may fail. -/
theorem outcome_bind (hs : Reached spec s) {α : Type} {x : Reading α} {f : α → Reading Unit}
    {t : Store} (hx : Keeps (fun s' => ∃ n, Grown n s s') x) (ht : ∃ n, Grown n s t)
    (hf : ∀ a t', x t = .ok a t' → (∃ n, Grown n s t') → Outcome s (f a t')) :
    Outcome s ((x >>= f) t) := by
  have hgrown := hx t ht
  cases hxt : x t with
  | ok a t' =>
    rw [hxt] at hgrown
    rw [Reading.bind_of_ok hxt]
    exact hf a t' hxt hgrown
  | error e t' =>
    rw [hxt] at hgrown
    rw [Reading.bind_of_error hxt]
    obtain ⟨n, hn⟩ := hgrown
    exact ⟨[], s.objects, rfl, leftover_of_grown hs hn⟩

theorem outcome_of_fill (hp : spec.Proper) (hs : Reached spec s) {doc : Fields Json}
    {fresh : Fields (List Nat)} {s₁ : Store} (hmade : RoomMade doc s s₁ fresh) (c : Codec) :
    Outcome s (s.objects.forM (fillKind c doc fresh) s₁) := by
  have hobjects := (List.nodup_append.1 (hs.sane.nodup_names hp)).1
  cases h : s.objects.forM (fillKind c doc fresh) s₁ with
  | ok u s' =>
    have hl := loading_of_fill hp hs.sane.spec_eq hmade (fun _ hk => hk) hobjects h
    exact leftover_of_loading hs hmade (fun _ hk => hk) hl
  | error e s' =>
    obtain ⟨done, kind, rest, t, hlist, hdone, hkind⟩ := Reading.forM_eq_error h
    have hmem : ∀ k ∈ done ++ kind :: rest, k ∈ s.objects := fun k hk => hlist ▸ hk
    have hdones : ∀ k ∈ done, k ∈ s.objects := fun k hk => hmem k (List.mem_append_left _ hk)
    have hd : done.Nodup := (List.nodup_append.1 (hlist ▸ hobjects)).1
    have hl := loading_of_fill hp hs.sane.spec_eq hmade hdones hd hdone
    -- The kind at fault has been given rows in use, so it has failed before anything was stored.
    have hin : kind ∈ s.objects ++ s.pools := List.mem_append_left _ (hmem kind (by simp))
    have hfresh : ∀ row ∈ (Fields.get? fresh kind).getD [], row ∈ t.live kind := by
      intro row hrow
      rw [hmade.rooms.rows kind hin] at hrow
      rw [hl.kept.live, hmade.grown.live_eq (hs.sane.sheets kind ?_), if_pos hin]
      · exact List.mem_append_right _ hrow
      · rwa [← hs.sane.objects_eq, ← hs.sane.pools_eq]
    obtain rfl := eq_of_fillKind_error hfresh hkind
    exact ⟨done, kind :: rest, hlist, leftover_of_loading hs hmade hdones hl⟩

theorem outcome_of_read (hp : spec.Proper) (hs : Reached spec s) (c : Codec) (j : Json) :
    Outcome s (read c j s) := by
  unfold read
  split
  · rename_i doc
    have hroom := extensible_grown s
    rw [Reading.get_bind]
    refine outcome_bind hs (Keeps.of_ofExcept _) ⟨_, .refl s⟩ fun _ t hcheck hg => ?_
    obtain rfl : s = t := (Reading.ok_of_ofExcept hcheck).2
    refine outcome_bind hs (Keeps.mapM (hroom.keeps_allocateKind doc)) hg fun kinds s₁ hkinds hg => ?_
    refine outcome_bind hs (Keeps.mapM (hroom.keeps_allocatePool doc)) hg fun pools s₂ hpools _ => ?_
    have hmade := roomMade_of_allocation (hs.sane.nodup_names hp) hkinds hpools
    rw [Fields.ofList_of_distinct hmade.rooms.distinct]
    exact outcome_of_fill hp hs hmade c
  · exact ⟨[], s.objects, rfl, leftover_of_grown hs (.refl s)⟩

end

/-- Boxes and the books in them. -/
def shelfSpec : TableSpec where
  objects := ["Box", "Book"]
  homs := [⟨"box", "Book", "Box"⟩]
  attrTypes := [("Count", .prim .i64)]
  attrs := [⟨"weight", "Box", "Count"⟩, ⟨"pages", "Book", "Count"⟩]

def shelfModule : Module := ⟨"shelves", [], [("Shelf", .table shelfSpec)]⟩

set_option maxRecDepth 1024 in
theorem shelfModule_built : shelfModule.Built := by
  refine @Module.Built.compile [] ("module shelves table Shelf \x7b ob Box  ob Book  " ++
    "hom box :: Book -> Box  attrtype Count = I64  attr weight :: Box -> Count  " ++
    "attr pages :: Book -> Count \x7d") _ (by simp) ?_
  cbv

/-- One box; the one before it has been removed. -/
def shelfStore : Store :=
  ⟨shelfSpec, [("Box", ⟨2, [1], [((1, "weight"), .value (.i64 5))]⟩), ("Book", ⟨0, [], []⟩),
    ("Count", ⟨0, [], []⟩)], []⟩

theorem shelfStore_reached : Reached shelfSpec shelfStore := by
  have h := @Reached.allocate shelfSpec _ _ "Box" 2 _ .new rfl
  have h := @Reached.setCell shelfSpec _ _ "Box" 1 "weight" (.value (.i64 5)) h rfl
  exact @Reached.remove shelfSpec _ _ "Box" 0 _ h rfl

/-- A box and a book in it that has no number of pages. -/
def shelfDoc : Json :=
  .obj [("Box", .arr [.obj [("_id", .ofNat 0), ("weight", .ofNat 3)]]),
    ("Book", .arr [.obj [("_id", .ofNat 0), ("box", .ofNat 0), ("pages", .str "many")]])]

end Wireform.Store

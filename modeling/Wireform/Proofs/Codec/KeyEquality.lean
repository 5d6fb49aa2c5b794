import Mathlib
import Wireform.Proofs.Codec.DepthLimit
import Wireform.Proofs.Codec.PropertyOrder
import Wireform.Proofs.Codec.RoundTrip

/-!
# Keys by identity and keys by equality

A map is read into slots that go by the identities of keys. That is as good as inserting the entries one
by one into a map that compares keys for equality: values that were read have one identity exactly if
they are equal. For it the tag of a variant must be what its document says, so no field may take its
place.
-/

namespace Wireform

/-! ### Inserting by equality -/

namespace OrderedMap

/-- A new key is put at the end. -/
theorem insertEntry_of_new {es : List (Value × Value)} {k v : Value}
    (h : ∀ e ∈ es, e.1.same k = false) : insertEntry k v es = es ++ [(k, v)] := by
  induction es with
  | nil => rfl
  | cons e es ih =>
    obtain ⟨he, hes⟩ := List.forall_mem_cons.1 h
    have he : (e.1 == k) = false := he
    rw [insertEntry, if_neg (by simp [he]), ih hes]
    rfl

/-- Entries with different keys are all kept. -/
theorem entries_ofList_of_pairwise {es : List (Value × Value)}
    (h : (es.map Prod.fst).Pairwise fun a b => a.same b = false) : (ofList es).entries = es := by
  suffices hfold : ∀ (es : List (Value × Value)) (m : OrderedMap Value Value),
      ((m.entries ++ es).map Prod.fst).Pairwise (fun a b => a.same b = false) →
        (es.foldl (fun m e => m.insert e.1 e.2) m).entries = m.entries ++ es from
    hfold es empty h
  intro es
  induction es with
  | nil => exact fun m _ => (List.append_nil _).symm
  | cons e es ih =>
    intro m h
    have hnew : (m.insert e.1 e.2).entries = m.entries ++ [e] := by
      refine insertEntry_of_new fun e' he' => ?_
      rw [List.map_append, List.pairwise_append] at h
      exact h.2.2 e'.1 (List.mem_map_of_mem he') e.1 (by simp)
    rw [List.foldl_cons, ih _ (by rw [hnew, List.append_assoc]; exact h), hnew, List.append_assoc]
    rfl

end OrderedMap

/-- The slot of an identity is found by its key if the identities say what the keys do. -/
theorem Fields.entries_insert {slots : Fields (Value × Value)} {i : String} {k k' v old : Value}
    (h : ∀ e ∈ slots, e.1 = i ↔ e.2.1.same k = true) (hg : Fields.get? slots i = some (k', old)) :
    (Fields.insert i (k', v) slots).map Prod.snd =
      OrderedMap.insertEntry k v (slots.map Prod.snd) := by
  induction slots with
  | nil => cases hg
  | cons e slots ih =>
    obtain ⟨he, hes⟩ := List.forall_mem_cons.1 h
    rw [Fields.get?_cons] at hg
    rw [Fields.insert, List.map_cons, OrderedMap.insertEntry]
    by_cases hi : e.1 = i
    · have hk : (e.2.1 == k) = true := he.1 hi
      rw [if_pos hi.symm] at hg
      obtain rfl : e.2.1 = k' := congrArg Prod.fst (Option.some.inj hg)
      rw [if_pos hi, if_pos hk, List.map_cons]
    · have hk : ¬ (e.2.1 == k) = true := fun hk => hi (he.2 hk)
      rw [if_neg (Ne.symm hi)] at hg
      rw [if_neg hi, if_neg hk, List.map_cons, ih hes hg]

theorem IdentityMap.entries_insert {m : IdentityMap Value Value} {i : String} {k v : Value}
    (h : ∀ e ∈ m.slots, e.1 = i ↔ e.2.1.same k = true) :
    (m.insert i k v).slots.map Prod.snd = OrderedMap.insertEntry k v (m.slots.map Prod.snd) := by
  unfold insert
  split
  · rename_i k' old hg
    exact Fields.entries_insert h hg
  · rename_i hg
    rw [Fields.get?_eq_none_iff] at hg
    rw [OrderedMap.insertEntry_of_new, List.map_append]
    · rfl
    · refine List.forall_mem_map.2 fun e he => ?_
      rw [← Bool.not_eq_true, ← h e he]
      rintro rfl
      exact hg (Fields.mem_keys_of_mem he)

namespace Codec

/-- What is collected under identities is what inserting by equality gives, if the identities of the
entries say which keys are equal. -/
theorem collectEntries_eq_ofList {entries : List (String × Value × Value)}
    (h : ∀ a ∈ entries, ∀ b ∈ entries, a.1 = b.1 ↔ a.2.1.same b.2.1 = true) :
    collectEntries entries = (OrderedMap.ofList (entries.map Prod.snd)).entries := by
  suffices hfold : ∀ (rest : List (String × Value × Value)) (m : IdentityMap Value Value)
      (o : OrderedMap Value Value), (∀ e ∈ rest, e ∈ entries) → Fields.Distinct m.slots →
      (∀ e ∈ m.slots, ∃ v, (e.1, e.2.1, v) ∈ entries) → m.slots.map Prod.snd = o.entries →
        (collect m rest).slots.map Prod.snd =
          ((rest.map Prod.snd).foldl (fun o e => o.insert e.1 e.2) o).entries from
    hfold entries .empty .empty (fun _ he => he) distinct_empty (by simp [IdentityMap.empty]) rfl
  intro rest
  induction rest with
  | nil => exact fun m o _ _ _ he => he
  | cons e rest ih =>
    intro m o hrest hd hkeys he
    have hmem := hrest e List.mem_cons_self
    refine ih (m.insert e.1 e.2.1 e.2.2) (o.insert e.2.1 e.2.2) (fun e he => hrest e (.tail _ he))
      (IdentityMap.distinct_insert hd _ _ _) (fun x hx => ?_) ?_
    · rcases IdentityMap.mem_slots_insert hd hx with hx | ⟨hi, -, old, hx⟩ | rfl
      · exact hkeys x hx
      · exact hi ▸ hkeys _ hx
      · exact ⟨_, hmem⟩
    · rw [IdentityMap.entries_insert, he]
      · rfl
      · intro x hx
        obtain ⟨v, hv⟩ := hkeys x hx
        exact h _ hv e hmem

/-! ### Values that were read -/

variable {room room' : Nat} {m : Module} {t : Ty} {j j' : Json} {v v' : Value}

theorem wellFormed_of_clean (h : v.All Clean) : v.WellFormed := by
  intro w hw
  have hc := h w hw
  cases w with
  | object | record | variant => exact hc
  | map entries => exact ⟨entries, (OrderedMap.entries_ofList_of_pairwise (hc.imp And.left)).symm⟩
  | _ => trivial

/-- No optional is read as a present one that would be written as `null`. -/
theorem Reads.solid (h : Reads room m t j v) (hm : m.Sound) (ht : t.Proper) (hj : j.WellFormed) :
    v.Solid := by
  have hv := wellFormed_of_clean (h.inhabits hm ht.namesDiffer hj).2
  obtain ⟨j', hs⟩ := h.settled hm ht hj
  -- `v` is written as `j'` and read from it again, and it is equal to itself
  rcases hs.writes.restored hm ht hv room room with he | ⟨v', hr⟩
  · rw [readWithin_of_reads hs.reads] at he
    cases he
  · have he : readWithin room room m t j' = .ok v' := readWithin_of_reads hr.reads
    obtain rfl : v = v' := Except.ok.inj ((readWithin_of_reads hs.reads).symm.trans he)
    exact ⟨hv, hr.equal.1 hs.equal⟩

/-- Keys that were read have one identity exactly if they are equal. -/
theorem keyIdentity_eq_iff_same {w w' : Json} (h : Reads room m t j v) (h' : Reads room' m t j' v')
    (hm : m.Sound) (ht : t.Proper) (hj : j.WellFormed) (hj' : j'.WellFormed)
    (hw : encode v = .ok w) (hw' : encode v' = .ok w') :
    keyIdentity w = keyIdentity w' ↔ v.same v' = true := by
  constructor
  · intro he
    obtain ⟨i, hs⟩ := h.settled hm ht hj
    obtain ⟨i', hs'⟩ := h'.settled hm ht hj'
    obtain rfl : i = w := Except.ok.inj (hs.encodes.symm.trans hw)
    obtain rfl : i' = w' := Except.ok.inj (hs'.encodes.symm.trans hw')
    exact same_of_canonical_eq hs.writes hs'.writes hm ht (h.solid hm ht hj) (h'.solid hm ht hj')
      (keyIdentity_eq_iff.1 he)
  · exact fun hs => keyIdentity_eq_of_same h h' hm ht.namesDiffer hj hj' hs hw hw'

/-- More room does no harm. -/
theorem Reads.deeper (h : Reads room m t j v) (hroom : room ≤ room') : Reads room' m t j v := by
  have hr : readWithin room room m t j = .ok v := readWithin_of_reads h
  have hcut : (Simulation.cut room).rel (readWithin room' room' m t j) (readWithin room room m t j) :=
    readWithin_cut hroom m t j
  rcases hcut with he | he
  · rw [hr] at he
    cases he
  · exact reads_of_readWithin (he.trans hr)

/-! ### Maps -/

/-- The document is an object of a key and a value, and these are read as the two of the entry. -/
def DecodesEntry (c : Codec) (k t : Ty) (j : Json) (e : Value × Value) : Prop :=
  ∃ props keyDoc valueDoc, j = .obj props ∧ hasNames props ["key", "value"] = true ∧
    Fields.get? props "key" = some keyDoc ∧ Fields.get? props "value" = some valueDoc ∧
    c.decode k keyDoc = .ok e.1 ∧ c.decode t valueDoc = .ok e.2

/-- A map is read by inserting its entries, each read by itself, in the order of the document. Keys that
were read have one identity exactly if they are equal. -/
theorem decode_map_inserts {c : Codec} {k t : Ty} (hm : c.scope.Built) (hk : k.Proper) :
    (∀ items v, (Json.arr items).WellFormed → c.decode (.map k t) (.arr items) = .ok v →
      ∃ entries, List.Forall₂ (DecodesEntry c k t) items entries ∧
        v = .map (OrderedMap.ofList entries).entries) ∧
    ∀ j j' v v', j.WellFormed → j'.WellFormed → c.decode k j = .ok v → c.decode k j' = .ok v' →
      ∃ w w', encode v = .ok w ∧ encode v' = .ok w' ∧
        (keyIdentity w = keyIdentity w' ↔ (v == v') = true) := by
  constructor
  · intro items v hj h
    have hr := reads_of_readWithin h
    generalize hroom : c.maxDepth = room at hr
    cases hr with
    | @map room _ _ _ parts hn hkd hvd hrk hrv he =>
      have hj : ∀ p ∈ parts, (Json.obj p.props).WellFormed :=
        List.forall_mem_map.1 (Json.wellFormed_arr.1 hj)
      have hdeep : ∀ {t j v}, Reads room c.scope t j v → c.decode t j = .ok v := fun h =>
        readWithin_of_reads (h.deeper (by omega))
      refine ⟨parts.map fun p => (p.key, p.value), ?_, ?_⟩
      · rw [List.forall₂_map_left_iff, List.forall₂_map_right_iff, List.forall₂_same]
        exact fun p hp => ⟨p.props, p.keyDoc, p.valueDoc, rfl, hn p hp, hkd p hp, hvd p hp,
          hdeep (hrk p hp), hdeep (hrv p hp)⟩
      · rw [collectEntries_eq_ofList, List.map_map]
        · rfl
        · rw [List.forall_mem_map]
          intro p hp
          rw [List.forall_mem_map]
          exact fun q hq => keyIdentity_eq_iff_same (hrk p hp) (hrk q hq) hm.sound hk
            ((hj p hp).prop (hkd p hp)) ((hj q hq).prop (hkd q hq)) (he p hp) (he q hq)
  · intro j j' v v' hj hj' h h'
    have hr := reads_of_readWithin h
    have hr' := reads_of_readWithin h'
    obtain ⟨w, hw⟩ := exists_encode hr
    obtain ⟨w', hw'⟩ := exists_encode hr'
    exact ⟨w, w', hw, hw', keyIdentity_eq_iff_same hr hr' hm.sound hk hj hj' hw hw'⟩

/-- Two entries for the same numbers, in one order and in the other. -/
theorem decode_map_inserts_marksDoc :
    (∃ items entries, marksDoc false = .arr items ∧
      List.Forall₂ (DecodesEntry ⟨Module.drawings, 4⟩ (.object (.prim .i64)) (.prim .boolean))
        items entries ∧
      (⟨Module.drawings, 4⟩ : Codec).decode marksByNumbers (marksDoc false) =
        .ok (.map (OrderedMap.ofList entries).entries)) ∧
    ∃ w w', encode (.object [("x", .i64 1), ("y", .i64 2)]) = .ok w ∧
      encode (.object [("y", .i64 2), ("x", .i64 1)]) = .ok w' ∧ keyIdentity w = keyIdentity w' := by
  have hk : (Ty.object (.prim .i64)).Proper := trivial
  have hj : (marksDoc false).WellFormed := by
    simp [marksDoc, numbers, Json.WellFormed, Json.WellFormedItems, Json.WellFormedProps,
      Fields.Distinct, Fields.keys, Json.ofInt]
  have hn : ∀ b, (numbers b).WellFormed := by
    intro b
    cases b <;> simp [numbers, Json.WellFormed, Json.WellFormedProps, Fields.Distinct, Fields.keys,
      Json.ofInt]
  have hd : (⟨Module.drawings, 4⟩ : Codec).decode marksByNumbers (marksDoc false) =
      .ok (.map [(.object [("x", .i64 1), ("y", .i64 2)], .bool false)]) := by cbv
  have hx : (⟨Module.drawings, 4⟩ : Codec).decode (.object (.prim .i64)) (numbers false) =
      .ok (.object [("x", .i64 1), ("y", .i64 2)]) := by cbv
  have hy : (⟨Module.drawings, 4⟩ : Codec).decode (.object (.prim .i64)) (numbers true) =
      .ok (.object [("y", .i64 2), ("x", .i64 1)]) := by cbv
  obtain ⟨hmap, hkeys⟩ := decode_map_inserts (c := ⟨Module.drawings, 4⟩) (t := .prim .boolean)
    Module.drawings_built hk
  obtain ⟨entries, hentries, hv⟩ := hmap _ _ hj hd
  obtain ⟨w, w', hw, hw', hsame⟩ := hkeys _ _ _ _ (hn false) (hn true) hx hy
  exact ⟨⟨_, entries, rfl, hentries, hv ▸ hd⟩, w, w', hw, hw', hsame.2 (by cbv)⟩

/-! ### A field in the place of the tag -/

/-- Variants with a field that is written over their tag. -/
def clashing : Ty := .sum [("7", [("_type", .prim .i64)]), ("07", [("_type", .prim .i64)])]

/-- An entry with a key of one of these variants. -/
def clashingEntry (tag : String) (n : Int) : Json :=
  .obj [("key", .obj [("_type", .str tag), ("x", .ofInt 0)]), ("value", .ofInt n)]

/-- The names in each variant are different and so are the two keys, but these have one identity, and the
second entry is merged into the first. -/
theorem decode_map_merges_clashing :
    clashing.NamesDiffer ∧
    (Json.arr [clashingEntry "7" 1, clashingEntry "07" 2]).WellFormed ∧
    List.Forall₂ (DecodesEntry ⟨Module.drawings, 4⟩ clashing (.prim .i32))
      [clashingEntry "7" 1, clashingEntry "07" 2]
      [(.variant "7" [("_type", .i64 7)], .i32 1), (.variant "07" [("_type", .i64 7)], .i32 2)] ∧
    (⟨Module.drawings, 4⟩ : Codec).decode (.map clashing (.prim .i32))
      (.arr [clashingEntry "7" 1, clashingEntry "07" 2]) =
        .ok (.map [(.variant "7" [("_type", .i64 7)], .i32 2)]) ∧
    (OrderedMap.ofList [(Value.variant "7" [("_type", .i64 7)], Value.i32 1),
      (.variant "07" [("_type", .i64 7)], .i32 2)]).entries =
        [(.variant "7" [("_type", .i64 7)], .i32 1), (.variant "07" [("_type", .i64 7)], .i32 2)] := by
  refine ⟨?_, ?_, ?_, by cbv, by cbv⟩
  · intro s hs
    rcases hs.cases_head with rfl | ⟨u, hu, hs⟩
    · simp [clashing, Ty.FieldsDiffer, Fields.Distinct, Fields.keys]
    · obtain rfl : u = .prim .i64 := by simpa [clashing, Ty.parts] using hu
      rcases hs.cases_head with rfl | ⟨w, hw, -⟩
      · trivial
      · cases hw
  · simp [clashingEntry, Json.WellFormed, Json.WellFormedItems, Json.WellFormedProps,
      Fields.Distinct, Fields.keys, Json.ofInt]
  · refine .cons ⟨_, _, _, rfl, rfl, rfl, rfl, by cbv, by cbv⟩ (.cons ?_ .nil)
    exact ⟨_, _, _, rfl, rfl, rfl, rfl, by cbv, by cbv⟩

end Codec

end Wireform

import Mathlib
import Wireform.Proofs.Codec.PropertyOrder

/-!
# Writing with a type and without one

`encode` goes by the value and `encodeAs` by the type. Where a type allows the value, both write the
same document up to the order of properties (`Writes.bothShow`): the fields of a record come in the
order of the value or in the declared one, and the tag of a variant comes first either way. A value that
was read has its fields in the declared order, so it makes no difference there.
-/

namespace Wireform

theorem Fields.Proper.perm {tag : Option String} {fields fields' : Fields Ty} (h : Fields.Proper tag fields)
    (hp : fields.Perm fields') : Fields.Proper tag fields' where
  distinct := (hp.map Prod.fst).nodup_iff.1 h.distinct
  untagged ht hm := h.untagged ht ((hp.map Prod.fst).mem_iff.2 hm)
  types f hf := h.types f (hp.mem_iff.2 hf)

namespace Codec

/-- A value with the document written at its type and the one written without. -/
structure Shown where
  value : Value
  typed : Json
  plain : Json

/-- The documents show the value, each with the properties of its objects in an order of its own; the
second has that of the value, and the tag of a variant is first in both. -/
inductive BothShow : Value → Json → Json → Prop
  | scalar {p : Prim} {v : Value} {j : Json} :
    p.admits v = true → encode v = .ok j → BothShow v j j
  | absent : BothShow .absent .null .null
  | present {v : Value} {j j₀ : Json} : BothShow v j j₀ → BothShow (.present v) j j₀
  | list (parts : List Shown) : (∀ p ∈ parts, BothShow p.value p.typed p.plain) →
    BothShow (.list (parts.map Shown.value)) (.arr (parts.map Shown.typed))
      (.arr (parts.map Shown.plain))
  | object (parts : Fields Shown) : (∀ p ∈ parts, BothShow p.2.value p.2.typed p.2.plain) →
    BothShow (.object (parts.map fun p => (p.1, p.2.value)))
      (.obj (parts.map fun p => (p.1, p.2.typed))) (.obj (parts.map fun p => (p.1, p.2.plain)))
  | map (parts : List (Shown × Shown)) : (∀ p ∈ parts, BothShow p.1.value p.1.typed p.1.plain) →
    (∀ p ∈ parts, BothShow p.2.value p.2.typed p.2.plain) →
      BothShow (.map (parts.map fun p => (p.1.value, p.2.value)))
        (.arr (parts.map fun p => mapEntry p.1.typed p.2.typed))
        (.arr (parts.map fun p => mapEntry p.1.plain p.2.plain))
  | fields (tag : Option String) {parts parts' : Fields Shown} :
    (∀ p ∈ parts, BothShow p.2.value p.2.typed p.2.plain) → parts.Perm parts' →
      BothShow (fieldsValue tag (parts'.map fun p => (p.1, p.2.value)))
        (.obj (tagProps tag ++ parts.map fun p => (p.1, p.2.typed)))
        (.obj (tagProps tag ++ parts'.map fun p => (p.1, p.2.plain)))

theorem shuffled_mapEntry {k k' v v' : Json} (hk : k.Shuffled k') (hv : v.Shuffled v') :
    (mapEntry k v).Shuffled (mapEntry k' v') :=
  @Json.Shuffled.obj [("key", k, k'), ("value", v, v')] _ (by simp [hk, hv]) (.refl _)

theorem BothShow.shuffled {v : Value} {j j₀ : Json} (h : BothShow v j j₀) : j.Shuffled j₀ := by
  induction h with
  | scalar => exact .refl _
  | absent => exact .refl _
  | present _ ih => exact ih
  | list parts _ ih =>
    have hs := Json.Shuffled.arr (parts.map fun p => (p.typed, p.plain)) (List.forall_mem_map.2 ih)
    simp only [List.map_map] at hs
    exact hs
  | object parts _ ih =>
    have hs := @Json.Shuffled.obj (parts.map fun p => (p.1, p.2.typed, p.2.plain)) _
      (List.forall_mem_map.2 ih) (.refl _)
    simp only [List.map_map] at hs
    exact hs
  | map parts _ _ ihk ihv =>
    have hs := Json.Shuffled.arr
      (parts.map fun p => (mapEntry p.1.typed p.2.typed, mapEntry p.1.plain p.2.plain))
      (List.forall_mem_map.2 fun p hp => shuffled_mapEntry (ihk p hp) (ihv p hp))
    simp only [List.map_map] at hs
    exact hs
  | @fields tag parts parts' _ hp ih =>
    let props : Fields Shown → List (String × Json × Json) := fun ps =>
      (tagProps tag).map (fun p => (p.1, p.2, p.2)) ++ ps.map fun p => (p.1, p.2.typed, p.2.plain)
    have hs := @Json.Shuffled.obj (props parts) (props parts')
      (List.forall_mem_append.2 ⟨List.forall_mem_map.2 fun p _ => .refl p.2, List.forall_mem_map.2 ih⟩)
      ((hp.map _).append_left _)
    simp only [props, List.map_append, List.map_map] at hs
    simpa [Function.comp_def] using hs

variable {m owner : Module} {t : Ty} {v : Value} {j : Json}

/-- Fields that are written at their types are written without, in the order of the value. -/
theorem bothShow_fields {tag : Option String} {values : Fields Value} {parts : List FieldPart}
    (hp : Fields.Proper tag (parts.map FieldPart.field)) (hl : values.length = parts.length)
    (hv : ∀ p ∈ parts, Fields.get? values p.name = some p.value)
    (h : ∀ p ∈ parts, ∃ j₀, encode p.value = .ok j₀ ∧ BothShow p.value p.doc j₀) :
    ∃ j₀, encode (fieldsValue tag values) = .ok j₀ ∧
      BothShow (fieldsValue tag values) (fieldsDoc tag (parts.map FieldPart.prop)) j₀ := by
  obtain ⟨parts', rfl, hperm⟩ : ∃ parts' : List FieldPart,
      values = parts'.map FieldPart.named ∧ parts'.Perm parts := by
    have h := (perm_named hp hl hv).symm
    exact (congrFun₂ (List.eq_map_comp_perm FieldPart.named) values parts).mpr h
  have h : ∀ p ∈ parts', ∃ j₀, encode p.value = .ok j₀ ∧ BothShow p.value p.doc j₀ :=
    fun p hm => h p (hperm.mem_iff.1 hm)
  choose! plain hplain hshow using h
  have he := @encode_fields tag (parts'.map fun p => { p with doc := plain p })
    (List.forall_mem_map.2 hplain)
  have hp' : Fields.Proper tag ((parts'.map fun p => { p with doc := plain p }).map FieldPart.field) := by
    rw [List.map_map]
    exact hp.perm (hperm.symm.map FieldPart.field)
  have hs := @BothShow.fields tag (parts.map fun p => (p.name, ⟨p.value, p.doc, plain p⟩))
    (parts'.map fun p => (p.name, ⟨p.value, p.doc, plain p⟩))
    (List.forall_mem_map.2 fun p hm => hshow p (hperm.mem_iff.2 hm)) (hperm.symm.map _)
  rw [fieldsDoc_eq hp'] at he
  simp only [List.map_map] at he hs
  exact ⟨_, he, by rw [fieldsDoc_eq hp]; exact hs⟩

/-- What is written at a type is written without it. -/
theorem Writes.bothShow (h : Writes m t v j) (hm : m.Sound) (ht : t.Proper) (hv : v.NamesOnce) :
    ∃ j₀, encode v = .ok j₀ ∧ BothShow v j j₀ := by
  induction h with
  | scalar hp he => exact ⟨_, he, .scalar hp he⟩
  | annot _ ih => exact ih hm ht hv
  | absent => exact ⟨.null, rfl, .absent⟩
  | present _ ih =>
    obtain ⟨j₀, he, hs⟩ := ih hm ht (hv.part (List.mem_singleton_self _))
    exact ⟨j₀, by rw [encode, he], .present hs⟩
  | list parts _ ih =>
    have h : ∀ p ∈ parts, ∃ j₀, encode p.2 = .ok j₀ ∧ BothShow p.2 p.1 j₀ := fun p hp =>
      ih p hp hm ht (hv.part (List.mem_map_of_mem hp))
    choose! plain hplain hshow using h
    have he := @encode_list (parts.map fun p => (plain p, p.2)) (List.forall_mem_map.2 hplain)
    have hs := BothShow.list (parts.map fun p => ⟨p.2, p.1, plain p⟩) (List.forall_mem_map.2 hshow)
    simp only [List.map_map] at he hs
    exact ⟨_, he, hs⟩
  | object parts _ ih =>
    have hd : Fields.Distinct (parts.map fun p => (p.1, p.2.2)) := hv _ .self
    have h : ∀ p ∈ parts, ∃ j₀, encode p.2.2 = .ok j₀ ∧ BothShow p.2.2 p.2.1 j₀ := fun p hp =>
      ih p hp hm ht (hv.part (List.mem_map_of_mem (f := Prod.snd) (List.mem_map_of_mem hp)))
    choose! plain hplain hshow using h
    have he := @encode_object (parts.map fun p => (p.1, plain p, p.2.2)) (List.forall_mem_map.2 hplain)
    have hs := BothShow.object (parts.map fun p => (p.1, ⟨p.2.2, p.2.1, plain p⟩))
      (List.forall_mem_map.2 hshow)
    rw [Codec.object, Fields.ofList_of_distinct (hd.congr (by simp [Fields.keys]))] at he
    simp only [List.map_map] at he hs
    exact ⟨_, he, hs⟩
  | map parts _ _ ihk ihv =>
    have hk : ∀ p ∈ parts, ∃ j₀, encode p.key = .ok j₀ ∧ BothShow p.key p.keyDoc j₀ := fun p hp =>
      ihk p hp hm ht.1 (hv.part (mem_parts_key hp))
    have hv : ∀ p ∈ parts, ∃ j₀, encode p.value = .ok j₀ ∧ BothShow p.value p.valueDoc j₀ :=
      fun p hp => ihv p hp hm ht.2 (hv.part (mem_parts_value hp))
    choose! key hkey hshowk using hk
    choose! value hvalue hshowv using hv
    have he := @encode_map (parts.map fun p => ⟨key p, value p, p.key, p.value⟩)
      (List.forall_mem_map.2 hkey) (List.forall_mem_map.2 hvalue)
    have hs := BothShow.map
      (parts.map fun p => (⟨p.key, p.keyDoc, key p⟩, ⟨p.value, p.valueDoc, value p⟩))
      (List.forall_mem_map.2 hshowk) (List.forall_mem_map.2 hshowv)
    simp only [List.map_map] at he hs
    exact ⟨_, he, hs⟩
  | «alias» hr _ ih => exact ih (hm.of_resolve? hr) (hm.decl_proper hr) hv
  | fields parts hf hl hg _ ih =>
    have hp := hf.proper hm ht
    refine bothShow_fields hp hl hg fun p hmem => ?_
    exact ih p hmem (hf.sound hm) (hp.types _ (List.mem_map_of_mem hmem))
      (hv.part (mem_parts_field (hg p hmem)))

/-- What is written at a type is written without it as well, with the same properties in another order at
most and the tags of variants in front. For a value that was read at the type there is no difference. -/
theorem encode_agrees_encodeAs {c : Codec} {t : Ty} {v : Value} {j : Json} (hm : c.scope.Built)
    (ht : t.Proper) (hv : v.NamesOnce) (h : c.encodeAs t v = .ok j) :
    ∃ j₀, encode v = .ok j₀ ∧ j.Shuffled j₀ ∧ BothShow v j j₀ ∧
      ∀ maxDepth doc, doc.WellFormed → (⟨c.scope, maxDepth⟩ : Codec).decode t doc = .ok v →
        j₀ = j ∧ (encode v).map Json.compact = (c.encodeAs t v).map Json.compact := by
  obtain ⟨j₀, he, hs⟩ := ((writeAs_eq_ok hm.sound).1 h).bothShow hm.sound ht hv
  refine ⟨j₀, he, hs.shuffled, hs, fun maxDepth doc hdoc hd => ?_⟩
  obtain ⟨j', hset⟩ := (reads_of_readWithin hd).settled hm.sound ht hdoc
  have hj : j' = j := Except.ok.inj ((writeAs_of_writes hm.sound hset.writes).symm.trans h)
  have hj₀ : j₀ = j := by
    rw [← hj]
    exact Except.ok.inj (he.symm.trans hset.encodes)
  exact ⟨hj₀, by rw [he, h, hj₀]⟩

/-- The documents of shapes with their fields out of order, and of those that were read. -/
def shapesWritten (plain : Bool) : Json :=
  .arr [.obj [("key", .str "7"), ("value", .arr [.obj (("_type", .str "Path") ::
    if plain then [("rest", .arr []), ("first", .obj [("next", .null), ("value", .str "3")])]
    else [("first", .obj [("value", .str "3"), ("next", .null)]), ("rest", .arr [])])])]]

theorem encode_agrees_shapesWritten :
    (⟨Module.drawings, 8⟩ : Codec).encodeAs shapesByNumber looseShapes = .ok (shapesWritten false) ∧
    encode looseShapes = .ok (shapesWritten true) ∧
    (shapesWritten false).Shuffled (shapesWritten true) ∧
    ∃ v, (⟨Module.drawings, 8⟩ : Codec).decode shapesByNumber looseShapesDoc = .ok v ∧
      (⟨Module.drawings, 8⟩ : Codec).encodeAs shapesByNumber v = .ok (shapesWritten false) ∧
      encode v = .ok (shapesWritten false) := by
  have hproper : shapesByNumber.Proper := ⟨trivial, trivial⟩
  have hw : (⟨Module.drawings, 8⟩ : Codec).encodeAs shapesByNumber looseShapes =
      .ok (shapesWritten false) := by cbv
  have he : encode looseShapes = .ok (shapesWritten true) := by cbv
  have hnames : looseShapes.NamesOnce := by
    have hnode : (Value.record [("next", .absent), ("value", .i64 3)]).All Value.Unrepeated :=
      Value.all_iff.2 ⟨by simp [Value.Unrepeated, Fields.Distinct, Fields.keys], by
        simp [Value.parts, Value.all_iff (v := .absent), Value.all_iff (v := .i64 _), Value.Unrepeated]⟩
    have hpath : (Value.variant "Path" [("rest", .list []),
        ("first", .record [("next", .absent), ("value", .i64 3)])]).All Value.Unrepeated :=
      Value.all_iff.2 ⟨by simp [Value.Unrepeated, Fields.Distinct, Fields.keys], by
        simpa [Value.parts, Value.all_iff (v := .list []), Value.Unrepeated] using hnode⟩
    refine Value.all_iff.2 ⟨trivial, ?_⟩
    simpa [looseShapes, Value.parts, Value.all_iff (v := .list [_]), Value.all_iff (v := .i64 _),
      Value.Unrepeated] using hpath
  obtain ⟨j₀, he₀, hs, -⟩ := encode_agrees_encodeAs Module.drawings_built hproper hnames hw
  obtain rfl : j₀ = shapesWritten true := Except.ok.inj (he₀.symm.trans he)
  have hj : looseShapesDoc.WellFormed := by
    simp [looseShapesDoc, Json.WellFormed, Json.WellFormedItems, Json.WellFormedProps, Fields.Distinct,
      Fields.keys, Json.ofInt]
  have hr : (⟨Module.drawings, 8⟩ : Codec).decode shapesByNumber looseShapesDoc =
      .ok (.map [(.i64 7, .list [.variant "Path"
        [("first", .record [("value", .i64 3), ("next", .absent)]), ("rest", .list [])]])]) := by cbv
  have hw' : (⟨Module.drawings, 8⟩ : Codec).encodeAs shapesByNumber (.map [(.i64 7, .list
      [.variant "Path" [("first", .record [("value", .i64 3), ("next", .absent)]),
        ("rest", .list [])]])]) = .ok (shapesWritten false) := by cbv
  have hread := (reads_of_readWithin hr).inhabits Module.drawings_built.sound hproper.namesDiffer hj
  obtain ⟨j₁, he₁, -, -, hsame⟩ := encode_agrees_encodeAs Module.drawings_built hproper
    (namesOnce_of_clean hread.2) hw'
  obtain ⟨rfl, -⟩ := hsame 8 looseShapesDoc hj hr
  exact ⟨hw, he, hs, _, hr, hw', he₁⟩

end Codec

end Wireform

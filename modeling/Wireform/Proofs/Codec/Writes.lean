import Mathlib
import Wireform.Proofs.Codec.Reads
import Wireform.Proofs.Value

/-!
# What a successful write is

`Writes m t v j` says by rules that the value `v` is written as the document `j` at the type `t` of
`m`. The writer goes by the value and looks at the shape of the type; `writeAs_eq_ok` says that in a
sound module this is the same as to follow the type rule by rule.
-/

namespace Wireform.Codec

/-! ### Writing without a type -/

/-- The document of an object with fixed names. -/
def fieldsDoc : Option String → List (String × Json) → Json
  | none, props => object props
  | some tag, props => tagged tag props

theorem encode_list {parts : List (Json × Value)} (h : ∀ p ∈ parts, encode p.2 = .ok p.1) :
    encode (.list (parts.map Prod.snd)) = .ok (.arr (parts.map Prod.fst)) := by
  rw [encode, encodeItems_eq, mapM_map, mapM_eq_ok_of_forall h]
  rfl

theorem encode_object {parts : List (String × Json × Value)}
    (h : ∀ p ∈ parts, encode p.2.2 = .ok p.2.1) :
    encode (.object (parts.map fun p => (p.1, p.2.2))) =
      .ok (object (parts.map fun p => (p.1, p.2.1))) := by
  rw [encode, encodeFields_eq, mapM_map]
  rw [mapM_eq_ok_of_forall (g := fun p => (p.1, p.2.1)) fun p hp => by rw [h p hp]; rfl]
  rfl

theorem encode_map {parts : List EntryPart} (hk : ∀ p ∈ parts, encode p.key = .ok p.keyDoc)
    (hv : ∀ p ∈ parts, encode p.value = .ok p.valueDoc) :
    encode (.map (parts.map EntryPart.entry)) = .ok (.arr (parts.map EntryPart.doc)) := by
  rw [encode, encodeEntries_eq, mapM_map]
  rw [mapM_eq_ok_of_forall (g := EntryPart.doc) fun p hp => by
    show (do return mapEntry (← encode p.key) (← encode p.value)) = _
    rw [hk p hp, hv p hp]
    rfl]
  rfl

theorem encode_fields (tag : Option String) {parts : List FieldPart}
    (h : ∀ p ∈ parts, encode p.value = .ok p.doc) :
    encode (fieldsValue tag (parts.map FieldPart.named)) =
      .ok (fieldsDoc tag (parts.map FieldPart.prop)) := by
  have hf : encodeFields (parts.map FieldPart.named) = .ok (parts.map FieldPart.prop) := by
    rw [encodeFields_eq, mapM_map]
    exact mapM_eq_ok_of_forall fun p hp => by
      show (do return (p.name, ← encode p.value)) = _
      rw [h p hp]
      rfl
  cases tag <;> (rw [fieldsValue, encode, hf]; rfl)

/-! ### Fields -/

/-- What is written of fields is decided by what their writers do at the types of the fields. -/
theorem writeFields_congr {m m' : Module} {fields : Fields Ty} {writers writers' : Fields Writer}
    (hl : writers.length = writers'.length)
    (h : ∀ f ∈ fields, (Fields.get? writers f.1).map (· m f.2) =
      (Fields.get? writers' f.1).map (· m' f.2)) (tag : Option String) :
    writeFields m fields writers tag = writeFields m' fields writers' tag := by
  unfold writeFields
  rw [hl]
  by_cases hlength : writers'.length = fields.length
  · simp only [hlength, ne_eq, not_true_eq_false, if_false]
    congr 1
    refine mapM_congr fun f hf => ?_
    have hf := h f hf
    cases hw : Fields.get? writers f.1 with
    | none =>
      rw [hw, Option.map_none, eq_comm, Option.map_eq_none_iff] at hf
      simp only [hf]
    | some write =>
      rw [hw, Option.map_some, eq_comm, Option.map_eq_some_iff] at hf
      obtain ⟨write', hw', hf⟩ := hf
      simp only [hw', hf]
  · simp only [hlength, ne_eq, not_false_eq_true, if_true]
    rfl

/-! ### The rules -/

inductive Writes : Module → Ty → Value → Json → Prop
  | scalar {m : Module} {p : Prim} {v : Value} {j : Json} :
    p.admits v = true → encode v = .ok j → Writes m (.prim p) v j
  | annot {m : Module} {doc : String} {t : Ty} {v : Value} {j : Json} :
    Writes m t v j → Writes m (.annot doc t) v j
  | absent {m : Module} {t : Ty} : Writes m (.optional t) .absent .null
  | present {m : Module} {t : Ty} {v : Value} {j : Json} :
    Writes m t v j → Writes m (.optional t) (.present v) j
  | list {m : Module} {t : Ty} (parts : List (Json × Value)) :
    (∀ p ∈ parts, Writes m t p.2 p.1) →
      Writes m (.list t) (.list (parts.map Prod.snd)) (.arr (parts.map Prod.fst))
  | object {m : Module} {t : Ty} (parts : List (String × Json × Value)) :
    (∀ p ∈ parts, Writes m t p.2.2 p.2.1) →
      Writes m (.object t) (.object (parts.map fun p => (p.1, p.2.2)))
        (.obj (parts.map fun p => (p.1, p.2.1)))
  | map {m : Module} {k v : Ty} (parts : List EntryPart) :
    (∀ p ∈ parts, Writes m k p.key p.keyDoc) → (∀ p ∈ parts, Writes m v p.value p.valueDoc) →
      Writes m (.map k v) (.map (parts.map EntryPart.entry)) (.arr (parts.map EntryPart.doc))
  | alias {m owner : Module} {r : Ref} {t : Ty} {v : Value} {j : Json} :
    m.resolve? r = some (owner, .alias t) → Writes owner t v j → Writes m (.ref r) v j
  | fields {m owner : Module} {t : Ty} {tag : Option String} {values : Fields Value}
      (parts : List FieldPart) :
    m.Fieldset t owner tag (parts.map FieldPart.field) → values.length = parts.length →
    (∀ p ∈ parts, Fields.get? values p.name = some p.value) →
    (∀ p ∈ parts, Writes owner p.ty p.value p.doc) →
      Writes m t (fieldsValue tag values) (fieldsDoc tag (parts.map FieldPart.prop))

/-! ### The writer at each kind of type -/

theorem fieldWriters_get? (values : Fields Value) (name : String) :
    Fields.get? (fieldWriters values) name = (Fields.get? values name).map writeAs := by
  rw [fieldWriters_eq, Fields.get?_map fun f => writeAs f.2]

theorem writeField_eq_ok {owner : Module} {values : Fields Value} {f : String × Ty}
    {prop : String × Json} {e : CodecError} :
    (match Fields.get? (fieldWriters values) f.1 with
      | some write => do return (f.1, ← write owner f.2)
      | none => throw e) = Except.ok prop ↔
      ∃ v, Fields.get? values f.1 = some v ∧ prop.1 = f.1 ∧ writeAs v owner f.2 = .ok prop.2 := by
  obtain ⟨name, doc⟩ := prop
  rw [fieldWriters_get?]
  cases Fields.get? values f.1 with
  | none => simp
  | some v =>
    simp only [Option.map_some, bind_eq_ok, pure_eq_ok, Except.ok.injEq, Prod.mk.injEq,
      Option.some.injEq, exists_eq_left']
    constructor
    · rintro ⟨doc, hd, rfl, rfl⟩
      exact ⟨rfl, hd⟩
    · rintro ⟨rfl, hd⟩
      exact ⟨doc, hd, rfl, rfl⟩

theorem writeFields_eq_ok {owner : Module} {fields : Fields Ty} {values : Fields Value}
    {tag : Option String} {j : Json} :
    writeFields owner fields (fieldWriters values) tag = .ok j ↔
      ∃ parts : List FieldPart, fields = parts.map FieldPart.field ∧
        values.length = parts.length ∧ (∀ p ∈ parts, Fields.get? values p.name = some p.value) ∧
        (∀ p ∈ parts, writeAs p.value owner p.ty = .ok p.doc) ∧
        j = fieldsDoc tag (parts.map FieldPart.prop) := by
  have hlength : (fieldWriters values).length = values.length := by
    rw [fieldWriters_eq, List.length_map]
  unfold writeFields
  by_cases hl : values.length = fields.length
  · simp only [hlength, hl, ne_eq, not_true_eq_false, if_false, bind_eq_ok]
    constructor
    · rintro ⟨props, hp, hj⟩
      obtain rfl : fieldsDoc tag props = j := by cases tag <;> exact Except.ok.inj hj
      obtain ⟨pairs, rfl, rfl, hq⟩ := exists_parts_of_mapM hp
      obtain ⟨parts, rfl, hr⟩ := exists_parts fun q h => writeField_eq_ok.1 (hq q h)
      refine ⟨parts.map fun r => ⟨r.1.1.1, r.1.1.2, r.1.2.2, r.2⟩, ?_, ?_, ?_, ?_, ?_⟩
      · simp [Function.comp_def, FieldPart.field]
      · simp
      · simp only [List.forall_mem_map]
        exact fun r h => (hr r h).1
      · simp only [List.forall_mem_map]
        exact fun r h => (hr r h).2.2
      · congr 1
        simp only [List.map_map]
        exact List.map_congr_left fun r h => Prod.ext (hr r h).2.1 rfl
    · rintro ⟨parts, rfl, -, hv, hw, rfl⟩
      refine ⟨parts.map FieldPart.prop, ?_, by cases tag <;> rfl⟩
      rw [mapM_map]
      exact mapM_eq_ok_of_forall fun p h => writeField_eq_ok.2 ⟨p.value, hv p h, rfl, hw p h⟩
  · simp only [hlength, ne_eq, hl, not_false_eq_true, if_true, throw_eq_error, error_bind]
    constructor
    · intro h; cases h
    · rintro ⟨parts, rfl, h, -⟩; exact absurd (by simpa using h) hl

/-- At the type of an object with fixed names exactly such values are written, field by field. -/
theorem writeAs_of_fieldset {m owner : Module} {t : Ty} {tag : Option String} {fields : Fields Ty}
    (hf : m.Fieldset t owner tag fields) (values : Fields Value) :
    writeAs (fieldsValue tag values) m t = writeFields owner fields (fieldWriters values) tag := by
  obtain ⟨label, head, he, ⟨rfl, rfl⟩ | ⟨s, rfl, ⟨variants, rfl, hg⟩ | ⟨parent, rfl⟩⟩⟩ := hf.expose
  · unfold fieldsValue writeAs
    rw [he]
  · unfold fieldsValue writeAs
    rw [he]
    simp only [hg]
  · unfold fieldsValue writeAs
    rw [he]
    simp only [if_pos]

theorem writeAs_of_writes {m : Module} {t : Ty} {v : Value} {j : Json} (hm : m.Sound)
    (h : Writes m t v j) : writeAs v m t = .ok j := by
  induction h with
  | @scalar m p v j hp he =>
    unfold writeAs
    rw [Module.expose_inline m (by simp) (by simp)]
    simp only [Module.exposeInline, hp, if_true]
    exact he
  | annot _ ih => rw [writeAs_congr (Module.expose_annot _ _ _), ih hm]
  | absent =>
    unfold writeAs
    rw [Module.expose_inline _ (by simp) (by simp)]
    rfl
  | present _ ih =>
    unfold writeAs
    rw [Module.expose_inline _ (by simp) (by simp)]
    exact ih hm
  | list parts _ ih =>
    unfold writeAs
    rw [Module.expose_inline _ (by simp) (by simp)]
    simp only [Module.exposeInline, itemWriters_eq, mapM_map]
    rw [mapM_eq_ok_of_forall fun p hp => ih p hp hm]
    rfl
  | object parts _ ih =>
    unfold writeAs
    rw [Module.expose_inline _ (by simp) (by simp)]
    simp only [Module.exposeInline, fieldWriters_eq, mapM_map]
    rw [mapM_eq_ok_of_forall (g := fun p => (p.1, p.2.1)) fun p hp => by rw [ih p hp hm]; rfl]
    rfl
  | map parts _ _ ihk ihv =>
    unfold writeAs
    rw [Module.expose_inline _ (by simp) (by simp)]
    simp only [Module.exposeInline, entryWriters_eq, mapM_map]
    rw [mapM_eq_ok_of_forall (g := EntryPart.doc) fun p hp => by
      simp only [EntryPart.entry, ihk p hp hm, ihv p hp hm]; rfl]
    rfl
  | «alias» hr _ ih =>
    rw [writeAs_congr (hm.ends.expose_alias hr), ih (hm.of_resolve? hr)]
  | fields parts hf hl hv _ ih =>
    rw [writeAs_of_fieldset hf, writeFields_eq_ok]
    exact ⟨parts, rfl, hl, hv, fun p hp => ih p hp (hf.sound hm), rfl⟩

/-! ### What a success of the writer comes from -/

variable {m : Module} {v : Value} {j : Json}

/-- At the other types only objects with fixed names are written. -/
theorem exists_fieldset_of_writeAs {t : Ty} (ht : isNested t = true)
    (hl : ∀ s, t ≠ .list s) (ho : ∀ s, t ≠ .object s) (hm : ∀ k s, t ≠ .map k s)
    (ha : ∀ r owner s, t = .ref r → m.resolve? r ≠ some (owner, .alias s))
    (h : writeAs v m t = .ok j) :
    ∃ owner tag fields values, m.Fieldset t owner tag fields ∧ v = fieldsValue tag values := by
  unfold writeAs at h
  cases t with
  | prim | annot | optional => cases ht
  | list s => exact absurd rfl (hl s)
  | object s => exact absurd rfl (ho s)
  | map k s => exact absurd rfl (hm k s)
  | record fields =>
    rw [Module.expose_inline _ (by simp) (by simp)] at h
    cases v with
    | record values => exact ⟨_, none, _, values, .record, rfl⟩
    | _ => cases h
  | sum variants =>
    rw [Module.expose_inline _ (by simp) (by simp)] at h
    cases v with
    | variant tag values =>
      simp only [Module.exposeInline] at h
      split at h
      · rename_i fields hg
        exact ⟨_, some tag, _, values, .sum hg, rfl⟩
      · cases h
    | _ => cases h
  | ref r =>
    cases hr : m.resolve? r with
    | none =>
      rw [Module.expose_unresolved hr] at h
      cases v <;> cases h
    | some found =>
      obtain ⟨owner, decl⟩ := found
      rw [Module.expose_decl hr fun s hs => ha r owner s rfl (hs ▸ hr)] at h
      cases decl with
      | «alias» s => exact absurd hr (ha r owner s rfl)
      | table spec => cases v <;> cases h
      | struct fields =>
        cases v with
        | record values => exact ⟨_, none, _, values, .struct hr, rfl⟩
        | _ => cases h
      | sum variants =>
        cases v with
        | variant tag values =>
          simp only [Module.exposeDecl] at h
          split at h
          · rename_i fields hg
            exact ⟨_, some tag, _, values, .declaredSum hr hg, rfl⟩
          · cases h
        | _ => cases h
      | variant parent index =>
        simp only [Module.exposeDecl] at h
        cases hv : owner.variant? parent index with
        | none => rw [hv] at h; cases v <;> cases h
        | some found =>
          obtain ⟨declared, fields⟩ := found
          rw [hv] at h
          cases v with
          | variant tag values =>
            simp only at h
            split at h
            · rename_i he
              exact ⟨_, some tag, _, values, .variant hr (he ▸ hv), rfl⟩
            · cases h
          | _ => cases h

/-- A type that is neither documentation nor an alias, if the parts are written by the rules. -/
theorem writes_of_shape {t : Ty} (hannot : ∀ doc s, t ≠ .annot doc s)
    (halias : ∀ r owner s, t = .ref r → m.resolve? r ≠ some (owner, .alias s))
    (ih : ∀ w ∈ v.parts, ∀ {m : Module} {t : Ty} {j : Json}, m.Sound → writeAs w m t = .ok j →
      Writes m t w j)
    (hm : m.Sound) (h : writeAs v m t = .ok j) : Writes m t v j := by
  have hinline : (∀ r, t ≠ .ref r) → m.expose t = m.exposeInline t := Module.expose_inline m hannot
  by_cases hn : isNested t = true ∧ (∀ s, t ≠ .list s) ∧ (∀ s, t ≠ .object s) ∧ ∀ k s, t ≠ .map k s
  · obtain ⟨owner, tag, fields, values, hf, rfl⟩ :=
      exists_fieldset_of_writeAs hn.1 hn.2.1 hn.2.2.1 hn.2.2.2 halias h
    rw [writeAs_of_fieldset hf, writeFields_eq_ok] at h
    obtain ⟨parts, rfl, hl, hv, hw, rfl⟩ := h
    refine .fields parts hf hl hv fun p hp => ih _ ?_ (hf.sound hm) (hw p hp)
    have hmem := List.mem_map_of_mem (f := Prod.snd) (Fields.mem_of_get? (hv p hp))
    cases tag <;> exact hmem
  unfold writeAs at h
  cases t with
  | record | sum | ref => simp [isNested] at hn
  | annot doc s => exact absurd rfl (hannot doc s)
  | prim p =>
    rw [hinline (by simp)] at h
    simp only [Module.exposeInline] at h
    split at h
    · rename_i hp
      exact .scalar hp h
    · cases h
  | optional t =>
    rw [hinline (by simp)] at h
    cases v with
    | absent =>
      obtain rfl := Except.ok.inj h
      exact .absent
    | present w => exact .present (ih w (by simp [Value.parts]) hm h)
    | _ => cases h
  | list t =>
    rw [hinline (by simp)] at h
    cases v with
    | list items =>
      obtain ⟨docs, hd, h⟩ := bind_eq_ok.1 h
      obtain rfl := Except.ok.inj h
      rw [itemWriters_eq, mapM_map] at hd
      obtain ⟨parts, rfl, rfl, hp⟩ := exists_parts_of_mapM hd
      have hw := Writes.list (m := m) (t := t) (parts.map Prod.swap) <| by
        simp only [List.forall_mem_map]
        exact fun p h => ih p.1 (List.mem_map_of_mem h) hm (hp p h)
      simpa [Function.comp_def] using hw
    | _ => cases h
  | object t =>
    rw [hinline (by simp)] at h
    cases v with
    | object props =>
      obtain ⟨docs, hd, h⟩ := bind_eq_ok.1 h
      obtain rfl := Except.ok.inj h
      rw [fieldWriters_eq, mapM_map] at hd
      obtain ⟨parts, rfl, rfl, hp⟩ := exists_parts_of_mapM hd
      have hq : ∀ p ∈ parts, writeAs p.1.2 m t = .ok p.2.2 ∧ p.2.1 = p.1.1 := by
        intro p h
        obtain ⟨doc, hd, he⟩ := bind_eq_ok.1 (hp p h)
        rw [← Except.ok.inj he]
        exact ⟨hd, rfl⟩
      have hw := Writes.object (m := m) (t := t) (parts.map fun p => (p.1.1, p.2.2, p.1.2)) <| by
        simp only [List.forall_mem_map]
        exact fun p h => ih p.1.2 (List.mem_map_of_mem (List.mem_map_of_mem h)) hm (hq p h).1
      simp only [List.map_map, Function.comp_def] at hw
      convert hw using 2
      exact List.map_congr_left fun p h => Prod.ext (hq p h).2 rfl
    | _ => cases h
  | map k t =>
    rw [hinline (by simp)] at h
    cases v with
    | map entries =>
      obtain ⟨docs, hd, h⟩ := bind_eq_ok.1 h
      obtain rfl := Except.ok.inj h
      rw [entryWriters_eq, mapM_map] at hd
      obtain ⟨pairs, rfl, rfl, hp⟩ := exists_parts_of_mapM hd
      have hq : ∀ p ∈ pairs, ∃ docs : Json × Json, writeAs p.1.1 m k = .ok docs.1 ∧
          writeAs p.1.2 m t = .ok docs.2 ∧ p.2 = mapEntry docs.1 docs.2 := by
        intro p h
        obtain ⟨kd, hk, he⟩ := bind_eq_ok.1 (hp p h)
        obtain ⟨vd, hv, he⟩ := bind_eq_ok.1 he
        exact ⟨(kd, vd), hk, hv, (Except.ok.inj he).symm⟩
      obtain ⟨parts, rfl, hr⟩ := exists_parts hq
      have hmem : ∀ p ∈ parts, p.1.1 ∈ (parts.map Prod.fst).map Prod.fst := fun p h =>
        List.mem_map_of_mem (List.mem_map_of_mem h)
      have hw := Writes.map (m := m) (k := k) (v := t)
        (parts.map fun p => ⟨p.2.1, p.2.2, p.1.1.1, p.1.1.2⟩)
        (by
          simp only [List.forall_mem_map]
          exact fun p h => ih p.1.1.1
            (List.mem_append_left _ (List.mem_map_of_mem (hmem p h))) hm (hr p h).1)
        (by
          simp only [List.forall_mem_map]
          exact fun p h => ih p.1.1.2
            (List.mem_append_right _ (List.mem_map_of_mem (hmem p h))) hm (hr p h).2.1)
      simp only [List.map_map, Function.comp_def] at hw ⊢
      convert hw using 2
      · exact List.map_congr_left fun p _ => rfl
      · exact List.map_congr_left fun p h => (hr p h).2.2
    | _ => cases h

theorem writes_of_writeAs {t : Ty} (hm : m.Sound) (h : writeAs v m t = .ok j) :
    Writes m t v j := by
  induction v using Value.parts_induction generalizing m t j with
  | step v ih =>
    refine Module.Sound.shape_induction (P := fun m t => ∀ j, writeAs v m t = .ok j → Writes m t v j)
      ?_ ?_ ?_ hm t j h
    · intro m doc t iht j h
      rw [writeAs_congr (m.expose_annot doc t)] at h
      exact .annot (iht j h)
    · intro m r owner t hm hr iht j h
      rw [writeAs_congr (hm.ends.expose_alias hr)] at h
      exact .alias hr (iht j h)
    · intro m t hm hannot halias j h
      exact writes_of_shape hannot halias (fun w hw _ _ _ hs h => ih w hw hs h) hm h

theorem writeAs_eq_ok {t : Ty} (hm : m.Sound) : writeAs v m t = .ok j ↔ Writes m t v j :=
  ⟨writes_of_writeAs hm, writeAs_of_writes hm⟩

end Wireform.Codec

import Mathlib
import Wireform.Codec.Decode
import Wireform.Proofs.Codec.Scalar
import Wireform.Proofs.Module.Fieldset
import Wireform.Proofs.OrderedMap
import Wireform.Proofs.Sequence

/-!
# What a successful read is

`Reads room m t j v` says by rules, one for each way to read, that the document `j` has the value `v`
at the type `t` of `m` within `room` levels. `readWithin_eq_ok` ties it to the reader; everything
about successful reads is proved by induction on these rules.
-/

namespace Wireform.Codec

/-- A declared field with its document and its value. -/
structure FieldPart where
  name : String
  ty : Ty
  doc : Json
  value : Value

namespace FieldPart

def field (p : FieldPart) : String × Ty := (p.name, p.ty)

def prop (p : FieldPart) : String × Json := (p.name, p.doc)

def named (p : FieldPart) : String × Value := (p.name, p.value)

end FieldPart

/-- A key and a value of a map with their documents. -/
structure EntryPart where
  keyDoc : Json
  valueDoc : Json
  key : Value
  value : Value
deriving Inhabited

namespace EntryPart

def doc (p : EntryPart) : Json := mapEntry p.keyDoc p.valueDoc

def entry (p : EntryPart) : Value × Value := (p.key, p.value)

end EntryPart

/-- An entry as it is read: the properties of its object, and what its key is written as. -/
structure ReadPart extends EntryPart where
  props : Fields Json
  written : Json
deriving Inhabited

/-- The entry as it is collected, with the identity of its key. -/
def ReadPart.slot (p : ReadPart) : String × Value × Value :=
  (keyIdentity p.written, p.key, p.value)

/-- An object with fixed names as a value. -/
def fieldsValue : Option String → Fields Value → Value
  | none, values => .record values
  | some tag, values => .variant tag values

/-- The properties are those of the parts, under their tag if they have one. -/
structure HoldsParts (tag : Option String) (parts : List FieldPart) (props : Fields Json) : Prop where
  names : hasNames props (expectedNames tag.isSome (parts.map FieldPart.name)) = true
  tag : ∀ s ∈ tag, Fields.get? props discriminator = some (.str s)
  docs : ∀ p ∈ parts, Fields.get? props p.name = some p.doc

inductive Reads : Nat → Module → Ty → Json → Value → Prop
  | scalar {room : Nat} {m : Module} {p : Prim} {j : Json} {v : Value} :
    readScalar? p j = some v → Reads room m (.prim p) j v
  | annot {room : Nat} {m : Module} {doc : String} {t : Ty} {j : Json} {v : Value} :
    Reads room m t j v → Reads room m (.annot doc t) j v
  | absent {room : Nat} {m : Module} {t : Ty} : Reads room m (.optional t) .null .absent
  | present {room : Nat} {m : Module} {t : Ty} {j : Json} {v : Value} :
    j ≠ .null → Reads room m t j v → Reads room m (.optional t) j (.present v)
  | list {room : Nat} {m : Module} {t : Ty} (parts : List (Json × Value)) :
    (∀ p ∈ parts, Reads room m t p.1 p.2) →
      Reads (room + 1) m (.list t) (.arr (parts.map Prod.fst)) (.list (parts.map Prod.snd))
  | object {room : Nat} {m : Module} {t : Ty} (parts : List (String × Json × Value)) :
    (∀ p ∈ parts, Reads room m t p.2.1 p.2.2) →
      Reads (room + 1) m (.object t) (.obj (parts.map fun p => (p.1, p.2.1)))
        (.object (parts.map fun p => (p.1, p.2.2)))
  | map {room : Nat} {m : Module} {k v : Ty} (parts : List ReadPart) :
    (∀ p ∈ parts, hasNames p.props ["key", "value"] = true) →
    (∀ p ∈ parts, Fields.get? p.props "key" = some p.keyDoc) →
    (∀ p ∈ parts, Fields.get? p.props "value" = some p.valueDoc) →
    (∀ p ∈ parts, Reads room m k p.keyDoc p.key) →
    (∀ p ∈ parts, Reads room m v p.valueDoc p.value) →
    (∀ p ∈ parts, encode p.key = .ok p.written) →
      Reads (room + 1) m (.map k v) (.arr (parts.map fun p => .obj p.props))
        (.map (collectEntries (parts.map ReadPart.slot)))
  | alias {room : Nat} {m owner : Module} {r : Ref} {t : Ty} {j : Json} {v : Value} :
    m.resolve? r = some (owner, .alias t) → Reads room owner t j v →
      Reads (room + 1) m (.ref r) j v
  | fields {room : Nat} {m owner : Module} {t : Ty} {tag : Option String} {props : Fields Json}
      (parts : List FieldPart) :
    m.Fieldset t owner tag (parts.map FieldPart.field) → HoldsParts tag parts props →
    (∀ p ∈ parts, Reads room owner p.ty p.doc p.value) →
      Reads (room + 1) m t (.obj props)
        (fieldsValue tag (Fields.ofList (parts.map FieldPart.named)))

/-! ### Objects with fixed names -/

theorem expectRecord_eq_ok {j : Json} {context : String} {tagged : Bool} {names : List String}
    {props : Fields Json} : expectRecord j context tagged names = .ok props ↔
      j = .obj props ∧ hasNames props (expectedNames tagged names) = true := by
  unfold expectRecord
  split
  · rename_i ps
    simp only [Json.obj.injEq]
    split
    · rename_i h
      constructor
      · intro he
        obtain rfl := Except.ok.inj he
        exact ⟨rfl, h⟩
      · rintro ⟨rfl, -⟩
        rfl
    · rename_i h
      constructor
      · intro he; cases he
      · rintro ⟨rfl, h'⟩; exact absurd h' h
  · rename_i h
    constructor
    · intro he; cases he
    · rintro ⟨rfl, -⟩; exact absurd rfl (h props)

/-- As many names as expected, and all of the expected ones: no others. -/
theorem perm_of_hasNames {props : Fields Json} {names : List String} (hn : names.Nodup)
    (h : hasNames props names = true) : names.Perm (Fields.keys props) := by
  rw [hasNames, Bool.and_eq_true, beq_iff_eq, List.all_eq_true] at h
  exact Fields.perm_keys_of_subset h.1 hn fun k hk => Fields.contains_iff.1 (h.2 k hk)

theorem hasNames_keys (props : Fields Json) : hasNames props (Fields.keys props) = true := by
  rw [hasNames, Fields.length_keys, beq_self_eq_true, Bool.true_and, List.all_eq_true]
  exact fun k hk => Fields.contains_iff.2 hk

theorem field_eq_ok {props : Fields Json} {name : String} {j : Json} :
    field props name = .ok j ↔ Fields.get? props name = some j := by
  unfold field
  split
  · rename_i j' h; rw [h]; simp
  · rename_i h; rw [h]; simp

theorem tagOf_eq_ok {j : Json} {context tag : String} :
    tagOf j context = .ok tag ↔
      ∃ props, j = .obj props ∧ Fields.get? props discriminator = some (.str tag) := by
  unfold tagOf
  split
  · rename_i props
    simp only [Json.obj.injEq, exists_eq_left']
    split
    · rename_i s h; rw [h]; simp
    · rename_i other hs h
      rw [h]
      constructor
      · intro he; cases he
      · intro he; exact absurd (Option.some.inj he) (hs tag)
    · rename_i h; rw [h]; simp
  · rename_i h
    constructor
    · intro he; cases he
    · rintro ⟨props, rfl, -⟩; exact absurd rfl (h props)

theorem expectTag_eq_ok {j : Json} {parent tag : String} :
    expectTag j parent tag = .ok () ↔
      ∃ props, j = .obj props ∧ Fields.get? props discriminator = some (.str tag) := by
  unfold expectTag
  rw [bind_eq_ok, ← @tagOf_eq_ok j tag tag]
  constructor
  · rintro ⟨found, hf, h⟩
    split at h
    · rename_i he; rw [hf, he]
    · cases h
  · intro h
    exact ⟨tag, h, if_pos rfl⟩

theorem readField_eq_ok {read : Ty → Json → Except CodecError Value} {props : Fields Json}
    {f : String × Ty} {named : String × Value} :
    (do return (f.1, ← read f.2 (← field props f.1))) = Except.ok named ↔
      ∃ doc, Fields.get? props f.1 = some doc ∧ named.1 = f.1 ∧ read f.2 doc = .ok named.2 := by
  obtain ⟨name, v⟩ := named
  simp only [bind_eq_ok, field_eq_ok, pure_eq_ok, Except.ok.injEq, Prod.mk.injEq]
  constructor
  · rintro ⟨doc, hd, w, hw, rfl, rfl⟩
    exact ⟨doc, hd, rfl, hw⟩
  · rintro ⟨doc, hd, rfl, hw⟩
    exact ⟨doc, hd, v, hw, rfl, rfl⟩

theorem readFields_eq_ok {read : Ty → Json → Except CodecError Value} {context : String}
    {fields : Fields Ty} {tagged : Bool} {j : Json} {values : Fields Value} :
    readFields read context fields tagged j = .ok values ↔
      ∃ (props : Fields Json) (parts : List FieldPart), j = .obj props ∧
        fields = parts.map FieldPart.field ∧
        hasNames props (expectedNames tagged (parts.map FieldPart.name)) = true ∧
        (∀ p ∈ parts, Fields.get? props p.name = some p.doc) ∧
        (∀ p ∈ parts, read p.ty p.doc = .ok p.value) ∧
        values = Fields.ofList (parts.map FieldPart.named) := by
  have hkeys : ∀ parts : List FieldPart,
      Fields.keys (parts.map FieldPart.field) = parts.map FieldPart.name := by
    intro parts; simp [Fields.keys, Function.comp_def, FieldPart.field]
  unfold readFields
  simp only [bind_eq_ok, expectRecord_eq_ok, pure_eq_ok, Except.ok.injEq]
  constructor
  · rintro ⟨props, ⟨rfl, hn⟩, named, hnamed, rfl⟩
    obtain ⟨pairs, rfl, rfl, hp⟩ := exists_parts_of_mapM hnamed
    obtain ⟨docs, rfl, hd⟩ := exists_parts fun p h => readField_eq_ok.1 (hp p h)
    refine ⟨props, docs.map fun d => ⟨d.1.1.1, d.1.1.2, d.2, d.1.2.2⟩, rfl, ?_, ?_, ?_, ?_, ?_⟩
    · simp [Function.comp_def, FieldPart.field]
    · simpa [Fields.keys, Function.comp_def] using hn
    · simp only [List.forall_mem_map]
      exact fun d h => (hd d h).1
    · simp only [List.forall_mem_map]
      exact fun d h => (hd d h).2.2
    · congr 1
      simp only [List.map_map]
      refine List.map_congr_left fun d h => ?_
      exact Prod.ext (hd d h).2.1 rfl
  · rintro ⟨props, parts, rfl, rfl, hn, hd, hr, rfl⟩
    refine ⟨props, ⟨rfl, by rwa [hkeys]⟩, parts.map FieldPart.named, ?_, rfl⟩
    rw [mapM_map]
    exact mapM_eq_ok_of_forall fun p h => readField_eq_ok.2 ⟨p.doc, hd p h, rfl, hr p h⟩

/-- Reading at the type of an object with fixed names is reading its fields. -/
theorem enter_of_fieldset (read : Reader) {m owner : Module} {t : Ty} {tag : Option String}
    {fields : Fields Ty} (hf : m.Fieldset t owner tag fields) {props : Fields Json}
    (ht : ∀ s ∈ tag, Fields.get? props discriminator = some (.str s)) :
    ∃ context, enter read m t (.obj props) = do
      return fieldsValue tag (← readFields (read owner) context fields tag.isSome (.obj props)) := by
  cases hf with
  | record => exact ⟨_, by rw [enter]; rfl⟩
  | @sum variants tag fields hg =>
    have htag : tagOf (.obj props) (Ty.sum variants).render = .ok tag :=
      tagOf_eq_ok.2 ⟨props, rfl, ht tag rfl⟩
    exact ⟨_, by rw [enter, readSum, htag, ok_bind, hg]; rfl⟩
  | struct hr => exact ⟨_, by rw [enter, hr]; rfl⟩
  | @declaredSum r owner variants tag fields hr hg =>
    have htag : tagOf (.obj props) r.name = .ok tag := tagOf_eq_ok.2 ⟨props, rfl, ht tag rfl⟩
    refine ⟨tag, ?_⟩
    rw [enter, hr]
    simp only [readDecl, readSum, htag, ok_bind, hg]
    rfl
  | @variant r owner parent index tag fields hr hv =>
    have htag : tagOf (.obj props) tag = .ok tag := tagOf_eq_ok.2 ⟨props, rfl, ht tag rfl⟩
    refine ⟨tag, ?_⟩
    rw [enter, hr]
    simp only [readDecl, hv, expectTag, htag, ok_bind, if_pos]
    rfl

/-- A container or a reference: what takes a level of its own. -/
def isNested : Ty → Bool
  | .prim _ | .annot _ _ | .optional _ => false
  | _ => true

theorem descend_of_nested (deeper : Except CodecError Reader) {m : Module} {t : Ty}
    (h : isNested t = true) (j : Json) :
    descend deeper m t j = deeper >>= fun read => enter read m t j := by
  cases t with
  | prim | annot | optional => cases h
  | _ => rw [descend] <;> simp

theorem readWithin_zero_of_nested {limit : Nat} {m : Module} {t : Ty} (h : isNested t = true)
    (j : Json) : readWithin limit 0 m t j = .error (.depthLimit limit) := by
  rw [readWithin, descend_of_nested _ h, error_bind]

theorem readWithin_succ_of_nested {limit room : Nat} {m : Module} {t : Ty} (h : isNested t = true)
    (j : Json) : readWithin limit (room + 1) m t j = enter (readWithin limit room) m t j := by
  rw [readWithin, descend_of_nested _ h, ok_bind]

theorem Fieldset.isNested {m owner : Module} {t : Ty} {tag : Option String} {fields : Fields Ty}
    (h : m.Fieldset t owner tag fields) : Codec.isNested t = true := by
  cases h <;> rfl

theorem readScalar_eq_ok {p : Prim} {j : Json} {v : Value} :
    readScalar p j = .ok v ↔ readScalar? p j = some v := by
  unfold readScalar
  split
  · rename_i w h; rw [h]; simp
  · rename_i h; rw [h]; simp

theorem readEntry_eq_ok {readKey readValue : Json → Except CodecError Value} {j : Json}
    {e : String × Value × Value} :
    readEntry readKey readValue j = .ok e ↔
      ∃ p : ReadPart, j = .obj p.props ∧ e = p.slot ∧ hasNames p.props ["key", "value"] = true ∧
        Fields.get? p.props "key" = some p.keyDoc ∧ Fields.get? p.props "value" = some p.valueDoc ∧
        readKey p.keyDoc = .ok p.key ∧ readValue p.valueDoc = .ok p.value ∧
        encode p.key = .ok p.written := by
  unfold readEntry
  simp only [bind_eq_ok, expectRecord_eq_ok, field_eq_ok, pure_eq_ok, Except.ok.injEq]
  constructor
  · rintro ⟨props, ⟨rfl, hn⟩, kj, hkj, k, hk, vj, hvj, v, hv, w, hw, rfl⟩
    exact ⟨⟨⟨kj, vj, k, v⟩, props, w⟩, rfl, rfl, hn, hkj, hvj, hk, hv, hw⟩
  · rintro ⟨p, rfl, rfl, hn, hkj, hvj, hk, hv, hw⟩
    exact ⟨p.props, ⟨rfl, hn⟩, p.keyDoc, hkj, p.key, hk, p.valueDoc, hvj, p.value, hv, p.written,
      hw, rfl⟩

theorem readWithin_of_reads {limit room : Nat} {m : Module} {t : Ty} {j : Json} {v : Value}
    (h : Reads room m t j v) : readWithin limit room m t j = .ok v := by
  induction h with
  | scalar h => rw [readWithin_prim, readScalar_eq_ok.2 h]
  | annot _ ih => rw [readWithin_annot, ih]
  | absent => exact readWithin_null _ _ _ _
  | present hj _ ih => rw [readWithin_optional _ _ _ _ hj, ih]; rfl
  | list parts _ ih =>
    rw [readWithin_succ_of_nested rfl, enter, mapM_map, mapM_eq_ok_of_forall ih]
    rfl
  | object parts _ ih =>
    rw [readWithin_succ_of_nested rfl, enter, mapM_map]
    rw [mapM_eq_ok_of_forall (g := fun p => (p.1, p.2.2)) fun p hp => by
      simp only [ih p hp]; rfl]
    rfl
  | map parts hn hk hv _ _ hw ihk ihv =>
    rw [readWithin_succ_of_nested rfl, enter, mapM_map]
    rw [mapM_eq_ok_of_forall (g := ReadPart.slot) fun p hp => readEntry_eq_ok.2
      ⟨p, rfl, rfl, hn p hp, hk p hp, hv p hp, ihk p hp, ihv p hp, hw p hp⟩]
    rfl
  | «alias» hr _ ih =>
    rw [readWithin_succ_of_nested rfl, enter, hr]
    exact ih
  | @fields room m owner t tag props parts hf hp _ ih =>
    rw [readWithin_succ_of_nested (Fieldset.isNested hf)]
    obtain ⟨context, he⟩ := enter_of_fieldset (readWithin limit room) hf hp.tag
    rw [he, readFields_eq_ok.2 ⟨props, parts, rfl, rfl, hp.names, hp.docs, ih, rfl⟩]
    rfl

/-- What a success of `readFields` comes from, at the type of an object with fixed names. -/
theorem reads_of_readFields {read : Reader} {room : Nat}
    (hr : ∀ m t j v, read m t j = .ok v → Reads room m t j v) {m owner : Module} {t : Ty}
    {context : String} {tag : Option String} {fields : Fields Ty} {j : Json} {values : Fields Value}
    (hf : m.Fieldset t owner tag fields) (ht : ∀ s ∈ tag, j.prop? discriminator = some (.str s))
    (h : readFields (read owner) context fields tag.isSome j = .ok values) :
    Reads (room + 1) m t j (fieldsValue tag values) := by
  obtain ⟨props, parts, rfl, rfl, hn, hd, hv, rfl⟩ := readFields_eq_ok.1 h
  exact .fields parts hf ⟨hn, ht, hd⟩ fun p hp => hr _ _ _ _ (hv p hp)

theorem reads_of_readSum {read : Reader} {room : Nat}
    (hr : ∀ m t j v, read m t j = .ok v → Reads room m t j v) {m owner : Module} {t : Ty}
    {context : String} {variants : List Variant} {j : Json} {v : Value}
    (hf : ∀ tag fields, Fields.get? variants tag = some fields →
      m.Fieldset t owner (some tag) fields)
    (h : readSum (read owner) context variants j = .ok v) : Reads (room + 1) m t j v := by
  unfold readSum at h
  obtain ⟨tag, htag, h⟩ := bind_eq_ok.1 h
  obtain ⟨props, rfl, hp⟩ := tagOf_eq_ok.1 htag
  split at h
  · rename_i fields hg
    obtain ⟨values, hv, h⟩ := bind_eq_ok.1 h
    obtain rfl := Except.ok.inj h
    exact reads_of_readFields hr (hf tag fields hg) (by rintro s ⟨⟩; exact hp) hv
  · cases h

theorem reads_of_readDecl {read : Reader} {room : Nat}
    (hr : ∀ m t j v, read m t j = .ok v → Reads room m t j v) {m owner : Module} {r : Ref}
    {decl : Decl} {j : Json} {v : Value} (hd : m.resolve? r = some (owner, decl))
    (h : readDecl read owner r.name decl j = .ok v) : Reads (room + 1) m (.ref r) j v := by
  unfold readDecl at h
  split at h
  · exact .alias hd (hr _ _ _ _ h)
  · obtain ⟨values, hv, h⟩ := bind_eq_ok.1 h
    obtain rfl := Except.ok.inj h
    exact reads_of_readFields hr (.struct hd) (by simp) hv
  · exact reads_of_readSum hr (fun tag fields hg => .declaredSum hd hg) h
  · split at h
    · rename_i tag fields hv
      obtain ⟨⟨⟩, htag, h⟩ := bind_eq_ok.1 h
      obtain ⟨values, hvs, h⟩ := bind_eq_ok.1 h
      obtain rfl := Except.ok.inj h
      refine reads_of_readFields hr (.variant hd hv) ?_ hvs
      rintro s ⟨⟩
      obtain ⟨props, rfl, hp⟩ := expectTag_eq_ok.1 htag
      exact hp
    · cases h
  · cases h

/-- What a success of `enter` comes from, if the parts are read by the rules. -/
theorem reads_of_enter {read : Reader} {room : Nat}
    (hr : ∀ m t j v, read m t j = .ok v → Reads room m t j v) {m : Module} {t : Ty} {j : Json}
    {v : Value} (h : enter read m t j = .ok v) : Reads (room + 1) m t j v := by
  unfold enter at h
  split at h
  · obtain ⟨values, hv, h⟩ := bind_eq_ok.1 h
    obtain rfl := Except.ok.inj h
    obtain ⟨parts, rfl, rfl, hp⟩ := exists_parts_of_mapM hv
    exact .list parts fun p h => hr _ _ _ _ (hp p h)
  · rename_i t props
    obtain ⟨values, hv, h⟩ := bind_eq_ok.1 h
    obtain rfl := Except.ok.inj h
    obtain ⟨parts, rfl, rfl, hp⟩ := exists_parts_of_mapM hv
    have hp' : ∀ p ∈ parts, read m t p.1.2 = .ok p.2.2 ∧ p.2.1 = p.1.1 := by
      intro p h
      obtain ⟨w, hw, he⟩ := bind_eq_ok.1 (hp p h)
      rw [← Except.ok.inj he]
      exact ⟨hw, rfl⟩
    have hr' := @Reads.object room m t (parts.map fun p => (p.1.1, p.1.2, p.2.2))
      (by simp only [List.forall_mem_map]; exact fun p h => hr _ _ _ _ (hp' p h).1)
    simp only [List.map_map, Function.comp_def] at hr'
    convert hr' using 2
    exact List.map_congr_left fun p h => Prod.ext (hp' p h).2 rfl
  · rename_i k t items
    obtain ⟨entries, hv, h⟩ := bind_eq_ok.1 h
    obtain rfl := Except.ok.inj h
    obtain ⟨pairs, rfl, rfl, hp⟩ := exists_parts_of_mapM hv
    obtain ⟨parts, rfl, hq⟩ := exists_parts fun p h => readEntry_eq_ok.1 (hp p h)
    have hr' := @Reads.map room m k t (parts.map Prod.snd)
      (by simp only [List.forall_mem_map]; exact fun p h => (hq p h).2.2.1)
      (by simp only [List.forall_mem_map]; exact fun p h => (hq p h).2.2.2.1)
      (by simp only [List.forall_mem_map]; exact fun p h => (hq p h).2.2.2.2.1)
      (by simp only [List.forall_mem_map]; exact fun p h => hr _ _ _ _ (hq p h).2.2.2.2.2.1)
      (by simp only [List.forall_mem_map]; exact fun p h => hr _ _ _ _ (hq p h).2.2.2.2.2.2.1)
      (by simp only [List.forall_mem_map]; exact fun p h => (hq p h).2.2.2.2.2.2.2)
    simp only [List.map_map, Function.comp_def] at hr' ⊢
    convert hr' using 2
    · exact List.map_congr_left fun p h => (hq p h).1
    · exact congrArg collectEntries (List.map_congr_left fun p h => (hq p h).2.1)
  · obtain ⟨values, hv, h⟩ := bind_eq_ok.1 h
    obtain rfl := Except.ok.inj h
    exact reads_of_readFields hr .record (by simp) hv
  · exact reads_of_readSum hr (fun tag fields hg => .sum hg) h
  · split at h
    · rename_i hd
      exact reads_of_readDecl hr hd h
    · cases h
  · cases h

/-- The types that take no level are read through; the rest is left to `enter`. -/
theorem reads_of_descend {deeper : Except CodecError Reader} {room : Nat}
    (hd : ∀ read, deeper = .ok read → ∀ m t j v, enter read m t j = .ok v → Reads room m t j v)
    {m : Module} {t : Ty} {j : Json} {v : Value} (h : descend deeper m t j = .ok v) :
    Reads room m t j v := by
  fun_induction descend deeper m t j generalizing v with
  | case1 p j => exact .scalar (readScalar_eq_ok.1 h)
  | case2 doc t j ih => exact .annot (ih h)
  | case3 t =>
    obtain rfl := Except.ok.inj h
    exact .absent
  | case4 t j hj ih =>
    obtain ⟨w, hw, h⟩ := bind_eq_ok.1 h
    obtain rfl := Except.ok.inj h
    exact .present hj (ih hw)
  | case5 t j =>
    obtain ⟨read, hr, h⟩ := bind_eq_ok.1 h
    exact hd read hr _ _ _ _ h

theorem reads_of_readWithin {limit room : Nat} {m : Module} {t : Ty} {j : Json} {v : Value}
    (h : readWithin limit room m t j = .ok v) : Reads room m t j v := by
  induction room generalizing m t j v with
  | zero =>
    rw [readWithin] at h
    exact reads_of_descend (fun read hr => by cases hr) h
  | succ room ih =>
    rw [readWithin] at h
    refine reads_of_descend (fun read hr m t j v h => ?_) h
    obtain rfl := Except.ok.inj hr
    exact reads_of_enter (fun _ _ _ _ h => ih h) h

theorem readWithin_eq_ok {limit room : Nat} {m : Module} {t : Ty} {j : Json} {v : Value} :
    readWithin limit room m t j = .ok v ↔ Reads room m t j v :=
  ⟨reads_of_readWithin, readWithin_of_reads⟩

/-! ### Writing what was read -/

theorem exists_encodeFields {fields : Fields Value}
    (h : ∀ f ∈ fields, ∃ w, encode f.2 = .ok w) : ∃ props, encodeFields fields = .ok props := by
  rw [encodeFields_eq]
  refine exists_mapM_eq_ok fun f hf => ?_
  obtain ⟨w, hw⟩ := h f hf
  exact ⟨(f.1, w), by rw [hw]; rfl⟩

/-- What was read can be written. -/
theorem exists_encode {room : Nat} {m : Module} {t : Ty} {j : Json} {v : Value}
    (h : Reads room m t j v) : ∃ w, encode v = .ok w := by
  induction h with
  | scalar h => exact encode_of_readScalar? h
  | annot _ ih => exact ih
  | absent => exact ⟨_, rfl⟩
  | present _ _ ih => rwa [encode]
  | list parts _ ih =>
    obtain ⟨docs, hd⟩ := exists_mapM_eq_ok (List.forall_mem_map.2 ih)
    exact ⟨.arr docs, by rw [encode, encodeItems_eq, hd]; rfl⟩
  | object parts _ ih =>
    have hfields : ∀ f ∈ parts.map (fun p => (p.1, p.2.2)), ∃ w, encode f.2 = .ok w :=
      List.forall_mem_map.2 ih
    obtain ⟨props, hp⟩ := exists_encodeFields hfields
    exact ⟨_, by rw [encode, hp]; rfl⟩
  | map parts hn hk hv hrk hrv hw ihk ihv =>
    obtain ⟨slots, he, -, hs⟩ := exists_slots_collectEntries (parts.map ReadPart.slot)
    have hentry : ∀ e ∈ slots.map Prod.snd, ∃ w,
        (do return mapEntry (← encode e.1) (← encode e.2)) = Except.ok w := by
      refine List.forall_mem_map.2 fun e hm => ?_
      obtain ⟨⟨x, hx⟩, i, k, hy⟩ := hs e hm
      obtain ⟨p, hp, hpx⟩ := List.mem_map.1 hx
      obtain ⟨q, hq, hqy⟩ := List.mem_map.1 hy
      obtain ⟨wk, hwk⟩ := ihk p hp
      obtain ⟨wv, hwv⟩ := ihv q hq
      have hkey : p.key = e.2.1 := congrArg (fun e => e.2.1) hpx
      have hval : q.value = e.2.2 := congrArg (fun e => e.2.2) hqy
      exact ⟨_, by rw [← hkey, ← hval, hwk, hwv]; rfl⟩
    obtain ⟨docs, hd⟩ := exists_mapM_eq_ok hentry
    exact ⟨.arr docs, by rw [he, encode, encodeEntries_eq, hd]; rfl⟩
  | «alias» _ _ ih => exact ih
  | @fields _ _ _ _ tag _ parts hf hp _ ih =>
    have hfields : ∀ f ∈ Fields.ofList (parts.map FieldPart.named), ∃ w,
        encode f.2 = .ok w := by
      intro f hm
      obtain ⟨p, hp, rfl⟩ := List.mem_map.1 (Fields.mem_of_mem_ofList hm)
      exact ih p hp
    obtain ⟨props, hprops⟩ := exists_encodeFields hfields
    cases tag with
    | none => exact ⟨_, by rw [fieldsValue, encode, hprops]; rfl⟩
    | some tag => exact ⟨_, by rw [fieldsValue, encode, hprops]; rfl⟩

end Wireform.Codec

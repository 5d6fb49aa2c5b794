import Mathlib
import Wireform.Proofs.Codec.Equal
import Wireform.Proofs.Codec.Scalar
import Wireform.Proofs.Codec.Writes
import Wireform.Codec.Basic
import Wireform.Proofs.Json.Basic
import Wireform.Proofs.Module.Built
import Wireform.Proofs.OrderedMap

/-!
# The normal form of a document

A value that was read is written as a document that is read as the same value within the same depth.
Fields come in declared order, repeated keys of a map are gone, numbers have their one spelling; a
second round changes nothing.
-/

namespace Wireform.Codec

/-! ### Objects with fixed names, in declared order -/

/-- The property that stands before the fields. -/
def tagProps : Option String → Fields Json
  | none => []
  | some tag => [(discriminator, .str tag)]

theorem keys_field (parts : List FieldPart) :
    Fields.keys (parts.map FieldPart.field) = parts.map FieldPart.name := by
  simp [Fields.keys, Function.comp_def, FieldPart.field]

theorem keys_prop (parts : List FieldPart) :
    Fields.keys (parts.map FieldPart.prop) = parts.map FieldPart.name := by
  simp [Fields.keys, Function.comp_def, FieldPart.prop]

theorem keys_named (parts : List FieldPart) :
    Fields.keys (parts.map FieldPart.named) = parts.map FieldPart.name := by
  simp [Fields.keys, Function.comp_def, FieldPart.named]

theorem keys_tagProps (tag : Option String) (parts : List FieldPart) :
    Fields.keys (tagProps tag ++ parts.map FieldPart.prop) =
      expectedNames tag.isSome (parts.map FieldPart.name) := by
  rw [Fields.keys_append, keys_prop]
  cases tag <;> rfl

section

variable {tag : Option String} {parts : List FieldPart}

theorem distinct_fieldsDoc (h : Fields.Proper tag (parts.map FieldPart.field)) :
    Fields.Distinct (tagProps tag ++ parts.map FieldPart.prop) := by
  unfold Fields.Distinct
  rw [keys_tagProps]
  have hd := h.distinct
  have hu := h.untagged
  unfold Fields.Distinct at hd
  rw [keys_field] at hd hu
  cases tag with
  | none => exact hd
  | some tag => exact List.nodup_cons.2 ⟨hu rfl, hd⟩

theorem fieldsDoc_eq (h : Fields.Proper tag (parts.map FieldPart.field)) :
    fieldsDoc tag (parts.map FieldPart.prop) = .obj (tagProps tag ++ parts.map FieldPart.prop) := by
  have hd := distinct_fieldsDoc h
  cases tag with
  | none => exact congrArg Json.obj (Fields.ofList_of_distinct hd)
  | some tag => exact congrArg Json.obj (Fields.ofList_of_distinct hd)

theorem distinct_named (h : Fields.Proper tag (parts.map FieldPart.field)) :
    Fields.Distinct (parts.map FieldPart.named) :=
  h.distinct.congr (by rw [keys_named, keys_field])

theorem holdsParts_fieldsDoc (h : Fields.Proper tag (parts.map FieldPart.field)) :
    HoldsParts tag parts (tagProps tag ++ parts.map FieldPart.prop) := by
  have hd := distinct_fieldsDoc h
  refine ⟨?_, ?_, ?_⟩
  · rw [← keys_tagProps]
    exact hasNames_keys _
  · rintro s ⟨⟩
    exact hd.get?_eq_some (by simp [tagProps])
  · intro p hp
    exact hd.get?_eq_some (List.mem_append_right _ (List.mem_map_of_mem (f := FieldPart.prop) hp))

end

/-! ### What writing can bring about -/

/-- A value that is written as `null` was read from `null`. -/
theorem Reads.eq_null {room : Nat} {m : Module} {t : Ty} {j : Json} {v : Value}
    (h : Reads room m t j v) (he : encode v = .ok .null) : j = .null := by
  induction h with
  | scalar h => exact absurd rfl (encode_scalar_ne (admits_of_readScalar? h) he).1
  | annot _ ih => exact ih he
  | absent => rfl
  | present _ _ ih => exact ih (by rwa [encode] at he)
  | list parts _ _ =>
    rw [encode] at he
    obtain ⟨_, -, he⟩ := bind_eq_ok.1 he
    cases he
  | object parts _ _ =>
    rw [encode] at he
    obtain ⟨_, -, he⟩ := bind_eq_ok.1 he
    cases he
  | map parts =>
    rw [encode] at he
    obtain ⟨_, -, he⟩ := bind_eq_ok.1 he
    cases he
  | «alias» _ _ ih => exact ih he
  | @fields _ _ _ _ tag =>
    cases tag <;>
      (rw [fieldsValue, encode] at he; obtain ⟨_, -, he⟩ := bind_eq_ok.1 he; cases he)

theorem keys_of_encodeFields {fields : Fields Value} {props : Fields Json}
    (h : encodeFields fields = .ok props) : Fields.keys props = Fields.keys fields := by
  rw [encodeFields_eq] at h
  obtain ⟨parts, rfl, rfl, hp⟩ := exists_parts_of_mapM h
  rw [Fields.keys, Fields.keys, List.map_map, List.map_map]
  refine List.map_congr_left fun p hm => ?_
  obtain ⟨j, -, he⟩ := bind_eq_ok.1 (hp p hm)
  exact (congrArg Prod.fst (Except.ok.inj he)).symm

theorem encode_fieldsValue_eq_ok {tag : Option String} {values : Fields Value} {j : Json}
    (h : encode (fieldsValue tag values) = .ok j) :
    ∃ props, encodeFields values = .ok props ∧ j = .obj (Fields.ofList (tagProps tag ++ props)) := by
  cases tag <;>
    (rw [fieldsValue, encode] at h
     obtain ⟨props, hp, h⟩ := bind_eq_ok.1 h
     exact ⟨props, hp, (Except.ok.inj h).symm⟩)

/-- A value that is written as an object was read from one with the same names. -/
theorem Reads.keys_of_encode {room : Nat} {m : Module} {t : Ty} {j : Json} {v : Value}
    (h : Reads room m t j v) (hm : m.Sound) (ht : t.Proper) (hj : j.WellFormed)
    {written : Fields Json} (he : encode v = .ok (.obj written)) :
    ∃ props, j = .obj props ∧ (Fields.keys written).Perm (Fields.keys props) := by
  induction h with
  | scalar h => exact absurd rfl ((encode_scalar_ne (admits_of_readScalar? h) he).2.2 written)
  | annot _ ih => exact ih hm ht hj he
  | absent =>
    rw [encode] at he
    cases he
  | present _ _ ih => exact ih hm ht hj (by rwa [encode] at he)
  | list parts _ _ =>
    rw [encode] at he
    obtain ⟨_, -, he⟩ := bind_eq_ok.1 he
    cases he
  | object parts _ _ =>
    rw [encode] at he
    obtain ⟨props, hp, he⟩ := bind_eq_ok.1 he
    have hd := (Json.wellFormed_obj.1 hj).1
    have hkeys : Fields.keys props = Fields.keys (parts.map fun p => (p.1, p.2.1)) :=
      (keys_of_encodeFields hp).trans (by simp [Fields.keys])
    have hw : Fields.ofList props = written := Json.obj.inj (Except.ok.inj he)
    rw [Fields.ofList_of_distinct (hd.congr hkeys)] at hw
    exact ⟨_, rfl, hw ▸ .of_eq hkeys⟩
  | map parts =>
    rw [encode] at he
    obtain ⟨_, -, he⟩ := bind_eq_ok.1 he
    cases he
  | «alias» hr _ ih => exact ih (hm.of_resolve? hr) (hm.decl_proper hr) hj he
  | @fields _ _ _ _ tag props parts hf hp =>
    have hpr := hf.proper hm ht
    have hnodup := distinct_fieldsDoc hpr
    rw [Fields.Distinct, keys_tagProps] at hnodup
    rw [Fields.ofList_of_distinct (distinct_named hpr)] at he
    obtain ⟨ps, hps, hw⟩ := encode_fieldsValue_eq_ok he
    have hkeys : Fields.keys (tagProps tag ++ ps) =
        expectedNames tag.isSome (parts.map FieldPart.name) := by
      rw [Fields.keys_append, keys_of_encodeFields hps, keys_named]
      cases tag <;> rfl
    rw [Fields.ofList_of_distinct (by rw [Fields.Distinct, hkeys]; exact hnodup)] at hw
    obtain rfl := Json.obj.inj hw
    exact ⟨props, rfl, hkeys ▸ perm_of_hasNames hnodup hp.names⟩

/-- The value is written as the document, with and without the type, and read from it, and it is
equal to itself. -/
structure Settled (room : Nat) (m : Module) (t : Ty) (v : Value) (j : Json) : Prop where
  writes : Writes m t v j
  reads : Reads room m t j v
  equal : equalAs v m t v = true
  encodes : encode v = .ok j
  wellFormed : j.WellFormed

namespace Settled

variable {room : Nat} {m owner : Module}

theorem list {t : Ty} (parts : List (Json × Value))
    (h : ∀ p ∈ parts, Settled room m t p.2 p.1) :
    Settled (room + 1) m (.list t) (.list (parts.map Prod.snd)) (.arr (parts.map Prod.fst)) where
  writes := .list parts fun p hp => (h p hp).writes
  reads := .list parts fun p hp => (h p hp).reads
  encodes := encode_list fun p hp => (h p hp).encodes
  equal := by
    rw [equalAs_list]
    refine ⟨rfl, ?_⟩
    rw [List.zip_map', List.forall_mem_map]
    exact fun p hp => (h p hp).equal
  wellFormed := Json.wellFormed_arr.2 (List.forall_mem_map.2 fun p hp => (h p hp).wellFormed)

theorem object {t : Ty} (parts : List (String × Json × Value))
    (hd : Fields.Distinct (parts.map fun p => (p.1, p.2.1)))
    (h : ∀ p ∈ parts, Settled room m t p.2.2 p.2.1) :
    Settled (room + 1) m (.object t) (.object (parts.map fun p => (p.1, p.2.2)))
      (.obj (parts.map fun p => (p.1, p.2.1))) where
  writes := .object parts fun p hp => (h p hp).writes
  reads := .object parts fun p hp => (h p hp).reads
  encodes := by
    rw [encode_object fun p hp => (h p hp).encodes, Codec.object, Fields.ofList_of_distinct hd]
  equal := by
    have hd' : Fields.Distinct (parts.map fun p => (p.1, p.2.2)) := hd.congr (by simp [Fields.keys])
    rw [equalAs_object]
    refine ⟨rfl, ?_⟩
    rw [List.forall_mem_map]
    exact fun p hp => ⟨p.2.2, hd'.get?_eq_some (List.mem_map_of_mem hp), (h p hp).equal⟩
  wellFormed := Json.wellFormed_obj.2 ⟨hd, List.forall_mem_map.2 fun p hp => (h p hp).wellFormed⟩

/-- Entries whose keys have different identities make a map. -/
theorem map {k t : Ty} (parts : List EntryPart)
    (hd : (parts.map fun p => keyIdentity p.keyDoc).Nodup)
    (hk : ∀ p ∈ parts, Settled room m k p.key p.keyDoc)
    (hv : ∀ p ∈ parts, Settled room m t p.value p.valueDoc) :
    Settled (room + 1) m (.map k t) (.map (parts.map EntryPart.entry))
      (.arr (parts.map EntryPart.doc)) where
  writes := .map parts (fun p hp => (hk p hp).writes) fun p hp => (hv p hp).writes
  encodes := encode_map (fun p hp => (hk p hp).encodes) fun p hp => (hv p hp).encodes
  reads := by
    let reads : EntryPart → ReadPart := fun p =>
      { p with props := [("key", p.keyDoc), ("value", p.valueDoc)], written := p.keyDoc }
    have h := @Reads.map room m k t (parts.map reads)
      (by simp [reads, hasNames, Fields.contains])
      (by simp only [List.forall_mem_map]; exact fun p _ => rfl)
      (by simp only [List.forall_mem_map]; exact fun p _ => rfl)
      (by simp only [List.forall_mem_map]; exact fun p hp => (hk p hp).reads)
      (by simp only [List.forall_mem_map]; exact fun p hp => (hv p hp).reads)
      (by simp only [List.forall_mem_map]; exact fun p hp => (hk p hp).encodes)
    rw [collectEntries_of_distinct] at h
    · simp only [List.map_map] at h
      exact h
    · unfold Fields.Distinct
      simpa [Fields.keys, Function.comp_def, reads, ReadPart.slot] using hd
  equal := by
    rw [equalAs_map]
    refine ⟨rfl, ?_⟩
    rw [List.zip_map', List.forall_mem_map]
    exact fun p hp => ⟨(hk p hp).equal, (hv p hp).equal⟩
  wellFormed := by
    refine Json.wellFormed_arr.2 (List.forall_mem_map.2 fun p hp => Json.wellFormed_obj.2 ⟨?_, ?_⟩)
    · simp [Fields.Distinct, Fields.keys]
    · simpa using ⟨(hk p hp).wellFormed, (hv p hp).wellFormed⟩

theorem fields {t : Ty} {tag : Option String} (parts : List FieldPart)
    (hf : m.Fieldset t owner tag (parts.map FieldPart.field))
    (hp : Fields.Proper tag (parts.map FieldPart.field))
    (h : ∀ p ∈ parts, Settled room owner p.ty p.value p.doc) :
    Settled (room + 1) m t (fieldsValue tag (parts.map FieldPart.named))
      (fieldsDoc tag (parts.map FieldPart.prop)) where
  writes := by
    refine .fields parts hf (by simp) (fun p hm => ?_) fun p hm => (h p hm).writes
    exact (distinct_named hp).get?_eq_some (List.mem_map_of_mem (f := FieldPart.named) hm)
  reads := by
    rw [fieldsDoc_eq hp, ← Fields.ofList_of_distinct (distinct_named hp)]
    exact .fields parts hf (holdsParts_fieldsDoc hp) fun p hm => (h p hm).reads
  encodes := encode_fields tag fun p hm => (h p hm).encodes
  equal := by
    rw [equalAs_fields hf]
    refine ⟨by simp, by simp, ?_⟩
    rw [List.forall_mem_map]
    intro p hm
    have hg : Fields.get? (parts.map FieldPart.named) p.name = some p.value :=
      (distinct_named hp).get?_eq_some (List.mem_map_of_mem (f := FieldPart.named) hm)
    exact ⟨p.value, p.value, hg, hg, (h p hm).equal⟩
  wellFormed := by
    rw [fieldsDoc_eq hp, Json.wellFormed_obj]
    refine ⟨distinct_fieldsDoc hp, List.forall_mem_append.2 ⟨?_, ?_⟩⟩
    · cases tag <;> simp [tagProps, Json.WellFormed]
    · exact List.forall_mem_map.2 fun p hm => (h p hm).wellFormed

end Settled

/-- What is read settles within the depth it was read in. -/
theorem Reads.settled {room : Nat} {m : Module} {t : Ty} {j : Json} {v : Value}
    (h : Reads room m t j v) (hm : m.Sound) (ht : t.Proper) (hj : j.WellFormed) :
    ∃ j', Settled room m t v j' := by
  induction h with
  | @scalar room m p j v h =>
    obtain ⟨j', he⟩ := encode_of_readScalar? h
    have hp := admits_of_readScalar? h
    obtain ⟨-, harr, hobj⟩ := encode_scalar_ne hp he
    refine ⟨j', .scalar hp he, .scalar (readScalar?_encode hp he), ?_, he, ?_⟩
    · rw [equalAs_prim, hp, same_self_of_encode hp he]
      rfl
    · cases j' with
      | arr items => exact absurd rfl (harr items)
      | obj props => exact absurd rfl (hobj props)
      | _ => trivial
  | annot _ ih =>
    obtain ⟨j', h⟩ := ih hm ht hj
    exact ⟨j', .annot h.writes, .annot h.reads, by rw [equalAs_annot, h.equal], h.encodes,
      h.wellFormed⟩
  | absent => exact ⟨.null, .absent, .absent, equalAs_absent _, rfl, trivial⟩
  | present hn hr ih =>
    obtain ⟨j', h⟩ := ih hm ht hj
    have hn' : j' ≠ .null := by
      rintro rfl
      exact hn (hr.eq_null h.encodes)
    exact ⟨j', .present h.writes, .present hn' h.reads, by rw [equalAs_present, h.equal],
      by rw [encode, h.encodes], h.wellFormed⟩
  | @list room m t parts _ ih =>
    have h : ∀ p ∈ parts, ∃ j', Settled room m t p.2 j' := fun p hp =>
      ih p hp hm ht (Json.wellFormed_arr.1 hj _ (List.mem_map_of_mem hp))
    choose! doc hdoc using h
    have hs := Settled.list (parts.map fun p => (doc p, p.2)) (List.forall_mem_map.2 hdoc)
    simp only [List.map_map] at hs
    exact ⟨_, hs⟩
  | @object room m t parts _ ih =>
    obtain ⟨hd, hj⟩ := Json.wellFormed_obj.1 hj
    have h : ∀ p ∈ parts, ∃ j', Settled room m t p.2.2 j' := fun p hp =>
      ih p hp hm ht (hj _ (List.mem_map_of_mem hp))
    choose! doc hdoc using h
    have hs := Settled.object (parts.map fun p => (p.1, doc p, p.2.2))
      (hd.congr (by simp [Fields.keys])) (List.forall_mem_map.2 hdoc)
    simp only [List.map_map] at hs
    exact ⟨_, hs⟩
  | @map room m k t parts hn hk hv hrk hrv hw ihk ihv =>
    have hj : ∀ p ∈ parts, (Json.obj p.props).WellFormed := fun p hp =>
      Json.wellFormed_arr.1 hj _ (List.mem_map_of_mem hp)
    have hkey : ∀ p ∈ parts, Settled room m k p.key p.written := by
      intro p hp
      obtain ⟨j', h⟩ := ihk p hp hm ht.1 ((hj p hp).prop (hk p hp))
      have he := h.encodes
      rw [hw p hp, Except.ok.injEq] at he
      exact he ▸ h
    have hvalue : ∀ p ∈ parts, ∃ j', Settled room m t p.value j' := fun p hp =>
      ihv p hp hm ht.2 ((hj p hp).prop (hv p hp))
    choose! doc hdoc using hvalue
    -- The entries that are left have the key of one part and the value of another.
    obtain ⟨slots, he, hd, hs⟩ := exists_slots_collectEntries (parts.map ReadPart.slot)
    have hfirst : ∀ e ∈ slots, ∃ p ∈ parts, keyIdentity p.written = e.1 ∧ p.key = e.2.1 := by
      intro e hm
      obtain ⟨v, hv⟩ := (hs e hm).1
      obtain ⟨p, hp, h⟩ := List.mem_map.1 hv
      exact ⟨p, hp, congrArg Prod.fst h, congrArg (fun e => e.2.1) h⟩
    have hlast : ∀ e ∈ slots, ∃ p ∈ parts, p.value = e.2.2 := by
      intro e hm
      obtain ⟨i, k, hv⟩ := (hs e hm).2
      obtain ⟨p, hp, h⟩ := List.mem_map.1 hv
      exact ⟨p, hp, congrArg (fun e => e.2.2) h⟩
    choose! first hfirst hid hfk using hfirst
    choose! last hlast hlv using hlast
    have hs := Settled.map (m := m) (k := k) (t := t)
      (slots.map fun e => ⟨(first e).written, doc (last e), e.2.1, e.2.2⟩)
      (by
        rw [List.map_map]
        exact (List.map_congr_left hid).symm ▸ hd)
      (List.forall_mem_map.2 fun e h => hfk e h ▸ hkey _ (hfirst e h))
      (List.forall_mem_map.2 fun e h => hlv e h ▸ hdoc _ (hlast e h))
    rw [he]
    simp only [List.map_map] at hs
    exact ⟨_, hs⟩
  | «alias» hr _ ih =>
    obtain ⟨j', h⟩ := ih (hm.of_resolve? hr) (hm.decl_proper hr) hj
    exact ⟨j', .alias hr h.writes, .alias hr h.reads, by rw [equalAs_alias hm hr, h.equal],
      h.encodes, h.wellFormed⟩
  | @fields room m owner t tag props parts hf hp hr ih =>
    have hpr := hf.proper hm ht
    have h : ∀ p ∈ parts, ∃ j', Settled room owner p.ty p.value j' := fun p h =>
      ih p h (hf.sound hm) (hpr.types _ (List.mem_map_of_mem (f := FieldPart.field) h))
        (hj.prop (hp.docs p h))
    choose! doc hdoc using h
    have hs := Settled.fields (parts.map fun p => ⟨p.name, p.ty, doc p, p.value⟩) (m := m)
      (by rw [List.map_map]; exact hf) (by rw [List.map_map]; exact hpr)
      (List.forall_mem_map.2 hdoc)
    rw [Fields.ofList_of_distinct (distinct_named hpr)]
    simp only [List.map_map] at hs
    exact ⟨_, hs⟩

/-- Reading and then writing gives a normal form: it is read within the same depth as the very same
value, which is equal to itself and written as this form again. -/
theorem decode_encodeAs_stable {c : Codec} {t : Ty} {j : Json} {v : Value} (hm : c.scope.Built)
    (ht : t.Proper) (hj : j.WellFormed) (h : c.decode t j = .ok v) :
    ∃ j' v', c.encodeAs t v = .ok j' ∧ j'.WellFormed ∧ c.decode t j' = .ok v' ∧ v' = v ∧
      c.equals t v v = true ∧ c.encodeAs t v' = .ok j' := by
  obtain ⟨j', hs⟩ := (reads_of_readWithin h).settled hm.sound ht hj
  have hw : c.encodeAs t v = .ok j' := writeAs_of_writes hm.sound hs.writes
  exact ⟨j', v, hw, hs.wellFormed, readWithin_of_reads hs.reads, rfl, hs.equal, hw⟩

/-- Two nodes of a chain. -/
def twoNodes : Value :=
  .record [("value", .i64 (-3)), ("next", .present (.record [("value", .i64 7), ("next", .absent)]))]

/-- A document of two nodes, its fields out of order and one number bare. -/
def twoNodesLoose : Json :=
  .obj [("next", .obj [("next", .null), ("value", .ofInt 7)]), ("value", .str "-3")]

/-- The least depth at which the two nodes can be read. -/
theorem decode_encodeAs_twoNodes :
    (⟨Module.chain, 2⟩ : Codec).decode .node twoNodesLoose = .ok twoNodes ∧
    ∃ j' v', (⟨Module.chain, 2⟩ : Codec).encodeAs .node twoNodes = .ok j' ∧ j'.WellFormed ∧
      (⟨Module.chain, 2⟩ : Codec).decode .node j' = .ok v' ∧ v' = twoNodes ∧
      (⟨Module.chain, 2⟩ : Codec).equals .node twoNodes twoNodes = true ∧
      (⟨Module.chain, 2⟩ : Codec).encodeAs .node v' = .ok j' := by
  have h : (⟨Module.chain, 2⟩ : Codec).decode .node twoNodesLoose = .ok twoNodes := by cbv
  refine ⟨h, decode_encodeAs_stable Module.chain_built trivial ?_ h⟩
  simp [twoNodesLoose, Json.WellFormed, Json.WellFormedProps, Fields.Distinct, Fields.keys, Json.ofInt]

end Wireform.Codec

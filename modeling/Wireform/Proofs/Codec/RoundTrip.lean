import Mathlib
import Wireform.Proofs.Codec.Identity

/-!
# Reading what was written

What is written can be read unless it is too deep. It is read as an equal value, unless an optional
in it was hollow: `null` is read as an absent optional, and keys that differ there only become one.
-/

namespace Wireform.Codec

/-- What is written of a well-formed value names every property once. -/
theorem Writes.wellFormed {m : Module} {t : Ty} {v : Value} {j : Json} (h : Writes m t v j)
    (hm : m.Sound) (ht : t.Proper) (hv : v.WellFormed) : j.WellFormed := by
  induction h with
  | @scalar m p v j hp he =>
    obtain ⟨-, harr, hobj⟩ := encode_scalar_ne hp he
    cases j with
    | arr items => exact absurd rfl (harr items)
    | obj props => exact absurd rfl (hobj props)
    | _ => trivial
  | annot _ ih => exact ih hm ht hv
  | absent => trivial
  | present _ ih => exact ih hm ht (hv.part (List.mem_singleton_self _))
  | list parts _ ih =>
    refine Json.wellFormed_arr.2 (List.forall_mem_map.2 fun p hp => ?_)
    exact ih p hp hm ht (hv.part (List.mem_map_of_mem hp))
  | object parts _ ih =>
    have hd : Fields.Distinct (parts.map fun p => (p.1, p.2.2)) := hv.tidy
    refine Json.wellFormed_obj.2 ⟨hd.congr (by simp [Fields.keys]),
      List.forall_mem_map.2 fun p hp => ?_⟩
    exact ih p hp hm ht (hv.part (List.mem_map_of_mem (f := Prod.snd) (List.mem_map_of_mem hp)))
  | map parts _ _ ihk ihv =>
    refine Json.wellFormed_arr.2 (List.forall_mem_map.2 fun p hp => Json.wellFormed_obj.2 ⟨?_, ?_⟩)
    · simp [Fields.Distinct, Fields.keys]
    · simpa using ⟨ihk p hp hm ht.1 (hv.part (mem_parts_key hp)),
        ihv p hp hm ht.2 (hv.part (mem_parts_value hp))⟩
  | «alias» hr _ ih => exact ih (hm.of_resolve? hr) (hm.decl_proper hr) hv
  | @fields m owner t tag values parts hf hl hg _ ih =>
    have hp := hf.proper hm ht
    rw [fieldsDoc_eq hp, Json.wellFormed_obj]
    refine ⟨distinct_fieldsDoc hp, List.forall_mem_append.2 ⟨?_, List.forall_mem_map.2 fun p hm' => ?_⟩⟩
    · cases tag <;> simp [tagProps, Json.WellFormed]
    · exact ih p hm' (hf.sound hm) (hp.types _ (List.mem_map_of_mem hm'))
        (hv.part (mem_parts_field (hg p hm')))

/-- Keys of a solid map are told apart by their identities. -/
theorem nodup_keyIdentity {m : Module} {k : Ty} {parts : List EntryPart} (hm : m.Sound)
    (hk : k.Proper) (hw : ∀ p ∈ parts, Writes m k p.key p.keyDoc)
    (hs : (Value.map (parts.map EntryPart.entry)).Solid) :
    (parts.map fun p => keyIdentity p.keyDoc).Nodup := by
  obtain ⟨l, hl⟩ : ∃ l, parts.map EntryPart.entry = (OrderedMap.ofList l).entries :=
    hs.wellFormed.tidy
  have hp := Value.pairwise_ofList l
  rw [← hl, List.map_map, List.pairwise_map] at hp
  refine List.pairwise_map.2 (hp.imp_of_mem fun {a b} ha hb hab he => ?_)
  have hsame := same_of_canonical_eq (hw a ha) (hw b hb) hm hk (hs.part (mem_parts_key ha))
    (hs.part (mem_parts_key hb)) (keyIdentity_eq_iff.1 he)
  exact Bool.false_ne_true (hab.symm.trans hsame)

/-- `v` was written as `j`, which is read as `v'`: the two are equal and `v'` is written as `j`,
unless an optional of `v` is hollow. -/
structure Restored (room : Nat) (m : Module) (t : Ty) (v : Value) (j : Json) (v' : Value) :
    Prop where
  reads : Reads room m t j v'
  equal : equalAs v m t v' = true ↔ ¬ v.Hollow
  encodes : ¬ v.Hollow → encode v' = .ok j

/-- An entry that was written as `p` is read as `q`. -/
structure RestoredEntry (room : Nat) (m : Module) (k t : Ty) (p : EntryPart) (q : ReadPart) :
    Prop where
  props : q.props = [("key", p.keyDoc), ("value", p.valueDoc)]
  key : Restored room m k p.key p.keyDoc q.key
  value : Restored room m t p.value p.valueDoc q.value
  written : encode q.key = .ok q.written

namespace Restored

variable {room : Nat} {m owner : Module} {t : Ty}

theorem list (parts : List ((Json × Value) × Value))
    (h : ∀ p ∈ parts, Restored room m t p.1.2 p.1.1 p.2) :
    Restored (room + 1) m (.list t) (.list ((parts.map Prod.fst).map Prod.snd))
      (.arr ((parts.map Prod.fst).map Prod.fst)) (.list (parts.map Prod.snd)) := by
  have hh : ¬ (Value.list ((parts.map Prod.fst).map Prod.snd)).Hollow ↔
      ∀ p ∈ parts, ¬ p.1.2.Hollow := by
    rw [Value.not_hollow_iff (by simp), Value.parts, List.map_map, List.forall_mem_map]
    rfl
  constructor
  · have hr := @Reads.list room m t (parts.map fun p => (p.1.1, p.2))
      (List.forall_mem_map.2 fun p hp => (h p hp).reads)
    simp only [List.map_map] at hr ⊢
    exact hr
  · rw [hh, equalAs_list, List.map_map, List.zip_map', List.forall_mem_map]
    simp only [List.length_map, true_and]
    exact forall₂_congr fun p hp => (h p hp).equal
  · intro hv
    have he := @encode_list (parts.map fun p => (p.1.1, p.2))
      (List.forall_mem_map.2 fun p hp => (h p hp).encodes (hh.1 hv p hp))
    simp only [List.map_map] at he ⊢
    exact he

theorem object (parts : List ((String × Json × Value) × Value))
    (hd : Fields.Distinct ((parts.map Prod.fst).map fun p => (p.1, p.2.2)))
    (h : ∀ p ∈ parts, Restored room m t p.1.2.2 p.1.2.1 p.2) :
    Restored (room + 1) m (.object t) (.object ((parts.map Prod.fst).map fun p => (p.1, p.2.2)))
      (.obj ((parts.map Prod.fst).map fun p => (p.1, p.2.1)))
      (.object (parts.map fun p => (p.1.1, p.2))) := by
  have hh : ¬ (Value.object ((parts.map Prod.fst).map fun p => (p.1, p.2.2))).Hollow ↔
      ∀ p ∈ parts, ¬ p.1.2.2.Hollow := by
    rw [Value.not_hollow_iff (by simp), Value.parts, List.map_map, List.map_map,
      List.forall_mem_map]
    rfl
  have hd' : Fields.Distinct (parts.map fun p => (p.1.1, p.2)) := hd.congr (by simp [Fields.keys])
  constructor
  · have hr := @Reads.object room m t (parts.map fun p => (p.1.1, p.1.2.1, p.2))
      (List.forall_mem_map.2 fun p hp => (h p hp).reads)
    simp only [List.map_map] at hr ⊢
    exact hr
  · rw [hh, equalAs_object, List.map_map, List.forall_mem_map]
    simp only [List.length_map, true_and, Function.comp_apply]
    refine forall₂_congr fun p hp => ?_
    rw [hd'.get?_eq_some (List.mem_map_of_mem hp)]
    simpa using (h p hp).equal
  · intro hv
    have he := @encode_object (parts.map fun p => (p.1.1, p.1.2.1, p.2))
      (List.forall_mem_map.2 fun p hp => (h p hp).encodes (hh.1 hv p hp))
    rw [Codec.object, Fields.ofList_of_distinct (hd.congr (by simp [Fields.keys]))] at he
    simp only [List.map_map] at he ⊢
    exact he

theorem map {k : Ty} (parts : List (EntryPart × ReadPart)) (hm : m.Sound) (hk : k.Proper)
    (hw : ∀ p ∈ parts, Writes m k p.1.key p.1.keyDoc)
    (hv : (Value.map ((parts.map Prod.fst).map EntryPart.entry)).WellFormed)
    (h : ∀ p ∈ parts, RestoredEntry room m k t p.1 p.2) :
    Restored (room + 1) m (.map k t) (.map ((parts.map Prod.fst).map EntryPart.entry))
      (.arr ((parts.map Prod.fst).map EntryPart.doc))
      (.map (collectEntries (parts.map fun p => p.2.slot))) := by
  have hh : ¬ (Value.map ((parts.map Prod.fst).map EntryPart.entry)).Hollow ↔
      ∀ p ∈ parts, ¬ p.1.key.Hollow ∧ ¬ p.1.value.Hollow := by
    rw [Value.not_hollow_iff (by simp), Value.parts]
    simp only [List.map_map, List.forall_mem_append, List.forall_mem_map, forall_and]
    rfl
  -- without a hollow key the identities are those of the keys that were written
  have hd : ¬ (Value.map ((parts.map Prod.fst).map EntryPart.entry)).Hollow →
      Fields.Distinct (parts.map fun p => p.2.slot) := by
    intro hn
    have hs := nodup_keyIdentity hm hk (List.forall_mem_map.2 hw) ⟨hv, hn⟩
    have he : Fields.keys (parts.map fun p => p.2.slot) =
        (parts.map Prod.fst).map fun p => keyIdentity p.keyDoc := by
      simp only [Fields.keys, List.map_map]
      refine List.map_congr_left fun p hp => ?_
      have he := (h p hp).key.encodes (hh.1 hn p hp).1
      rw [(h p hp).written, Except.ok.injEq] at he
      show keyIdentity p.2.written = keyIdentity p.1.keyDoc
      rw [he]
    unfold Fields.Distinct
    rw [he]
    exact hs
  have hentries : Fields.Distinct (parts.map fun p => p.2.slot) →
      collectEntries (parts.map fun p => p.2.slot) = parts.map fun p => p.2.entry := by
    intro hd
    rw [collectEntries_of_distinct hd, List.map_map]
    rfl
  constructor
  · have hr := @Reads.map room m k t
      (parts.map fun p => { p.2 with keyDoc := p.1.keyDoc, valueDoc := p.1.valueDoc })
      (List.forall_mem_map.2 fun p hp => by rw [(h p hp).props]; simp [hasNames, Fields.contains])
      (List.forall_mem_map.2 fun p hp => by rw [(h p hp).props]; rfl)
      (List.forall_mem_map.2 fun p hp => by rw [(h p hp).props]; rfl)
      (List.forall_mem_map.2 fun p hp => (h p hp).key.reads)
      (List.forall_mem_map.2 fun p hp => (h p hp).value.reads)
      (List.forall_mem_map.2 fun p hp => (h p hp).written)
    have hdocs : (parts.map Prod.fst).map EntryPart.doc = parts.map fun p => .obj p.2.props := by
      rw [List.map_map]
      exact List.map_congr_left fun p hp => (congrArg Json.obj (h p hp).props).symm
    rw [hdocs]
    simp only [List.map_map] at hr
    exact hr
  · rw [equalAs_map]
    constructor
    · rintro ⟨hl, heq⟩
      have hd := length_collectEntries.1 (hl.symm.trans (by simp))
      rw [hentries hd, List.map_map, List.zip_map', List.forall_mem_map] at heq
      exact hh.2 fun p hp => ⟨(h p hp).key.equal.1 (heq p hp).1, (h p hp).value.equal.1 (heq p hp).2⟩
    · intro hn
      rw [hentries (hd hn), List.map_map, List.zip_map', List.forall_mem_map]
      exact ⟨by simp, fun p hp => ⟨(h p hp).key.equal.2 (hh.1 hn p hp).1,
        (h p hp).value.equal.2 (hh.1 hn p hp).2⟩⟩
  · intro hn
    have he := @encode_map
      (parts.map fun p => ⟨p.1.keyDoc, p.1.valueDoc, p.2.key, p.2.value⟩)
      (List.forall_mem_map.2 fun p hp => (h p hp).key.encodes (hh.1 hn p hp).1)
      (List.forall_mem_map.2 fun p hp => (h p hp).value.encodes (hh.1 hn p hp).2)
    rw [hentries (hd hn)]
    simp only [List.map_map] at he ⊢
    exact he

theorem fields {tag : Option String} {values : Fields Value} (parts : List (FieldPart × Value))
    (hf : m.Fieldset t owner tag ((parts.map Prod.fst).map FieldPart.field))
    (hp : Fields.Proper tag ((parts.map Prod.fst).map FieldPart.field))
    (hl : values.length = parts.length)
    (hv : ∀ p ∈ parts, Fields.get? values p.1.name = some p.1.value)
    (h : ∀ p ∈ parts, Restored room owner p.1.ty p.1.value p.1.doc p.2) :
    Restored (room + 1) m t (fieldsValue tag values)
      (fieldsDoc tag ((parts.map Prod.fst).map FieldPart.prop))
      (fieldsValue tag (parts.map fun p => (p.1.name, p.2))) := by
  have hperm : ((parts.map Prod.fst).map FieldPart.named).Perm values :=
    perm_named hp (by simpa using hl) (List.forall_mem_map.2 hv)
  have hh : ¬ (fieldsValue tag values).Hollow ↔ ∀ p ∈ parts, ¬ p.1.value.Hollow := by
    rw [Value.not_hollow_iff (by cases tag <;> simp [fieldsValue]), parts_fieldsValue]
    have hmem := fun w => (hperm.map Prod.snd).mem_iff (a := w)
    simp only [← hmem, List.map_map, List.forall_mem_map]
    rfl
  -- the same parts with the values that are read
  let read : FieldPart × Value → FieldPart := fun p => ⟨p.1.name, p.1.ty, p.1.doc, p.2⟩
  have hfields : (parts.map read).map FieldPart.field =
      (parts.map Prod.fst).map FieldPart.field := by
    simp only [List.map_map]
    rfl
  have hdocs : (parts.map read).map FieldPart.prop = (parts.map Prod.fst).map FieldPart.prop := by
    simp only [List.map_map]
    rfl
  have hnamed : (parts.map read).map FieldPart.named = parts.map fun p => (p.1.name, p.2) := by
    simp only [List.map_map]
    rfl
  have hp' : Fields.Proper tag ((parts.map read).map FieldPart.field) := hfields ▸ hp
  have hd := distinct_named hp'
  rw [← hnamed, ← hdocs]
  constructor
  · rw [← Fields.ofList_of_distinct hd, fieldsDoc_eq hp']
    exact .fields _ (hfields ▸ hf) (holdsParts_fieldsDoc hp')
      (List.forall_mem_map.2 fun p hm => (h p hm).reads)
  · rw [hh, equalAs_fields hf, List.map_map, List.forall_mem_map]
    simp only [List.length_map, hl, true_and]
    refine forall₂_congr fun p hm => ?_
    have hg : Fields.get? ((parts.map read).map FieldPart.named) p.1.name = some p.2 :=
      hd.get?_eq_some (by rw [hnamed]; exact List.mem_map_of_mem hm)
    simp only [Function.comp_apply, FieldPart.field, hv p hm, hg, Option.some.injEq,
      exists_and_left, exists_eq_left']
    exact (h p hm).equal
  · intro hn
    exact encode_fields tag (List.forall_mem_map.2 fun p hm => (h p hm).encodes (hh.1 hn p hm))

end Restored

/-! ### The reader on what was written -/

theorem not_hollow_of_admits {p : Prim} {v : Value} (h : p.admits v = true) : ¬ v.Hollow := by
  cases v with
  | present | list | object | map | record | variant | absent => cases p <;> cases h
  | _ =>
    rw [Value.not_hollow_iff (by simp)]
    simp [Value.parts]

/-- A step that is too deep, or succeeds and restores what was written. -/
theorem readEntry_restored {limit room : Nat} {m : Module} {k t : Ty} {p : EntryPart}
    (hkey : readWithin limit room m k p.keyDoc = .error (.depthLimit limit) ∨
      ∃ v', Restored room m k p.key p.keyDoc v')
    (hvalue : readWithin limit room m t p.valueDoc = .error (.depthLimit limit) ∨
      ∃ v', Restored room m t p.value p.valueDoc v')
    (hm : m.Sound) (hk : k.Proper) (hj : p.keyDoc.WellFormed) :
    readEntry (readWithin limit room m k) (readWithin limit room m t) p.doc =
        .error (.depthLimit limit) ∨
      ∃ z q, readEntry (readWithin limit room m k) (readWithin limit room m t) p.doc = .ok z ∧
        RestoredEntry room m k t p q := by
  have he : readEntry (readWithin limit room m k) (readWithin limit room m t) p.doc = (do
      let key ← readWithin limit room m k p.keyDoc
      let value ← readWithin limit room m t p.valueDoc
      return (keyIdentity (← encode key), key, value)) := rfl
  rw [he]
  rcases hkey with hkey | ⟨key, hkey⟩
  · exact .inl (by rw [hkey, error_bind])
  rw [readWithin_of_reads hkey.reads, ok_bind]
  rcases hvalue with hvalue | ⟨value, hvalue⟩
  · exact .inl (by rw [hvalue, error_bind])
  obtain ⟨written, hs⟩ := hkey.reads.settled hm hk hj
  rw [readWithin_of_reads hvalue.reads, ok_bind, hs.encodes]
  exact .inr ⟨_, ⟨⟨p.keyDoc, p.valueDoc, key, value⟩, _, written⟩, rfl, rfl, hkey, hvalue,
    hs.encodes⟩

theorem readFields_of_holds {read : Ty → Json → Except CodecError Value} {context : String}
    {tag : Option String} {parts : List FieldPart} {props : Fields Json}
    (h : HoldsParts tag parts props) :
    readFields read context (parts.map FieldPart.field) tag.isSome (.obj props) = do
      return Fields.ofList (← parts.mapM fun p => do return (p.name, ← read p.ty p.doc)) := by
  have hr : expectRecord (.obj props) context tag.isSome (Fields.keys (parts.map FieldPart.field)) =
      .ok props := expectRecord_eq_ok.2 ⟨rfl, by rw [keys_field]; exact h.names⟩
  have hs : ∀ p ∈ parts, (do return (p.name, ← read p.ty (← field props p.name))) =
      (do return (p.name, ← read p.ty p.doc) : Except CodecError (String × Value)) := by
    intro p hp
    rw [field_eq_ok.2 (h.docs p hp), ok_bind]
  rw [readFields, hr, ok_bind, mapM_map]
  rw [← mapM_congr hs]
  rfl

/-- What was written is read back, or it is too deep. -/
theorem Writes.restored {m : Module} {t : Ty} {v : Value} {j : Json} (h : Writes m t v j)
    (hm : m.Sound) (ht : t.Proper) (hv : v.WellFormed) (limit room : Nat) :
    readWithin limit room m t j = .error (.depthLimit limit) ∨ ∃ v', Restored room m t v j v' := by
  induction h generalizing room with
  | @scalar m p v j hp he =>
    have hh := not_hollow_of_admits hp
    refine .inr ⟨v, .scalar (readScalar?_encode hp he), ?_, fun _ => he⟩
    rw [equalAs_prim, hp, same_self_of_encode hp he]
    simp [hh]
  | annot _ ih =>
    rw [readWithin_annot]
    refine (ih hm ht hv room).imp_right ?_
    rintro ⟨v', h⟩
    exact ⟨v', .annot h.reads, by rw [equalAs_annot, h.equal], h.encodes⟩
  | absent =>
    refine .inr ⟨.absent, .absent, ?_, fun _ => rfl⟩
    rw [equalAs_absent, Value.not_hollow_iff (by simp)]
    simp [Value.parts]
  | @present m t v j hw ih =>
    by_cases hj : j = .null
    · subst hj
      have hh : (Value.present v).Hollow := Value.hollow_present.2 (.inl (hw.eq_null_iff.2 rfl))
      refine .inr ⟨.absent, .absent, ?_, fun hn => absurd hh hn⟩
      rw [equalAs_present_absent]
      simp [hh]
    · have hh : (Value.present v).Hollow ↔ v.Hollow := by
        rw [Value.hollow_present, hw.eq_null_iff]
        simp [hj]
      rw [readWithin_optional _ _ _ _ hj]
      rcases ih hm ht (hv.part (List.mem_singleton_self _)) room with he | ⟨v', h⟩
      · exact .inl (by rw [he]; rfl)
      · refine .inr ⟨.present v', .present hj h.reads, ?_, ?_⟩
        · rw [equalAs_present, h.equal, hh]
        · rw [hh, encode]
          exact h.encodes
  | @list m t parts _ ih =>
    cases room with
    | zero => exact .inl (readWithin_zero_of_nested rfl _)
    | succ room =>
      rw [readWithin_succ_of_nested rfl, enter, mapM_map]
      have hstep : ∀ p ∈ parts, readWithin limit room m t p.1 = .error (.depthLimit limit) ∨
          ∃ z y, readWithin limit room m t p.1 = .ok z ∧ Restored room m t p.2 p.1 y := by
        intro p hp
        refine (ih p hp hm ht (hv.part (List.mem_map_of_mem hp)) room).imp_right ?_
        rintro ⟨y, h⟩
        exact ⟨y, y, readWithin_of_reads h.reads, h⟩
      rcases mapM_error_or hstep with he | ⟨pairs, rfl, h⟩
      · exact .inl (by rw [he]; rfl)
      · exact .inr ⟨_, .list pairs h⟩
  | @object m t parts _ ih =>
    cases room with
    | zero => exact .inl (readWithin_zero_of_nested rfl _)
    | succ room =>
      rw [readWithin_succ_of_nested rfl, enter, mapM_map]
      have hstep : ∀ p ∈ parts,
          (do return (p.1, ← readWithin limit room m t p.2.1)) =
            (.error (.depthLimit limit) : Except CodecError (String × Value)) ∨
          ∃ z y, (do return (p.1, ← readWithin limit room m t p.2.1)) =
            (.ok z : Except CodecError (String × Value)) ∧ Restored room m t p.2.2 p.2.1 y := by
        intro p hp
        have hpart := hv.part (List.mem_map_of_mem (f := Prod.snd) (List.mem_map_of_mem hp))
        rcases ih p hp hm ht hpart room with he | ⟨y, h⟩
        · exact .inl (by rw [he]; rfl)
        · exact .inr ⟨(p.1, y), y, by rw [readWithin_of_reads h.reads]; rfl, h⟩
      rcases mapM_error_or hstep with he | ⟨pairs, rfl, h⟩
      · exact .inl (by rw [he]; rfl)
      · exact .inr ⟨_, .object pairs hv.tidy h⟩
  | @map m k t parts hwk _ ihk ihv =>
    cases room with
    | zero => exact .inl (readWithin_zero_of_nested rfl _)
    | succ room =>
      rw [readWithin_succ_of_nested rfl, enter, mapM_map]
      have hstep := fun p hp =>
        readEntry_restored (ihk p hp hm ht.1 (hv.part (mem_parts_key hp)) room)
          (ihv p hp hm ht.2 (hv.part (mem_parts_value hp)) room) hm ht.1
          ((hwk p hp).wellFormed hm ht.1 (hv.part (mem_parts_key hp)))
      rcases mapM_error_or hstep with he | ⟨pairs, rfl, h⟩
      · exact .inl (by rw [he]; rfl)
      · exact .inr ⟨_, .map pairs hm ht.1 (List.forall_mem_map.1 hwk) hv h⟩
  | «alias» hr _ ih =>
    cases room with
    | zero => exact .inl (readWithin_zero_of_nested rfl _)
    | succ room =>
      rw [readWithin_succ_of_nested rfl, enter, hr]
      refine (ih (hm.of_resolve? hr) (hm.decl_proper hr) hv room).imp_right ?_
      rintro ⟨v', h⟩
      exact ⟨v', .alias hr h.reads, by rw [equalAs_alias hm hr, h.equal], h.encodes⟩
  | @fields m owner t tag values parts hf hl hg _ ih =>
    have hp := hf.proper hm ht
    cases room with
    | zero => exact .inl (readWithin_zero_of_nested (Fieldset.isNested hf) _)
    | succ room =>
      rw [readWithin_succ_of_nested (Fieldset.isNested hf), fieldsDoc_eq hp]
      obtain ⟨context, he⟩ := enter_of_fieldset (readWithin limit room) hf
        (holdsParts_fieldsDoc hp).tag
      rw [he, readFields_of_holds (holdsParts_fieldsDoc hp)]
      have hstep : ∀ p ∈ parts,
          (do return (p.name, ← readWithin limit room owner p.ty p.doc)) =
            (.error (.depthLimit limit) : Except CodecError (String × Value)) ∨
          ∃ z y, (do return (p.name, ← readWithin limit room owner p.ty p.doc)) =
            (.ok z : Except CodecError (String × Value)) ∧
            Restored room owner p.ty p.value p.doc y := by
        intro p hm'
        rcases ih p hm' (hf.sound hm) (hp.types _ (List.mem_map_of_mem hm'))
          (hv.part (mem_parts_field (hg p hm'))) room with he | ⟨y, h⟩
        · exact .inl (by rw [he]; rfl)
        · exact .inr ⟨(p.name, y), y, by rw [readWithin_of_reads h.reads]; rfl, h⟩
      rcases mapM_error_or hstep with he | ⟨pairs, rfl, h⟩
      · exact .inl (by rw [he]; rfl)
      · rw [← fieldsDoc_eq hp]
        exact .inr ⟨_, .fields pairs hf hp (by simpa using hl) (List.forall_mem_map.1 hg) h⟩

/-- Reading what was written either is too deep or gives a value, and the value is equal to what was
written exactly if no optional in that is present and written as `null`. -/
theorem decode_encodeAs_restores {c : Codec} {t : Ty} {v : Value} {j : Json} (hm : c.scope.Built)
    (ht : t.Proper) (hv : v.WellFormed) (h : c.encodeAs t v = .ok j) :
    c.decode t j = .error (.depthLimit c.maxDepth) ∨
      ∃ v', c.decode t j = .ok v' ∧ (c.equals t v v' = true ↔ ¬ v.Hollow) := by
  have hw : Writes c.scope t v j := (writeAs_eq_ok hm.sound).1 h
  refine (hw.restored hm.sound ht hv c.maxDepth c.maxDepth).imp_right ?_
  rintro ⟨v', h⟩
  exact ⟨v', readWithin_of_reads h.reads, h.equal⟩

/-- A map with two keys that are both written as `null`. -/
def nullKeys : Value := .map [(.absent, .i32 1), (.present .absent, .i32 2)]

/-- Its type. -/
def nullKeysTy : Ty := .map (.optional (.optional (.prim .boolean))) (.prim .i32)

theorem decode_encodeAs_nullKeys :
    ∃ j, (⟨Module.chain, 1⟩ : Codec).encodeAs nullKeysTy nullKeys = .ok j ∧
      ((⟨Module.chain, 1⟩ : Codec).decode nullKeysTy j = .error (.depthLimit 1) ∨
        ∃ v', (⟨Module.chain, 1⟩ : Codec).decode nullKeysTy j = .ok v' ∧
          ((⟨Module.chain, 1⟩ : Codec).equals nullKeysTy nullKeys v' = true ↔ ¬ nullKeys.Hollow)) := by
  have hv : nullKeys.WellFormed := by
    have hm : nullKeys.Tidy := ⟨[(.absent, .i32 1), (.present .absent, .i32 2)], by cbv⟩
    have hleaf : ∀ v : Value, v.Tidy → v.parts = [] → v.WellFormed := fun v ht hp =>
      Value.wellFormed_iff.2 ⟨ht, by simp [hp]⟩
    have habsent := hleaf .absent trivial rfl
    have hpresent : (Value.present .absent).WellFormed :=
      Value.wellFormed_iff.2 ⟨trivial, by simpa [Value.parts] using habsent⟩
    refine Value.wellFormed_iff.2 ⟨hm, ?_⟩
    simpa [nullKeys, Value.parts] using
      ⟨habsent, hpresent, hleaf (.i32 1) trivial rfl, hleaf (.i32 2) trivial rfl⟩
  have h : (⟨Module.chain, 1⟩ : Codec).encodeAs nullKeysTy nullKeys =
      .ok (.arr [mapEntry .null (.ofInt 1), mapEntry .null (.ofInt 2)]) := by cbv
  exact ⟨_, h, decode_encodeAs_restores Module.chain_built ⟨trivial, trivial⟩ hv h⟩

end Wireform.Codec

import Mathlib
import Wireform.Codec.Basic
import Wireform.Proofs.Codec.Canonical
import Wireform.Proofs.Codec.Equal
import Wireform.Proofs.Module.Closed
import Wireform.Proofs.OrderedMap

/-!
# What a type contains

`Inhabits m t v` says by rules which values a type contains; there is one rule for each kind of type
and one for all types of objects with fixed names. Writing succeeds on exactly these values, apart from
infinite floats and those that are no number, reading returns only such values, and two values are
equal at a type exactly if the first of them is one and they are equal.
-/

namespace Wireform.Codec

/-- The value fits the type, and the names of its fields agree with the declared names. -/
inductive Fits (agree : List String → List String → Prop) : Module → Ty → Value → Prop
  | scalar {m : Module} {p : Prim} {v : Value} : p.admits v = true → Fits agree m (.prim p) v
  | annot {m : Module} {doc : String} {t : Ty} {v : Value} :
    Fits agree m t v → Fits agree m (.annot doc t) v
  | absent {m : Module} {t : Ty} : Fits agree m (.optional t) .absent
  | present {m : Module} {t : Ty} {v : Value} :
    Fits agree m t v → Fits agree m (.optional t) (.present v)
  | list {m : Module} {t : Ty} {items : List Value} :
    (∀ v ∈ items, Fits agree m t v) → Fits agree m (.list t) (.list items)
  | object {m : Module} {t : Ty} {props : Fields Value} :
    (∀ p ∈ props, Fits agree m t p.2) → Fits agree m (.object t) (.object props)
  | map {m : Module} {k t : Ty} {entries : List (Value × Value)} :
    (∀ e ∈ entries, Fits agree m k e.1) → (∀ e ∈ entries, Fits agree m t e.2) →
      Fits agree m (.map k t) (.map entries)
  | alias {m owner : Module} {r : Ref} {t : Ty} {v : Value} :
    m.resolve? r = some (owner, .alias t) → Fits agree owner t v → Fits agree m (.ref r) v
  | fields {m owner : Module} {t : Ty} {tag : Option String} {fields : Fields Ty}
      {values : Fields Value} :
    m.Fieldset t owner tag fields → agree (Fields.keys values) (Fields.keys fields) →
    (∀ f ∈ fields, ∀ v, (f.1, v) ∈ values → Fits agree owner f.2 v) →
      Fits agree m t (fieldsValue tag values)

/-- The value has the declared fields, in whatever order. -/
def Inhabits : Module → Ty → Value → Prop := Fits List.Perm

/-- The value has the declared fields in declared order. -/
def InhabitsInOrder : Module → Ty → Value → Prop := Fits (· = ·)

theorem InhabitsInOrder.inhabits {m : Module} {t : Ty} {v : Value} (h : InhabitsInOrder m t v) :
    Inhabits m t v := by
  induction h with
  | scalar hp => exact .scalar hp
  | annot _ ih => exact .annot ih
  | absent => exact .absent
  | present _ ih => exact .present ih
  | list _ ih => exact .list ih
  | object _ ih => exact .object ih
  | map _ _ ihk ihv => exact .map ihk ihv
  | «alias» hr _ ih => exact .alias hr ih
  | fields hf hn _ ih => exact .fields hf (hn ▸ .refl _) ih

/-! ### Writing -/

variable {m owner : Module} {t : Ty} {v a b : Value}

/-- Fields that were found under all declared names are all there are. -/
theorem perm_keys_of_found {fields : Fields Ty} {values : Fields Value}
    (hd : Fields.Distinct fields) (hl : values.length = fields.length)
    (h : ∀ f ∈ fields, ∃ v, Fields.get? values f.1 = some v) :
    (Fields.keys values).Perm (Fields.keys fields) := by
  refine (Fields.perm_keys_of_subset (by simp [hl]) hd fun k hk => ?_).symm
  obtain ⟨f, hf, rfl⟩ := List.mem_map.1 hk
  obtain ⟨v, hv⟩ := h f hf
  exact Fields.mem_keys_of_mem (Fields.mem_of_get? hv)

theorem Writes.inhabits {j : Json} (h : Writes m t v j) (hm : m.Sound) (ht : t.NamesDiffer) :
    Inhabits m t v ∧ v.Finite := by
  induction h with
  | @scalar m p v j hp he =>
    refine ⟨.scalar hp, ?_⟩
    cases v with
    | f64 x =>
      rw [encode] at he
      obtain ⟨hx, -⟩ := writeF64_eq_ok.1 he
      exact Value.finite_f64.2 hx
    | _ =>
      refine (Value.finite_iff (by simp)).2 fun w hw => ?_
      cases p <;> cases hp <;> cases hw
  | annot _ ih =>
    obtain ⟨hi, hf⟩ := ih hm (ht.part (by simp [Ty.parts]))
    exact ⟨.annot hi, hf⟩
  | absent => exact ⟨.absent, (Value.finite_iff (by simp)).2 (by simp [Value.parts])⟩
  | present _ ih =>
    obtain ⟨hi, hf⟩ := ih hm (ht.part (by simp [Ty.parts]))
    exact ⟨.present hi, (Value.finite_iff (by simp)).2 (by simpa [Value.parts] using hf)⟩
  | list parts _ ih =>
    have ih := fun p hp => ih p hp hm (ht.part (by simp [Ty.parts]))
    refine ⟨.list (List.forall_mem_map.2 fun p hp => (ih p hp).1), ?_⟩
    exact (Value.finite_iff (by simp)).2 (List.forall_mem_map.2 fun p hp => (ih p hp).2)
  | object parts _ ih =>
    have ih := fun p hp => ih p hp hm (ht.part (by simp [Ty.parts]))
    refine ⟨.object (List.forall_mem_map.2 fun p hp => (ih p hp).1), ?_⟩
    refine (Value.finite_iff (by simp)).2 ?_
    exact List.forall_mem_map.2 (List.forall_mem_map.2 fun p hp => (ih p hp).2)
  | map parts _ _ ihk ihv =>
    have ihk := fun p hp => ihk p hp hm (ht.part (by simp [Ty.parts]))
    have ihv := fun p hp => ihv p hp hm (ht.part (by simp [Ty.parts]))
    refine ⟨.map (List.forall_mem_map.2 fun p hp => (ihk p hp).1)
      (List.forall_mem_map.2 fun p hp => (ihv p hp).1), ?_⟩
    refine (Value.finite_iff (by simp)).2 (List.forall_mem_append.2 ⟨?_, ?_⟩)
    · exact List.forall_mem_map.2 (List.forall_mem_map.2 fun p hp => (ihk p hp).2)
    · exact List.forall_mem_map.2 (List.forall_mem_map.2 fun p hp => (ihv p hp).2)
  | «alias» hr _ ih =>
    obtain ⟨hi, hf⟩ := ih (hm.of_resolve? hr) (Ty.Proper.namesDiffer (hm.decl_proper hr))
    exact ⟨.alias hr hi, hf⟩
  | @fields m owner t tag values parts hf hl hv _ ih =>
    obtain ⟨hd, hts⟩ := hf.differ hm ht
    have hperm := perm_keys_of_found hd (by simpa using hl)
      (List.forall_mem_map.2 fun p hp => ⟨p.value, hv p hp⟩)
    have hdv : Fields.Distinct values := hperm.nodup_iff.2 hd
    have hvalue : ∀ p ∈ parts, ∀ v, (p.name, v) ∈ values → Inhabits owner p.ty v ∧ v.Finite := by
      intro p hp v hmem
      have hg := hdv.get?_eq_some hmem
      rw [hv p hp, Option.some.injEq] at hg
      exact hg ▸ ih p hp (hf.sound hm) (hts p.field (List.mem_map_of_mem hp))
    refine ⟨.fields hf hperm (List.forall_mem_map.2 fun p hp v hm => (hvalue p hp v hm).1), ?_⟩
    refine (Value.finite_iff (by cases tag <;> simp [fieldsValue])).2 ?_
    rw [parts_fieldsValue]
    refine List.forall_mem_map.2 fun x hx => ?_
    have hk := hperm.mem_iff.1 (Fields.mem_keys_of_mem hx)
    rw [keys_field] at hk
    obtain ⟨p, hp, hn⟩ := List.mem_map.1 hk
    exact (hvalue p hp x.2 (hn ▸ hx)).2

theorem Inhabits.writes (h : Inhabits m t v) (hm : m.Sound) (ht : t.NamesDiffer) (hf : v.Finite) :
    ∃ j, Writes m t v j := by
  induction h with
  | @scalar m p v hp =>
    have he : ∃ j, encode v = .ok j := by
      cases v with
      | f64 x => exact ⟨_, by rw [encode]; exact writeF64_eq_ok.2 ⟨Value.finite_f64.1 hf, rfl⟩⟩
      | i32 | u32 | i64 | u64 | bool | str | ident | binary => exact ⟨_, by rw [encode]⟩
      | _ => cases p <;> cases hp
    obtain ⟨j, he⟩ := he
    exact ⟨j, .scalar hp he⟩
  | annot _ ih =>
    obtain ⟨j, hw⟩ := ih hm (ht.part (by simp [Ty.parts])) hf
    exact ⟨j, .annot hw⟩
  | absent => exact ⟨_, .absent⟩
  | present _ ih =>
    obtain ⟨j, hw⟩ := ih hm (ht.part (by simp [Ty.parts])) (hf.part (by simp [Value.parts]))
    exact ⟨j, .present hw⟩
  | @list m t items _ ih =>
    obtain ⟨parts, rfl, hp⟩ := exists_parts fun v hv =>
      ih v hv hm (ht.part (by simp [Ty.parts])) (hf.part (show v ∈ Value.parts _ from hv))
    have hw := Writes.list (m := m) (t := t) (parts.map Prod.swap) (List.forall_mem_map.2 hp)
    exact ⟨_, by simpa [Function.comp_def] using hw⟩
  | @object m t props _ ih =>
    obtain ⟨parts, rfl, hp⟩ := exists_parts fun p hp =>
      ih p hp hm (ht.part (by simp [Ty.parts])) (hf.part (List.mem_map_of_mem hp))
    have hw := Writes.object (m := m) (t := t) (parts.map fun p => (p.1.1, p.2, p.1.2))
      (List.forall_mem_map.2 hp)
    exact ⟨_, by simpa [Function.comp_def] using hw⟩
  | @map m k t entries _ _ ihk ihv =>
    have hboth : ∀ e ∈ entries, ∃ docs : Json × Json,
        Writes m k e.1 docs.1 ∧ Writes m t e.2 docs.2 := by
      intro e he
      obtain ⟨i, hi⟩ := ihk e he hm (ht.part (by simp [Ty.parts]))
        (hf.part (List.mem_append_left _ (List.mem_map_of_mem he)))
      obtain ⟨j, hj⟩ := ihv e he hm (ht.part (by simp [Ty.parts]))
        (hf.part (List.mem_append_right _ (List.mem_map_of_mem he)))
      exact ⟨(i, j), hi, hj⟩
    obtain ⟨parts, rfl, hp⟩ := exists_parts hboth
    have hw := Writes.map (m := m) (k := k) (v := t)
      (parts.map fun p => ⟨p.2.1, p.2.2, p.1.1, p.1.2⟩)
      (List.forall_mem_map.2 fun p h => (hp p h).1) (List.forall_mem_map.2 fun p h => (hp p h).2)
    exact ⟨_, by simpa [Function.comp_def, EntryPart.entry] using hw⟩
  | «alias» hr _ ih =>
    obtain ⟨j, hw⟩ := ih (hm.of_resolve? hr) (Ty.Proper.namesDiffer (hm.decl_proper hr)) hf
    exact ⟨j, .alias hr hw⟩
  | @fields m owner t tag fields values hfs hperm _ ih =>
    obtain ⟨hd, hts⟩ := hfs.differ hm ht
    have hfield : ∀ f ∈ fields, ∃ p : Value × Json, Fields.get? values f.1 = some p.1 ∧
        Writes owner f.2 p.1 p.2 := by
      intro f hmem
      obtain ⟨v, hv⟩ := Fields.exists_get?_of_mem_keys (hperm.mem_iff.2 (Fields.mem_keys_of_mem hmem))
      have hvf : v.Finite := hf.part (mem_parts_field hv)
      obtain ⟨j, hj⟩ := ih f hmem v (Fields.mem_of_get? hv) (hfs.sound hm) (hts f hmem) hvf
      exact ⟨(v, j), hv, hj⟩
    obtain ⟨pairs, rfl, hp⟩ := exists_parts hfield
    have hl : values.length = pairs.length := by
      have h := hperm.length_eq
      simpa using h
    refine ⟨_, .fields (pairs.map fun p => ⟨p.1.1, p.1.2, p.2.2, p.2.1⟩) ?_ (by simpa using hl)
      (List.forall_mem_map.2 fun p h => (hp p h).1) (List.forall_mem_map.2 fun p h => (hp p h).2)⟩
    simpa [Function.comp_def, FieldPart.field] using hfs

/-! ### Reading -/

/-- What a value that was read is like: no float is infinite, no name is repeated, and no two keys of
a map are equal. -/
def Clean : Value → Prop
  | .f64 x => x.isFinite = true
  | .object props => Fields.Distinct props
  | .map entries =>
    (entries.map Prod.fst).Pairwise fun a b => a.same b = false ∧ b.same a = false
  | .record fields => Fields.Distinct fields
  | .variant _ fields => Fields.Distinct fields
  | _ => True

theorem namesOnce_of_clean (h : v.All Clean) : v.NamesOnce := by
  intro w hw
  have hc := h w hw
  cases w with
  | object | record | variant => exact hc
  | _ => trivial

theorem clean_of_readScalar? {p : Prim} {j : Json} (h : readScalar? p j = some v) : v.All Clean := by
  refine Value.all_iff.2 ?_
  cases p <;> (
    simp only [readScalar?, Option.map_eq_some_iff] at h
    obtain ⟨x, hx, rfl⟩ := h)
  case f64 => exact ⟨isFinite_of_readF64? hx, by simp [Value.parts]⟩
  all_goals exact ⟨trivial, by simp [Value.parts]⟩

/-- Keys that were collected under different identities are different. -/
theorem pairwise_collectEntries {parts : List ReadPart} (hc : ∀ p ∈ parts, p.key.All Clean)
    (he : ∀ p ∈ parts, encode p.key = .ok p.written) :
    ((collectEntries (parts.map ReadPart.slot)).map Prod.fst).Pairwise
      fun a b => a.same b = false ∧ b.same a = false := by
  obtain ⟨slots, heq, hd, hmem⟩ := exists_slots_collectEntries (parts.map ReadPart.slot)
  have hpart : ∀ e ∈ slots, ∃ p ∈ parts, e.1 = keyIdentity p.written ∧ e.2.1 = p.key := by
    intro e hm
    obtain ⟨v, hv⟩ := (hmem e hm).1
    obtain ⟨p, hp, hs⟩ := List.mem_map.1 hv
    obtain ⟨hi, hk⟩ := Prod.mk.inj hs
    exact ⟨p, hp, hi.symm, (Prod.mk.inj hk).1.symm⟩
  have hne : ∀ p ∈ parts, ∀ q ∈ parts, keyIdentity p.written ≠ keyIdentity q.written →
      p.key.same q.key = false := by
    intro p hp q hq hid
    by_contra hs
    rw [Bool.not_eq_false] at hs
    exact hid (keyIdentity_eq_iff.2 (canonical_eq_of_same (namesOnce_of_clean (hc p hp))
      (namesOnce_of_clean (hc q hq)) hs (he p hp) (he q hq)))
  have hd' : slots.Pairwise fun e e' => e.1 ≠ e'.1 := List.pairwise_map.1 hd
  rw [heq, List.map_map, List.pairwise_map]
  refine hd'.imp_of_mem fun {e e'} hm hm' hid => ?_
  obtain ⟨p, hp, hi, hk⟩ := hpart e hm
  obtain ⟨q, hq, hi', hk'⟩ := hpart e' hm'
  rw [hi, hi'] at hid
  simp only [Function.comp_apply, hk, hk']
  exact ⟨hne p hp q hq hid, hne q hq p hp hid.symm⟩

theorem Reads.inhabits {room : Nat} {j : Json} (h : Reads room m t j v) (hm : m.Sound)
    (ht : t.NamesDiffer) (hj : j.WellFormed) : InhabitsInOrder m t v ∧ v.All Clean := by
  induction h with
  | scalar h => exact ⟨.scalar (admits_of_readScalar? h), clean_of_readScalar? h⟩
  | annot _ ih =>
    obtain ⟨hi, hc⟩ := ih hm (ht.part (by simp [Ty.parts])) hj
    exact ⟨.annot hi, hc⟩
  | absent => exact ⟨.absent, Value.all_iff.2 ⟨trivial, by simp [Value.parts]⟩⟩
  | present _ _ ih =>
    obtain ⟨hi, hc⟩ := ih hm (ht.part (by simp [Ty.parts])) hj
    exact ⟨.present hi, Value.all_iff.2 ⟨trivial, by simpa [Value.parts] using hc⟩⟩
  | list parts _ ih =>
    rw [Json.wellFormed_arr, List.forall_mem_map] at hj
    have ih := fun p hp => ih p hp hm (ht.part (by simp [Ty.parts])) (hj p hp)
    exact ⟨.list (List.forall_mem_map.2 fun p hp => (ih p hp).1),
      Value.all_iff.2 ⟨trivial, List.forall_mem_map.2 fun p hp => (ih p hp).2⟩⟩
  | object parts _ ih =>
    rw [Json.wellFormed_obj, List.forall_mem_map] at hj
    have ih := fun p hp => ih p hp hm (ht.part (by simp [Ty.parts])) (hj.2 p hp)
    refine ⟨.object (List.forall_mem_map.2 fun p hp => (ih p hp).1), Value.all_iff.2 ⟨?_, ?_⟩⟩
    · exact hj.1.congr (by simp [Fields.keys, Function.comp_def])
    · exact List.forall_mem_map.2 (List.forall_mem_map.2 fun p hp => (ih p hp).2)
  | map parts _ hk hv _ _ he ihk ihv =>
    rw [Json.wellFormed_arr, List.forall_mem_map] at hj
    have ihk := fun p hp => ihk p hp hm (ht.part (by simp [Ty.parts])) ((hj p hp).prop (hk p hp))
    have ihv := fun p hp => ihv p hp hm (ht.part (by simp [Ty.parts])) ((hj p hp).prop (hv p hp))
    have hpairs := pairwise_collectEntries (fun p hp => (ihk p hp).2) he
    -- every key and every value of the result was read
    obtain ⟨slots, heq, -, hmem⟩ := exists_slots_collectEntries (parts.map ReadPart.slot)
    have hkeys : ∀ e ∈ slots, ∃ p ∈ parts, e.2.1 = p.key := by
      intro e hm
      obtain ⟨v, hv⟩ := (hmem e hm).1
      obtain ⟨p, hp, hs⟩ := List.mem_map.1 hv
      exact ⟨p, hp, (Prod.mk.inj (Prod.mk.inj hs).2).1.symm⟩
    have hvalues : ∀ e ∈ slots, ∃ p ∈ parts, e.2.2 = p.value := by
      intro e hm
      obtain ⟨i, k, hv⟩ := (hmem e hm).2
      obtain ⟨p, hp, hs⟩ := List.mem_map.1 hv
      exact ⟨p, hp, (Prod.mk.inj (Prod.mk.inj hs).2).2.symm⟩
    rw [heq] at hpairs ⊢
    refine ⟨.map (List.forall_mem_map.2 fun e hm => ?_) (List.forall_mem_map.2 fun e hm => ?_),
      Value.all_iff.2 ⟨hpairs, List.forall_mem_append.2 ⟨?_, ?_⟩⟩⟩
    · obtain ⟨p, hp, hk⟩ := hkeys e hm
      rw [hk]
      exact (ihk p hp).1
    · obtain ⟨p, hp, hv⟩ := hvalues e hm
      rw [hv]
      exact (ihv p hp).1
    · refine List.forall_mem_map.2 (List.forall_mem_map.2 fun e hm => ?_)
      obtain ⟨p, hp, hk⟩ := hkeys e hm
      rw [hk]
      exact (ihk p hp).2
    · refine List.forall_mem_map.2 (List.forall_mem_map.2 fun e hm => ?_)
      obtain ⟨p, hp, hv⟩ := hvalues e hm
      rw [hv]
      exact (ihv p hp).2
  | «alias» hr _ ih =>
    obtain ⟨hi, hc⟩ := ih (hm.of_resolve? hr) (Ty.Proper.namesDiffer (hm.decl_proper hr)) hj
    exact ⟨.alias hr hi, hc⟩
  | @fields room m owner t tag props parts hf hh _ ih =>
    obtain ⟨hd, hts⟩ := hf.differ hm ht
    have hdn : Fields.Distinct (parts.map FieldPart.named) := hd.congr (by rw [keys_named, keys_field])
    have ih := fun p hp => ih p hp (hf.sound hm) (hts p.field (List.mem_map_of_mem hp))
      (hj.prop (hh.docs p hp))
    rw [Fields.ofList_of_distinct hdn]
    refine ⟨.fields hf (by rw [keys_named, keys_field]) (List.forall_mem_map.2 fun p hp v hm => ?_),
      Value.all_iff.2 ⟨?_, ?_⟩⟩
    · have hg := hdn.get?_eq_some (List.mem_map_of_mem hp)
      have hv := (hdn.get?_eq_some hm).symm.trans hg
      rw [Option.some.inj hv]
      exact (ih p hp).1
    · cases tag <;> exact hdn
    · rw [parts_fieldsValue]
      exact List.forall_mem_map.2 (List.forall_mem_map.2 fun p hp => (ih p hp).2)

/-! ### Comparing -/

theorem Inhabits.of_equalAs_fields {tag : Option String} {fields : Fields Ty} {xs ys : Fields Value}
    (hf : m.Fieldset t owner tag fields) (hd : Fields.Distinct fields)
    (ih : ∀ x ∈ xs, ∀ f ∈ fields, ∀ y, equalAs x.2 owner f.2 y = true →
      Inhabits owner f.2 x.2 ∧ x.2.same y = true)
    (h : equalAs (fieldsValue tag xs) m t (fieldsValue tag ys) = true) :
    Inhabits m t (fieldsValue tag xs) ∧ (fieldsValue tag xs).same (fieldsValue tag ys) = true := by
  obtain ⟨hlx, hly, h⟩ := (equalAs_fields hf xs ys).1 h
  have hperm : (Fields.keys xs).Perm (Fields.keys fields) := by
    refine perm_keys_of_found hd hlx fun f hmem => ?_
    obtain ⟨x, -, hx, -⟩ := h f hmem
    exact ⟨x, hx⟩
  have hdx : Fields.Distinct xs := hperm.nodup_iff.2 hd
  have hfield : ∀ f ∈ fields, ∀ v, (f.1, v) ∈ xs →
      ∃ y, Fields.get? ys f.1 = some y ∧ Inhabits owner f.2 v ∧ v.same y = true := by
    intro f hmem v hv
    obtain ⟨x, y, hx, hy, he⟩ := h f hmem
    rw [hdx.get?_eq_some hv, Option.some.injEq] at hx
    exact ⟨y, hy, ih _ hv f hmem y (hx ▸ he)⟩
  refine ⟨.fields hf hperm fun f hmem v hv => ?_,
    same_fieldsValue.2 ⟨hlx.trans hly.symm, fun x hx => ?_⟩⟩
  · obtain ⟨y, -, hi, -⟩ := hfield f hmem v hv
    exact hi
  · obtain ⟨f, hmem, hn⟩ := List.mem_map.1 (hperm.mem_iff.1 (Fields.mem_keys_of_mem hx))
    obtain ⟨y, hy, -, hs⟩ := hfield f hmem x.2 (hn ▸ hx)
    exact ⟨y, hn ▸ hy, hs⟩

theorem forall_mem_of_zip {α β : Type} {xs : List α} {ys : List β} {P : α → Prop}
    (hl : xs.length = ys.length) (h : ∀ p ∈ xs.zip ys, P p.1) : ∀ x ∈ xs, P x := by
  rw [← List.map_fst_zip hl.le]
  exact List.forall_mem_map.2 h

/-- A type that is neither documentation nor an alias, if equality of parts is what it should be. -/
theorem Inhabits.of_equalAs_shape (hannot : ∀ doc s, t ≠ .annot doc s)
    (halias : ∀ r owner s, t = .ref r → m.resolve? r ≠ some (owner, .alias s))
    (ih : ∀ w ∈ a.parts, ∀ {m : Module} {t : Ty} {b : Value}, m.Sound → t.NamesDiffer →
      equalAs w m t b = true → Inhabits m t w ∧ w.same b = true)
    (hm : m.Sound) (ht : t.NamesDiffer) (h : equalAs a m t b = true) :
    Inhabits m t a ∧ a.same b = true := by
  have hshape := Module.shaped_expose hannot halias
  have hfields : ∀ tag {owner fields xs ys}, a = fieldsValue tag xs →
      m.Fieldset t owner tag fields → equalAs (fieldsValue tag xs) m t (fieldsValue tag ys) = true →
      Inhabits m t (fieldsValue tag xs) ∧
        (fieldsValue tag xs).same (fieldsValue tag ys) = true := by
    intro tag owner fields xs ys ha hf
    obtain ⟨hd, hts⟩ := hf.differ hm ht
    refine Inhabits.of_equalAs_fields hf hd fun x hx f hmem y => ?_
    refine ih x.2 ?_ (hf.sound hm) (hts f hmem)
    rw [ha, parts_fieldsValue]
    exact List.mem_map_of_mem hx
  -- the shape of the type and the two values go together, or they are not equal
  have hsplit := h
  unfold equalAs at hsplit
  revert hshape hsplit
  obtain ⟨owner, label, head⟩ := m.expose t
  intro hshape hsplit
  simp only at hsplit
  split at hsplit
  · obtain rfl := hshape
    rw [Bool.and_eq_true] at hsplit
    exact ⟨.scalar hsplit.1, hsplit.2⟩
  · obtain ⟨rfl, rfl⟩ := hshape
    exact ⟨.absent, Value.same_iff.2 .absent⟩
  · obtain ⟨rfl, rfl⟩ := hshape
    obtain ⟨hi, hs⟩ := ih _ (by simp [Value.parts]) hm (ht.part (by simp [Ty.parts])) hsplit
    exact ⟨.present hi, Value.same_iff.2 (.present hs)⟩
  · rename_i xs ys
    obtain ⟨rfl, rfl⟩ := hshape
    obtain ⟨hl, h⟩ := (equalAs_list _ xs ys).1 h
    have h := fun p hp =>
      ih p.1 (List.of_mem_zip hp).1 hm (ht.part (by simp [Ty.parts])) (h p hp)
    refine ⟨.list (forall_mem_of_zip hl fun p hp => (h p hp).1), ?_⟩
    rw [Value.same, Value.sameItems_iff]
    exact ⟨hl, fun p hp => (h p hp).2⟩
  · rename_i s xs ys
    obtain ⟨rfl, rfl⟩ := hshape
    obtain ⟨hl, h⟩ := (equalAs_object _ xs ys).1 h
    have h : ∀ x ∈ xs, Inhabits owner s x.2 ∧
        ∃ y, Fields.get? ys x.1 = some y ∧ x.2.same y = true := by
      intro x hx
      obtain ⟨y, hy, he⟩ := h x hx
      obtain ⟨hi, hs⟩ := ih x.2 (List.mem_map_of_mem hx) hm (ht.part (by simp [Ty.parts])) he
      exact ⟨hi, y, hy, hs⟩
    refine ⟨.object fun x hx => (h x hx).1, ?_⟩
    exact Value.same_iff.2 (.object ⟨hl, fun x hx => (h x hx).2⟩)
  · rename_i xs ys
    obtain ⟨rfl, rfl⟩ := hshape
    obtain ⟨hl, h⟩ := (equalAs_map _ _ xs ys).1 h
    have hk := fun p hp => ih p.1.1
      (List.mem_append_left _ (List.mem_map_of_mem (List.of_mem_zip hp).1)) hm
      (ht.part (by simp [Ty.parts])) (h p hp).1
    have hv := fun p hp => ih p.1.2
      (List.mem_append_right _ (List.mem_map_of_mem (List.of_mem_zip hp).1)) hm
      (ht.part (by simp [Ty.parts])) (h p hp).2
    refine ⟨.map (forall_mem_of_zip hl fun p hp => (hk p hp).1)
      (forall_mem_of_zip hl fun p hp => (hv p hp).1), ?_⟩
    rw [Value.same, Value.sameEntries_iff]
    exact ⟨hl, fun p hp => ⟨(hk p hp).2, (hv p hp).2⟩⟩
  · exact hfields none rfl hshape h
  · rename_i tag xs tag' ys
    rw [Bool.and_eq_true, beq_iff_eq] at hsplit
    obtain ⟨rfl, hsplit⟩ := hsplit
    split at hsplit
    · rename_i fields hg
      exact hfields (some tag) rfl (hshape tag fields hg) h
    · cases hsplit
  · simp only [Bool.and_eq_true, beq_iff_eq] at hsplit
    obtain ⟨⟨rfl, rfl⟩, -⟩ := hsplit
    exact hfields (some _) rfl hshape h
  · cases hsplit

theorem inhabits_of_equalAs (hm : m.Sound) (ht : t.NamesDiffer) (h : equalAs a m t b = true) :
    Inhabits m t a ∧ a.same b = true := by
  induction a using Value.parts_induction generalizing m t b with
  | step a ih =>
    revert ht h
    refine hm.shape_induction (P := fun m t => t.NamesDiffer → equalAs a m t b = true →
      Inhabits m t a ∧ a.same b = true) ?_ ?_ ?_ t
    · intro m doc t iht ht h
      rw [equalAs_annot] at h
      obtain ⟨hi, hs⟩ := iht (ht.part (by simp [Ty.parts])) h
      exact ⟨.annot hi, hs⟩
    · intro m r owner t hm hr iht _ h
      rw [equalAs_alias hm hr] at h
      obtain ⟨hi, hs⟩ := iht (Ty.Proper.namesDiffer (hm.decl_proper hr)) h
      exact ⟨.alias hr hi, hs⟩
    · intro m t hm hannot halias ht h
      exact Inhabits.of_equalAs_shape hannot halias ih hm ht h

theorem exists_fieldsValue_of_same {tag : Option String} {xs : Fields Value}
    (h : (fieldsValue tag xs).same b = true) : ∃ ys, b = fieldsValue tag ys := by
  cases tag with
  | none =>
    cases b with
    | record ys => exact ⟨ys, rfl⟩
    | _ => simp [fieldsValue, Value.same] at h
  | some tag =>
    cases b with
    | variant tag' ys =>
      simp only [fieldsValue, Value.same, Bool.and_eq_true, beq_iff_eq] at h
      exact ⟨ys, by rw [fieldsValue, h.1.1]⟩
    | _ => simp [fieldsValue, Value.same] at h

theorem distinct_of_namesOnce {tag : Option String} {xs : Fields Value}
    (h : (fieldsValue tag xs).NamesOnce) : Fields.Distinct xs := by
  have hu := h _ .self
  cases tag <;> exact hu

theorem Inhabits.equalAs_of_same (h : Inhabits m t a) (hm : m.Sound) (hs : a.same b = true) :
    equalAs a m t b = true := by
  induction h generalizing b with
  | scalar hp => rw [equalAs_prim, hp, hs, Bool.and_self]
  | annot _ ih => rw [equalAs_annot, ih hm hs]
  | absent =>
    cases b with
    | absent => exact equalAs_absent _
    | _ => simp [Value.same] at hs
  | present _ ih =>
    cases b with
    | present b =>
      rw [Value.same] at hs
      rw [equalAs_present, ih hm hs]
    | _ => simp [Value.same] at hs
  | @list m t xs _ ih =>
    cases b with
    | list ys =>
      rw [Value.same, Value.sameItems_iff] at hs
      rw [equalAs_list]
      exact ⟨hs.1, fun p hp => ih p.1 (List.of_mem_zip hp).1 hm (hs.2 p hp)⟩
    | _ => simp [Value.same] at hs
  | @object m t xs _ ih =>
    cases b with
    | object ys =>
      rw [Value.same, Bool.and_eq_true, beq_iff_eq, Value.sameFields_iff] at hs
      rw [equalAs_object]
      refine ⟨hs.1, fun x hx => ?_⟩
      obtain ⟨y, hy, he⟩ := hs.2 x hx
      exact ⟨y, hy, ih x hx hm he⟩
    | _ => simp [Value.same] at hs
  | @map m k t xs _ _ ihk ihv =>
    cases b with
    | map ys =>
      rw [Value.same, Value.sameEntries_iff] at hs
      rw [equalAs_map]
      refine ⟨hs.1, fun p hp => ?_⟩
      obtain ⟨hk, hv⟩ := hs.2 p hp
      have hx := (List.of_mem_zip hp).1
      exact ⟨ihk p.1 hx hm hk, ihv p.1 hx hm hv⟩
    | _ => simp [Value.same] at hs
  | «alias» hr _ ih => rw [equalAs_alias hm hr, ih (hm.of_resolve? hr) hs]
  | @fields m owner t tag fields xs hf hperm _ ih =>
    obtain ⟨ys, rfl⟩ := exists_fieldsValue_of_same hs
    obtain ⟨hl, hs⟩ := same_fieldsValue.1 hs
    have hlx : xs.length = fields.length := by simpa using hperm.length_eq
    refine (equalAs_fields hf xs ys).2 ⟨hlx, hl ▸ hlx, fun f hmem => ?_⟩
    obtain ⟨x, hx⟩ := Fields.exists_get?_of_mem_keys (hperm.mem_iff.2 (Fields.mem_keys_of_mem hmem))
    have hxm := Fields.mem_of_get? hx
    obtain ⟨y, hy, he⟩ := hs _ hxm
    exact ⟨x, y, hx, hy, ih f hmem x hxm (hf.sound hm) he⟩

theorem forall_mem_of_zip_right {α β : Type} {xs : List α} {ys : List β} {P : β → Prop}
    (hl : xs.length = ys.length) (h : ∀ p ∈ xs.zip ys, P p.2) : ∀ y ∈ ys, P y := by
  rw [← List.map_snd_zip hl.ge]
  exact List.forall_mem_map.2 h

/-- With a value a type contains every value that is equal to it. -/
theorem Inhabits.of_same (h : Inhabits m t a) (ha : a.NamesOnce) (hb : b.NamesOnce)
    (hs : a.same b = true) : Inhabits m t b := by
  induction h generalizing b with
  | @scalar m p a hp =>
    exact .scalar (by cases p <;> cases a <;> cases b <;> simp_all [Prim.admits, Value.same])
  | annot _ ih => exact .annot (ih ha hb hs)
  | absent =>
    cases b with
    | absent => exact .absent
    | _ => simp [Value.same] at hs
  | present _ ih =>
    cases b with
    | present b =>
      rw [Value.same] at hs
      exact .present (ih (ha.part (by simp [Value.parts])) (hb.part (by simp [Value.parts])) hs)
    | _ => simp [Value.same] at hs
  | @list m t xs _ ih =>
    cases b with
    | list ys =>
      rw [Value.same, Value.sameItems_iff] at hs
      refine .list (forall_mem_of_zip_right hs.1 fun p hp => ?_)
      obtain ⟨hx, hy⟩ := List.of_mem_zip hp
      exact ih p.1 hx (ha.part hx) (hb.part hy) (hs.2 p hp)
    | _ => simp [Value.same] at hs
  | @object m t xs _ ih =>
    have hsymm := Value.same_symm ha hb hs
    cases b with
    | object ys =>
      rw [Value.same, Bool.and_eq_true, beq_iff_eq, Value.sameFields_iff] at hsymm
      refine .object fun y hy => ?_
      obtain ⟨x, hx, he⟩ := hsymm.2 y hy
      have hxm := Fields.mem_of_get? hx
      have hxn : x.NamesOnce := ha.part (List.mem_map_of_mem (f := Prod.snd) hxm)
      have hyn : y.2.NamesOnce := hb.part (List.mem_map_of_mem hy)
      exact ih _ hxm hxn hyn (Value.same_symm hyn hxn he)
    | _ => simp [Value.same] at hs
  | @map m k t xs _ _ ihk ihv =>
    cases b with
    | map ys =>
      rw [Value.same, Value.sameEntries_iff] at hs
      refine .map (forall_mem_of_zip_right hs.1 fun p hp => ?_)
        (forall_mem_of_zip_right hs.1 fun p hp => ?_)
      · obtain ⟨hx, hy⟩ := List.of_mem_zip hp
        exact ihk p.1 hx (ha.part (List.mem_append_left _ (List.mem_map_of_mem hx)))
          (hb.part (List.mem_append_left _ (List.mem_map_of_mem hy))) (hs.2 p hp).1
      · obtain ⟨hx, hy⟩ := List.of_mem_zip hp
        exact ihv p.1 hx (ha.part (List.mem_append_right _ (List.mem_map_of_mem hx)))
          (hb.part (List.mem_append_right _ (List.mem_map_of_mem hy))) (hs.2 p hp).2
    | _ => simp [Value.same] at hs
  | «alias» hr _ ih => exact .alias hr (ih ha hb hs)
  | @fields m owner t tag fields xs hf hperm _ ih =>
    obtain ⟨ys, rfl⟩ := exists_fieldsValue_of_same hs
    have hdx : Fields.Distinct xs := distinct_of_namesOnce ha
    have hdy : Fields.Distinct ys := distinct_of_namesOnce hb
    obtain ⟨hl, hs⟩ := same_fieldsValue.1 hs
    have hkeys : (Fields.keys xs).Perm (Fields.keys ys) := by
      refine Fields.perm_keys_of_subset (by simp [hl]) hdx fun k hk => ?_
      obtain ⟨x, hx, rfl⟩ := List.mem_map.1 hk
      obtain ⟨y, hy, -⟩ := hs x hx
      exact Fields.mem_keys_of_mem (Fields.mem_of_get? hy)
    refine .fields hf (hkeys.symm.trans hperm) fun f hmem y hy => ?_
    obtain ⟨x, hx⟩ := Fields.exists_get?_of_mem_keys (hkeys.mem_iff.2 (Fields.mem_keys_of_mem hy))
    obtain ⟨y', hy', he⟩ := hs _ (Fields.mem_of_get? hx)
    rw [hdy.get?_eq_some hy, Option.some.injEq] at hy'
    exact ih f hmem x (Fields.mem_of_get? hx) (ha.part (mem_parts_field hx))
      (hb.part (mem_parts_field (hdy.get?_eq_some hy))) (hy' ▸ he)

/-! ### What the operations agree on -/

theorem finite_of_clean (h : v.All Clean) : v.Finite := fun _ hx => h _ hx

/-- No two keys are equal, whichever of them is compared with the other. -/
def KeysDiffer : Value → Prop
  | .map entries => (entries.map Prod.fst).Pairwise fun a b => a.same b = false ∧ b.same a = false
  | _ => True

theorem keysDiffer_of_clean (h : v.All Clean) : v.All KeysDiffer := by
  intro w hw
  have hc := h w hw
  cases w with
  | map entries => exact hc
  | _ => trivial

/-- Writing, reading and comparing at a type go by the same values: exactly those that the type contains
are written, unless a float is not finite, only such ones are read, and a comparison is that of the
values if the first is one. So it is an equivalence; a list of fields with a name in it twice is no
object and is left out where that matters. -/
theorem operations_agree {c : Codec} {t : Ty} (hm : c.scope.Built) (ht : t.NamesDiffer) :
    (∀ a, (∃ j, c.encodeAs t a = .ok j) ↔ Inhabits c.scope t a ∧ a.Finite) ∧
    (∀ j v, j.WellFormed → c.decode t j = .ok v →
      Inhabits c.scope t v ∧ v.Finite ∧ v.All KeysDiffer ∧ InhabitsInOrder c.scope t v) ∧
    (∀ a b, c.equals t a b = true ↔ Inhabits c.scope t a ∧ a.same b = true) ∧
    (∀ a b, a.NamesOnce → b.NamesOnce → c.equals t a b = true → c.equals t b a = true) ∧
    (∀ x y z, c.equals t x y = true → c.equals t y z = true → c.equals t x z = true) ∧
    ∀ a j, a.NamesOnce → c.encodeAs t a = .ok j → c.equals t a a = true := by
  have hs := hm.sound
  have hwrites : ∀ a, (∃ j, c.encodeAs t a = .ok j) ↔ Inhabits c.scope t a ∧ a.Finite := by
    intro a
    constructor
    · rintro ⟨j, hj⟩
      exact ((writeAs_eq_ok hs).1 hj).inhabits hs ht
    · rintro ⟨hi, hf⟩
      obtain ⟨j, hj⟩ := hi.writes hs ht hf
      exact ⟨j, (writeAs_eq_ok hs).2 hj⟩
  have hequal : ∀ a b, c.equals t a b = true ↔ Inhabits c.scope t a ∧ a.same b = true :=
    fun a b => ⟨inhabits_of_equalAs hs ht, fun h => h.1.equalAs_of_same hs h.2⟩
  refine ⟨hwrites, fun j v hj hd => ?_, hequal, fun a b ha hb h => ?_, fun x y z hxy hyz => ?_,
    fun a j ha hj => ?_⟩
  · obtain ⟨hi, hc⟩ := (reads_of_readWithin hd).inhabits hs ht hj
    exact ⟨hi.inhabits, finite_of_clean hc, keysDiffer_of_clean hc, hi⟩
  · obtain ⟨hi, hsame⟩ := (hequal a b).1 h
    exact (hequal b a).2 ⟨hi.of_same ha hb hsame, Value.same_symm ha hb hsame⟩
  · obtain ⟨hi, hsame⟩ := (hequal x y).1 hxy
    exact (hequal x z).2 ⟨hi, Value.same_trans hsame ((hequal y z).1 hyz).2⟩
  · obtain ⟨hi, hf⟩ := (hwrites a).1 ⟨j, hj⟩
    exact (hequal a a).2 ⟨hi, Value.same_self ha hf⟩

/-- Lists of shapes by number. -/
def shapesByNumber : Ty := .map (.prim .i64) (.ref ⟨none, "Shapes", 3⟩)

/-- A path under the number 7, its fields out of order. -/
def looseShapes : Value :=
  .map [(.i64 7, .list [.variant "Path" [("rest", .list []),
    ("first", .record [("next", .absent), ("value", .i64 3)])]])]

/-- A document of the same, in which the number stands twice. -/
def looseShapesDoc : Json :=
  .arr [.obj [("key", .ofInt 7), ("value", .arr [])],
    .obj [("value", .arr [.obj [("rest", .arr []),
      ("first", .obj [("next", .null), ("value", .ofInt 3)]), ("_type", .str "Path")]]),
      ("key", .str "7")]]

/-- What is read is in order and has each number once; it is equal to the value that is not. -/
theorem operations_agree_looseShapes :
    Inhabits Module.drawings shapesByNumber looseShapes ∧ looseShapes.Finite ∧
    ∃ v, (⟨Module.drawings, 8⟩ : Codec).decode shapesByNumber looseShapesDoc = .ok v ∧
      InhabitsInOrder Module.drawings shapesByNumber v ∧ v.All KeysDiffer ∧
      (⟨Module.drawings, 8⟩ : Codec).equals shapesByNumber looseShapes v = true ∧
      looseShapes.same v = true := by
  obtain ⟨hwrites, hreads, hequal, -⟩ :=
    operations_agree (c := ⟨Module.drawings, 8⟩) (t := shapesByNumber) Module.drawings_built
      (Ty.Proper.namesDiffer ⟨trivial, trivial⟩)
  have hw : (⟨Module.drawings, 8⟩ : Codec).encodeAs shapesByNumber looseShapes =
      .ok (.arr [.obj [("key", .str "7"), ("value", .arr [.obj [("_type", .str "Path"),
        ("first", .obj [("value", .str "3"), ("next", .null)]), ("rest", .arr [])]])]]) := by cbv
  obtain ⟨hi, hf⟩ := (hwrites looseShapes).1 ⟨_, hw⟩
  have hr : (⟨Module.drawings, 8⟩ : Codec).decode shapesByNumber looseShapesDoc =
      .ok (.map [(.i64 7, .list [.variant "Path"
        [("first", .record [("value", .i64 3), ("next", .absent)]), ("rest", .list [])]])]) := by cbv
  have hj : looseShapesDoc.WellFormed := by
    simp [looseShapesDoc, Json.WellFormed, Json.WellFormedItems, Json.WellFormedProps, Fields.Distinct,
      Fields.keys, Json.ofInt]
  obtain ⟨-, -, hk, ho⟩ := hreads _ _ hj hr
  have he : (⟨Module.drawings, 8⟩ : Codec).equals shapesByNumber looseShapes (.map [(.i64 7,
      .list [.variant "Path" [("first", .record [("value", .i64 3), ("next", .absent)]),
        ("rest", .list [])]])]) = true := by cbv
  exact ⟨hi, hf, _, hr, ho, hk, he, ((hequal _ _).1 he).2⟩

end Wireform.Codec

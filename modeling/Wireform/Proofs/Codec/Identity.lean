import Mathlib
import Wireform.Proofs.Codec.NormalForm
import Wireform.Proofs.Json.Text

/-!
# Identities of keys

Two keys of a type that are written as documents with one identity are the same value, unless an
optional in one of them hides: it is present, but what it holds is written as `null`.
-/

namespace Wireform

namespace Codec

theorem keyIdentity_eq_iff {j j' : Json} :
    keyIdentity j = keyIdentity j' ↔ canonical j = canonical j' :=
  Json.compact_injective.eq_iff

/-- Objects with one canonical form have the same properties in some order. -/
theorem perm_of_canonical_eq {props props' : Fields Json}
    (h : canonical (.obj props) = canonical (.obj props')) :
    (props.map fun p => (p.1, canonical p.2)).Perm (props'.map fun p => (p.1, canonical p.2)) := by
  rw [canonical, canonical, canonicalProps_eq, canonicalProps_eq, Json.obj.injEq] at h
  have hp := List.mergeSort_perm (props.map fun p => (p.1, canonical p.2)) fun a b => !decide (b.1 < a.1)
  have hp' := List.mergeSort_perm (props'.map fun p => (p.1, canonical p.2)) fun a b =>
    !decide (b.1 < a.1)
  exact hp.symm.trans ((congrArg (List.Perm · _) h).mpr hp')

/-- A property of one has a counterpart in the other. -/
theorem exists_prop_of_canonical_eq {props props' : Fields Json} {k : String} {j : Json}
    (h : canonical (.obj props) = canonical (.obj props')) (hp : (k, j) ∈ props) :
    ∃ j', (k, j') ∈ props' ∧ canonical j = canonical j' := by
  have hm : (k, canonical j) ∈ props'.map fun p => (p.1, canonical p.2) :=
    (perm_of_canonical_eq h).mem_iff.1 (List.mem_map.2 ⟨(k, j), hp, rfl⟩)
  obtain ⟨⟨k', j'⟩, hp', he⟩ := List.mem_map.1 hm
  obtain ⟨rfl, hj⟩ := Prod.mk.inj he
  exact ⟨j', hp', hj.symm⟩

theorem canonical_eq_null {j : Json} : canonical j = .null ↔ j = .null := by
  cases j with
  | num n =>
    rw [canonical]
    split <;> simp [Json.ofInt]
  | _ => simp [canonical]

theorem canonical_ofInt (n : Int) : canonical (.ofInt n) = .ofInt n := by
  rw [Json.ofInt, canonical]
  split
  · rename_i h
    rw [show n = 0 by simpa [Number.isZero] using h]
    rfl
  · rfl

theorem canonical_encode_of_ne_f64 {p : Prim} {v : Value} {j : Json} (hp : p.admits v = true)
    (hf : p ≠ .f64) (h : encode v = .ok j) : canonical j = j := by
  cases v with
  | i32 n | u32 n =>
    rw [encode, Except.ok.injEq] at h
    exact h ▸ canonical_ofInt _
  | i64 | u64 | str | ident | binary | bool =>
    rw [encode, Except.ok.injEq] at h
    exact h ▸ rfl
  | f64 x => cases p <;> first | exact absurd rfl hf | cases hp
  | _ => cases p <;> cases hp

theorem canonical_float {x : Double} (hx : x.isFinite = true) :
    canonical (.num (.float x hx)) =
      if x.isZero = true then .ofInt 0 else .num (.float x hx) := by
  rw [canonical]
  rfl

/-- Scalars of one kind with one canonical document are the same. -/
theorem same_of_scalar {p : Prim} {a b : Value} {ja jb : Json} (ha : p.admits a = true)
    (hb : p.admits b = true) (hja : encode a = .ok ja) (hjb : encode b = .ok jb)
    (h : canonical ja = canonical jb) : a.same b = true := by
  by_cases hp : p = .f64
  · subst hp
    cases a with
    | f64 x =>
      cases b with
      | f64 y =>
        rw [encode] at hja hjb
        obtain ⟨hx, rfl⟩ := writeF64_eq_ok.1 hja
        obtain ⟨hy, rfl⟩ := writeF64_eq_ok.1 hjb
        rw [canonical_float, canonical_float] at h
        have hnx := Double.not_isNaN_of_isFinite hx
        have hny := Double.not_isNaN_of_isFinite hy
        rw [Value.same, Double.same, hnx, hny]
        by_cases hzx : x.isZero = true <;> by_cases hzy : y.isZero = true
        · simp [hzx, hzy]
        · rw [if_pos hzx, if_neg hzy] at h
          cases h
        · rw [if_neg hzx, if_pos hzy] at h
          cases h
        · rw [if_neg hzx, if_neg hzy, Json.num.injEq, Number.float.injEq] at h
          simp [h]
      | _ => cases hb
    | _ => cases ha
  · rw [canonical_encode_of_ne_f64 ha hp hja, canonical_encode_of_ne_f64 hb hp hjb] at h
    have hr := readScalar?_encode ha hja
    rw [h, readScalar?_encode hb hjb] at hr
    obtain rfl := Option.some.inj hr
    exact same_self_of_encode hb hjb

end Codec

/-- An optional in it is present, but what it holds is written as `null`. -/
def Value.Hollow (v : Value) : Prop :=
  ∃ p, v.Within (.present p) ∧ Codec.encode p = .ok .null

namespace Value

theorem hollow_iff {v : Value} :
    v.Hollow ↔ (∃ p, v = .present p ∧ Codec.encode p = .ok .null) ∨ ∃ w ∈ v.parts, w.Hollow := by
  unfold Hollow
  constructor
  · rintro ⟨p, hp, he⟩
    rcases within_iff.1 hp with rfl | ⟨w, hw, h⟩
    · exact .inl ⟨p, rfl, he⟩
    · exact .inr ⟨w, hw, p, h, he⟩
  · rintro (⟨p, rfl, he⟩ | ⟨w, hw, p, hp, he⟩)
    · exact ⟨p, .self, he⟩
    · exact ⟨p, hp.head hw, he⟩

theorem hollow_present {v : Value} :
    (Value.present v).Hollow ↔ Codec.encode v = .ok .null ∨ v.Hollow := by
  rw [hollow_iff]
  simp [parts]

/-- Only an optional can be hollow by itself. -/
theorem not_hollow_iff {v : Value} (hv : ∀ p, v ≠ .present p) :
    ¬ v.Hollow ↔ ∀ w ∈ v.parts, ¬ w.Hollow := by
  rw [hollow_iff, not_or, not_exists]
  constructor
  · exact fun h w hw hh => h.2 ⟨w, hw, hh⟩
  · exact fun h => ⟨fun p hp => hv p hp.1, fun ⟨w, hw, hh⟩ => h w hw hh⟩

/-- Well formed, and no optional in it is hollow. -/
structure Solid (v : Value) : Prop where
  wellFormed : v.WellFormed
  not_hollow : ¬ v.Hollow

theorem Solid.part {v w : Value} (h : v.Solid) (hw : w ∈ v.parts) : w.Solid where
  wellFormed := h.wellFormed.part hw
  not_hollow hh := h.not_hollow (hollow_iff.2 (.inr ⟨w, hw, hh⟩))

theorem Solid.present {v : Value} (h : (Value.present v).Solid) : Codec.encode v ≠ .ok .null :=
  fun he => h.not_hollow (hollow_present.2 (.inl he))

end Value

namespace Codec

/-- What is written as `null` under a type is written so without it. -/
theorem Writes.eq_null_iff {m : Module} {t : Ty} {v : Value} {j : Json} (h : Writes m t v j) :
    encode v = .ok .null ↔ j = .null := by
  induction h with
  | scalar _ he => rw [he, Except.ok.injEq]
  | annot _ ih => exact ih
  | absent => simp [encode]
  | present _ ih => rw [encode, ih]
  | «alias» _ _ ih => exact ih
  | list | object | map =>
    rw [encode]
    constructor
    · intro he
      obtain ⟨_, -, he⟩ := bind_eq_ok.1 he
      cases he
    · intro he
      cases he
  | @fields _ _ _ tag =>
    constructor
    · intro he
      cases tag <;>
        (rw [fieldsValue, encode] at he; obtain ⟨_, -, he⟩ := bind_eq_ok.1 he; cases he)
    · intro he
      cases tag <;> cases he

theorem mem_parts_key {parts : List EntryPart} {p : EntryPart} (hp : p ∈ parts) :
    p.key ∈ (Value.map (parts.map EntryPart.entry)).parts :=
  List.mem_append_left _ (List.mem_map_of_mem (f := Prod.fst) (List.mem_map_of_mem hp))

theorem mem_parts_value {parts : List EntryPart} {p : EntryPart} (hp : p ∈ parts) :
    p.value ∈ (Value.map (parts.map EntryPart.entry)).parts :=
  List.mem_append_right _ (List.mem_map_of_mem (f := Prod.snd) (List.mem_map_of_mem hp))

/-! ### Objects with fixed names -/

theorem parts_fieldsValue (tag : Option String) (values : Fields Value) :
    (fieldsValue tag values).parts = values.map Prod.snd := by
  cases tag <;> rfl

theorem mem_parts_field {tag : Option String} {values : Fields Value} {name : String} {v : Value}
    (h : Fields.get? values name = some v) : v ∈ (fieldsValue tag values).parts := by
  rw [parts_fieldsValue]
  exact List.mem_map_of_mem (f := Prod.snd) (Fields.mem_of_get? h)

theorem same_fieldsValue {tag : Option String} {xs ys : Fields Value} :
    (fieldsValue tag xs).same (fieldsValue tag ys) = true ↔
      xs.length = ys.length ∧ ∀ x ∈ xs, ∃ y, Fields.get? ys x.1 = some y ∧ x.2.same y = true := by
  rw [← Value.sameFields_iff]
  cases tag <;> simp [fieldsValue, Value.same]

/-- The fields of a value that is written are its parts in some order. -/
theorem perm_named {tag : Option String} {parts : List FieldPart} {values : Fields Value}
    (hp : Fields.Proper tag (parts.map FieldPart.field)) (hl : values.length = parts.length)
    (hv : ∀ p ∈ parts, Fields.get? values p.name = some p.value) :
    (parts.map FieldPart.named).Perm values := by
  have hn : (parts.map FieldPart.named).Nodup := (distinct_named hp).of_map
  have hs : parts.map FieldPart.named ⊆ values := by
    intro x hx
    obtain ⟨p, hp, rfl⟩ := List.mem_map.1 hx
    exact Fields.mem_of_get? (hv p hp)
  exact (hn.subperm hs).perm_of_length_le (by simp [hl])

section

variable {tag tag' : Option String} {parts parts' : List FieldPart}

theorem tag_eq_of_canonical_eq (hp : Fields.Proper tag (parts.map FieldPart.field))
    (hp' : Fields.Proper tag' (parts'.map FieldPart.field)) (hs : tag.isSome = tag'.isSome)
    (h : canonical (fieldsDoc tag (parts.map FieldPart.prop)) =
      canonical (fieldsDoc tag' (parts'.map FieldPart.prop))) : tag = tag' := by
  rw [fieldsDoc_eq hp, fieldsDoc_eq hp'] at h
  have hd := distinct_fieldsDoc hp'
  cases tag with
  | none =>
    cases tag' with
    | none => rfl
    | some => cases hs
  | some s =>
    cases tag' with
    | none => cases hs
    | some s' =>
      obtain ⟨j, hj, he⟩ := exists_prop_of_canonical_eq h
        (List.mem_append_left _ (List.mem_singleton_self (discriminator, Json.str s)))
      have hg := hd.get?_eq_some hj
      rw [hd.get?_eq_some (List.mem_append_left _
        (List.mem_singleton_self (discriminator, Json.str s')))] at hg
      rw [← Option.some.inj hg] at he
      simp only [canonical, Json.str.injEq] at he
      rw [he]

theorem doc_eq_of_canonical_eq (hp : Fields.Proper tag (parts.map FieldPart.field))
    (hp' : Fields.Proper tag' (parts'.map FieldPart.field))
    (h : canonical (fieldsDoc tag (parts.map FieldPart.prop)) =
      canonical (fieldsDoc tag' (parts'.map FieldPart.prop)))
    {p p' : FieldPart} (hm : p ∈ parts) (hm' : p' ∈ parts') (hn : p'.name = p.name) :
    canonical p.doc = canonical p'.doc := by
  rw [fieldsDoc_eq hp, fieldsDoc_eq hp'] at h
  have hd := distinct_fieldsDoc hp'
  obtain ⟨j, hj, he⟩ := exists_prop_of_canonical_eq h
    (List.mem_append_right _ (List.mem_map_of_mem (f := FieldPart.prop) hm))
  have hg := hd.get?_eq_some
    (List.mem_append_right _ (List.mem_map_of_mem (f := FieldPart.prop) hm'))
  rw [hn, hd.get?_eq_some hj] at hg
  rw [he, Option.some.inj hg]

end

theorem canonical_mapEntry {k k' v v' : Json}
    (h : canonical (mapEntry k v) = canonical (mapEntry k' v')) :
    canonical k = canonical k' ∧ canonical v = canonical v' := by
  obtain ⟨j, hj, hk⟩ := exists_prop_of_canonical_eq h List.mem_cons_self
  obtain ⟨i, hi, hv⟩ := exists_prop_of_canonical_eq h (List.mem_cons_of_mem _ List.mem_cons_self)
  simp only [List.mem_cons, Prod.mk.injEq, List.not_mem_nil, or_false] at hj hi
  obtain ⟨-, rfl⟩ := hj.resolve_right (by simp)
  obtain ⟨-, rfl⟩ := hi.resolve_left (by simp)
  exact ⟨hk, hv⟩

/-- Solid values of one type with one canonical document are the same. -/
theorem same_of_canonical_eq {m : Module} {t : Ty} {a b : Value} {ja jb : Json}
    (ha : Writes m t a ja) (hb : Writes m t b jb) (hm : m.Sound) (ht : t.Proper)
    (hsa : a.Solid) (hsb : b.Solid) (h : canonical ja = canonical jb) : a.same b = true := by
  induction ha generalizing b jb with
  | scalar hp he =>
    cases hb with
    | scalar hp' he' => exact same_of_scalar hp hp' he he' h
    | fields _ hf => cases hf
  | annot _ ih =>
    cases hb with
    | annot hb => exact ih hb hm ht hsa hsb h
    | fields _ hf => cases hf
  | absent =>
    cases hb with
    | absent => rw [Value.same]
    | present hb => exact absurd (hb.eq_null_iff.2 (canonical_eq_null.1 h.symm)) hsb.present
    | fields _ hf => cases hf
  | present ha ih =>
    cases hb with
    | absent => exact absurd (ha.eq_null_iff.2 (canonical_eq_null.1 h)) hsa.present
    | present hb =>
      rw [Value.same]
      exact ih hb hm ht (hsa.part (List.mem_singleton_self _)) (hsb.part (List.mem_singleton_self _)) h
    | fields _ hf => cases hf
  | list parts _ ih =>
    cases hb with
    | list parts' hb =>
      rw [canonical_arr, canonical_arr, Json.arr.injEq, List.map_map, List.map_map] at h
      rw [Value.same, Value.sameItems_iff]
      refine ⟨by simpa using congrArg List.length h, ?_⟩
      rw [List.zip_map, List.forall_mem_map]
      intro p hp
      have hp₁ := (List.of_mem_zip hp).1
      have hp₂ := (List.of_mem_zip hp).2
      exact ih p.1 hp₁ (hb p.2 hp₂) hm ht (hsa.part (List.mem_map_of_mem hp₁))
        (hsb.part (List.mem_map_of_mem hp₂)) (eq_of_mem_zip h hp)
    | fields _ hf => cases hf
  | object parts _ ih =>
    cases hb with
    | object parts' hb =>
      have hl := (perm_of_canonical_eq h).length_eq
      simp only [List.length_map] at hl
      rw [Value.same, Bool.and_eq_true, beq_iff_eq, Value.sameFields_iff, List.forall_mem_map]
      refine ⟨by simpa using hl, fun p hp => ?_⟩
      obtain ⟨j, hj, he⟩ := exists_prop_of_canonical_eq h (List.mem_map_of_mem hp)
      obtain ⟨p', hp', hq⟩ := List.mem_map.1 hj
      obtain ⟨hn, rfl⟩ := Prod.mk.inj hq
      refine ⟨p'.2.2, hsb.wellFormed.tidy.get?_eq_some (List.mem_map.2 ⟨p', hp', by rw [hn]⟩), ?_⟩
      exact ih p hp (hb p' hp') hm ht
        (hsa.part (List.mem_map_of_mem (f := Prod.snd) (List.mem_map_of_mem hp)))
        (hsb.part (List.mem_map_of_mem (f := Prod.snd) (List.mem_map_of_mem hp'))) he
    | fields _ hf => cases hf
  | map parts _ _ ihk ihv =>
    cases hb with
    | map parts' hbk hbv =>
      rw [canonical_arr, canonical_arr, Json.arr.injEq, List.map_map, List.map_map] at h
      rw [Value.same, Value.sameEntries_iff]
      refine ⟨by simpa using congrArg List.length h, ?_⟩
      rw [List.zip_map, List.forall_mem_map]
      intro p hp
      have hp₁ := (List.of_mem_zip hp).1
      have hp₂ := (List.of_mem_zip hp).2
      obtain ⟨hk, hv⟩ := canonical_mapEntry (eq_of_mem_zip h hp)
      exact ⟨ihk p.1 hp₁ (hbk p.2 hp₂) hm ht.1 (hsa.part (mem_parts_key hp₁))
          (hsb.part (mem_parts_key hp₂)) hk,
        ihv p.1 hp₁ (hbv p.2 hp₂) hm ht.2 (hsa.part (mem_parts_value hp₁))
          (hsb.part (mem_parts_value hp₂)) hv⟩
    | fields _ hf => cases hf
  | «alias» hr _ ih =>
    cases hb with
    | «alias» hr' hb =>
      rw [hr, Option.some.injEq, Prod.mk.injEq, Decl.alias.injEq] at hr'
      obtain ⟨rfl, rfl⟩ := hr'
      exact ih hb (hm.of_resolve? hr) (hm.decl_proper hr) hsa hsb h
    | fields _ hf => exact absurd hr hf.not_alias
  | @fields m owner t tag values parts hf hl hv _ ih =>
    cases hb with
    | @fields _ owner' _ tag' values' parts' hf' hl' hv' hb =>
      have hp := hf.proper hm ht
      have hp' := hf'.proper hm ht
      obtain ⟨rfl, hs, hfields⟩ := hf.unique hf'
      obtain rfl := tag_eq_of_canonical_eq hp hp' hs h
      have hfields := hfields rfl
      rw [same_fieldsValue]
      have hlen := congrArg List.length hfields
      simp only [List.length_map] at hlen
      refine ⟨by rw [hl, hl', hlen], fun x hx => ?_⟩
      obtain ⟨p, hpm, rfl⟩ := List.mem_map.1 ((perm_named hp hl hv).mem_iff.2 hx)
      -- the other value has the same fields
      have hpf : p.field ∈ parts'.map FieldPart.field := hfields ▸ List.mem_map_of_mem hpm
      obtain ⟨p', hpm', he⟩ := List.mem_map.1 hpf
      obtain ⟨hn, hty⟩ := Prod.mk.inj he
      refine ⟨p'.value, ?_, ?_⟩
      · rw [← hv' p' hpm', hn]
        rfl
      · exact ih p hpm (hty ▸ hb p' hpm') (hf.sound hm) (hp.types _ (List.mem_map_of_mem hpm))
          (hsa.part (mem_parts_field (hv p hpm))) (hsb.part (mem_parts_field (hv' p' hpm')))
          (doc_eq_of_canonical_eq hp hp' h hpm hpm' hn)
    | «alias» hr _ => exact absurd hr hf.not_alias
    | _ => cases hf

end Codec

end Wireform

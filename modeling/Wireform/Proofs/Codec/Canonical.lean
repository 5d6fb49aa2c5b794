import Mathlib
import Wireform.Proofs.Codec.Identity
import Wireform.Proofs.Value.Equality

/-!
# Equal keys have one identity

Values that are equal are written as documents with one canonical form: these differ at most in the
order of their properties and in the sign of a zero. So keys with different identities are different.
-/

namespace Wireform.Codec

/-- Objects with the same properties up to order and canonical form have one canonical form. -/
theorem canonical_obj_congr {ps qs : Fields Json} (hp : Fields.Distinct ps) (hq : Fields.Distinct qs)
    (h : ∀ k, (Fields.get? ps k).map canonical = (Fields.get? qs k).map canonical) :
    canonical (.obj ps) = canonical (.obj qs) := by
  have hkeys : ∀ rs : Fields Json,
      Fields.keys (rs.map fun p => (p.1, canonical p.2)) = Fields.keys rs := by
    intro rs
    simp [Fields.keys, Function.comp_def]
  have hp' : Fields.Distinct (ps.map fun p => (p.1, canonical p.2)) := hp.congr (hkeys ps)
  have hq' : Fields.Distinct (qs.map fun p => (p.1, canonical p.2)) := hq.congr (hkeys qs)
  have hmem : ∀ e, e ∈ ps.map (fun p => (p.1, canonical p.2)) ↔
      e ∈ qs.map fun p => (p.1, canonical p.2) := by
    rintro ⟨k, j⟩
    rw [← hp'.get?_eq_some_iff, ← hq'.get?_eq_some_iff, Fields.get?_map fun p => canonical p.2,
      Fields.get?_map fun p => canonical p.2, h k]
  have hperm := (List.perm_ext_iff_of_nodup hp'.of_map hq'.of_map).2 hmem
  rw [canonical, canonical, canonicalProps_eq, canonicalProps_eq]
  congr 1
  unfold sortProps
  have hsorted : ∀ rs : Fields Json, (rs.mergeSort fun a b => !decide (b.1 < a.1)).Pairwise
      fun a b => (!decide (b.1 < a.1)) = true := by
    intro rs
    refine List.pairwise_mergeSort ?_ ?_ rs
    · intro a b c hab hbc
      simp only [Bool.not_eq_true', decide_eq_false_iff_not, not_lt] at hab hbc ⊢
      exact hab.trans hbc
    · intro a b
      simp only [Bool.or_eq_true, Bool.not_eq_true', decide_eq_false_iff_not, not_lt]
      exact le_total a.1 b.1
  refine List.Perm.eq_of_pairwise ?_ (hsorted _) (hsorted _)
    ((List.mergeSort_perm _ _).trans (hperm.trans (List.mergeSort_perm _ _).symm))
  -- two properties that stand before each other have one name, so they are one
  intro a b ha hb hab hba
  have ha := List.mem_mergeSort.1 ha
  have hb := hperm.mem_iff.2 (List.mem_mergeSort.1 hb)
  simp only [Bool.not_eq_true', decide_eq_false_iff_not, not_lt] at hab hba
  have hn : a.1 = b.1 := le_antisymm hab hba
  have hga := hp'.get?_eq_some ha
  rw [hn, hp'.get?_eq_some hb, Option.some.injEq] at hga
  exact Prod.ext hn hga.symm

/-- Each field is written under its name. -/
theorem get?_of_encodeFields {xs : Fields Value} {ps : Fields Json} (h : encodeFields xs = .ok ps)
    {k : String} {x : Value} (hx : Fields.get? xs k = some x) :
    ∃ j, Fields.get? ps k = some j ∧ encode x = .ok j := by
  rw [encodeFields_eq] at h
  obtain ⟨parts, rfl, rfl, hp⟩ := exists_parts_of_mapM h
  clear h
  induction parts with
  | nil => cases hx
  | cons p parts ih =>
    obtain ⟨j, hj, he⟩ := bind_eq_ok.1 (hp p (by simp))
    have hn : p.2 = (p.1.1, j) := (Except.ok.inj he).symm
    rw [List.map_cons, Fields.get?_cons] at hx ⊢
    rw [hn]
    split at hx
    · rename_i hk
      cases hx
      exact ⟨j, if_pos hk, hj⟩
    · rename_i hk
      obtain ⟨j', hg, hj'⟩ := ih hx fun p hm => hp p (by simp [hm])
      exact ⟨j', by rwa [if_neg hk], hj'⟩

section

variable {xs ys : Fields Value} {ps qs : Fields Json}

/-- Fields that are alike are written as properties with one canonical form. -/
theorem map_canonical_get?_eq (hx : Fields.Distinct xs)
    (h : Value.FieldsAlike (fun x y => ∀ i j, encode x = .ok i → encode y = .ok j →
      canonical i = canonical j) xs ys)
    (hp : encodeFields xs = .ok ps) (hq : encodeFields ys = .ok qs) (k : String) :
    (Fields.get? ps k).map canonical = (Fields.get? qs k).map canonical := by
  have hkp := keys_of_encodeFields hp
  have hkq := keys_of_encodeFields hq
  have hsub : ∀ k ∈ Fields.keys xs, k ∈ Fields.keys ys := by
    intro k hk
    obtain ⟨x, hm, rfl⟩ := List.mem_map.1 hk
    obtain ⟨y, hg, -⟩ := h.2 x hm
    exact Fields.mem_keys_of_mem (Fields.mem_of_get? hg)
  have hperm := Fields.perm_keys_of_subset (by rw [Fields.length_keys, h.1]) hx hsub
  by_cases hk : k ∈ Fields.keys xs
  · obtain ⟨x, hg⟩ := Fields.exists_get?_of_mem_keys hk
    obtain ⟨y, hgy, hr⟩ := h.2 (k, x) (Fields.mem_of_get? hg)
    obtain ⟨i, hi, hei⟩ := get?_of_encodeFields hp hg
    obtain ⟨j, hj, hej⟩ := get?_of_encodeFields hq hgy
    rw [hi, hj, Option.map_some, Option.map_some, hr i j hei hej]
  · have hn : Fields.get? ps k = none := Fields.get?_eq_none_iff.2 (by rwa [hkp])
    have hn' : Fields.get? qs k = none := by
      rw [Fields.get?_eq_none_iff, hkq]
      exact fun hm => hk (hperm.mem_iff.2 hm)
    rw [hn, hn']

/-- The same for whole objects, with a tag or without one. -/
theorem canonical_ofList_eq (tag : Option String) (hx : Fields.Distinct xs) (hy : Fields.Distinct ys)
    (h : Value.FieldsAlike (fun x y => ∀ i j, encode x = .ok i → encode y = .ok j →
      canonical i = canonical j) xs ys)
    (hp : encodeFields xs = .ok ps) (hq : encodeFields ys = .ok qs) :
    canonical (.obj (Fields.ofList (tagProps tag ++ ps))) =
      canonical (.obj (Fields.ofList (tagProps tag ++ qs))) := by
  have hdp : Fields.Distinct ps := hx.congr (keys_of_encodeFields hp)
  have hdq : Fields.Distinct qs := hy.congr (keys_of_encodeFields hq)
  have hget : ∀ rs : Fields Json, Fields.Distinct rs → ∀ k,
      Fields.get? (Fields.ofList (tagProps tag ++ rs)) k =
        (Fields.get? rs k).or (Fields.get? (tagProps tag) k) := by
    intro rs hd k
    rw [Fields.ofList, List.foldl_append, Fields.get?_foldl_insert hd]
    cases tag <;> rfl
  refine canonical_obj_congr (Fields.distinct_ofList _) (Fields.distinct_ofList _) fun k => ?_
  have hk := map_canonical_get?_eq hx h hp hq k
  rw [hget ps hdp, hget qs hdq]
  cases hgp : Fields.get? ps k <;> cases hgq : Fields.get? qs k <;> simp_all

end

/-- Equal values are written as documents with one canonical form. -/
theorem canonical_eq_of_same {a b : Value} {i j : Json} (ha : a.NamesOnce) (hb : b.NamesOnce)
    (h : a.same b = true) (hi : encode a = .ok i) (hj : encode b = .ok j) :
    canonical i = canonical j := by
  induction a using Value.parts_induction generalizing b i j with
  | step a ih =>
    have ih : ∀ x ∈ a.parts, ∀ y ∈ b.parts, x.same y = true → ∀ i j, encode x = .ok i →
        encode y = .ok j → canonical i = canonical j :=
      fun x hx y hy h i j => ih x hx (ha.part hx) (hb.part hy) h
    have hua := ha a .self
    have hub := hb b .self
    have hfields : ∀ xs ys : Fields Value, xs.map Prod.snd = a.parts → ys.map Prod.snd = b.parts →
        Value.FieldsAlike (fun x y => x.same y = true) xs ys →
        Value.FieldsAlike (fun x y => ∀ i j, encode x = .ok i → encode y = .ok j →
          canonical i = canonical j) xs ys := by
      intro xs ys hxs hys h
      refine ⟨h.1, fun x hx => ?_⟩
      obtain ⟨y, hg, hs⟩ := h.2 x hx
      exact ⟨y, hg, ih x.2 (hxs ▸ List.mem_map_of_mem hx) y
        (hys ▸ List.mem_map_of_mem (f := Prod.snd) (Fields.mem_of_get? hg)) hs⟩
    rw [Value.same_iff] at h
    cases h with
    | scalar _ _ =>
      rw [hi, Except.ok.injEq] at hj
      rw [hj]
    | @float x y h =>
      rw [encode] at hi hj
      obtain ⟨hx, rfl⟩ := writeF64_eq_ok.1 hi
      obtain ⟨hy, rfl⟩ := writeF64_eq_ok.1 hj
      rw [canonical_float, canonical_float]
      obtain ⟨-, -, rfl | ⟨hzx, hzy⟩⟩ := Double.same_iff.1 h
      · rfl
      · rw [if_pos hzx, if_pos hzy]
    | absent =>
      rw [hi, Except.ok.injEq] at hj
      rw [hj]
    | present h =>
      rw [encode] at hi hj
      exact ih _ (by simp [Value.parts]) _ (by simp [Value.parts]) h i j hi hj
    | list hl h =>
      rw [encode, encodeItems_eq] at hi hj
      obtain ⟨docs, hd, hi⟩ := bind_eq_ok.1 hi
      obtain ⟨docs', hd', hj⟩ := bind_eq_ok.1 hj
      cases hi
      cases hj
      obtain ⟨parts, rfl, rfl, hp⟩ := exists_parts_of_mapM hd
      obtain ⟨parts', rfl, rfl, hp'⟩ := exists_parts_of_mapM hd'
      rw [canonical_arr, canonical_arr, List.map_map, List.map_map]
      congr 1
      refine map_eq_map_of_getElem? (by simpa using hl) fun i p q hp₁ hq₁ => ?_
      have hfst : (parts.map Prod.fst)[i]? = some p.1 := by simp [hp₁]
      have hfst' : (parts'.map Prod.fst)[i]? = some q.1 := by simp [hq₁]
      exact ih p.1 (List.mem_of_getElem? hfst) q.1 (List.mem_of_getElem? hfst')
        (h i p.1 q.1 hfst hfst') _ _ (hp p (List.mem_of_getElem? hp₁)) (hp' q (List.mem_of_getElem? hq₁))
    | map hl h =>
      rw [encode, encodeEntries_eq] at hi hj
      obtain ⟨docs, hd, hi⟩ := bind_eq_ok.1 hi
      obtain ⟨docs', hd', hj⟩ := bind_eq_ok.1 hj
      cases hi
      cases hj
      obtain ⟨parts, rfl, rfl, hp⟩ := exists_parts_of_mapM hd
      obtain ⟨parts', rfl, rfl, hp'⟩ := exists_parts_of_mapM hd'
      rw [canonical_arr, canonical_arr, List.map_map, List.map_map]
      congr 1
      refine map_eq_map_of_getElem? (by simpa using hl) fun i p q hp₁ hq₁ => ?_
      have hfst : (parts.map Prod.fst)[i]? = some p.1 := by simp [hp₁]
      have hfst' : (parts'.map Prod.fst)[i]? = some q.1 := by simp [hq₁]
      obtain ⟨hk, hv⟩ := h i p.1 q.1 hfst hfst'
      obtain ⟨hmk, hmv⟩ := Value.mem_parts_of_getElem? hfst
      obtain ⟨hmk', hmv'⟩ := Value.mem_parts_of_getElem? hfst'
      obtain ⟨kd, hkd, he⟩ := bind_eq_ok.1 (hp p (List.mem_of_getElem? hp₁))
      obtain ⟨vd, hvd, he⟩ := bind_eq_ok.1 he
      obtain ⟨kd', hkd', he'⟩ := bind_eq_ok.1 (hp' q (List.mem_of_getElem? hq₁))
      obtain ⟨vd', hvd', he'⟩ := bind_eq_ok.1 he'
      have hck := ih _ hmk _ hmk' hk kd kd' hkd hkd'
      have hcv := ih _ hmv _ hmv' hv vd vd' hvd hvd'
      show canonical p.2 = canonical q.2
      rw [← Except.ok.inj he, ← Except.ok.inj he', mapEntry, mapEntry, canonical, canonical,
        canonicalProps_eq, canonicalProps_eq]
      simp only [List.map_cons, List.map_nil, hck, hcv]
    | @object xs ys h =>
      rw [encode] at hi hj
      obtain ⟨ps, hp, hi⟩ := bind_eq_ok.1 hi
      obtain ⟨qs, hq, hj⟩ := bind_eq_ok.1 hj
      cases hi
      cases hj
      exact canonical_ofList_eq none hua hub (hfields xs ys rfl rfl h) hp hq
    | @record xs ys h =>
      rw [encode] at hi hj
      obtain ⟨ps, hp, hi⟩ := bind_eq_ok.1 hi
      obtain ⟨qs, hq, hj⟩ := bind_eq_ok.1 hj
      cases hi
      cases hj
      exact canonical_ofList_eq none hua hub (hfields xs ys rfl rfl h) hp hq
    | @variant tag xs ys h =>
      rw [encode] at hi hj
      obtain ⟨ps, hp, hi⟩ := bind_eq_ok.1 hi
      obtain ⟨qs, hq, hj⟩ := bind_eq_ok.1 hj
      cases hi
      cases hj
      exact canonical_ofList_eq (some tag) hua hub (hfields xs ys rfl rfl h) hp hq

end Wireform.Codec

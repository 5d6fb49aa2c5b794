import Mathlib
import Wireform.Schema
import Wireform.Proofs.Schema.Validation

/-!
# Forms of exported schemas

One lemma for each way in which a schema is put together: what has to hold of a document so that it
validates. A schema of a type is an object with different keywords; a `$ref` stands alone, and the
keywords beside a `type` say nothing about `null`, so that the type can be widened.
-/

namespace Wireform.Schema

variable {document j : Json}

/-- Keywords beside a `type`. None of them says anything about `null`. -/
def quietNames : List String :=
  ["minimum", "maximum", "pattern", "items", "properties", "required", "additionalProperties",
    "$comment", "contentEncoding", "description"]

structure Exported (keywords : Fields Json) : Prop where
  distinct : Fields.Distinct keywords
  ref : "$ref" ∈ Fields.keys keywords → ∃ r, keywords = [("$ref", r)]
  typed : "type" ∈ Fields.keys keywords → ∀ k ∈ Fields.keys keywords, k ≠ "type" → k ∈ quietNames

/-! ### Setting a keyword -/

theorem mem_insert {keywords : Fields Json} (hd : Fields.Distinct keywords) {k : String} {v : Json}
    {e : String × Json} (h : e ∈ Fields.insert k v keywords) :
    e = (k, v) ∨ (e.1 ≠ k ∧ e ∈ keywords) := by
  have hg := (Fields.nodup_insert hd k v).get?_eq_some (k := e.1) (a := e.2) h
  rw [Fields.get?_insert] at hg
  split at hg
  · rename_i hk
    exact .inl (Prod.ext hk (Option.some.inj hg).symm)
  · rename_i hk
    exact .inr ⟨hk, Fields.mem_of_get? hg⟩

theorem declaredNames_insert {k : String} (hk : k ≠ "properties") (v : Json) (keywords : Fields Json) :
    declaredNames (Fields.insert k v keywords) = declaredNames keywords := by
  rw [declaredNames, Fields.get?_insert, if_neg (Ne.symm hk), declaredNames]

theorem validates_insert {keywords : Fields Json} {k : String} {v : Json}
    (hd : Fields.Distinct keywords) (hr : Fields.get? keywords "$ref" = none) (hk : k ≠ "$ref")
    (hp : k ≠ "properties") (hv : Passes document (declaredNames keywords) j k v)
    (h : ∀ e ∈ keywords, e.1 ≠ k → Passes document (declaredNames keywords) j e.1 e.2) :
    Validates document (.obj (Fields.insert k v keywords)) j := by
  rw [validates_obj (by rw [Fields.get?_insert, if_neg (Ne.symm hk), hr]), declaredNames_insert hp]
  intro e he
  rcases mem_insert hd he with rfl | ⟨hne, he⟩
  · exact hv
  · exact h e he hne

section

variable {keywords : Fields Json}

theorem Exported.ref_eq_none (h : Exported keywords) {k : String} (hk : k ∈ Fields.keys keywords)
    (hne : k ≠ "$ref") : Fields.get? keywords "$ref" = none := by
  rw [Fields.get?_eq_none_iff]
  intro hm
  obtain ⟨r, rfl⟩ := h.ref hm
  simp [hne] at hk

theorem Exported.type_ref_eq_none (h : Exported keywords) {t : Json}
    (ht : Fields.get? keywords "type" = some t) : Fields.get? keywords "$ref" = none :=
  h.ref_eq_none (Fields.mem_keys_of_mem (Fields.mem_of_get? ht)) (by simp)

/-! ### Schemas that accept `null` too -/

theorem hasType_null_of_ne (hj : j ≠ .null) : hasType "null" j = some false := by
  cases j with
  | null => exact absurd rfl hj
  | _ => rfl

/-- The name of `null` among the types says nothing about other documents. -/
theorem typeVerdict_append_null (names : List Json) (hj : j ≠ .null) :
    typeVerdict (.arr (names ++ [.str "null"])) j = typeVerdict (.arr names) j := by
  have hnull : ((Json.str "null").str?.bind fun name => hasType name j) = some false :=
    hasType_null_of_ne hj
  rw [typeVerdict, List.map_append, List.map_singleton, hnull, Verdict.any_append_false, typeVerdict]

/-- A widened `type` accepts `null` and judges everything else as before. -/
theorem widenedType?_eq_some {types : Json} (h : widenedType? (.obj keywords) = some types) :
    ∃ t, Fields.get? keywords "type" = some t ∧ typeVerdict types .null = some true ∧
      ∀ j, j ≠ .null → typeVerdict types j = typeVerdict t j := by
  have hnull : ∀ names, Json.str "null" ∈ names → typeVerdict (.arr names) .null = some true :=
    fun names hm => Verdict.any_eq_true.2 (List.mem_map.2 ⟨.str "null", hm, rfl⟩)
  rw [widenedType?, Json.prop?] at h
  split at h
  · rename_i name ht
    obtain rfl := Option.some.inj h
    refine ⟨_, ht, hnull _ (by simp), fun j hj => ?_⟩
    exact (typeVerdict_append_null [.str name] hj).trans (Verdict.any_singleton _)
  · rename_i names ht
    obtain rfl := Option.some.inj h
    refine ⟨_, ht, ?_, fun j hj => ?_⟩
    · split
      · rename_i ha
        obtain ⟨x, hx, hn⟩ := List.any_eq_true.1 ha
        cases x with
        | str s =>
          obtain rfl : s = "null" := by simpa [isNullName] using hn
          exact hnull names hx
        | _ => cases hn
      · exact hnull _ (by simp)
    · split
      · rfl
      · exact typeVerdict_append_null names hj
  · cases h

theorem Exported.nullable (h : Exported keywords) :
    ∃ keywords', Schema.nullable (.obj keywords) = .obj keywords' ∧ Exported keywords' := by
  unfold Schema.nullable
  split
  · rename_i types hw
    obtain ⟨t, ht, -, -⟩ := widenedType?_eq_some hw
    have hm : "type" ∈ Fields.keys keywords := Fields.mem_keys_of_mem (Fields.mem_of_get? ht)
    have hk : Fields.keys (Fields.insert "type" types keywords) = Fields.keys keywords := by
      rw [Fields.keys_insert, if_pos hm]
    refine ⟨_, rfl, Fields.nodup_insert h.distinct _ _, ?_, ?_⟩
    · rw [hk]
      exact fun hr => absurd hr (Fields.get?_eq_none_iff.1 (h.type_ref_eq_none ht))
    · rw [hk]
      exact h.typed
  · exact ⟨_, rfl, by simp [Fields.Distinct, Fields.keys], by simp [Fields.keys],
      by simp [Fields.keys]⟩

/-! ### Described schemas -/

theorem Exported.validates_describe (h : Exported keywords) (doc : String)
    (hv : Validates document (.obj keywords) j) :
    Validates document (describe doc (.obj keywords)) j := by
  unfold describe
  simp only
  split
  · refine validates_insert (by simp [Fields.Distinct, Fields.keys]) rfl (by simp) (by simp)
      (passes_remark (by simp [remarks])) ?_
    simp only [List.forall_mem_singleton]
    exact fun _ => passes_allOf (by simpa using hv)
  · rename_i hr
    have hr : Fields.get? keywords "$ref" = none := by simpa [Json.prop?] using hr
    rw [validates_obj hr] at hv
    exact validates_insert h.distinct hr (by simp) (by simp) (passes_remark (by simp [remarks]))
      fun e he _ => hv e he

theorem Exported.describe (h : Exported keywords) (doc : String) :
    ∃ keywords', Schema.describe doc (.obj keywords) = .obj keywords' ∧ Exported keywords' := by
  unfold Schema.describe
  simp only
  split
  · exact ⟨_, rfl, by simp [Fields.Distinct, Fields.keys, Fields.insert],
      by simp [Fields.keys, Fields.insert], by simp [Fields.keys, Fields.insert]⟩
  · rename_i hr
    have hr : Fields.get? keywords "$ref" = none := by simpa [Json.prop?] using hr
    have hk : ∀ k, k ∈ Fields.keys (Fields.insert "description" (.str doc) keywords) ↔
        k ∈ Fields.keys keywords ∨ k = "description" := by
      intro k
      rw [Fields.keys_insert]
      split
      · rename_i hm
        exact ⟨.inl, fun h => h.elim id fun h => h ▸ hm⟩
      · simp
    refine ⟨_, rfl, Fields.nodup_insert h.distinct _ _, ?_, ?_⟩
    · rw [hk]
      rintro (hm | hm)
      · exact absurd hm (Fields.get?_eq_none_iff.1 hr)
      · simp at hm
    · rw [hk]
      intro ht k hm hne
      have ht := ht.resolve_right (by simp)
      rcases (hk k).1 hm with hm | rfl
      · exact h.typed ht k hm hne
      · simp [quietNames]

end

/-! ### Schemas of types -/

theorem exported_of_keys {keywords : Fields Json} (names : List String)
    (hk : Fields.keys keywords = names)
    (h : names.Nodup ∧ "$ref" ∉ names ∧
      ("type" ∈ names → ∀ k ∈ names, k ≠ "type" → k ∈ quietNames)) : Exported keywords := by
  subst hk
  exact ⟨h.1, fun hr => absurd hr h.2.1, h.2.2⟩

theorem exported_ofTyWithin (w : Option String) :
    ∀ t : Ty, ∃ keywords, ofTyWithin w t = .obj keywords ∧ Exported keywords
  | .prim p => by
    refine ⟨_, by rw [ofTyWithin]; rfl, exported_of_keys _ rfl ?_⟩
    cases p <;> decide
  | .optional t => by
    obtain ⟨keywords, he, hx⟩ := exported_ofTyWithin w t
    rw [ofTyWithin, he]
    exact hx.nullable
  | .annot doc t => by
    obtain ⟨keywords, he, hx⟩ := exported_ofTyWithin w t
    rw [ofTyWithin, he]
    exact hx.describe doc
  | .list t => ⟨_, by rw [ofTyWithin]; rfl, exported_of_keys ["type", "items"] rfl (by decide)⟩
  | .object t =>
    ⟨_, by rw [ofTyWithin], exported_of_keys ["type", "additionalProperties"] rfl (by decide)⟩
  | .map k v => ⟨_, by rw [ofTyWithin]; rfl, exported_of_keys ["type", "items"] rfl (by decide)⟩
  | .record fields => ⟨_, by rw [ofTyWithin]; rfl, exported_of_keys
      ["type", "properties", "required", "additionalProperties"] rfl (by decide)⟩
  | .sum variants => ⟨_, by rw [ofTyWithin], exported_of_keys ["oneOf"] rfl (by decide)⟩
  | .ref r => by
    refine ⟨_, by rw [ofTyWithin]; rfl, by simp [Fields.Distinct, Fields.keys], fun _ => ⟨_, rfl⟩, ?_⟩
    simp [Fields.keys]

end Wireform.Schema

import Mathlib
import Wireform.Proofs.Schema.Exported

/-!
# Schemas of optional types

The schema of an optional type accepts `null` and what the schema of the type accepts, whatever the
definitions that references lead to, and it rejects the rest (`validates_optional_iff`). `null` passes
because no keyword that can stand beside a `type` says anything about it. On everything else the two
schemas give the same verdict: with a widened `type` after as many steps, and behind an `anyOf` after
one step more (`Exported.check_nullable`).
-/

namespace Wireform.Schema

variable {document j : Json} {keywords : Fields Json}

/-! ### The document `null` -/

theorem passes_null {name : String} (h : name ∈ quietNames) (declared : List String) (value : Json) :
    Passes document declared .null name value := by
  refine ⟨0, fun _ _ => ?_⟩
  simp only [quietNames, List.mem_cons, List.not_mem_nil, or_false] at h
  rcases h with rfl | rfl | rfl | rfl | rfl | rfl | rfl | rfl | rfl | rfl <;> rfl

theorem validates_nullType : Validates document (.obj [("type", .str "null")]) .null := by
  rw [validates_obj rfl]
  simp only [List.forall_mem_singleton]
  exact passes_type rfl

theorem Exported.validates_null (h : Exported keywords) :
    Validates document (Schema.nullable (.obj keywords)) .null := by
  unfold Schema.nullable
  split
  · rename_i types hw
    obtain ⟨t, ht, hnull, -⟩ := widenedType?_eq_some hw
    have hm : "type" ∈ Fields.keys keywords := Fields.mem_keys_of_mem (Fields.mem_of_get? ht)
    refine validates_insert h.distinct (h.type_ref_eq_none ht) (by simp) (by simp)
      (passes_type hnull) fun e he hne => ?_
    exact passes_null (h.typed hm e.1 (Fields.mem_keys_of_mem he) hne) _ _
  · rw [validates_obj rfl]
    simp only [List.forall_mem_singleton]
    exact passes_anyOf (by simp) validates_nullType

/-! ### Other documents -/

/-- Setting a keyword to a value that says the same leaves what the keywords say. -/
theorem map_insert_eq {f : String → Json → Verdict} {k : String} {v t : Json}
    (hk : Fields.get? keywords k = some t) (hf : f k v = f k t) :
    (Fields.insert k v keywords).map (fun e => f e.1 e.2) = keywords.map fun e => f e.1 e.2 := by
  induction keywords with
  | nil => cases hk
  | cons e keywords ih =>
    obtain ⟨k', v'⟩ := e
    rw [Fields.get?_cons] at hk
    rw [Fields.insert]
    by_cases he : k = k'
    · rw [if_pos he] at hk
      obtain rfl := he
      obtain rfl : v' = t := Option.some.inj hk
      simp [hf]
    · rw [if_neg he] at hk
      rw [if_neg (Ne.symm he), List.map_cons, ih hk, List.map_cons]

theorem check_setType {types t : Json} (hr : Fields.get? keywords "$ref" = none)
    (ht : Fields.get? keywords "type" = some t) (he : typeVerdict types j = typeVerdict t j)
    (steps : Nat) : check document steps (.obj (Fields.insert "type" types keywords)) j =
      check document steps (.obj keywords) j := by
  cases steps with
  | zero => rfl
  | succ steps =>
    have hr' : Fields.get? (Fields.insert "type" types keywords) "$ref" = none := by
      rw [Fields.get?_insert, if_neg (by simp), hr]
    rw [check, check, hr', hr]
    -- The names under `properties` are the same, and so is what each keyword says, the type included.
    simp only [declaredNames_insert (by simp : "type" ≠ "properties")]
    exact congrArg Verdict.all (map_insert_eq ht he)

theorem check_nullType (hj : j ≠ .null) (steps : Nat) :
    check document (steps + 1) (.obj [("type", .str "null")]) j = some false :=
  (Verdict.all_singleton _).trans (hasType_null_of_ne hj)

theorem check_orNull (schema : Json) (hj : j ≠ .null) (steps : Nat) :
    check document (steps + 2) (.obj [("anyOf", .arr [schema, .obj [("type", .str "null")]])]) j =
      check document (steps + 1) schema j := by
  calc check document (steps + 2) (.obj [("anyOf", .arr [schema, .obj [("type", .str "null")]])]) j
      = Verdict.any ([check document (steps + 1) schema j] ++
          [check document (steps + 1) (.obj [("type", .str "null")]) j]) := Verdict.all_singleton _
    _ = Verdict.any [check document (steps + 1) schema j] := by
      rw [check_nullType hj, Verdict.any_append_false]
    _ = check document (steps + 1) schema j := Verdict.any_singleton _

theorem Exported.check_nullable (h : Exported keywords) (document : Json) (hj : j ≠ .null) :
    ∃ d, ∀ steps, check document (steps + 1 + d) (Schema.nullable (.obj keywords)) j =
      check document (steps + 1) (.obj keywords) j := by
  unfold Schema.nullable
  split
  · rename_i types hw
    obtain ⟨t, ht, -, he⟩ := widenedType?_eq_some hw
    exact ⟨0, fun steps => check_setType (h.type_ref_eq_none ht) ht (he j hj) (steps + 1)⟩
  · exact ⟨1, fun steps => check_orNull (.obj keywords) hj steps⟩

/-- Two checks come to the same verdict if one is only some steps behind the other. -/
theorem settles_iff_of_shift {f g : Nat → Verdict} {d : Nat} (h : ∀ n, f (n + 1 + d) = g (n + 1))
    (v : Verdict) : (∃ n, ∀ steps ≥ n, f steps = v) ↔ ∃ n, ∀ steps ≥ n, g steps = v := by
  constructor
  · rintro ⟨n, hn⟩
    refine ⟨n + 1, fun steps hs => ?_⟩
    obtain ⟨steps, rfl⟩ : ∃ k, steps = k + 1 := ⟨steps - 1, by omega⟩
    rw [← h, hn _ (by omega)]
  · rintro ⟨n, hn⟩
    refine ⟨n + 1 + d, fun steps hs => ?_⟩
    obtain ⟨steps, rfl⟩ : ∃ k, steps = k + 1 + d := ⟨steps - 1 - d, by omega⟩
    rw [h, hn _ (by omega)]

/-! ### All documents -/

theorem Exported.validates_nullable_iff (h : Exported keywords) :
    Validates document (Schema.nullable (.obj keywords)) j ↔
      j = .null ∨ Validates document (.obj keywords) j := by
  by_cases hj : j = .null
  · subst hj
    exact iff_of_true h.validates_null (.inl rfl)
  · obtain ⟨d, hd⟩ := h.check_nullable document hj
    rw [or_iff_right hj]
    exact settles_iff_of_shift hd _

theorem Exported.rejects_nullable_iff (h : Exported keywords) :
    Rejects document (Schema.nullable (.obj keywords)) j ↔
      j ≠ .null ∧ Rejects document (.obj keywords) j := by
  by_cases hj : j = .null
  · subst hj
    exact iff_of_false h.validates_null.not_rejects fun hr => hr.1 rfl
  · obtain ⟨d, hd⟩ := h.check_nullable document hj
    rw [and_iff_right hj]
    exact settles_iff_of_shift hd _

/-- An optional type adds `null` to what the type accepts, and nothing else. -/
theorem validates_optional_iff (document : Json) (t : Ty) (j : Json) :
    (Validates document (ofTy (.optional t)) j ↔ j = .null ∨ Validates document (ofTy t) j) ∧
    (Rejects document (ofTy (.optional t)) j ↔ j ≠ .null ∧ Rejects document (ofTy t) j) := by
  obtain ⟨keywords, he, hx⟩ := exported_ofTyWithin none t
  have ho : ofTy (.optional t) = nullable (.obj keywords) := by rw [ofTy, ofTyWithin, he]
  rw [ho, ofTy, he]
  exact ⟨hx.validates_nullable_iff, hx.rejects_nullable_iff⟩

end Wireform.Schema

import Mathlib
import Wireform.Decl
import Wireform.Proofs.Fields

/-!
# Proper types

A type is proper if the fields of each record and of each variant in it have different names, and no
field of a variant is named like the discriminator. It is exclusive if the tags of each sum in it are
different. References are not followed here; what they point at is a matter of the module.
-/

namespace Wireform

namespace Ty

/-- The types that a type is directly made of. -/
def parts : Ty → List Ty
  | .prim _ => []
  | .optional t => [t]
  | .list t => [t]
  | .object t => [t]
  | .map k v => [k, v]
  | .record fields => fields.map Prod.snd
  | .sum variants => variants.flatMap fun v => v.2.map Prod.snd
  | .annot _ t => [t]
  | .ref _ => []

theorem sizeOf_lt_of_mem_parts {t s : Ty} (h : s ∈ t.parts) : sizeOf s < sizeOf t := by
  have hfield : ∀ fs : List (String × Ty), s ∈ fs.map Prod.snd → sizeOf s < sizeOf fs := by
    intro fs hs
    obtain ⟨f, hf, rfl⟩ := List.mem_map.1 hs
    have h := List.sizeOf_lt_of_mem hf
    have h' : sizeOf f = 1 + sizeOf f.1 + sizeOf f.2 := by cases f; rfl
    omega
  cases t with
  | prim p => cases h
  | ref r => cases h
  | optional t | list t | object t | annot doc t =>
    rw [List.mem_singleton.1 h]
    decreasing_tactic
  | map k v =>
    simp only [parts, List.mem_cons, List.not_mem_nil, or_false] at h
    rcases h with rfl | rfl <;> decreasing_tactic
  | record fields =>
    have h := hfield fields h
    simp only [record.sizeOf_spec]
    omega
  | sum variants =>
    obtain ⟨v, hv, h⟩ := List.mem_flatMap.1 h
    have h := hfield v.2 h
    have hv := List.sizeOf_lt_of_mem hv
    have h' : sizeOf v = 1 + sizeOf v.1 + sizeOf v.2 := by cases v; rfl
    simp only [sum.sizeOf_spec]
    omega

theorem parts_induction {P : Ty → Prop} (step : ∀ t, (∀ s ∈ t.parts, P s) → P t) (t : Ty) : P t :=
  step t fun s _ => parts_induction step s
termination_by t
decreasing_by exact sizeOf_lt_of_mem_parts ‹_›

/-- `t.Within s`: `s` is `t` or a part of a part of it, however deep. -/
def Within : Ty → Ty → Prop := Relation.ReflTransGen fun t s => s ∈ t.parts

theorem forall_within {P : Ty → Prop} {t : Ty} :
    (∀ s, t.Within s → P s) ↔ P t ∧ ∀ u ∈ t.parts, ∀ s, u.Within s → P s := by
  constructor
  · exact fun h => ⟨h t .refl, fun u hu s hs => h s (.head hu hs)⟩
  · rintro ⟨ht, hparts⟩ s hs
    rcases hs.cases_head with rfl | ⟨u, hu, hs⟩
    · exact ht
    · exact hparts u hu s hs

theorem within_stripAnnot (t : Ty) : t.Within t.stripAnnot := by
  fun_induction Ty.stripAnnot t with
  | case1 doc t ih => exact .head (by simp [Ty.parts]) ih
  | case2 t h => exact .refl

mutual

def Proper : Ty → Prop
  | .prim _ => True
  | .optional t => t.Proper
  | .list t => t.Proper
  | .object t => t.Proper
  | .map k v => k.Proper ∧ v.Proper
  | .record fields => Fields.Distinct fields ∧ ProperEach fields
  | .sum variants => ProperVariants variants
  | .annot _ t => t.Proper
  | .ref _ => True

def ProperEach : List (String × Ty) → Prop
  | [] => True
  | (_, t) :: fields => t.Proper ∧ ProperEach fields

def ProperVariants : List (String × List (String × Ty)) → Prop
  | [] => True
  | (_, fields) :: variants =>
    (Fields.Distinct fields ∧ discriminator ∉ Fields.keys fields ∧ ProperEach fields) ∧
      ProperVariants variants

end

mutual

def Exclusive : Ty → Prop
  | .prim _ => True
  | .optional t => t.Exclusive
  | .list t => t.Exclusive
  | .object t => t.Exclusive
  | .map k v => k.Exclusive ∧ v.Exclusive
  | .record fields => ExclusiveEach fields
  | .sum variants => Fields.Distinct variants ∧ ExclusiveVariants variants
  | .annot _ t => t.Exclusive
  | .ref _ => True

def ExclusiveEach : List (String × Ty) → Prop
  | [] => True
  | (_, t) :: fields => t.Exclusive ∧ ExclusiveEach fields

def ExclusiveVariants : List (String × List (String × Ty)) → Prop
  | [] => True
  | (_, fields) :: variants => ExclusiveEach fields ∧ ExclusiveVariants variants

end

/-- All names in the type are as they should be. -/
def Clear (t : Ty) : Prop := t.Proper ∧ t.Exclusive

theorem properEach_iff {fields : Fields Ty} : ProperEach fields ↔ ∀ f ∈ fields, f.2.Proper := by
  induction fields with
  | nil => simp [ProperEach]
  | cons f fields ih => simp [ProperEach, ih]

theorem exclusiveEach_iff {fields : Fields Ty} :
    ExclusiveEach fields ↔ ∀ f ∈ fields, f.2.Exclusive := by
  induction fields with
  | nil => simp [ExclusiveEach]
  | cons f fields ih => simp [ExclusiveEach, ih]

theorem exclusiveVariants_iff {variants : List Variant} :
    ExclusiveVariants variants ↔ ∀ v ∈ variants, ∀ f ∈ v.2, f.2.Exclusive := by
  induction variants with
  | nil => simp [ExclusiveVariants]
  | cons v variants ih => rw [ExclusiveVariants, ih, exclusiveEach_iff, List.forall_mem_cons]

theorem exclusive_sum {variants : List Variant} :
    (Ty.sum variants).Exclusive ↔
      Fields.Distinct variants ∧ ∀ v ∈ variants, ∀ f ∈ v.2, f.2.Exclusive := by
  rw [Exclusive, exclusiveVariants_iff]

end Ty

/-- The fields of an object, under a tag or without one: different names, none of them the name of
the discriminator if there is a tag, and proper types. -/
structure Fields.Proper (tag : Option String) (fields : Fields Ty) : Prop where
  distinct : Fields.Distinct fields
  untagged : tag.isSome → discriminator ∉ Fields.keys fields
  types : ∀ f ∈ fields, f.2.Proper

theorem Ty.proper_record {fields : Fields Ty} :
    (Ty.record fields).Proper ↔ Fields.Proper none fields := by
  rw [Proper, properEach_iff]
  exact ⟨fun h => ⟨h.1, by simp, h.2⟩, fun h => ⟨h.distinct, h.types⟩⟩

theorem Ty.clear_record {fields : Fields Ty} (hd : Fields.Distinct fields)
    (ht : ∀ f ∈ fields, f.2.Clear) : (Ty.record fields).Clear :=
  ⟨Ty.proper_record.2 ⟨hd, by simp, fun f hf => (ht f hf).1⟩,
    exclusiveEach_iff.2 fun f hf => (ht f hf).2⟩

theorem Ty.proper_sum {variants : List Variant} :
    (Ty.sum variants).Proper ↔ ∀ v ∈ variants, Fields.Proper (some v.1) v.2 := by
  rw [Proper]
  induction variants with
  | nil => simp [ProperVariants]
  | cons v variants ih =>
    rw [ProperVariants, ih, properEach_iff, List.forall_mem_cons]
    refine and_congr_left fun _ => ?_
    exact ⟨fun h => ⟨h.1, fun _ => h.2.1, h.2.2⟩, fun h => ⟨h.distinct, h.untagged rfl, h.types⟩⟩

/-! ### Names of fields alone -/

namespace Ty

/-- The fields of a record, or of each variant of a sum, have different names. -/
def FieldsDiffer : Ty → Prop
  | .record fields => Fields.Distinct fields
  | .sum variants => ∀ v ∈ variants, Fields.Distinct v.2
  | _ => True

/-- So it is in the type and in all types inside it. -/
def NamesDiffer (t : Ty) : Prop := ∀ s, t.Within s → s.FieldsDiffer

variable {t s : Ty}

theorem NamesDiffer.part (h : t.NamesDiffer) (hs : s ∈ t.parts) : s.NamesDiffer :=
  fun u hu => h u (.head hs hu)

theorem Proper.part (h : t.Proper) (hs : s ∈ t.parts) : s.Proper := by
  cases t with
  | prim _ | ref _ => cases hs
  | optional t | list t | object t | annot _ t => exact List.mem_singleton.1 hs ▸ h
  | map k v =>
    rcases List.mem_cons.1 hs with rfl | hs
    · exact h.1
    · exact List.mem_singleton.1 hs ▸ h.2
  | record fields =>
    obtain ⟨f, hf, rfl⟩ := List.mem_map.1 hs
    exact (proper_record.1 h).types f hf
  | sum variants =>
    obtain ⟨v, hv, hs⟩ := List.mem_flatMap.1 hs
    obtain ⟨f, hf, rfl⟩ := List.mem_map.1 hs
    exact (proper_sum.1 h v hv).types f hf

theorem Proper.fieldsDiffer (h : t.Proper) : t.FieldsDiffer := by
  cases t with
  | record fields => exact (proper_record.1 h).distinct
  | sum variants => exact fun v hv => (proper_sum.1 h v hv).distinct
  | _ => trivial

theorem Proper.namesDiffer (h : t.Proper) : t.NamesDiffer := by
  intro s hs
  have hp : s.Proper := by
    induction hs with
    | refl => exact h
    | tail _ hu ih => exact ih.part hu
  exact hp.fieldsDiffer

end Ty

/-- A table whose members have different names, none of them the name of row positions, and whose
arrows join what they should. -/
structure TableSpec.Proper (spec : TableSpec) : Prop where
  members : (spec.objects ++ spec.attrTypes.keys ++ spec.homs.map Arrow.name ++
    spec.attrs.map Arrow.name).Nodup
  noRowId : rowId ∉ spec.objects ++ spec.attrTypes.keys ++ spec.homs.map Arrow.name ++
    spec.attrs.map Arrow.name
  homs : ∀ a ∈ spec.homs, a.dom ∈ spec.objects ∧ a.codom ∈ spec.objects
  attrs : ∀ a ∈ spec.attrs, a.dom ∈ spec.objects ∧ a.codom ∈ spec.attrTypes.keys
  types : ∀ a ∈ spec.attrTypes, a.2.Proper

/-- All types in the declaration are proper. -/
def Decl.Proper : Decl → Prop
  | .alias t => t.Proper
  | .struct fields => Fields.Proper none fields
  | .sum variants => ∀ v ∈ variants, Fields.Proper (some v.1) v.2
  | .variant _ _ => True
  | .table spec => spec.Proper

/-- All types in the declaration are exclusive, those of a table aside. The tags of a declared sum are
names of the module. -/
def Decl.Exclusive : Decl → Prop
  | .alias t => t.Exclusive
  | .struct fields => ∀ f ∈ fields, f.2.Exclusive
  | .sum variants => ∀ v ∈ variants, ∀ f ∈ v.2, f.2.Exclusive
  | .variant _ _ => True
  | .table _ => True

end Wireform

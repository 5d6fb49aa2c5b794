import Mathlib
import Wireform.Proofs.Module.Expose

/-!
# Types of objects with fixed names

Inline records and sums, declared structs and sums, and tags as types of their own all describe
objects in the same way: under a tag, or without one, there is a list of fields, whose types belong
to some module. `Fieldset` says which, so that everything about such objects is proved once.
-/

namespace Wireform.Module

/-- At the type `t` of `m` an object with this tag has these fields, found from `owner`. -/
inductive Fieldset (m : Module) : Ty → Module → Option String → Fields Ty → Prop
  | record {fields : Fields Ty} : Fieldset m (.record fields) m none fields
  | sum {variants : List Variant} {tag : String} {fields : Fields Ty} :
    Fields.get? variants tag = some fields → Fieldset m (.sum variants) m (some tag) fields
  | struct {r : Ref} {owner : Module} {fields : Fields Ty} :
    m.resolve? r = some (owner, .struct fields) → Fieldset m (.ref r) owner none fields
  | declaredSum {r : Ref} {owner : Module} {variants : List Variant} {tag : String}
      {fields : Fields Ty} :
    m.resolve? r = some (owner, .sum variants) → Fields.get? variants tag = some fields →
      Fieldset m (.ref r) owner (some tag) fields
  | variant {r : Ref} {owner : Module} {parent : String} {index : Nat} {tag : String}
      {fields : Fields Ty} :
    m.resolve? r = some (owner, .variant parent index) →
      owner.variant? parent index = some (tag, fields) → Fieldset m (.ref r) owner (some tag) fields

namespace Fieldset

variable {m owner owner' : Module} {t : Ty} {tag tag' : Option String} {fields fields' : Fields Ty}

theorem sound (h : Fieldset m t owner tag fields) (hm : m.Sound) : owner.Sound := by
  cases h with
  | record | sum _ => exact hm
  | struct hr | declaredSum hr _ | variant hr _ => exact hm.of_resolve? hr

theorem proper (h : Fieldset m t owner tag fields) (hm : m.Sound) (ht : t.Proper) :
    Fields.Proper tag fields := by
  cases h with
  | record => exact Ty.proper_record.1 ht
  | sum hg => exact Ty.proper_sum.1 ht _ (Fields.mem_of_get? hg)
  | struct hr => exact hm.decl_proper hr
  | declaredSum hr hg => exact hm.decl_proper hr _ (Fields.mem_of_get? hg)
  | variant hr hv => exact (hm.of_resolve? hr).orderly.variant_proper hv

/-- What is asked of the type alone holds of its fields, declared ones included. -/
theorem differ (h : Fieldset m t owner tag fields) (hm : m.Sound) (ht : t.NamesDiffer) :
    Fields.Distinct fields ∧ ∀ f ∈ fields, f.2.NamesDiffer := by
  have hdeclared : Fields.Proper tag fields →
      Fields.Distinct fields ∧ ∀ f ∈ fields, f.2.NamesDiffer :=
    fun hp => ⟨hp.distinct, fun f hf => (hp.types f hf).namesDiffer⟩
  cases h with
  | record => exact ⟨ht _ .refl, fun f hf => ht.part (List.mem_map_of_mem hf)⟩
  | @sum variants tag fields hg =>
    have hv := Fields.mem_of_get? hg
    refine ⟨ht _ .refl _ hv, fun f hf => ht.part ?_⟩
    exact List.mem_flatMap.2 ⟨_, hv, List.mem_map_of_mem hf⟩
  | struct hr => exact hdeclared (hm.decl_proper hr)
  | declaredSum hr hg => exact hdeclared (hm.decl_proper hr _ (Fields.mem_of_get? hg))
  | variant hr hv => exact hdeclared ((hm.of_resolve? hr).orderly.variant_proper hv)

theorem exclusive (h : Fieldset m t owner tag fields) (hm : m.Sound) (ht : t.Exclusive) :
    ∀ f ∈ fields, f.2.Exclusive := by
  cases h with
  | record => exact Ty.exclusiveEach_iff.1 ht
  | sum hg => exact (Ty.exclusive_sum.1 ht).2 _ (Fields.mem_of_get? hg)
  | struct hr => exact hm.decl_exclusive hr
  | declaredSum hr hg => exact hm.decl_exclusive hr _ (Fields.mem_of_get? hg)
  | variant hr hv => exact (hm.of_resolve? hr).orderly.variant_exclusive hv

/-- The tag decides on the fields, and the type on whether there is a tag. -/
theorem unique (h : Fieldset m t owner tag fields) (h' : Fieldset m t owner' tag' fields') :
    owner = owner' ∧ tag.isSome = tag'.isSome ∧ (tag = tag' → fields = fields') := by
  cases h with
  | record =>
    cases h'
    exact ⟨rfl, rfl, fun _ => rfl⟩
  | sum hg =>
    cases h' with
    | sum hg' =>
      refine ⟨rfl, rfl, fun he => ?_⟩
      rw [← Option.some.inj he, hg] at hg'
      exact Option.some.inj hg'
  | struct hr =>
    cases h' with
    | struct hr' =>
      rw [hr, Option.some.injEq, Prod.mk.injEq, Decl.struct.injEq] at hr'
      exact ⟨hr'.1, rfl, fun _ => hr'.2⟩
    | declaredSum hr' _ | variant hr' _ => rw [hr] at hr'; cases hr'
  | declaredSum hr hg =>
    cases h' with
    | declaredSum hr' hg' =>
      rw [hr, Option.some.injEq, Prod.mk.injEq, Decl.sum.injEq] at hr'
      obtain ⟨rfl, rfl⟩ := hr'
      refine ⟨rfl, rfl, fun he => ?_⟩
      rw [← Option.some.inj he, hg] at hg'
      exact Option.some.inj hg'
    | struct hr' | variant hr' _ => rw [hr] at hr'; cases hr'
  | variant hr hv =>
    cases h' with
    | variant hr' hv' =>
      rw [hr, Option.some.injEq, Prod.mk.injEq, Decl.variant.injEq] at hr'
      obtain ⟨rfl, rfl, rfl⟩ := hr'
      rw [hv, Option.some.injEq, Prod.mk.injEq] at hv'
      exact ⟨rfl, rfl, fun _ => hv'.2⟩
    | struct hr' | declaredSum hr' _ => rw [hr] at hr'; cases hr'

theorem not_alias {r : Ref} {s : Ty} (h : Fieldset m (.ref r) owner tag fields) :
    m.resolve? r ≠ some (owner', .alias s) := by
  intro ha
  cases h with
  | struct hr | declaredSum hr _ | variant hr _ => rw [hr] at ha; cases ha

/-- The shape of the type: a record, or a sum or a tag that has the tag. -/
theorem expose (h : Fieldset m t owner tag fields) :
    ∃ label head, m.expose t = ⟨owner, label, head⟩ ∧
      ((tag = none ∧ head = .record fields) ∨
        ∃ s, tag = some s ∧
          ((∃ variants, head = .sum variants ∧ Fields.get? variants s = some fields) ∨
            ∃ parent, head = .tag parent (some (s, fields)))) := by
  cases h with
  | record =>
    rw [expose_inline m (by simp) (by simp)]
    exact ⟨_, _, rfl, .inl ⟨rfl, rfl⟩⟩
  | sum hg =>
    rw [expose_inline m (by simp) (by simp)]
    exact ⟨_, _, rfl, .inr ⟨_, rfl, .inl ⟨_, rfl, hg⟩⟩⟩
  | struct hr =>
    rw [expose_decl hr (by simp)]
    exact ⟨_, _, rfl, .inl ⟨rfl, rfl⟩⟩
  | declaredSum hr hg =>
    rw [expose_decl hr (by simp)]
    exact ⟨_, _, rfl, .inr ⟨_, rfl, .inl ⟨_, rfl, hg⟩⟩⟩
  | variant hr hv =>
    rw [expose_decl hr (by simp), exposeDecl, hv]
    exact ⟨_, _, rfl, .inr ⟨_, rfl, .inr ⟨_, rfl⟩⟩⟩

end Fieldset

/-- What a type is that has this shape, unless it is documentation or an alias. -/
def Shaped (m : Module) (t : Ty) (e : Exposed) : Prop :=
  match e.head with
  | .prim p => t = .prim p
  | .optional s => t = .optional s ∧ e.owner = m
  | .list s => t = .list s ∧ e.owner = m
  | .object s => t = .object s ∧ e.owner = m
  | .map k s => t = .map k s ∧ e.owner = m
  | .record fields => m.Fieldset t e.owner none fields
  | .sum variants => ∀ tag fields, Fields.get? variants tag = some fields →
    m.Fieldset t e.owner (some tag) fields
  | .tag _ (some (tag, fields)) => m.Fieldset t e.owner (some tag) fields
  | _ => True

theorem shaped_expose {m : Module} {t : Ty} (ha : ∀ doc s, t ≠ .annot doc s)
    (hr : ∀ r owner s, t = .ref r → m.resolve? r ≠ some (owner, .alias s)) :
    m.Shaped t (m.expose t) := by
  cases t with
  | annot doc t => exact absurd rfl (ha doc t)
  | ref r =>
    cases hres : m.resolve? r with
    | none =>
      rw [expose_unresolved hres]
      trivial
    | some found =>
      obtain ⟨owner, decl⟩ := found
      rw [expose_decl hres fun s hs => hr r owner s rfl (hs ▸ hres)]
      cases decl with
      | «alias» s => exact absurd hres (hr r owner s rfl)
      | table spec => trivial
      | struct fields => exact .struct hres
      | sum variants => exact fun tag fields hg => .declaredSum hres hg
      | variant parent index =>
        rw [exposeDecl]
        cases hv : owner.variant? parent index with
        | none => trivial
        | some found => exact .variant hres hv
  | _ =>
    rw [expose_inline m (by simp) (by simp)]
    first
    | rfl
    | exact ⟨rfl, rfl⟩
    | exact .record
    | exact fun tag fields hg => .sum hg

end Wireform.Module

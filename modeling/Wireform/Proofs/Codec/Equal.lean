import Mathlib
import Wireform.Codec.Equal
import Wireform.Proofs.Codec.Reads

/-!
# Equality at a type, part by part

`equalAs` goes by the first value and looks at the shape of the type. These equations follow the type.
-/

namespace Wireform.Codec

variable {m owner : Module} {a b : Value}

theorem equalAs_prim (p : Prim) : equalAs a m (.prim p) b = (p.admits a && a.same b) := by
  unfold equalAs
  rw [Module.expose_inline m (by simp) (by simp)]
  rfl

theorem equalAs_annot (doc : String) (t : Ty) : equalAs a m (.annot doc t) b = equalAs a m t b :=
  equalAs_congr (m.expose_annot doc t) a b

theorem equalAs_alias {r : Ref} {t : Ty} (hm : m.Sound)
    (hr : m.resolve? r = some (owner, .alias t)) : equalAs a m (.ref r) b = equalAs a owner t b :=
  equalAs_congr (hm.ends.expose_alias hr) a b

theorem equalAs_absent (t : Ty) : equalAs .absent m (.optional t) .absent = true := by
  unfold equalAs
  rw [Module.expose_inline m (by simp) (by simp)]
  rfl

theorem equalAs_present (t : Ty) :
    equalAs (.present a) m (.optional t) (.present b) = equalAs a m t b := by
  conv_lhs => unfold equalAs
  rw [Module.expose_inline m (by simp) (by simp)]
  rfl

theorem equalAs_present_absent (t : Ty) :
    equalAs (.present a) m (.optional t) .absent = false := by
  unfold equalAs
  rw [Module.expose_inline m (by simp) (by simp)]
  rfl

theorem equalAs_list (t : Ty) (xs ys : List Value) :
    equalAs (.list xs) m (.list t) (.list ys) = true ↔
      xs.length = ys.length ∧ ∀ p ∈ xs.zip ys, equalAs p.1 m t p.2 = true := by
  conv_lhs => unfold equalAs
  rw [Module.expose_inline m (by simp) (by simp)]
  simp only [Module.exposeInline, itemTesters_eq, List.zip_map_left, List.all_map, Bool.and_eq_true,
    beq_iff_eq, List.all_eq_true]
  rfl

theorem equalAs_object (t : Ty) (xs ys : Fields Value) :
    equalAs (.object xs) m (.object t) (.object ys) = true ↔ xs.length = ys.length ∧
      ∀ x ∈ xs, ∃ y, Fields.get? ys x.1 = some y ∧ equalAs x.2 m t y = true := by
  conv_lhs => unfold equalAs
  rw [Module.expose_inline m (by simp) (by simp)]
  simp only [Module.exposeInline, fieldTesters_eq, List.all_map, Bool.and_eq_true, beq_iff_eq,
    List.all_eq_true, Function.comp_apply]
  refine and_congr_right fun _ => forall₂_congr fun x _ => ?_
  cases Fields.get? ys x.1 <;> simp

theorem equalAs_map (k v : Ty) (xs ys : List (Value × Value)) :
    equalAs (.map xs) m (.map k v) (.map ys) = true ↔ xs.length = ys.length ∧
      ∀ p ∈ xs.zip ys, equalAs p.1.1 m k p.2.1 = true ∧ equalAs p.1.2 m v p.2.2 = true := by
  conv_lhs => unfold equalAs
  rw [Module.expose_inline m (by simp) (by simp)]
  simp only [Module.exposeInline, entryTesters_eq, List.zip_map_left, List.all_map, Bool.and_eq_true,
    beq_iff_eq, List.all_eq_true, Function.comp_apply]
  rfl

theorem equalFields_iff {fields : Fields Ty} {xs ys : Fields Value} :
    equalFields owner fields (fieldTesters xs) ys = true ↔
      xs.length = fields.length ∧ ys.length = fields.length ∧
        ∀ f ∈ fields, ∃ x y, Fields.get? xs f.1 = some x ∧ Fields.get? ys f.1 = some y ∧
          equalAs x owner f.2 y = true := by
  simp only [equalFields, fieldTesters_eq, List.length_map, Bool.and_eq_true, beq_iff_eq, and_assoc,
    List.all_eq_true]
  refine and_congr_right fun _ => and_congr_right fun _ => forall₂_congr fun f _ => ?_
  rw [Fields.get?_map fun f => equalAs f.2]
  cases Fields.get? xs f.1 <;> cases Fields.get? ys f.1 <;> simp

theorem equalAs_fields {t : Ty} {tag : Option String} {fields : Fields Ty}
    (hf : m.Fieldset t owner tag fields) (xs ys : Fields Value) :
    equalAs (fieldsValue tag xs) m t (fieldsValue tag ys) = true ↔
      xs.length = fields.length ∧ ys.length = fields.length ∧
        ∀ f ∈ fields, ∃ x y, Fields.get? xs f.1 = some x ∧ Fields.get? ys f.1 = some y ∧
          equalAs x owner f.2 y = true := by
  rw [← equalFields_iff]
  obtain ⟨label, head, he, ⟨rfl, rfl⟩ | ⟨s, rfl, ⟨variants, rfl, hg⟩ | ⟨parent, rfl⟩⟩⟩ := hf.expose
  all_goals
    conv_lhs => unfold equalAs
    rw [he]
  · rfl
  · simp [fieldsValue, hg]
  · simp [fieldsValue]

end Wireform.Codec

import Mathlib
import Wireform.Proofs.Codec.Scalar
import Wireform.Proofs.Value

/-!
# Equality of values

Equality compares the fields of objects by name, in whatever order they stand, and everything else in
order. It is transitive, symmetric between values that have each name once, and reflexive on such a
value if its floats are finite. `Alike` is one level of it.
-/

namespace Wireform.Value

/-- Each name of an object, a record or a variant stands once in it. -/
def Unrepeated : Value → Prop
  | .object props => Fields.Distinct props
  | .record fields => Fields.Distinct fields
  | .variant _ fields => Fields.Distinct fields
  | _ => True

def NamesOnce (v : Value) : Prop := v.All Unrepeated

def Finite (v : Value) : Prop := ∀ x, v.Within (.f64 x) → x.isFinite = true

theorem NamesOnce.part {v w : Value} (h : v.NamesOnce) (hw : w ∈ v.parts) : w.NamesOnce :=
  All.part h hw

theorem Finite.part {v w : Value} (h : v.Finite) (hw : w ∈ v.parts) : w.Finite :=
  fun x hx => h x (hx.head hw)

/-- Only a float can be infinite by itself. -/
theorem finite_iff {v : Value} (hv : ∀ x, v ≠ .f64 x) : v.Finite ↔ ∀ w ∈ v.parts, w.Finite := by
  refine ⟨fun h w => h.part, fun h x hx => ?_⟩
  rcases within_iff.1 hx with he | ⟨w, hw, hx⟩
  · exact absurd he.symm (hv x)
  · exact h w hw x hx

theorem finite_f64 {x : Double} : (Value.f64 x).Finite ↔ x.isFinite = true := by
  constructor
  · exact fun h => h x .self
  · intro h y hy
    rcases within_iff.1 hy with he | ⟨w, hw, -⟩
    · cases he
      exact h
    · cases hw

/-! ### One level of equality -/

variable {R : Value → Value → Prop} {a b c : Value} {xs ys : Fields Value}

/-- As many fields, and under each name of the first fields that are alike. -/
def FieldsAlike (R : Value → Value → Prop) (xs ys : Fields Value) : Prop :=
  xs.length = ys.length ∧ ∀ x ∈ xs, ∃ y, Fields.get? ys x.1 = some y ∧ R x.2 y

/-- Values that are equal if `R` is equality of their parts. -/
inductive Alike (R : Value → Value → Prop) : Value → Value → Prop
  | scalar {p : Prim} {a : Value} : p.admits a = true → p ≠ .f64 → Alike R a a
  | float {x y : Double} : x.same y = true → Alike R (.f64 x) (.f64 y)
  | absent : Alike R .absent .absent
  | present {a b : Value} : R a b → Alike R (.present a) (.present b)
  | list {xs ys : List Value} : xs.length = ys.length →
    (∀ (i : Nat) x y, xs[i]? = some x → ys[i]? = some y → R x y) → Alike R (.list xs) (.list ys)
  | object {xs ys : Fields Value} : FieldsAlike R xs ys → Alike R (.object xs) (.object ys)
  | map {xs ys : List (Value × Value)} : xs.length = ys.length →
    (∀ (i : Nat) x y, xs[i]? = some x → ys[i]? = some y → R x.1 y.1 ∧ R x.2 y.2) →
      Alike R (.map xs) (.map ys)
  | record {xs ys : Fields Value} : FieldsAlike R xs ys → Alike R (.record xs) (.record ys)
  | variant {tag : String} {xs ys : Fields Value} :
    FieldsAlike R xs ys → Alike R (.variant tag xs) (.variant tag ys)

theorem same_self_of_admits {p : Prim} (hp : p.admits a = true) (hf : p ≠ .f64) : a.same a = true := by
  cases p <;> cases a <;> simp_all [Prim.admits, same]

theorem forall_mem_zip_iff {α β : Type} {xs : List α} {ys : List β} {P : α → β → Prop} :
    (∀ p ∈ xs.zip ys, P p.1 p.2) ↔
      ∀ (i : Nat) x y, xs[i]? = some x → ys[i]? = some y → P x y := by
  constructor
  · intro h i x y hx hy
    exact h (x, y) (List.mem_iff_getElem?.2 ⟨i, List.getElem?_zip_eq_some.2 ⟨hx, hy⟩⟩)
  · intro h p hp
    obtain ⟨i, hi⟩ := List.mem_iff_getElem?.1 hp
    exact h i p.1 p.2 (List.getElem?_zip_eq_some.1 hi).1 (List.getElem?_zip_eq_some.1 hi).2

theorem same_iff : a.same b = true ↔ Alike (fun a b => a.same b = true) a b := by
  constructor
  · intro h
    unfold same at h
    split at h
    · obtain rfl := eq_of_beq h
      exact .scalar (p := .i32) rfl (by simp)
    · obtain rfl := eq_of_beq h
      exact .scalar (p := .u32) rfl (by simp)
    · obtain rfl := eq_of_beq h
      exact .scalar (p := .i64) rfl (by simp)
    · obtain rfl := eq_of_beq h
      exact .scalar (p := .u64) rfl (by simp)
    · exact .float h
    · obtain rfl := eq_of_beq h
      exact .scalar (p := .boolean) rfl (by simp)
    · obtain rfl := eq_of_beq h
      exact .scalar (p := .str) rfl (by simp)
    · obtain rfl := eq_of_beq h
      exact .scalar (p := .ident) rfl (by simp)
    · obtain rfl := eq_of_beq h
      exact .scalar (p := .binary) rfl (by simp)
    · exact .absent
    · exact .present h
    · obtain ⟨hl, h⟩ := sameItems_iff.1 h
      exact .list hl (forall_mem_zip_iff.1 h)
    · rw [Bool.and_eq_true, beq_iff_eq, sameFields_iff] at h
      exact .object h
    · obtain ⟨hl, h⟩ := sameEntries_iff.1 h
      exact .map hl (forall_mem_zip_iff.1 h)
    · rw [Bool.and_eq_true, beq_iff_eq, sameFields_iff] at h
      exact .record h
    · rw [Bool.and_eq_true, Bool.and_eq_true, beq_iff_eq, beq_iff_eq, sameFields_iff, and_assoc] at h
      obtain ⟨rfl, h⟩ := h
      exact .variant h
    · cases h
  · intro h
    cases h with
    | scalar hp hf => exact same_self_of_admits hp hf
    | float h => rwa [same]
    | absent => rw [same]
    | present h => rwa [same]
    | list hl h =>
      rw [same, sameItems_iff]
      exact ⟨hl, forall_mem_zip_iff.2 h⟩
    | object h | record h =>
      rw [same, Bool.and_eq_true, beq_iff_eq, sameFields_iff]
      exact h
    | map hl h =>
      rw [same, sameEntries_iff]
      exact ⟨hl, forall_mem_zip_iff.2 h⟩
    | variant h =>
      rw [same, Bool.and_eq_true, Bool.and_eq_true, beq_iff_eq, beq_iff_eq, sameFields_iff, and_assoc]
      exact ⟨rfl, h⟩

/-! ### Laws -/

theorem mem_parts_of_getElem? {xs : List (Value × Value)} {i : Nat} {x : Value × Value}
    (h : xs[i]? = some x) : x.1 ∈ (Value.map xs).parts ∧ x.2 ∈ (Value.map xs).parts := by
  have hm := List.mem_of_getElem? h
  exact ⟨List.mem_append_left _ (List.mem_map_of_mem hm),
    List.mem_append_right _ (List.mem_map_of_mem hm)⟩

/-- Lists of the same length have elements at the same positions. -/
theorem exists_getElem?_of_length {α β : Type} {xs : List α} {ys : List β} {i : Nat} {x : α}
    (hl : xs.length = ys.length) (h : xs[i]? = some x) : ∃ y, ys[i]? = some y := by
  obtain ⟨hi, -⟩ := List.getElem?_eq_some_iff.1 h
  exact ⟨ys[i], List.getElem?_eq_getElem (hl ▸ hi)⟩

theorem FieldsAlike.trans {zs : Fields Value} (hxy : FieldsAlike R xs ys) (hyz : FieldsAlike R ys zs)
    (ht : ∀ x ∈ xs, ∀ y z, R x.2 y → R y z → R x.2 z) : FieldsAlike R xs zs := by
  refine ⟨hxy.1.trans hyz.1, fun x hx => ?_⟩
  obtain ⟨y, hy, hr⟩ := hxy.2 x hx
  obtain ⟨z, hz, hr'⟩ := hyz.2 _ (Fields.mem_of_get? hy)
  exact ⟨z, hz, ht x hx y z hr hr'⟩

theorem FieldsAlike.symm (h : FieldsAlike R xs ys) (hx : Fields.Distinct xs) (hy : Fields.Distinct ys)
    (hs : ∀ x ∈ xs, ∀ y ∈ ys, R x.2 y.2 → R y.2 x.2) : FieldsAlike R ys xs := by
  have hsub : ∀ k ∈ Fields.keys xs, k ∈ Fields.keys ys := by
    intro k hk
    obtain ⟨x, hm, rfl⟩ := List.mem_map.1 hk
    obtain ⟨y, hg, -⟩ := h.2 x hm
    exact Fields.mem_keys_of_mem (Fields.mem_of_get? hg)
  -- as many names on both sides, so the second has no others
  have hperm := Fields.perm_keys_of_subset (by rw [Fields.length_keys, h.1]) hx hsub
  refine ⟨h.1.symm, fun y hm => ?_⟩
  obtain ⟨x, hmx, hn⟩ := List.mem_map.1 (hperm.mem_iff.2 (Fields.mem_keys_of_mem hm))
  obtain ⟨y', hg, hr⟩ := h.2 x hmx
  have hy' := hy.get?_eq_some hm
  rw [← hn, hg, Option.some.injEq] at hy'
  refine ⟨x.2, ?_, hs x hmx y hm (hy' ▸ hr)⟩
  rw [← hn]
  exact hx.get?_eq_some hmx

theorem same_trans (hab : a.same b = true) (hbc : b.same c = true) : a.same c = true := by
  induction a using parts_induction generalizing b c with
  | step a ih =>
    have ih : ∀ x ∈ a.parts, ∀ y z, x.same y = true → y.same z = true → x.same z = true :=
      fun x hx y z hxy hyz => ih x hx hxy hyz
    rw [same_iff] at hab hbc ⊢
    cases hab with
    | scalar _ _ => exact hbc
    | float h =>
      cases hbc with
      | scalar hp hf => exact .float h
      | float h' => exact .float (Double.same_trans h h')
    | absent => exact hbc
    | present h =>
      cases hbc with
      | scalar hp _ => exact .present h
      | present h' => exact .present (ih _ (by simp [parts]) _ _ h h')
    | list hl h =>
      cases hbc with
      | scalar hp _ => exact .list hl h
      | list hl' h' =>
        refine .list (hl.trans hl') fun i x z hx hz => ?_
        obtain ⟨y, hy⟩ := exists_getElem?_of_length hl hx
        exact ih x (List.mem_of_getElem? hx) y z (h i x y hx hy) (h' i y z hy hz)
    | map hl h =>
      cases hbc with
      | scalar hp _ => exact .map hl h
      | map hl' h' =>
        refine .map (hl.trans hl') fun i x z hx hz => ?_
        obtain ⟨y, hy⟩ := exists_getElem?_of_length hl hx
        obtain ⟨hk, hv⟩ := h i x y hx hy
        obtain ⟨hk', hv'⟩ := h' i y z hy hz
        obtain ⟨hm₁, hm₂⟩ := mem_parts_of_getElem? hx
        exact ⟨ih _ hm₁ _ _ hk hk', ih _ hm₂ _ _ hv hv'⟩
    | object h =>
      cases hbc with
      | scalar hp _ => exact .object h
      | object h' => exact .object (h.trans h' fun x hx => ih x.2 (List.mem_map_of_mem hx))
    | record h =>
      cases hbc with
      | scalar hp _ => exact .record h
      | record h' => exact .record (h.trans h' fun x hx => ih x.2 (List.mem_map_of_mem hx))
    | variant h =>
      cases hbc with
      | scalar hp _ => exact .variant h
      | variant h' => exact .variant (h.trans h' fun x hx => ih x.2 (List.mem_map_of_mem hx))

theorem same_symm (ha : a.NamesOnce) (hb : b.NamesOnce) (h : a.same b = true) : b.same a = true := by
  induction a using parts_induction generalizing b with
  | step a ih =>
    have ih : ∀ x ∈ a.parts, ∀ y ∈ b.parts, x.same y = true → y.same x = true :=
      fun x hx y hy => ih x hx (ha.part hx) (hb.part hy)
    have hua := ha a .self
    have hub := hb b .self
    rw [same_iff] at h ⊢
    cases h with
    | scalar hp hf => exact .scalar hp hf
    | float h => exact .float (Double.same_symm h)
    | absent => exact .absent
    | present h => exact .present (ih _ (by simp [parts]) _ (by simp [parts]) h)
    | list hl h =>
      exact .list hl.symm fun i y x hy hx =>
        ih x (List.mem_of_getElem? hx) y (List.mem_of_getElem? hy) (h i x y hx hy)
    | map hl h =>
      refine .map hl.symm fun i y x hy hx => ?_
      obtain ⟨hk, hv⟩ := h i x y hx hy
      obtain ⟨hx₁, hx₂⟩ := mem_parts_of_getElem? hx
      obtain ⟨hy₁, hy₂⟩ := mem_parts_of_getElem? hy
      exact ⟨ih _ hx₁ _ hy₁ hk, ih _ hx₂ _ hy₂ hv⟩
    | object h =>
      exact .object (h.symm hua hub fun x hx y hy =>
        ih x.2 (List.mem_map_of_mem hx) y.2 (List.mem_map_of_mem hy))
    | record h =>
      exact .record (h.symm hua hub fun x hx y hy =>
        ih x.2 (List.mem_map_of_mem hx) y.2 (List.mem_map_of_mem hy))
    | variant h =>
      exact .variant (h.symm hua hub fun x hx y hy =>
        ih x.2 (List.mem_map_of_mem hx) y.2 (List.mem_map_of_mem hy))

theorem same_self (hn : a.NamesOnce) (hf : a.Finite) : a.same a = true := by
  induction a using parts_induction with
  | step a ih =>
    have ih : ∀ x ∈ a.parts, x.same x = true := fun x hx => ih x hx (hn.part hx) (hf.part hx)
    have hu := hn a .self
    have hfields : ∀ xs : Fields Value, Fields.Distinct xs → (∀ x ∈ xs, x.2.same x.2 = true) →
        FieldsAlike (fun a b => a.same b = true) xs xs :=
      fun xs hd h => ⟨rfl, fun x hx => ⟨x.2, hd.get?_eq_some hx, h x hx⟩⟩
    rw [same_iff]
    cases a with
    | i32 n => exact .scalar (p := .i32) rfl (by simp)
    | u32 n => exact .scalar (p := .u32) rfl (by simp)
    | i64 n => exact .scalar (p := .i64) rfl (by simp)
    | u64 n => exact .scalar (p := .u64) rfl (by simp)
    | f64 x => exact .float (Double.same_self (finite_f64.1 hf))
    | bool b => exact .scalar (p := .boolean) rfl (by simp)
    | str s => exact .scalar (p := .str) rfl (by simp)
    | ident s => exact .scalar (p := .ident) rfl (by simp)
    | binary bytes => exact .scalar (p := .binary) rfl (by simp)
    | absent => exact .absent
    | present v => exact .present (ih v (by simp [parts]))
    | list items =>
      refine .list rfl fun i x y hx hy => ?_
      rw [hx, Option.some.injEq] at hy
      exact hy ▸ ih x (List.mem_of_getElem? hx)
    | object props => exact .object (hfields props hu fun x hx => ih x.2 (List.mem_map_of_mem hx))
    | map entries =>
      refine .map rfl fun i x y hx hy => ?_
      rw [hx, Option.some.injEq] at hy
      obtain ⟨hm₁, hm₂⟩ := mem_parts_of_getElem? hx
      exact hy ▸ ⟨ih _ hm₁, ih _ hm₂⟩
    | record fields => exact .record (hfields fields hu fun x hx => ih x.2 (List.mem_map_of_mem hx))
    | variant tag fields =>
      exact .variant (hfields fields hu fun x hx => ih x.2 (List.mem_map_of_mem hx))

end Wireform.Value

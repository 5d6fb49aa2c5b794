import Mathlib
import Wireform.OrderedMap
import Wireform.Value.Basic
import Wireform.Proofs.Fields

/-!
# The parts of a value

What a property of all values is proved by: a value has it if its parts do. Well-formed values have
each name of an object once, and maps that came about by inserting entries.
-/

namespace Wireform.Value

/-- The values that a value is directly made of. -/
def parts : Value → List Value
  | .present v => [v]
  | .list items => items
  | .object props => props.map Prod.snd
  | .map entries => entries.map Prod.fst ++ entries.map Prod.snd
  | .record fields => fields.map Prod.snd
  | .variant _ fields => fields.map Prod.snd
  | _ => []

theorem sizeOf_lt_of_mem_parts {v w : Value} (h : w ∈ v.parts) : sizeOf w < sizeOf v := by
  have hfield : ∀ fs : List (String × Value), w ∈ fs.map Prod.snd → sizeOf w < 1 + sizeOf fs := by
    intro fs hw
    obtain ⟨e, he, rfl⟩ := List.mem_map.1 hw
    have h := List.sizeOf_lt_of_mem he
    have h' : sizeOf e = 1 + sizeOf e.1 + sizeOf e.2 := by cases e; rfl
    omega
  cases v with
  | present v =>
    rw [List.mem_singleton.1 h]
    decreasing_tactic
  | list items =>
    have h := List.sizeOf_lt_of_mem (show w ∈ items from h)
    simp only [list.sizeOf_spec]
    omega
  | object props =>
    rw [object.sizeOf_spec]
    exact hfield props h
  | record fields =>
    rw [record.sizeOf_spec]
    exact hfield fields h
  | variant tag fields =>
    have h := hfield fields h
    simp only [variant.sizeOf_spec]
    omega
  | map entries =>
    rcases List.mem_append.1 h with h | h
    all_goals
      obtain ⟨e, he, rfl⟩ := List.mem_map.1 h
      have h := List.sizeOf_lt_of_mem he
      have h' : sizeOf e = 1 + sizeOf e.1 + sizeOf e.2 := by cases e; rfl
      simp only [map.sizeOf_spec]
      omega
  | _ => cases h

theorem parts_induction {P : Value → Prop} (step : ∀ v, (∀ w ∈ v.parts, P w) → P v) (v : Value) :
    P v :=
  step v fun w _ => parts_induction step w
termination_by v
decreasing_by exact sizeOf_lt_of_mem_parts ‹_›

/-- `w` is `v` or a part of a part of it, however deep. -/
inductive Within (v : Value) : Value → Prop
  | self : Within v v
  | part {u w : Value} : Within v u → w ∈ u.parts → Within v w

theorem Within.head {v w u : Value} (hw : w ∈ v.parts) (h : w.Within u) : v.Within u := by
  induction h with
  | self => exact .part .self hw
  | part _ hp ih => exact .part ih hp

theorem within_iff {v u : Value} : v.Within u ↔ u = v ∨ ∃ w ∈ v.parts, w.Within u := by
  constructor
  · intro h
    induction h with
    | self => exact .inl rfl
    | @part u w _ hp ih =>
      rcases ih with rfl | ⟨x, hx, h⟩
      · exact .inr ⟨w, hp, .self⟩
      · exact .inr ⟨x, hx, .part h hp⟩
  · rintro (rfl | ⟨w, hw, h⟩)
    · exact .self
    · exact h.head hw

/-- All that the value is made of has the property. -/
def All (P : Value → Prop) (v : Value) : Prop := ∀ w, v.Within w → P w

theorem All.part {P : Value → Prop} {v w : Value} (h : v.All P) (hw : w ∈ v.parts) : w.All P :=
  fun u hu => h u (hu.head hw)

theorem all_iff {P : Value → Prop} {v : Value} : v.All P ↔ P v ∧ ∀ w ∈ v.parts, w.All P := by
  refine ⟨fun h => ⟨h v .self, fun w => h.part⟩, fun ⟨ht, hp⟩ w hw => ?_⟩
  rcases within_iff.1 hw with rfl | ⟨u, hu, h⟩
  · exact ht
  · exact hp u hu w h

/-- Names stand once, and the entries of a map were inserted one by one. -/
def Tidy : Value → Prop
  | .object props => Fields.Distinct props
  | .map entries => ∃ l, entries = (OrderedMap.ofList l).entries
  | .record fields => Fields.Distinct fields
  | .variant _ fields => Fields.Distinct fields
  | _ => True

/-- All that the value is made of is tidy. -/
def WellFormed (v : Value) : Prop := ∀ w, v.Within w → w.Tidy

theorem WellFormed.tidy {v : Value} (h : v.WellFormed) : v.Tidy := h v .self

theorem WellFormed.part {v w : Value} (h : v.WellFormed) (hw : w ∈ v.parts) : w.WellFormed :=
  All.part h hw

theorem wellFormed_iff {v : Value} :
    v.WellFormed ↔ v.Tidy ∧ ∀ w ∈ v.parts, w.WellFormed := all_iff

/-! ### Inserted entries -/

theorem keys_insertEntry (k v : Value) (es : List (Value × Value)) :
    (OrderedMap.insertEntry k v es).map Prod.fst =
      if es.all fun e => !(e.1 == k) then es.map Prod.fst ++ [k] else es.map Prod.fst := by
  induction es with
  | nil => rfl
  | cons e es ih =>
    rw [OrderedMap.insertEntry]
    split
    · rename_i h
      simp [h]
    · rename_i h
      rw [List.map_cons, ih]
      simp only [List.all_cons, h, Bool.not_false, Bool.true_and]
      split <;> simp

/-- No key of a map that was built by inserting is the same as an earlier one. -/
theorem pairwise_ofList (l : List (Value × Value)) :
    ((OrderedMap.ofList l).entries.map Prod.fst).Pairwise fun a b => a.same b = false := by
  have hfold : ∀ (l : List (Value × Value)) (m : OrderedMap Value Value),
      (m.entries.map Prod.fst).Pairwise (fun a b => a.same b = false) →
        ((l.foldl (fun m e => m.insert e.1 e.2) m).entries.map Prod.fst).Pairwise
          fun a b => a.same b = false := by
    intro l
    induction l with
    | nil => exact fun m h => h
    | cons e l ih =>
      intro m h
      refine ih _ ?_
      show ((OrderedMap.insertEntry e.1 e.2 m.entries).map Prod.fst).Pairwise _
      rw [keys_insertEntry]
      split
      · rename_i hall
        refine List.pairwise_append.2 ⟨h, List.pairwise_singleton _ _, ?_⟩
        simp only [List.all_eq_true, Bool.not_eq_true'] at hall
        simp only [List.mem_singleton, forall_eq, List.forall_mem_map]
        exact hall
      · exact h
  exact hfold l OrderedMap.empty List.Pairwise.nil

/-! ### Equality, part by part -/

theorem sameItems_iff {xs ys : List Value} :
    sameItems xs ys = true ↔ xs.length = ys.length ∧ ∀ p ∈ xs.zip ys, p.1.same p.2 = true := by
  induction xs generalizing ys with
  | nil => cases ys <;> simp [sameItems]
  | cons x xs ih =>
    cases ys with
    | nil => simp [sameItems]
    | cons y ys =>
      simp only [sameItems, Bool.and_eq_true, ih, List.length_cons, add_left_inj, List.zip_cons_cons,
        List.forall_mem_cons]
      exact and_left_comm

theorem sameEntries_iff {xs ys : List (Value × Value)} :
    sameEntries xs ys = true ↔ xs.length = ys.length ∧
      ∀ p ∈ xs.zip ys, p.1.1.same p.2.1 = true ∧ p.1.2.same p.2.2 = true := by
  induction xs generalizing ys with
  | nil => cases ys <;> simp [sameEntries]
  | cons x xs ih =>
    cases ys with
    | nil => simp [sameEntries]
    | cons y ys =>
      obtain ⟨k, x⟩ := x
      obtain ⟨l, y⟩ := y
      simp only [sameEntries, Bool.and_eq_true, ih, List.length_cons, add_left_inj,
        List.zip_cons_cons, List.forall_mem_cons]
      exact and_left_comm

theorem sameFields_iff {xs ys : Fields Value} :
    sameFields xs ys = true ↔
      ∀ x ∈ xs, ∃ y, Fields.get? ys x.1 = some y ∧ x.2.same y = true := by
  induction xs with
  | nil => simp [sameFields]
  | cons x xs ih =>
    rw [sameFields, Bool.and_eq_true, ih, List.forall_mem_cons]
    refine and_congr_left fun _ => ?_
    cases Fields.get? ys x.1 <;> simp

end Wireform.Value

import Mathlib
import Wireform.Json.Basic
import Wireform.Proofs.Fields

/-!
# The parts of a document

What a property of all documents is proved by, and what well-formed ones are.
-/

namespace Wireform.Json

/-- The documents that a document is directly made of. -/
def parts : Json → List Json
  | .arr items => items
  | .obj props => props.map Prod.snd
  | _ => []

theorem sizeOf_lt_of_mem_parts {i j : Json} (h : i ∈ j.parts) : sizeOf i < sizeOf j := by
  cases j with
  | arr items =>
    have h := List.sizeOf_lt_of_mem (show i ∈ items from h)
    simp only [arr.sizeOf_spec]
    omega
  | obj props =>
    obtain ⟨p, hp, rfl⟩ := List.mem_map.1 h
    have h := List.sizeOf_lt_of_mem hp
    have h' : sizeOf p = 1 + sizeOf p.1 + sizeOf p.2 := by cases p; rfl
    simp only [obj.sizeOf_spec]
    omega
  | _ => cases h

theorem parts_induction {P : Json → Prop} (step : ∀ j, (∀ i ∈ j.parts, P i) → P j) (j : Json) :
    P j :=
  step j fun i _ => parts_induction step i
termination_by j
decreasing_by exact sizeOf_lt_of_mem_parts ‹_›

theorem wellFormed_arr {items : List Json} :
    (Json.arr items).WellFormed ↔ ∀ j ∈ items, j.WellFormed := by
  rw [WellFormed]
  induction items with
  | nil => simp [WellFormedItems]
  | cons j items ih => simp [WellFormedItems, ih]

theorem wellFormed_obj {props : Fields Json} :
    (Json.obj props).WellFormed ↔ Fields.Distinct props ∧ ∀ p ∈ props, p.2.WellFormed := by
  have h : WellFormedProps props ↔ ∀ p ∈ props, p.2.WellFormed := by
    induction props with
    | nil => simp [WellFormedProps]
    | cons p props ih => rw [WellFormedProps, ih, List.forall_mem_cons]
  rw [WellFormed, h]

theorem WellFormed.prop {props : Fields Json} (h : (Json.obj props).WellFormed) {k : String}
    {j : Json} (hk : Fields.get? props k = some j) : j.WellFormed :=
  (wellFormed_obj.1 h).2 _ (Fields.mem_of_get? hk)

end Wireform.Json

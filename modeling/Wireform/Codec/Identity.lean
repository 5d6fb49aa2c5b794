import Wireform.Json.Printer

/-!
# Identity of map keys

Two keys are the same key when their documents agree up to the order of properties and the sign of
zero. The identity is the compact text of a document in which both are settled.
-/

namespace Wireform.Codec

/-- Properties by name, in code point order. -/
def sortProps (props : Fields Json) : Fields Json :=
  props.mergeSort fun a b => !decide (b.1 < a.1)

mutual

/-- Properties sorted, zero written as the integer. -/
def canonical : Json → Json
  | .num n => if n.isZero then .ofInt 0 else .num n
  | .arr items => .arr (canonicalItems items)
  | .obj props => .obj (sortProps (canonicalProps props))
  | j => j

def canonicalItems : List Json → List Json
  | [] => []
  | j :: js => canonical j :: canonicalItems js

def canonicalProps : List (String × Json) → List (String × Json)
  | [] => []
  | (k, j) :: ps => (k, canonical j) :: canonicalProps ps

end

theorem canonicalItems_eq (items : List Json) : canonicalItems items = items.map canonical := by
  induction items with
  | nil => rfl
  | cons j items ih => rw [canonicalItems, ih]; rfl

theorem canonicalProps_eq (props : Fields Json) :
    canonicalProps props = props.map fun p => (p.1, canonical p.2) := by
  induction props with
  | nil => rfl
  | cons p props ih => rw [canonicalProps, ih]; rfl

theorem canonical_arr {items : List Json} :
    canonical (.arr items) = .arr (items.map canonical) := by
  rw [canonical, canonicalItems_eq]

def keyIdentity (j : Json) : String := (canonical j).compact

end Wireform.Codec

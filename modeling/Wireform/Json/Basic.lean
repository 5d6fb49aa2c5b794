import Wireform.Double.Basic
import Wireform.Fields

/-!
# JSON documents

Objects keep their properties in order. Integers and floats are different numbers, whatever they
measure; a float in a document is finite.
-/

namespace Wireform

inductive Number where
  | int (n : Int)
  | float (x : Double) (finite : x.isFinite = true)
deriving DecidableEq

namespace Number

/-- Equality of documents: integers with integers, floats with floats by numeric value. -/
def same : Number → Number → Bool
  | .int m, .int n => m == n
  | .float x _, .float y _ => x.same y
  | _, _ => false

def isZero : Number → Bool
  | .int n => n == 0
  | .float x _ => x.isZero

end Number

inductive Json where
  | null
  | bool (b : Bool)
  | num (n : Number)
  | str (s : String)
  | arr (items : List Json)
  | obj (props : List (String × Json))

namespace Json

instance : Inhabited Json := ⟨.null⟩

def ofInt (n : Int) : Json := .num (.int n)

def ofNat (n : Nat) : Json := ofInt n

def int? : Json → Option Int
  | .num (.int n) => some n
  | _ => none

def bool? : Json → Option Bool
  | .bool b => some b
  | _ => none

def str? : Json → Option String
  | .str s => some s
  | _ => none

/-- A position in a list: an integer that is not negative. -/
def position? (j : Json) : Option Nat :=
  match j.int? with
  | some n => if 0 ≤ n then some n.toNat else none
  | none => none

/-- The property named `k`, if this is an object that has it. -/
def prop? (k : String) : Json → Option Json
  | .obj props => Fields.get? props k
  | _ => none

mutual

/-- Every object, at any depth, has each of its names once. -/
def WellFormed : Json → Prop
  | .arr items => WellFormedItems items
  | .obj props => Fields.Distinct props ∧ WellFormedProps props
  | _ => True

def WellFormedItems : List Json → Prop
  | [] => True
  | j :: js => WellFormed j ∧ WellFormedItems js

def WellFormedProps : List (String × Json) → Prop
  | [] => True
  | (_, j) :: ps => WellFormed j ∧ WellFormedProps ps

end

mutual

/-- Equality of documents, whatever the order of properties. -/
def same : Json → Json → Bool
  | .null, .null => true
  | .bool a, .bool b => a == b
  | .num m, .num n => m.same n
  | .str s, .str t => s == t
  | .arr xs, .arr ys => sameItems xs ys
  | .obj ps, .obj qs => ps.length == qs.length && sameProps ps qs
  | _, _ => false

def sameItems : List Json → List Json → Bool
  | [], [] => true
  | x :: xs, y :: ys => same x y && sameItems xs ys
  | _, _ => false

/-- Every property of the first is a property of the second. -/
def sameProps : List (String × Json) → List (String × Json) → Bool
  | [], _ => true
  | (k, x) :: ps, qs =>
    (match Fields.get? qs k with
      | some y => same x y
      | none => false) && sameProps ps qs

end

end Json

end Wireform

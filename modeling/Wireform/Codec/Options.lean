import Wireform.Codec.Basic
import Wireform.Json.Skim

/-!
# Codec options as JSON text

Options are an object, of which other properties are ignored, or an array of at most one element.
The depth limit may be left out, but not repeated.
-/

namespace Wireform

structure CodecOptions where
  maxDepth : Nat
deriving DecidableEq

namespace CodecOptions

open Json

/-- A count of levels: an integer of 64 bits without a sign. -/
def levels? : Reader Nat := fun cs => do
  let (n, cs) ← numeral? (skipBlank cs)
  match ← n.number? with
  | .int n => if 0 ≤ n then some (n.toNat, cs) else none
  | .float _ _ => none

/-- The limit if this is the property that holds it. -/
def property? (name : String) : Reader (Option Nat) := fun cs =>
  if name = "max_depth" then (levels? cs).map fun r => (some r.1, r.2)
  else (skim cs).map fun r => (none, r.2)

def ofLimits? : List Nat → Option CodecOptions
  | [] => some ⟨defaultMaxDepth⟩
  | [n] => some ⟨n⟩
  | _ => none

def value? : Reader CodecOptions := fun cs =>
  match skipBlank cs with
  | '{' :: cs => do
    let (props, cs) ← bracketed '}' (member stringTail property?) cs
    return (← ofLimits? (props.filterMap Prod.snd), cs)
  | '[' :: cs => do
    let (limits, cs) ← bracketed ']' levels? cs
    return (← ofLimits? limits, cs)
  | _ => none

def parse? (text : String) : Option CodecOptions := whole value? text

def toJson (o : CodecOptions) : Json := .obj [("max_depth", .ofNat o.maxDepth)]

end CodecOptions

end Wireform

import Wireform.Double.Basic

/-!
# The nearest float

Rounding a ratio of natural numbers to the nearest float, ties to the even pattern. A pattern one
past the largest finite one is infinity, so overflow is a comparison of patterns.
-/

namespace Wireform.Double

/-- `num / den` to the nearest natural number, ties to even. -/
def roundDiv (num den : Nat) : Nat :=
  let q := num / den
  let r := num % den
  if den < 2 * r || (2 * r = den && q % 2 = 1) then q + 1 else q

/-- `num / den / 2 ^ e`, as a ratio again. -/
def scale (num den : Nat) (e : Int) : Nat × Nat :=
  if 0 ≤ e then (num, den * Nat.pow 2 e.toNat) else (num * Nat.pow 2 (-e).toNat, den)

/-- The exponent at which `num / den` has a significand of fifty-three bits, or the least
exponent if that is greater. -/
def targetExponent (num den : Nat) : Int :=
  let e := (num.log2 : Int) - (den.log2 : Int) - 52
  let (n, d) := scale num den e
  max (if n < d * exponentWeight then e - 1 else e) (-1074)

/-- Pattern of the float nearest to `num / den`. A significand that rounds up to the next power
of two carries into the exponent bits by itself. -/
def nearestMagnitude (num den : Nat) : Nat :=
  if num = 0 then 0
  else
    let e := targetExponent num den
    let (n, d) := scale num den e
    roundDiv n d + (e + 1074).toNat * exponentWeight

/-- The float nearest to `± num / den`, unless that is out of range. -/
def ofRatio? (negative : Bool) (num den : Nat) : Option Double :=
  let m := nearestMagnitude num den
  if m < infinityMagnitude then some (ofMagnitude negative m) else none

def ofInt? (n : Int) : Option Double := ofRatio? (n < 0) n.natAbs 1

/-- The float nearest to `± digits · 10 ^ e`. Exponents far out of range are answered without
computing the power. -/
def ofDecimal? (negative : Bool) (digits : Nat) (e : Int) : Option Double :=
  let places : Int := (Nat.toDigits 10 digits).length
  if digits = 0 || places + e < -330 then some (zero negative)
  else if 310 < places + e then none
  else if 0 ≤ e then ofRatio? negative (digits * Nat.pow 10 e.toNat) 1
  else ofRatio? negative digits (Nat.pow 10 (-e).toNat)

end Wireform.Double

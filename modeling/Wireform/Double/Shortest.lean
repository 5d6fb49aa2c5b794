import Wireform.Double.Basic

/-!
# The fewest digits that read back

The reals that round to a finite float form an interval around it. `shortest` takes the coarsest
decimal grid with a point in that interval, and on it the point nearest to the float; `tie` says
which of two equally near points is meant.
-/

namespace Wireform.Double

/-- `digits · 10 ^ exponent`. -/
structure Decimal where
  digits : Nat
  exponent : Int
deriving DecidableEq

inductive Tie where
  | toEven
  | up
deriving DecidableEq

/-- A float as a ratio, with the ends of the interval of reals that round to it, all three over
one denominator. -/
structure Neighbourhood where
  low : Nat
  mid : Nat
  high : Nat
  den : Nat
  /-- The ends themselves round to the float. -/
  closed : Bool

def neighbourhood (x : Double) : Neighbourhood :=
  let m := x.significand
  let e := x.exponent - 2
  let up := Nat.pow 2 e.toNat
  { low := (4 * m - (if x.isPowerBoundary then 1 else 2)) * up
    mid := 4 * m * up
    high := (4 * m + 2) * up
    den := Nat.pow 2 (-e).toNat
    closed := m % 2 = 0 }

/-- `d · 10 ^ k` lies in the interval. -/
def Neighbourhood.holds (n : Neighbourhood) (d : Nat) (k : Int) : Bool :=
  let p := d * Nat.pow 10 k.toNat * n.den
  let s := Nat.pow 10 (-k).toNat
  if n.closed then n.low * s ≤ p && p ≤ n.high * s else n.low * s < p && p < n.high * s

/-- Decimal exponent of the leading digit of `num / den`. -/
def leadingExponent (num den : Nat) : Int :=
  let e := ((Nat.toDigits 10 num).length : Int) - (Nat.toDigits 10 den).length
  if den * Nat.pow 10 e.toNat ≤ num * Nat.pow 10 (-e).toNat then e else e - 1

/-- Of the two neighbours of the float on the grid of step `10 ^ k`, the one that reads back; of
two, the nearer. -/
def Neighbourhood.onGrid? (n : Neighbourhood) (tie : Tie) (k : Int) : Option Nat :=
  let num := n.mid * Nat.pow 10 (-k).toNat
  let den := n.den * Nat.pow 10 k.toNat
  let d := num / den
  let r := num % den
  match n.holds d k, n.holds (d + 1) k with
  | true, false => some d
  | false, true => some (d + 1)
  | false, false => none
  | true, true =>
    if 2 * r < den then some d
    else if den < 2 * r then some (d + 1)
    else match tie with
      | .toEven => some (if d % 2 = 0 then d else d + 1)
      | .up => some (d + 1)

/-- Moves trailing zeros into the exponent, at most `fuel` of them. -/
def Decimal.trim : Nat → Decimal → Decimal
  | 0, d => d
  | fuel + 1, d =>
    if d.digits ≠ 0 && d.digits % 10 = 0 then trim fuel ⟨d.digits / 10, d.exponent + 1⟩ else d

/-- The shortest decimal of a finite float other than zero. Seventeen digits always suffice. -/
def shortest (tie : Tie) (x : Double) : Decimal :=
  let n := x.neighbourhood
  let e := leadingExponent n.mid n.den
  let grids : List Int := (List.range 17).map fun (i : Nat) => e - i
  match grids.findSome? fun k => (n.onGrid? tie k).map (Decimal.mk · k) with
  | some d => d.trim 20
  | none => ⟨n.mid / n.den, 0⟩

end Wireform.Double

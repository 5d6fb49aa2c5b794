import Wireform.Double.Shortest
import Wireform.Text.Integer

/-!
# Float text

Two layouts of the shortest digits: the one of JSON documents and the one of messages.
-/

namespace Wireform.Double

/-- Where positional notation ends, whether whole numbers show a fraction, and which way a tie of
two equally short decimals goes. -/
structure Layout where
  tie : Tie
  /-- Exponents of the leading digit that are written positionally. -/
  positional : Int → Bool
  wholeFraction : Bool

/-- JSON documents: positional from `0.00001` up to sixteen whole digits, always with a fraction;
a tie goes to the even digit. -/
def Layout.document : Layout where
  tie := .toEven
  positional e := -5 ≤ e && e ≤ 15
  wholeFraction := true

/-- Messages: always positional, whole numbers without a fraction; a tie goes up. -/
def Layout.message : Layout where
  tie := .up
  positional _ := true
  wholeFraction := false

def zeros (n : Nat) : String := String.ofList (List.replicate n '0')

/-- `digits` with the point after the digit of exponent zero. -/
def positionalText (wholeFraction : Bool) (digits : List Char) (lead : Int) : String :=
  let whole := if wholeFraction then ".0" else ""
  if lead < 0 then "0." ++ zeros (-lead - 1).toNat ++ String.ofList digits
  else
    let n := lead.toNat + 1
    if digits.length ≤ n then String.ofList digits ++ zeros (n - digits.length) ++ whole
    else String.ofList (digits.take n) ++ "." ++ String.ofList (digits.drop n)

/-- One digit before the point, the exponent with its sign. -/
def scientificText (digits : List Char) (lead : Int) : String :=
  let mantissa := match digits with
    | [] => "0"
    | [d] => d.toString
    | d :: ds => d.toString ++ "." ++ String.ofList ds
  mantissa ++ "e" ++ (if lead < 0 then "-" else "+") ++ Text.ofNat lead.natAbs

def magnitudeText (l : Layout) (x : Double) : String :=
  if x.isZero then if l.wholeFraction then "0.0" else "0"
  else
    let d := x.shortest l.tie
    let digits := Nat.toDigits 10 d.digits
    let lead := d.exponent + (digits.length : Int) - 1
    if l.positional lead then positionalText l.wholeFraction digits lead
    else scientificText digits lead

def text (l : Layout) (x : Double) : String :=
  if x.isNaN then "NaN"
  else
    let sign := if x.isNegative then "-" else ""
    sign ++ if x.isFinite then x.magnitudeText l else "inf"

end Wireform.Double

/-!
# Double-precision floats

A `Double` is the 64-bit pattern of the binary interchange format: sign, eleven exponent bits,
fifty-two fraction bits. Arithmetic on it is exact arithmetic on natural numbers, so every rule of
reading and printing can be stated and proved.
-/

namespace Wireform

structure Double where
  bits : UInt64
deriving DecidableEq

namespace Double

/-- Weight of the sign bit. -/
def signWeight : Nat := 0x8000000000000000

/-- Weight of the lowest exponent bit; the fraction bits stand below it. -/
def exponentWeight : Nat := 0x10000000000000

def isNegative (x : Double) : Bool := signWeight ≤ x.bits.toNat

/-- The pattern without its sign. -/
def magnitude (x : Double) : Nat := x.bits.toNat % signWeight

/-- Pattern of infinity: patterns below it are finite, above it not a number. -/
def infinityMagnitude : Nat := 0x7ff * exponentWeight

def isFinite (x : Double) : Bool := x.magnitude < infinityMagnitude

def isNaN (x : Double) : Bool := infinityMagnitude < x.magnitude

def isZero (x : Double) : Bool := x.magnitude = 0

/-- Numeric equality: the two zeros are equal, and not-a-number equals nothing. -/
def same (x y : Double) : Bool :=
  !x.isNaN && !y.isNaN && (x.bits == y.bits || (x.isZero && y.isZero))

def ofMagnitude (negative : Bool) (m : Nat) : Double :=
  ⟨UInt64.ofNat (if negative then m + signWeight else m)⟩

def zero (negative : Bool) : Double := ofMagnitude negative 0

def exponentBits (x : Double) : Nat := x.magnitude / exponentWeight

def fractionBits (x : Double) : Nat := x.magnitude % exponentWeight

/-- The significand: a finite float is `significand · 2 ^ exponent` up to its sign. -/
def significand (x : Double) : Nat :=
  if x.exponentBits = 0 then x.fractionBits else x.fractionBits + exponentWeight

def exponent (x : Double) : Int :=
  (if x.exponentBits = 0 then 1 else (x.exponentBits : Int)) - 1075

/-- The gap below a power of two is half the gap above it, except at the bottom of the range. -/
def isPowerBoundary (x : Double) : Bool := x.fractionBits = 0 && 1 < x.exponentBits

end Double

end Wireform

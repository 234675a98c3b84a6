/-!
# Binary floating-point numbers of 64 bits

A number is its bit pattern: a sign bit, eleven exponent bits and fifty-two fraction bits.
Comparison, rounding and the conversion from decimal literals are defined on the pattern with exact
integer arithmetic, so nothing about them is left to the machine.
-/

namespace AtomTransport

structure Binary64 where
  bits : UInt64
  deriving DecidableEq

namespace Binary64

def magnitude (x : Binary64) : Nat := x.bits.toNat % Nat.pow 2 63

def isNegative (x : Binary64) : Bool := Nat.pow 2 63 ≤ x.bits.toNat

def infinityMagnitude : Nat := 0x7FF0000000000000

def isNaN (x : Binary64) : Bool := infinityMagnitude < x.magnitude

def isInfinite (x : Binary64) : Bool := x.magnitude = infinityMagnitude

/-- The signed magnitude. It orders all numbers, and both zeros get `0`. -/
def orderKey (x : Binary64) : Int :=
  if x.isNegative then -(x.magnitude : Int) else x.magnitude

def eq (x y : Binary64) : Bool := !x.isNaN && !y.isNaN && x.orderKey = y.orderKey

def lt (x y : Binary64) : Bool := !x.isNaN && !y.isNaN && x.orderKey < y.orderKey

def ofMagnitude (negative : Bool) (m : Nat) : Binary64 :=
  ⟨(m + if negative then Nat.pow 2 63 else 0).toUInt64⟩

def zero : Binary64 := ofMagnitude false 0

/-- A finite magnitude is `significand * 2 ^ (exponent - 1074)`. -/
def significand (x : Binary64) : Nat :=
  if x.magnitude < Nat.pow 2 52 then x.magnitude else x.magnitude % Nat.pow 2 52 + Nat.pow 2 52

def exponent (x : Binary64) : Nat := x.magnitude / Nat.pow 2 52 - 1

def numerator (x : Binary64) : Nat := x.significand * Nat.pow 2 x.exponent

/-- All finite magnitudes are multiples of `1 / denominator`. -/
def denominator : Nat := Nat.pow 2 1074

/-- The quotient rounded to the nearest integer, a half to the even neighbour. -/
def roundDiv (num den : Nat) : Nat :=
  let q := num / den
  let r := num % den
  if 2 * r < den then q
  else if den < 2 * r then q + 1
  else if q % 2 = 0 then q else q + 1

/-- The magnitude nearest to `num / den`. The quotient is scaled so that it has at most 53 binary
places, and a carry out of the rounding moves into the exponent field by itself. -/
def roundMagnitude (num den : Nat) : Nat :=
  let scaled := num * denominator / den
  let e := scaled.log2 - 52
  min infinityMagnitude (e * Nat.pow 2 52 + roundDiv (num * denominator) (den * Nat.pow 2 e))

def ofRatio (negative : Bool) (num den : Nat) : Binary64 :=
  ofMagnitude negative (roundMagnitude num den)

def ofNat (n : Nat) : Binary64 := ofRatio false n 1

def ofInt (n : Int) : Binary64 := ofRatio (n < 0) n.natAbs 1

def scaleUp (x y : Binary64) : Binary64 :=
  ofRatio false (x.numerator * y.numerator) (denominator * denominator)

def scaleDown (x y : Binary64) : Binary64 := ofRatio false x.numerator y.numerator

def powerOfTen (n : Nat) : Binary64 := ofNat (Nat.pow 10 n)

/-- Multiplies a non-negative number by a power of ten in one rounded step. Exponents beyond 308
exceed every finite number, and exponents below -308 are reached by dividing by `10 ^ 308` first;
three divisions reach zero from any number. -/
def scaleByTen : Nat → Binary64 → Int → Option Binary64
  | 0, _, _ => some zero
  | fuel + 1, x, e =>
    if x.magnitude = 0 then some x
    else if 308 < e then none
    else if 0 ≤ e then
      let y := x.scaleUp (powerOfTen e.toNat)
      if y.isInfinite then none else some y
    else if -308 ≤ e then some (x.scaleDown (powerOfTen e.natAbs))
    else scaleByTen fuel (x.scaleDown (powerOfTen 308)) (e + 308)

/-- The number written as `significand * 10 ^ exponent`, where the significand is rounded first.
A literal beyond the finite range has no value. -/
def ofDecimal (negative : Bool) (significand : Nat) (exponent : Int) : Option Binary64 :=
  (scaleByTen 4 (ofNat significand) exponent).map fun x => ofMagnitude negative x.magnitude

end Binary64

end AtomTransport

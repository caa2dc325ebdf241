import LuaData.Number.Rounding

/-!
# Doubles

A `Double` is the 64-bit word of an IEEE 754 double. Its value is read off the word as a whole
number of units of `2 ^ (-1074)`, the smallest positive double, so that comparison, rounding to an
integer and the arithmetic of `LuaData.Number.Double.Arith` are exact integer computations.
Infinities count as `2 ^ 2098` units, the first power of two beyond every finite double, which
keeps the order of the units the order of the doubles.
-/

namespace LuaData

/-- A double, given by its bits. -/
structure Double where
  bits : UInt64
  deriving DecidableEq, Inhabited

namespace Double

/-- The sign bit is set. -/
def negative (x : Double) : Bool :=
  decide (2 ^ 63 ≤ x.bits.toNat)

/-- The eleven exponent bits. -/
def exponentField (x : Double) : Nat :=
  x.bits.toNat / 2 ^ 52 % 2 ^ 11

/-- The 52 fraction bits. -/
def fractionField (x : Double) : Nat :=
  x.bits.toNat % 2 ^ 52

/-- Neither infinite nor a NaN. -/
def isFinite (x : Double) : Bool :=
  x.exponentField != 2047

/-- Not a number. -/
def isNaN (x : Double) : Bool :=
  x.exponentField == 2047 && x.fractionField != 0

/-- One of the two infinities. -/
def isInfinite (x : Double) : Bool :=
  x.exponentField == 2047 && x.fractionField == 0

/-- The number of units `2 ^ (-1074)` in one. -/
def unitsPerOne : Nat := 2 ^ 1074

/-- The magnitude in units of `2 ^ (-1074)`. -/
def units (x : Double) : Nat :=
  if x.exponentField = 0 then x.fractionField
  else (2 ^ 52 + x.fractionField) * 2 ^ (x.exponentField - 1)

/-- The value in units of `2 ^ (-1074)`. -/
def scaled (x : Double) : Int :=
  if x.negative then -(x.units : Int) else x.units

/-- Either of the two zeros. -/
def isZero (x : Double) : Bool :=
  x.units == 0

/-- The word with the given sign and the given remaining 63 bits. -/
def ofFields (negative : Bool) (magnitude : Nat) : Double :=
  ⟨UInt64.ofNat ((if negative then 2 ^ 63 else 0) + magnitude)⟩

/-- The zero of the given sign. -/
def zero (negative : Bool) : Double := ofFields negative 0

/-- The infinity of the given sign. -/
def infinity (negative : Bool) : Double := ofFields negative (2047 * 2 ^ 52)

/-- The quiet NaN with no other bit set. -/
def nan : Double := ofFields false (2047 * 2 ^ 52 + 2 ^ 51)

/-- The double nearest to `num / den` with the given sign, a tie going to the even significand. A
significand `q` on the grid `2 ^ s` has the word `(s + 1074) * 2 ^ 52 + q`: the leading bit of a
normal significand carries into the exponent field, and so does a significand that was rounded up
to the next power of two. -/
def ofRatio (negative : Bool) (num den : Nat) : Double :=
  if num = 0 then zero negative
  else
    let (q, scale) := BinaryFormat.double.significand num den
    let magnitude := (scale + 1074).toNat * 2 ^ 52 + q
    if magnitude < 2047 * 2 ^ 52 then ofFields negative magnitude else infinity negative

/-- The double nearest to an integer. -/
def ofInt (i : Int) : Double :=
  ofRatio (decide (i < 0)) i.natAbs 1

/-- The numeric order; a NaN is neither below nor above anything. -/
def lt (x y : Double) : Bool :=
  !x.isNaN && !y.isNaN && decide (x.scaled < y.scaled)

/-- The numeric order or equality; false when an operand is a NaN. -/
def le (x y : Double) : Bool :=
  !x.isNaN && !y.isNaN && decide (x.scaled ≤ y.scaled)

/-- Numeric equality: the two zeros are equal and a NaN differs from itself. -/
def eq (x y : Double) : Bool :=
  !x.isNaN && !y.isNaN && decide (x.scaled = y.scaled)

/-- How a double is made an integer. -/
inductive IntegerMode where
  /-- Only integral doubles have an integer. -/
  | exact
  /-- The greatest integer that is not above. -/
  | floor
  /-- The least integer that is not below. -/
  | ceiling
  deriving DecidableEq

/-- The greatest integer that is not above a finite double. -/
def floorInt (x : Double) : Int :=
  x.scaled / (unitsPerOne : Int)

/-- The least integer that is not below a finite double. -/
def ceilingInt (x : Double) : Int :=
  -(-x.scaled / (unitsPerOne : Int))

/-- A finite double without a fraction. -/
def isIntegral (x : Double) : Bool :=
  x.isFinite && x.units % unitsPerOne == 0

/-- The integer as a 64-bit word, if it has one. -/
def int64? (i : Int) : Option Int64 :=
  if -(2 ^ 63) ≤ i ∧ i < 2 ^ 63 then some (Int64.ofInt i) else none

/-- The 64-bit integer of a double under a mode; `none` for a NaN, for an infinity and for an
integer that does not fit. -/
def toInt64? (mode : IntegerMode) (x : Double) : Option Int64 :=
  if !x.isFinite then none
  else
    match mode with
    | .exact => if x.isIntegral then int64? x.floorInt else none
    | .floor => int64? x.floorInt
    | .ceiling => int64? x.ceilingInt

/-- The 64-bit integer that a double equals, if there is one. -/
def integer? (x : Double) : Option Int64 :=
  x.toInt64? .exact

end Double

end LuaData

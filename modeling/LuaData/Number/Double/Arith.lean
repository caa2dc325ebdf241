import LuaData.Number.Double

/-!
# Arithmetic on doubles

Sums, products, quotients and remainders are computed exactly on units and rounded once. The sign
of a zero, and the cases that give a NaN or an infinity, are those of IEEE 754. The power is the one
operation that is not exact arithmetic: it is the platform's.
-/

namespace LuaData.Double

/-- The double nearest to a number of units of `2 ^ (-1074)`; an exact zero has the given sign. -/
def ofScaled (zeroNegative : Bool) (s : Int) : Double :=
  if s = 0 then zero zeroNegative else ofRatio (decide (s < 0)) s.natAbs unitsPerOne

/-- The same magnitude with the other sign. -/
def neg (x : Double) : Double :=
  ⟨if x.negative then x.bits - 0x8000000000000000 else x.bits + 0x8000000000000000⟩

/-- The sum. A sum that cancels is positive zero, unless both summands are negative zeros. -/
def add (x y : Double) : Double :=
  if x.isNaN || y.isNaN then nan
  else if x.isInfinite then
    if y.isInfinite && x.negative != y.negative then nan else x
  else if y.isInfinite then y
  else ofScaled (x.negative && y.negative) (x.scaled + y.scaled)

/-- The difference. -/
def sub (x y : Double) : Double :=
  add x (neg y)

/-- The product. -/
def mul (x y : Double) : Double :=
  let sign := x.negative != y.negative
  if x.isNaN || y.isNaN then nan
  else if x.isInfinite || y.isInfinite then
    if x.isZero || y.isZero then nan else infinity sign
  else ofRatio sign (x.units * y.units) (unitsPerOne * unitsPerOne)

/-- The quotient. -/
def div (x y : Double) : Double :=
  let sign := x.negative != y.negative
  if x.isNaN || y.isNaN then nan
  else if x.isInfinite then
    if y.isInfinite then nan else infinity sign
  else if y.isInfinite then zero sign
  else if y.isZero then
    if x.isZero then nan else infinity sign
  else ofRatio sign x.units y.units

/-- The remainder of the division that truncates: it has the sign of the dividend and is exact. -/
def rem (x y : Double) : Double :=
  if x.isNaN || y.isNaN || x.isInfinite || y.isZero then nan
  else if y.isInfinite then x
  else ofRatio x.negative (x.units % y.units) unitsPerOne

/-- The power, as the platform computes it. -/
def pow (x y : Double) : Double :=
  ⟨((Float.ofBits x.bits).pow (Float.ofBits y.bits)).toBits⟩

/-- The greatest integral double that is not above. -/
def floor (x : Double) : Double :=
  if x.isFinite then ofScaled x.negative (x.floorInt * unitsPerOne) else x

/-- The remainder of the division that rounds down: it has the sign of the divisor. -/
def floorMod (x y : Double) : Double :=
  let m := rem x y
  if (lt (zero false) m && lt y (zero false)) || (lt m (zero false) && lt (zero false) y) then
    add m y
  else m

/-- The power of two `2 ^ e` as the inverse or the repeated square of two gives it: an exponent of
1024 or more overflows to infinity, and one of -1024 or less is the inverse of that. -/
def twoPow (e : Int) : Double :=
  if 1024 ≤ e then infinity false
  else if e ≤ -1024 then zero false
  else ofRatio false (2 ^ e.toNat) (2 ^ (-e).toNat)

/-- The nearest single-precision value, as a double. Magnitudes that round to `2 ^ 128` or more
become infinite. -/
def toSingle (x : Double) : Double :=
  if !x.isFinite || x.isZero then x
  else
    let (q, scale) := BinaryFormat.single.significand x.units unitsPerOne
    if q * 2 ^ scale.toNat < 2 ^ 128 then
      ofRatio x.negative (q * 2 ^ scale.toNat) (2 ^ (-scale).toNat)
    else infinity x.negative

end LuaData.Double

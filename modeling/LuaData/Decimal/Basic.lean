import LuaData.Number.Double

/-!
# Decimal forms of doubles

A `Decimal` is a positive number in scientific form, a string of significant digits and the power
of ten of the first one. This module rounds a double to a given number of digits, finds the fewest
digits that read back as the double, reads a decimal as a double, and lays digits out as text.
-/

namespace LuaData

/-- Decimal digits of a natural, most significant first. -/
def decimalDigits (n : Nat) : List Char :=
  Nat.toDigits 10 n

/-- The number `d.ddd… * 10 ^ exponent` with the given digits. -/
structure Decimal where
  digits : List Char
  exponent : Int

/-- The greatest `e` with `10 ^ e ≤ num / den`, for positive `num` and `den`. -/
def floorLog10 (num den : Nat) : Int :=
  if den ≤ num then ((decimalDigits (num / den)).length : Int) - 1
  else
    let k := (decimalDigits (den / num)).length
    if den ≤ num * 10 ^ (k - 1) then -((k - 1 : Nat) : Int) else -(k : Int)

/-- The double nearest to `n * 10 ^ exponent`. Exponents far outside the range of doubles are
settled without the power of ten. -/
def Double.ofDecimal (negative : Bool) (n : Nat) (exponent : Int) : Double :=
  if n = 0 then Double.zero negative
  else if 400 < exponent then Double.infinity negative
  else if exponent + (n.log2 / 3 + 1 : Nat) < -400 then Double.zero negative
  else Double.ofRatio negative (n * 10 ^ exponent.toNat) (10 ^ (-exponent).toNat)

namespace Decimal

/-- Digits without the zeros at their end. -/
def trimZeros (digits : List Char) : List Char :=
  (digits.reverse.dropWhile (· == '0')).reverse

/-- The nearest decimal with `count` significant digits, a tie going to the even digit, for a
positive ratio. Rounding up to the next power of ten adds a digit, which moves the exponent. -/
def rounded (count : Nat) (num den : Nat) : Decimal :=
  let e := floorLog10 num den
  let shift := (count - 1 : Nat) - e
  let n := divNearest (num * 10 ^ shift.toNat) (den * 10 ^ (-shift).toNat)
  let digits := decimalDigits n
  ⟨digits.take count, e + ((digits.length - count : Nat) : Int)⟩

/-- The whole number of steps `10 ^ exponent` that is nearest to the positive double `x` among its
two neighbours on that grid that read back as `x`, if one of them does. -/
def nearestReading (x : Double) (exponent : Int) : Option Nat :=
  let num := x.units * 10 ^ (-exponent).toNat
  let den := Double.unitsPerOne * 10 ^ exponent.toNat
  let below := num / den
  let reads (n : Nat) : Bool := Double.ofDecimal x.negative n exponent == x
  match reads below, reads (below + 1) with
  | true, true => some (divNearest num den)
  | true, false => some below
  | false, true => some (below + 1)
  | false, false => none

/-- The first reading on the grids with `count`, `count + 1`, … digits, at most `fuel` of them. -/
def shortestFrom (x : Double) (e : Int) : Nat → Nat → Option Decimal
  | _, 0 => none
  | count, fuel + 1 =>
    let step := e - ((count - 1 : Nat) : Int)
    match nearestReading x step with
    | some n =>
      let digits := decimalDigits n
      some ⟨trimZeros digits, step + ((digits.length - 1 : Nat) : Int)⟩
    | none => shortestFrom x e (count + 1) fuel

/-- The fewest digits that read back as a positive finite double, and among those the nearest.
Seventeen digits always suffice; the exact rounding to them stands in for a search that finds
none. -/
def shortest (x : Double) : Decimal :=
  (shortestFrom x (floorLog10 x.units Double.unitsPerOne) 1 17).getD
    (rounded 17 x.units Double.unitsPerOne)

/-- How digits are laid out: the exponents that are written positionally, and the least number of
digits of a written exponent. -/
structure Layout where
  lowest : Int
  limit : Int
  exponentWidth : Nat

/-- Digits padded with zeros on the left. -/
def padLeft (width : Nat) (digits : List Char) : List Char :=
  List.replicate (width - digits.length) '0' ++ digits

/-- A whole part and a fraction. The fraction loses its trailing zeros, and an empty one is
`empty`. -/
def withFraction (whole fraction empty : List Char) : List Char :=
  match trimZeros fraction with
  | [] => whole ++ empty
  | kept => whole ++ '.' :: kept

/-- The text of a decimal. Positional text of a whole number keeps `.0`, so that it does not read
as an integer; other text is a digit, its fraction and a signed exponent. -/
def layout (format : Layout) (d : Decimal) : List Char :=
  if format.lowest ≤ d.exponent ∧ d.exponent < format.limit then
    if 0 ≤ d.exponent then
      let count := d.exponent.toNat + 1
      let whole := d.digits.take count
      withFraction (whole ++ List.replicate (count - whole.length) '0') (d.digits.drop count)
        ['.', '0']
    else
      withFraction ['0'] (List.replicate ((-d.exponent).toNat - 1) '0' ++ d.digits) ['.', '0']
  else
    withFraction (d.digits.take 1) (d.digits.drop 1) [] ++ 'e' ::
      (if d.exponent < 0 then '-' else '+') ::
        padLeft format.exponentWidth (decimalDigits d.exponent.natAbs)

end Decimal

end LuaData

import LuaData.Bytes
import LuaData.Decimal.Basic
import LuaData.Number.Basic

/-!
# Numerals

A numeral is a number written in bytes: optional blanks around an optional sign and a decimal or
hexadecimal magnitude. Both magnitudes share one shape, `Numeral.Parts`: digits, a fraction after a
point, and an exponent after a mark, with at least one digit before the exponent. A magnitude with
neither point nor exponent is an integer; decimal integers that do not fit become doubles, and
hexadecimal ones wrap.
-/

namespace LuaData

namespace Numeral

/-- The blanks allowed around a numeral: space, tab, line feed, carriage return, vertical tab and
form feed. -/
def isBlank (c : UInt8) : Bool :=
  c == 32 || c == 9 || c == 10 || c == 13 || c == 11 || c == 12

/-- The bytes without blanks at either end. -/
def trim (bytes : Bytes) : Bytes :=
  ((bytes.dropWhile isBlank).reverse.dropWhile isBlank).reverse

/-- A decimal digit. -/
def isDigit (c : UInt8) : Bool :=
  48 ≤ c && c ≤ 57

/-- A hexadecimal digit of either case. -/
def isHexDigit (c : UInt8) : Bool :=
  isDigit c || (97 ≤ c && c ≤ 102) || (65 ≤ c && c ≤ 70)

/-- The value of a hexadecimal digit. -/
def digitValue (c : UInt8) : Nat :=
  if isDigit c then c.toNat - 48 else if 97 ≤ c then c.toNat - 87 else c.toNat - 55

/-- The number that digits of a base denote. -/
def natOfDigits (base : Nat) (digits : Bytes) : Nat :=
  digits.foldl (fun n c ↦ n * base + digitValue c) 0

/-- The parts of a magnitude: its digits before the point, the digits after it if there is a point,
and the exponent if there is one. -/
structure Parts where
  whole : Bytes
  fraction : Option Bytes
  exponent : Option Int

/-- The longest run of digits at the front, and the rest. -/
def takeDigits (digit : UInt8 → Bool) (bytes : Bytes) : Bytes × Bytes :=
  (bytes.takeWhile digit, bytes.dropWhile digit)

/-- The size of an exponent with the given digits. Once it reaches the limit, the digits that are
left do not count. -/
def exponentSize (limit : Nat) (digits : Bytes) : Nat :=
  digits.foldl (fun n c ↦ if n < limit then n * 10 + digitValue c else n) 0

/-- The signed exponent that is the whole text. -/
def exponent? (limit : Nat) (bytes : Bytes) : Option Int :=
  let (negative, digits) :=
    match bytes with
    | 45 :: rest => (true, rest)
    | 43 :: rest => (false, rest)
    | rest => (false, rest)
  if digits.isEmpty || !digits.all isDigit then none
  else
    let n : Int := exponentSize limit digits
    some (if negative then -n else n)

/-- The parts of a magnitude with the given digits, exponent mark (given in lower case; the upper
case letter is 32 below) and limit of the exponent. The magnitude is the whole text. -/
def split (digit : UInt8 → Bool) (mark : UInt8) (limit : Nat) (bytes : Bytes) : Option Parts :=
  let (whole, afterWhole) := takeDigits digit bytes
  let (fraction, afterFraction) :=
    match afterWhole with
    | 46 :: rest =>
      let (digits, rest) := takeDigits digit rest
      (some digits, rest)
    | rest => (none, rest)
  if whole.isEmpty && (fraction.getD []).isEmpty then none
  else
    match afterFraction with
    | [] => some ⟨whole, fraction, none⟩
    | c :: rest =>
      if c == mark || c == mark - 32 then
        (exponent? limit rest).map fun e ↦ ⟨whole, fraction, some e⟩
      else none

/-- The double of a hexadecimal magnitude: its digits are accumulated in doubles, and the result is
multiplied by the power of two, with an exponent limited to 32 bits. -/
def hexDouble (parts : Parts) : Double :=
  let fraction := parts.fraction.getD []
  let mantissa := (parts.whole ++ fraction).foldl
    (fun m c ↦ (m.mul (Double.ofInt 16)).add (Double.ofInt (digitValue c))) (Double.zero false)
  let exponent := parts.exponent.getD 0 - 4 * (fraction.length : Int)
  mantissa.mul (Double.twoPow (max (-(2 ^ 31)) (min (2 ^ 31 - 1) exponent)))

/-- The number of a hexadecimal magnitude: an integer modulo `2 ^ 64` without point and exponent,
a double otherwise. Its exponent is read within 64 bits. -/
def hexadecimal (negative : Bool) (bytes : Bytes) : Option Number :=
  (split isHexDigit 112 (2 ^ 63 - 1) bytes).map fun parts ↦
    if parts.fraction.isNone && parts.exponent.isNone then
      let i := Int64.ofNat (natOfDigits 16 parts.whole)
      .int (if negative then -i else i)
    else
      let x := hexDouble parts
      .float (if negative then x.neg else x)

/-- The number of a decimal magnitude: an integer without point and exponent where it fits, the
nearest double otherwise. Exponents from `2 ^ 16` on are cut short, which shows only next to tens of
thousands of digits. -/
def decimal (negative : Bool) (bytes : Bytes) : Option Number :=
  (split isDigit 101 (2 ^ 16) bytes).map fun parts ↦
    let n := natOfDigits 10 parts.whole
    let limit := if negative then 2 ^ 63 else 2 ^ 63 - 1
    if parts.fraction.isNone && parts.exponent.isNone && n ≤ limit then
      let i := Int64.ofNat n
      .int (if negative then -i else i)
    else
      let fraction := parts.fraction.getD []
      .float (Double.ofDecimal negative (natOfDigits 10 (parts.whole ++ fraction))
        (parts.exponent.getD 0 - (fraction.length : Int)))

/-- The number that a string of bytes denotes, if it is a numeral. -/
def read? (bytes : Bytes) : Option Number :=
  let (negative, body) :=
    match trim bytes with
    | 45 :: rest => (true, rest)
    | 43 :: rest => (false, rest)
    | rest => (false, rest)
  match body with
  | 48 :: 120 :: rest => hexadecimal negative rest
  | 48 :: 88 :: rest => hexadecimal negative rest
  | _ => decimal negative body

end Numeral

end LuaData

import LuaData.Decimal.Basic
import LuaData.Number.Basic

/-!
# The text of numbers

Integers are written in decimal. Doubles are written with fourteen significant digits, without
trailing zeros, and always so that the text does not read as an integer.
-/

namespace LuaData

/-- An integer in decimal. -/
def Integer.text (i : Int64) : List Char :=
  if i < 0 then '-' :: decimalDigits i.toInt.natAbs else decimalDigits i.toInt.natAbs

/-- Positional text for exponents from -4 to 13; other exponents have two digits or more. -/
def Double.textLayout : Decimal.Layout := ⟨-4, 14, 2⟩

/-- The sign and the text of the magnitude. -/
def Double.signed (x : Double) (magnitude : List Char) : List Char :=
  if x.negative then '-' :: magnitude else magnitude

/-- A double with fourteen significant digits. -/
def Double.text (x : Double) : List Char :=
  x.signed <|
    if x.isNaN then ['n', 'a', 'n']
    else if x.isInfinite then ['i', 'n', 'f']
    else if x.isZero then ['0', '.', '0']
    else (Decimal.rounded 14 x.units Double.unitsPerOne).layout Double.textLayout

/-- The text of a number. -/
def Number.text : Number → List Char
  | .int i => Integer.text i
  | .float x => x.text

end LuaData

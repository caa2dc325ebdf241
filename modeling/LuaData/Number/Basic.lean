import LuaData.Number.Double.Arith

/-!
# Numbers

A number is a 64-bit integer or a double. The two kinds are ordered and compared by their exact
values, without a rounding conversion of the integer. Integer arithmetic wraps to the configured
width; `div` and `pow` always compute with doubles, and so does every operation on mixed operands.
-/

namespace LuaData

/-- A number: an integer or a double. -/
inductive Number where
  | int (i : Int64)
  | float (x : Double)
  deriving DecidableEq, Inhabited

/-- The width of integer results. Integers are stored in 64 bits; under `bits32` every integer
result is wrapped to the signed 32-bit range. -/
inductive Width where
  | bits32
  | bits64
  deriving DecidableEq, Inhabited

/-- The representative of an integer in the signed range of the width. -/
def Width.wrap : Width → Int64 → Int64
  | .bits32, i => i.toInt32.toInt64
  | .bits64, i => i

/-- The arithmetic operators. -/
inductive Operator where
  | add
  | sub
  | mul
  | mod
  | pow
  | div
  | idiv
  | neg
  deriving DecidableEq

namespace Integer

/-- The remainder of the division that rounds down, for a divisor other than zero. It is the
truncated remainder, moved by one divisor when the signs differ. -/
def floorMod (a b : Int64) : Int64 :=
  let m := a % b
  if m ≠ 0 ∧ m ^^^ b < 0 then m + b else m

/-- The quotient rounded down, for a divisor other than zero. -/
def floorDiv (a b : Int64) : Int64 :=
  let q := a / b
  if a % b ≠ 0 ∧ a ^^^ b < 0 then q - 1 else q

/-- The double nearest to an integer. -/
def toDouble (i : Int64) : Double :=
  Double.ofInt i.toInt

/-- Every integer of magnitude at most `2 ^ 53` is a double. -/
def fitsDouble (i : Int64) : Bool :=
  decide (i.toInt.natAbs ≤ 2 ^ 53)

/-- The integer is below the double. -/
def ltDouble (i : Int64) (x : Double) : Bool :=
  if fitsDouble i then (toDouble i).lt x
  else
    match x.toInt64? .ceiling with
    | some n => decide (i < n)
    | none => (Double.zero false).lt x

/-- The integer is at most the double. -/
def leDouble (i : Int64) (x : Double) : Bool :=
  if fitsDouble i then (toDouble i).le x
  else
    match x.toInt64? .floor with
    | some n => decide (i ≤ n)
    | none => (Double.zero false).lt x

end Integer

namespace Double

/-- The double is below the integer. -/
def ltInteger (x : Double) (i : Int64) : Bool :=
  if Integer.fitsDouble i then x.lt (Integer.toDouble i)
  else
    match x.toInt64? .floor with
    | some n => decide (n < i)
    | none => x.lt (zero false)

/-- The double is at most the integer. -/
def leInteger (x : Double) (i : Int64) : Bool :=
  if Integer.fitsDouble i then x.le (Integer.toDouble i)
  else
    match x.toInt64? .ceiling with
    | some n => decide (n ≤ i)
    | none => x.lt (zero false)

/-- The double has exactly the value of the integer. -/
def eqInteger (x : Double) (i : Int64) : Bool :=
  x.integer? == some i

/-- An operator applied to doubles. -/
def apply (op : Operator) (x y : Double) : Double :=
  match op with
  | .add => x.add y
  | .sub => x.sub y
  | .mul => x.mul y
  | .mod => x.floorMod y
  | .pow => x.pow y
  | .div => x.div y
  | .idiv => (x.div y).floor
  | .neg => x.neg

end Double

namespace Number

/-- The number as a double, rounded when it is a large integer. -/
def toDouble : Number → Double
  | .int i => Integer.toDouble i
  | .float x => x

/-- The integer that the number equals, if there is one. -/
def integer? : Number → Option Int64
  | .int i => some i
  | .float x => x.integer?

/-- The greatest integer that is not above the number, if it fits. -/
def floor? : Number → Option Int64
  | .int i => some i
  | .float x => x.toInt64? .floor

/-- The numeric order. -/
def lt : Number → Number → Bool
  | .int i, .int j => decide (i < j)
  | .int i, .float y => Integer.ltDouble i y
  | .float x, .int j => x.ltInteger j
  | .float x, .float y => x.lt y

/-- The numeric order or equality. -/
def le : Number → Number → Bool
  | .int i, .int j => decide (i ≤ j)
  | .int i, .float y => Integer.leDouble i y
  | .float x, .int j => x.leInteger j
  | .float x, .float y => x.le y

/-- Numeric equality across the two kinds. -/
def eq : Number → Number → Bool
  | .int i, .int j => i == j
  | .int i, .float y => y.eqInteger i
  | .float x, .int j => x.eqInteger j
  | .float x, .float y => x.eq y

/-- An operator applied to integers. A modulo or floor division by zero is that of the doubles. -/
def applyInt (width : Width) (op : Operator) (i j : Int64) : Number :=
  let floating : Number := .float ((Integer.toDouble i).apply op (Integer.toDouble j))
  match op with
  | .add => .int (width.wrap (i + j))
  | .sub => .int (width.wrap (i - j))
  | .mul => .int (width.wrap (i * j))
  | .neg => .int (width.wrap (-i))
  | .mod => if j = 0 then floating else .int (width.wrap (Integer.floorMod i j))
  | .idiv => if j = 0 then floating else .int (width.wrap (Integer.floorDiv i j))
  | .div => floating
  | .pow => floating

/-- An operator applied to numbers: integers stay integers where the operator allows it, and
mixed operands are doubles. The operand of `neg` is the first. -/
def apply (width : Width) (op : Operator) : Number → Number → Number
  | .int i, .int j => applyInt width op i j
  | a, b => .float (a.toDouble.apply op b.toDouble)

end Number

end LuaData

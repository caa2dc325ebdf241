import LuaData.Json.Tree
import LuaData.Number.Double.Arith

/-!
# Reading JSON

`Json.parse?` reads a JSON text as a value. Arrays and objects may be nested 127 deep. A number
without fraction and exponent is an integer if it fits 64 bits; all others are doubles, computed
from as many digits as fit 64 bits and a power of ten, and a number beyond the doubles is refused.
-/

namespace LuaData.Json

/-- The deepest nesting of arrays and objects. -/
def maxDepth : Nat := 127

namespace Literal

/-- The digits of a number that fit 64 bits, as a natural, and the power of ten that scales them. -/
structure Scan where
  significand : Nat
  exponent : Int
  /-- A digit did not fit, and the digits after it are left out as well. -/
  cut : Bool

/-- Add a digit if it fits; otherwise the exponent changes by `lost`, as for a digit before the
point that is left out, and with `gained` for a digit that is taken in. -/
def Scan.push (gained lost : Int) (s : Scan) (c : Char) : Scan :=
  let n := s.significand * 10 + (c.toNat - 48)
  if s.cut || 2 ^ 64 ≤ n then { s with exponent := s.exponent + lost, cut := true }
  else ⟨n, s.exponent + gained, false⟩

/-- The digits before the point. -/
def scanWhole (l : Literal) : Scan :=
  l.whole.foldl (Scan.push 0 1) ⟨0, 0, false⟩

/-- All digits. -/
def scan (l : Literal) : Scan :=
  l.fraction.foldl (Scan.push (-1) 0) { l.scanWhole with cut := false }

/-- Multiply by a power of ten in doubles. Powers beyond the doubles are refused, and divided out in
steps of `10 ^ 308`; `fuel` bounds their number. -/
def scale : (fuel : Nat) → Double → Int → Option Double
  | 0, x, _ => some x
  | fuel + 1, x, e =>
    if e.natAbs ≤ 308 then
      let power := Double.ofInt (10 ^ e.natAbs)
      if 0 ≤ e then
        let product := x.mul power
        if product.isInfinite then none else some product
      else some (x.div power)
    else if x.isZero then some x
    else if 0 ≤ e then none
    else scale fuel (x.div (Double.ofInt (10 ^ 308))) (e + 308)

/-- The double of a number, if there is one. An exponent beyond 32 bits is refused, unless it leaves
nothing of the number. -/
def double? (l : Literal) : Option Double :=
  let s := l.scan
  let e : Int := l.exponent.foldl (fun n c ↦ n * 10 + (c.toNat - 48)) 0
  let signed (x : Double) : Double := if l.negative then x.neg else x
  if 2 ^ 31 ≤ e then
    if s.significand ≠ 0 ∧ !l.exponentNegative then none else some (signed (.zero false))
  else
    let exponent := s.exponent + (if l.exponentNegative then -e else e)
    (scale 8 (Double.ofInt s.significand) (max (-(2 ^ 31)) (min (2 ^ 31 - 1) exponent))).map signed

/-- The value of a number. -/
def value? (l : Literal) : Option Json :=
  let s := l.scanWhole
  if l.plain && !s.cut then
    if !l.negative then some (.int s.significand)
    else if 0 < s.significand ∧ s.significand ≤ 2 ^ 63 then some (.int (-s.significand))
    else some (.float (Double.ofInt s.significand).neg)
  else l.double?.map .float

end Literal

mutual

/-- The value of a JSON text with at most `depth` levels of nesting. -/
def ofTree? (depth : Nat) : Tree → Option Json
  | .null => some .null
  | .bool b => some (.bool b)
  | .number n => n.value?
  | .string text => text.map .string
  | .array items =>
    if depth = 0 then none else (ofTrees? (depth - 1) items).map .array
  | .object members =>
    if depth = 0 then none
    else (ofTreeMembers? (depth - 1) members).map fun members ↦ .object (ofMembers members)

/-- The values of the items of an array. -/
def ofTrees? (depth : Nat) : List Tree → Option (List Json)
  | [] => some []
  | item :: rest =>
    match ofTree? depth item, ofTrees? depth rest with
    | some item, some rest => some (item :: rest)
    | _, _ => none

/-- The values of the members of an object. -/
def ofTreeMembers? (depth : Nat) :
    List (Option (List Char) × Tree) → Option (List (List Char × Json))
  | [] => some []
  | (key, value) :: rest =>
    match key, ofTree? depth value, ofTreeMembers? depth rest with
    | some key, some value, some rest => some ((key, value) :: rest)
    | _, _, _ => none

end

/-- The value of a JSON text. -/
def parse? (text : List Char) : Option Json :=
  (Tree.parse? text).bind (ofTree? maxDepth)

end LuaData.Json

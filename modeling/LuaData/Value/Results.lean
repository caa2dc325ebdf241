import LuaData.Value.Basic

/-!
# Results of calls

A call returns any number of values. Most callers want the first one only.
-/

namespace LuaData

/-- The values that a call returns. -/
inductive Results where
  | empty
  | single (v : Value)
  | many (vs : List Value)

namespace Results

/-- Two values. -/
def two (a b : Value) : Results := .many [a, b]

/-- The given values, in the smallest shape that holds them. -/
def ofList : List Value → Results
  | [] => .empty
  | [v] => .single v
  | vs => .many vs

/-- All values in order. -/
def toList : Results → List Value
  | .empty => []
  | .single v => [v]
  | .many vs => vs

/-- The number of values. -/
def length (r : Results) : Nat :=
  r.toList.length

/-- The value at a position counted from zero. -/
def get? (r : Results) (i : Nat) : Option Value :=
  r.toList[i]?

/-- The first value, nil if there is none. -/
def first (r : Results) : Value :=
  (r.get? 0).getD .nil

end Results

end LuaData

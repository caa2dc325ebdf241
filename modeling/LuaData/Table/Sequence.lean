import LuaData.Table.Length

/-!
# Tables as lists

`Table.insert` and `Table.remove` shift the values between a position and the border of the table,
within the array part where the list lies in it, and key by key where it goes on in the hash part.
Which of the two it is, `Table.insertion` and `Table.removal` tell.
-/

namespace LuaData.Table

/-- Copy the values of the keys `first, …, first + count - 1` one key up, the last one first. -/
def shiftUp (ctx : Context) (first : Nat) : (count : Nat) → Table → Except Error Table
  | 0, t => .ok t
  | count + 1, t => do
    let i := first + count
    shiftUp ctx first count
      (← t.setInt ctx (Int64.ofNat (i + 1)) (t.getInt ctx (Int64.ofNat i)))

/-- Copy the values of the keys `first + 1, …, first + count` one key down, the first one first. -/
def shiftDown (ctx : Context) (first : Nat) : (count : Nat) → Table → Except Error Table
  | 0, t => .ok t
  | count + 1, t => do
    shiftDown ctx (first + 1) count
      (← t.setInt ctx (Int64.ofNat first) (t.getInt ctx (Int64.ofNat (first + 1))))

/-- How a value is inserted or removed. -/
inductive Shift where
  /-- Within the array part, which gives this value and this table. -/
  | inArray (removed : Value) (t : Table)
  /-- Key by key: the position is `first`, and `count` values are shifted. -/
  | byKey (first count : Nat)

/-- How a value is inserted at a position; position zero is the end. -/
def insertion (ctx : Context) (t : Table) (position : Int64) (value : Value) :
    Except Error Shift := do
  let n := t.length ctx
  let p : Int := if position = 0 then n + 1 else position.toInt
  if p < 1 ∨ (n : Int) + 1 < p then throw (.badPosition (Int64.ofInt p))
  let i := p.toNat - 1
  if p = n + 1 then return .byKey p.toNat 0
  else if n < t.array.size then
    -- The key after the border is a hole within the array part, which takes up the shift.
    return .inArray .nil
      { t with array := (t.array.eraseIdxIfInBounds n).insertIdxIfInBounds i value }
  else if n = t.array.size && !t.mode.values && !t.anchored then
    return .inArray .nil
      (← absorbTail ctx { t with array := t.array.insertIdxIfInBounds i value })
  else
    return .byKey p.toNat (n + 1 - p.toNat)

/-- Insert a value at a position, shifting up what follows; position zero is the end. -/
def insert (ctx : Context) (t : Table) (position : Int64) (value : Value) : Except Error Table := do
  match ← t.insertion ctx position value with
  | .inArray _ t => return t
  | .byKey first count =>
    (← t.shiftUp ctx first count).setInt ctx (Int64.ofNat first) value

/-- How the value at a position is removed; position zero is the last one. -/
def removal (ctx : Context) (t : Table) (position : Int64) : Except Error Shift := do
  let n := t.length ctx
  if position = 0 ∧ n = 0 then return .inArray .nil t
  let p : Int := if position = 0 then n else position.toInt
  if p ≠ n ∧ (p < 1 ∨ (n : Int) + 1 < p) then throw (.badPosition (Int64.ofInt p))
  if p ≤ n ∧ n ≤ t.array.size then
    let i := p.toNat - 1
    return .inArray (t.array.getD i .nil)
      { t with array := (t.array.eraseIdxIfInBounds i).insertIdxIfInBounds (n - 1) .nil }
  else
    return .byKey p.toNat (n - p.toNat)

/-- Remove the value at a position, shifting down what follows; position zero is the last one. The
answer is the value and the table without it. -/
def remove (ctx : Context) (t : Table) (position : Int64) : Except Error (Value × Table) := do
  match ← t.removal ctx position with
  | .inArray removed t => return (removed, t)
  | .byKey first count =>
    let removed := t.getInt ctx (Int64.ofNat first)
    let t ← t.shiftDown ctx first count
    return (removed, ← t.setInt ctx (Int64.ofNat (first + count)) .nil)

end LuaData.Table

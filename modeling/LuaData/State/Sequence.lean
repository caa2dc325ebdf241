import LuaData.State.Basic
import LuaData.Table.Sequence

/-!
# Lists in an instance

`Act.insert` and `Act.remove` shift the values of a list. In a table without weak handles nothing
can expire on the way, and they are `Table.insert` and `Table.remove`. Where a write can let a key
or value go that the table holds weakly elsewhere, they shift key by key, and each write sees what
the writes before it have left alive.
-/

namespace LuaData.Act

variable [Hashing] {σ : Type}

/-- The value of an integer key of a table. -/
def listGet (r : Ref) (k : Nat) : Act σ Value := do
  return (← get).rawGet r (.int (Int64.ofNat k))

/-- Store a value under an integer key of a table. What nothing keeps any more is gone before the
next write. -/
def listSet (r : Ref) (k : Nat) (value : Value) : Act σ Unit := do
  rawSet (.table r) (.int (Int64.ofNat k)) value
  settleFor r

/-- Copy the values of the keys `first, …, first + count - 1` one key up, the last one first. -/
def shiftUp (r : Ref) (first : Nat) : (count : Nat) → Act σ Unit
  | 0 => return ()
  | count + 1 => do
    listSet r (first + count + 1) (← listGet r (first + count))
    shiftUp r first count

/-- Copy the values of the keys `first + 1, …, first + count` one key down, the first one first. -/
def shiftDown (r : Ref) (first : Nat) : (count : Nat) → Act σ Unit
  | 0 => return ()
  | count + 1 => do
    listSet r first (← listGet r (first + 1))
    shiftDown r (first + 1) count

/-- Insert a value at a position of a table, shifting up what follows; position zero is the end. -/
def insert (r : Ref) (position : Int64) (value : Value) : Act σ Unit := inScope do
  [.table r, value].forM hold
  if ((← get).table r).mayExpire then
    match ← modifyTable r fun ctx t ↦ return (← t.insertion ctx position value, t) with
    | .inArray _ t => modify fun s ↦ s.setTable r t
    | .byKey first count =>
      shiftUp r first count
      listSet r first value
  else
    modifyTable r fun ctx t ↦ return ((), ← t.insert ctx position value)

/-- Remove the value at a position of a table, shifting down what follows; position zero is the last
one. The answer is the value. -/
def remove (r : Ref) (position : Int64) : Act σ Value := inScope do
  hold (.table r)
  if ((← get).table r).mayExpire then
    match ← modifyTable r fun ctx t ↦ return (← t.removal ctx position, t) with
    | .inArray removed t =>
      modify fun s ↦ s.setTable r t
      return removed
    | .byKey first count =>
      let removed ← listGet r first
      hold removed
      shiftDown r first count
      listSet r (first + count) .nil
      return removed
  else
    modifyTable r fun ctx t ↦ t.remove ctx position

end LuaData.Act

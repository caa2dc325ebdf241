import LuaData.Table.Update

/-!
# The length of a table

The length of a table is a border: a number `n` such that the key `n` is present, or `n` is zero,
and the key `n + 1` is absent. A table with holes has several; the search below finds one of them in
a number of steps logarithmic in its size.
-/

namespace LuaData.Table

/-- Halve the gap between a present key (or zero) and an absent one until nothing lies between. -/
def bisect (present : Nat → Bool) (low high : Nat) : Nat :=
  if 1 < high - low then
    let middle := (low + high) / 2
    if present middle then bisect present middle high else bisect present low middle
  else low
termination_by high - low

/-- Double a key while it is present. The answer is a present key (or zero) and an absent one, or
`none` when doubling leaves the integers. -/
def gallop (present : Nat → Bool) (low high : Nat) : Option (Nat × Nat) :=
  if present high then
    if 0 < high ∧ high ≤ (2 ^ 63 - 1) / 2 then gallop present high (2 * high) else none
  else some (low, high)
termination_by 2 ^ 63 - high

/-- The number of keys from `start` on that are present without a gap, at most `fuel`. -/
def countFrom (present : Nat → Bool) (start : Nat) : (fuel : Nat) → Nat
  | 0 => 0
  | fuel + 1 => if present start then countFrom present (start + 1) fuel + 1 else 0

/-- The key is present. -/
def hasInt (ctx : Context) (t : Table) (n : Nat) : Bool :=
  !(t.getInt ctx (Int64.ofNat n)).isNil

/-- A border at or beyond the end of the array part, of which the last key is present. A run of keys
from one on can be no longer than the number of places in the table. -/
def hashBorder (ctx : Context) (t : Table) : Nat :=
  match gallop (t.hasInt ctx) t.array.size (t.array.size + 1) with
  | some (low, high) => bisect (t.hasInt ctx) low high
  | none => countFrom (t.hasInt ctx) 1 (t.array.size + t.arena.slots.size + 1)

/-- A border of the table. -/
def length (ctx : Context) (t : Table) : Nat :=
  if 0 < t.array.size && (t.array.getD (t.array.size - 1) .nil).isNil then
    bisect (fun n ↦ !(t.array.getD (n - 1) .nil).isNil) 0 t.array.size
  else if t.arena.live = 0 then t.array.size
  else t.hashBorder ctx

end LuaData.Table

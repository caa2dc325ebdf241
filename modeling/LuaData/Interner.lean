import LuaData.Value.Basic

/-!
# Interning strings

An interner gives equal short strings one cell. It remembers its strings weakly, grouped by the hash
of their bytes: a string that was released is forgotten, at the latest in the sweep after every
`sweepInterval` insertions. Strings longer than the limit always get a cell of their own.
-/

namespace LuaData

/-- The strings that an instance shares. -/
structure Interner where
  /-- The longest string that is shared. -/
  limit : Nat
  /-- The strings given out, by the hash of their bytes. -/
  groups : List (UInt64 × List Str)
  /-- The number of insertions since the last sweep. -/
  inserted : Nat

namespace Interner

/-- The number of insertions between sweeps. -/
def sweepInterval : Nat := 1024

/-- An interner without strings. -/
def empty (limit : Nat) : Interner := ⟨limit, [], 0⟩

/-- The strings of a group. -/
def group (i : Interner) (hash : UInt64) : List Str :=
  (i.groups.lookup hash).getD []

/-- Replace a group, or add it. -/
def setGroup (hash : UInt64) (strs : List Str) : List (UInt64 × List Str) → List (UInt64 × List Str)
  | [] => [(hash, strs)]
  | (h, old) :: rest => if h == hash then (h, strs) :: rest else (h, old) :: setGroup hash strs rest

/-- Forget the strings whose cells were released. -/
def sweep (alive : Ref → Bool) (i : Interner) : Interner :=
  { i with
    groups := i.groups.filterMap fun (h, strs) ↦
      match strs.filter fun s ↦ alive s.cell with
      | [] => none
      | strs => some (h, strs)
    inserted := 0 }

/-- The string with the given bytes: the one that is shared if it is alive, else a new one in the
cell `fresh`. -/
def intern (hash : Bytes → UInt64) (alive : Ref → Bool) (fresh : Ref) (bytes : Bytes)
    (i : Interner) : Str × Interner :=
  let new : Str := ⟨bytes, fresh⟩
  if i.limit < bytes.length then (new, i)
  else
    let strs := i.group (hash bytes)
    match strs.find? fun s ↦ alive s.cell && s.bytes == bytes with
    | some s => (s, i)
    | none =>
      let strs := strs.filter (fun s ↦ alive s.cell) ++ [new]
      let i := { i with groups := setGroup (hash bytes) strs i.groups, inserted := i.inserted + 1 }
      (new, if sweepInterval ≤ i.inserted then i.sweep fun r ↦ r == fresh || alive r else i)

/-- The strings that are alive. -/
def living (alive : Ref → Bool) (i : Interner) : List Str :=
  i.groups.flatMap fun (_, strs) ↦ strs.filter fun s ↦ alive s.cell

/-- The number of strings that are alive. -/
def size (alive : Ref → Bool) (i : Interner) : Nat :=
  (i.living alive).length

end Interner

end LuaData

import LuaData.Interner

/-!
# Named slots over an interner

A pool interns strings and keeps them in named slots. A string is alive as long as a slot holds it.
-/

namespace LuaData

/-- An interner with the strings that named slots hold. -/
structure Pool where
  interner : Interner
  slots : List (String × Str)
  /-- The name of the next cell. -/
  fresh : Ref

namespace Pool

variable [Hashing]

/-- A pool without strings. -/
def empty (limit : Nat) : Pool := ⟨.empty limit, [], 0⟩

/-- Some slot holds the string in a cell. -/
def alive (p : Pool) (r : Ref) : Bool :=
  p.slots.any fun (_, s) ↦ s.cell == r

/-- Intern a string, and keep it in a slot if one is named. -/
def intern (p : Pool) (bytes : Bytes) (slot : Option String) : Pool :=
  let (s, interner) := p.interner.intern Hashing.bytes p.alive p.fresh bytes
  let slots :=
    match slot with
    | none => p.slots
    | some name => (name, s) :: p.slots.filter fun (other, _) ↦ other != name
  ⟨interner, slots, p.fresh + 1⟩

/-- The string in a slot. -/
def get? (p : Pool) (slot : String) : Option Str :=
  p.slots.lookup slot

/-- Empty a slot. -/
def release (p : Pool) (slot : String) : Pool :=
  { p with slots := p.slots.filter fun (name, _) ↦ name != slot }

/-- Forget the strings that no slot holds. -/
def sweep (p : Pool) : Pool :=
  { p with interner := p.interner.sweep p.alive }

/-- The number of interned strings that slots hold. -/
def size (p : Pool) : Nat :=
  p.interner.size p.alive

end Pool

end LuaData

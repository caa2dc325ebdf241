import LuaData.Value.Basic

/-!
# Handles

A table stores keys and values through handles. A strong handle keeps its cell alive; a weak one
does not, and is empty once the cell is gone. `WeakMode` says which of the two a table uses, and
`Context` is what the outside contributes to every operation on a table: the hash of values and the
cells that are alive at the moment.
-/

namespace LuaData

/-- Which parts of a table are weak. -/
structure WeakMode where
  keys : Bool
  values : Bool
  deriving DecidableEq, Inhabited

namespace WeakMode

/-- Nothing is weak. -/
def strong : WeakMode := ⟨false, false⟩

/-- The mode that a `__mode` field asks for: the letters `k` and `v` of a string. -/
def ofField (field : Value) : WeakMode :=
  match field with
  | .str s => ⟨s.bytes.contains 107, s.bytes.contains 118⟩
  | _ => strong

/-- Some part is weak. -/
def isWeak (mode : WeakMode) : Bool :=
  mode.keys || mode.values

end WeakMode

/-- What a table operation depends on besides the table. -/
structure Context where
  /-- The hash of values. -/
  hash : Value → UInt64
  /-- The cells that are alive. -/
  alive : Ref → Bool

/-- A value is there as long as the cell that it refers to. -/
def Value.present (alive : Ref → Bool) (v : Value) : Bool :=
  v.ref?.all alive

/-- A stored key or value. -/
inductive Handle where
  | strong (v : Value)
  | weak (v : Value)
  deriving DecidableEq

namespace Handle

/-- A handle on a value, weak if that is asked and the value refers to a cell. -/
def ofValue (v : Value) (weakly : Bool) : Handle :=
  if weakly && v.ref?.isSome then .weak v else .strong v

/-- A handle on an entry of a table. Strings compare by content and are not cleared from weak
tables, so they are held strongly. -/
def ofEntry (v : Value) (weakly : Bool) : Handle :=
  ofValue v (weakly && !v.isString)

/-- The value, `none` once a weak handle has lost its cell. -/
def get (alive : Ref → Bool) : Handle → Option Value
  | .strong v => some v
  | .weak v => if v.present alive then some v else none

/-- The handle has lost its cell. -/
def expired (alive : Ref → Bool) (h : Handle) : Bool :=
  (h.get alive).isNone

/-- The handle still has a value, and that satisfies a predicate. -/
def holds (alive : Ref → Bool) (p : Value → Bool) (h : Handle) : Bool :=
  (h.get alive).any p

/-- The cell that the handle keeps alive. -/
def kept? : Handle → Option Ref
  | .strong v => v.ref?
  | .weak _ => none

end Handle

end LuaData

import LuaData.State.Basic

/-!
# Metatables

The metatable of a table or userdata is its own; the other kinds share one for all their values. A
metatable with a `__metatable` field is protected: scripts see that field instead, and the metatable
cannot be replaced. Setting the metatable of a table reads its `__mode` field.
-/

namespace LuaData

namespace State

variable [Hashing] {σ : Type}

/-- The metatable that a table or userdata has itself. -/
def ownMetatable? (s : State σ) : Value → Option Ref
  | .table r => (s.table r).metatable
  | .userdata r => (s.heap.userdata? r).bind Userdata.metatable
  | _ => none

/-- The metatable of a value. -/
def metatable? (s : State σ) (v : Value) : Option Ref :=
  match v with
  | .table _ => s.ownMetatable? v
  | .userdata _ => s.ownMetatable? v
  | _ => s.shared.get v.kind

/-- The handler of an event in the metatable of a value. -/
def metamethod? (s : State σ) (v : Value) (event : Event) : Option Value :=
  match s.metatable? v with
  | none => none
  | some m =>
    let handler := s.field m event
    if handler.isNil then none else some handler

/-- The handler of an event in the metatable of the first value, or else of the second. -/
def binaryMetamethod? (s : State σ) (a b : Value) (event : Event) : Option Value :=
  (s.metamethod? a event).or (s.metamethod? b event)

/-- What scripts see as the metatable: its `__metatable` field if there is one. -/
def visibleMetatable (s : State σ) (v : Value) : Value :=
  match s.metatable? v with
  | none => .nil
  | some m =>
    let field := s.field m .metatable
    if field.isNil then .table m else field

/-- The weak mode that a metatable asks for. -/
def modeOf (s : State σ) : Option Ref → WeakMode
  | none => .strong
  | some m => .ofField (s.field m .mode)

end State

namespace Act

variable [Hashing] {σ : Type}

/-- Change which parts of a table are weak. A change that is refused for the size of the table
leaves the new mode all the same. -/
def setMode (r : Ref) (mode : WeakMode) : Act σ Unit := do
  let s ← get
  match (s.table r).setMode s.context mode with
  | .ok t => set (s.setTable r t)
  | .error e =>
    set (s.setTable r { s.table r with mode })
    throw e

/-- Give a table a metatable. What the old one alone kept alive is gone before a change of the weak
mode rebuilds the table. -/
def setTableMetatable (r : Ref) (metatable : Option Ref) : Act σ Unit := inScope do
  let mode := (← get).modeOf metatable
  hold (.table r)
  modify fun s ↦ s.setTable r { s.table r with metatable }
  settle
  setMode r mode

/-- Give a value a metatable: tables and userdata have their own, the other values share it with
their kind. -/
def setMetatable (v : Value) (metatable : Option Ref) : Act σ Unit := do
  let s ← get
  if let some current := s.metatable? v then
    unless (s.field current .metatable).isNil do throw .protectedMetatable
  match v with
  | .table r => setTableMetatable r metatable
  | .userdata r =>
    if let some u := s.heap.userdata? r then
      set { s with heap := s.heap.update r (.userdata { u with metatable }) }
  | _ => set { s with shared := s.shared.set v.kind metatable }

/-- Replace the metatable that the values of a kind share. -/
def setSharedMetatable (kind : Kind) (metatable : Option Ref) : Act σ Unit :=
  modify fun s ↦ { s with shared := s.shared.set kind metatable }

end Act

end LuaData

import LuaData.Heap
import LuaData.Interner
import LuaData.Options
import LuaData.Table.Update
import LuaData.Value.Coerce
import LuaData.Value.Results

/-!
# The state of an instance

An instance has options, a heap, an interner, and a metatable for each kind of value that has no
metatable of its own. The host keeps values alive in a registry and, while an operation is running,
in a list of values that the operation holds; `host` is data of the host's own, which only the
functions that it provides can use. `Act` is a computation on such a state; an error keeps the
changes that were made before it.
-/

namespace LuaData

/-- The metatables shared by all values of a type. -/
structure SharedMetatables where
  nil : Option Ref := none
  boolean : Option Ref := none
  number : Option Ref := none
  string : Option Ref := none
  function : Option Ref := none
  thread : Option Ref := none

namespace SharedMetatables

/-- The metatable shared by the values of a kind. Tables and userdata have their own. -/
def get (m : SharedMetatables) : Kind → Option Ref
  | .nil => m.nil
  | .boolean => m.boolean
  | .integer => m.number
  | .float => m.number
  | .string => m.string
  | .function => m.function
  | .thread => m.thread
  | .table => none
  | .userdata => none

/-- Replace the metatable shared by the values of a kind; nothing happens for tables and userdata.
-/
def set (m : SharedMetatables) (kind : Kind) (metatable : Option Ref) : SharedMetatables :=
  match kind with
  | .nil => { m with nil := metatable }
  | .boolean => { m with boolean := metatable }
  | .integer => { m with number := metatable }
  | .float => { m with number := metatable }
  | .string => { m with string := metatable }
  | .function => { m with function := metatable }
  | .thread => { m with thread := metatable }
  | .table => m
  | .userdata => m

/-- The kinds that share a metatable have the one that was set last. -/
theorem get_set_self (m : SharedMetatables) {kind : Kind} (metatable : Option Ref)
    (htable : kind ≠ .table) (huserdata : kind ≠ .userdata) :
    (m.set kind metatable).get kind = metatable := by
  cases kind <;> simp_all [get, set]

/-- The metatables. -/
def refs (m : SharedMetatables) : List Ref :=
  [m.nil, m.boolean, m.number, m.string, m.function, m.thread].filterMap id

end SharedMetatables

/-- The state of an instance with host data of type `σ`. -/
structure State (σ : Type) where
  options : Options
  heap : Heap
  interner : Interner
  shared : SharedMetatables
  /-- The values that the host keeps under names. -/
  registry : List (String × Value)
  /-- The values that operations in progress hold. -/
  held : List Value
  host : σ

/-- A computation on the state of an instance. -/
abbrev Act (σ α : Type) := ExceptT Error (StateM (State σ)) α

/-- How the host calls a value with arguments. -/
abbrev Caller (σ : Type) := Value → List Value → Act σ Results

namespace State

variable [Hashing] {σ : Type}

/-- A new instance. -/
def initial (options : Options) (host : σ) : State σ where
  options := options
  heap := .empty
  interner := .empty options.shortStringLimit
  shared := {}
  registry := []
  held := []
  host := host

/-- What tables see of the instance. -/
def context (s : State σ) : Context :=
  ⟨Value.hash, s.heap.alive⟩

/-- The table with a name, empty if there is none. -/
def table (s : State σ) (r : Ref) : Table :=
  (s.heap.table? r).getD .empty

/-- The value of a key in a table. -/
def rawGet (s : State σ) (r : Ref) (key : Value) : Value :=
  (s.table r).get s.context key

/-- The value of a field of a metatable. -/
def field (s : State σ) (r : Ref) (event : Event) : Value :=
  (s.table r).getStr s.context (Utf8.ofString event.field)

/-- The cells that are held from outside the heap. -/
def roots (s : State σ) : List Ref :=
  s.registry.filterMap (fun (_, v) ↦ v.ref?) ++ s.held.filterMap Value.ref? ++ s.shared.refs

/-- Release everything that is no longer held. -/
def settle (s : State σ) : State σ :=
  { s with heap := s.heap.settle s.roots }

/-- Replace a table. -/
def setTable (s : State σ) (r : Ref) (t : Table) : State σ :=
  { s with heap := s.heap.update r (.table t) }

end State

namespace Act

variable [Hashing] {σ α : Type}

/-- Release everything that is no longer held. -/
def settle : Act σ Unit :=
  modify State.settle

/-- Hold a value until the end of the enclosing `inScope`. -/
def hold (v : Value) : Act σ Unit :=
  modify fun s ↦ { s with held := v :: s.held }

/-- Run an action and let go of what it held. -/
def inScope (act : Act σ α) : Act σ α := fun s ↦
  let (result, after) := act s
  (result, { after with held := s.held })

/-- Run an action and return its error as a result. -/
def attempt (act : Act σ α) : Act σ (Except Error α) := fun s ↦
  let (result, after) := act s
  (.ok result, after)

/-- Add a cell to the heap. -/
def allocate (cell : Cell) : Act σ Ref := do
  let r := (← get).heap.fresh
  modify fun s ↦ { s with heap := s.heap.allocate cell }
  return r

/-- A string in a cell of its own. -/
def newString (bytes : Bytes) : Act σ Value := do
  return .str ⟨bytes, ← allocate .text⟩

/-- A string; short ones are shared. -/
def createString (bytes : Bytes) : Act σ Value := do
  let s ← get
  let (str, interner) := s.interner.intern Hashing.bytes s.heap.alive s.heap.fresh bytes
  if str.cell = s.heap.fresh then
    let _ ← allocate .text
  modify fun s ↦ { s with interner }
  return .str str

/-- A table with room for the given number of keys in its hash part. -/
def createTable (hashHint : Nat) : Act σ Value := do
  return .table (← allocate (.table (.withHashSize hashHint)))

/-- A table with the room that the options ask for. -/
def newTable : Act σ Value := do
  createTable (← get).options.hashSize

/-- An integer of the configured width. -/
def integer (i : Int64) : Act σ Value := do
  return .int ((← get).options.integerWidth.wrap i)

/-- Change a table by an operation that may fail. -/
def modifyTable (r : Ref) (f : Context → Table → Except Error (α × Table)) : Act σ α := do
  let s ← get
  let (a, t) ← f s.context (s.table r)
  set (s.setTable r t)
  return a

/-- The value of a key in a table value. -/
def rawGet (t key : Value) : Act σ Value := do
  let r ← t.checkTable
  return (← get).rawGet r key

/-- Release what is no longer held, if a table has weak handles that can tell. -/
def settleFor (r : Ref) : Act σ Unit := do
  if ((← get).table r).mayExpire then settle

/-- Store a value under a key in stored form, if there is room. The way to the key is cleared of
what has expired, and what only the cleared slots kept is gone before the value is stored. The
answer is whether there was room. -/
def place (r : Ref) (key value : Value) : Act σ Bool := do
  let cleared ← modifyTable r fun ctx t ↦ do
    let ready ← t.makeReady ctx key value
    return (ready.arena.counts != t.arena.counts, ready)
  if cleared then settle
  modifyTable r fun ctx t ↦ do
    match ← t.place ctx key value with
    | .stored t => return (true, t)
    | .full t => return (false, t)

/-- Store a value under a key of a table value, after a rehash if there is no room. -/
def rawSet (t key value : Value) : Act σ Unit := inScope do
  let r ← t.checkTable
  let stored ← Table.storedKey key
  [t, key, value].forM hold
  unless ← place r stored value do
    modifyTable r fun ctx t ↦ return ((), ← t.rehash ctx (some stored))
    settleFor r
    unless ← place r stored value do
      throw (.fault .noRoom)

end Act

end LuaData

import LuaData.Table.Basic

/-!
# The heap

The heap holds the cells that values refer to. A cell lives as long as something holds it: a root
outside the heap, or another live cell that keeps it strongly. `Heap.settle` releases what nothing
holds, and then what only the released cells held, and so on; cells that hold each other in a circle
stay. Names of cells are not used again, so a weak handle that has lost its cell stays empty.
-/

namespace LuaData

/-- What a prototype function or a userdata carries for the host. -/
inductive Payload where
  | int (i : Int64)
  | text (s : String)

/-- The name of the payload's type in messages. -/
def Payload.typeName : Payload → String
  | .int _ => "i64"
  | .text _ => "alloc::string::String"

/-- What a function runs. -/
inductive FunctionBody where
  /-- The host's procedure with this number. -/
  | native (procedure : Nat)
  /-- A compiled chunk, which only an interpreter can run. -/
  | prototype (payload : Payload)

/-- A function, with the values that it captured when it was made. -/
structure Function where
  name : String
  body : FunctionBody
  captured : List Value

/-- An object of the host. -/
structure Userdata where
  typeName : String
  payload : Payload
  metatable : Option Ref

/-- What a coroutine is doing. -/
inductive ThreadStatus where
  | suspended
  | running
  | normal
  | dead
  deriving DecidableEq

/-- The name of a status. -/
def ThreadStatus.name : ThreadStatus → String
  | .suspended => "suspended"
  | .running => "running"
  | .normal => "normal"
  | .dead => "dead"

/-- A coroutine. -/
structure Thread where
  name : String
  status : ThreadStatus

/-- A cell of the heap. The bytes of a string are in the values that refer to its cell. -/
inductive Cell where
  | text
  | table (t : Table)
  | function (f : Function)
  | userdata (u : Userdata)
  | thread (t : Thread)

/-- The cells that a cell keeps alive. -/
def Cell.kept : Cell → List Ref
  | .text => []
  | .table t => t.kept
  | .function f => f.captured.filterMap Value.ref?
  | .userdata u => u.metatable.toList
  | .thread _ => []

/-- The cells by name; a released cell is `none`. -/
structure Heap where
  cells : Array (Option Cell)

namespace Heap

/-- No cells. -/
def empty : Heap := ⟨Array.empty⟩

/-- The cell with a name. -/
def cell? (h : Heap) (r : Ref) : Option Cell :=
  h.cells[r]?.join

/-- The cell has not been released. -/
def alive (h : Heap) (r : Ref) : Bool :=
  (h.cell? r).isSome

/-- The table in a cell. -/
def table? (h : Heap) (r : Ref) : Option Table :=
  match h.cell? r with
  | some (.table t) => some t
  | _ => none

/-- The function in a cell. -/
def function? (h : Heap) (r : Ref) : Option Function :=
  match h.cell? r with
  | some (.function f) => some f
  | _ => none

/-- The userdata in a cell. -/
def userdata? (h : Heap) (r : Ref) : Option Userdata :=
  match h.cell? r with
  | some (.userdata u) => some u
  | _ => none

/-- The thread in a cell. -/
def thread? (h : Heap) (r : Ref) : Option Thread :=
  match h.cell? r with
  | some (.thread t) => some t
  | _ => none

/-- The name that the next cell gets. -/
def fresh (h : Heap) : Ref := h.cells.size

/-- Add a cell under a fresh name. -/
def allocate (h : Heap) (cell : Cell) : Heap :=
  ⟨h.cells.push (some cell)⟩

/-- Replace a cell. -/
def update (h : Heap) (r : Ref) (cell : Cell) : Heap :=
  ⟨h.cells.setIfInBounds r (some cell)⟩

/-- The next name is not in use. -/
@[simp]
theorem cell?_fresh (h : Heap) : h.cell? h.fresh = none := by
  simp [cell?, fresh]

/-- A new cell is found under its name and hides no other cell. -/
theorem cell?_allocate (h : Heap) (cell : Cell) (r : Ref) :
    (h.allocate cell).cell? r = if r = h.fresh then some cell else h.cell? r := by
  simp only [cell?, allocate, fresh, Array.getElem?_push]
  split <;> simp_all

/-- A live cell that was replaced is the new one. -/
theorem cell?_update_self (h : Heap) (cell : Cell) {r : Ref} (hr : h.alive r) :
    (h.update r cell).cell? r = some cell := by
  have hlt : r < h.cells.size := by
    rcases Nat.lt_or_ge r h.cells.size with hlt | hge
    · exact hlt
    · simp [alive, cell?, Array.getElem?_eq_none hge] at hr
  simp [cell?, update, Array.getElem?_setIfInBounds_self_of_lt hlt]

/-- The other cells stay as they are. -/
theorem cell?_update_of_ne (h : Heap) (cell : Cell) {r other : Ref} (hne : r ≠ other) :
    (h.update r cell).cell? other = h.cell? other := by
  simp [cell?, update, Array.getElem?_setIfInBounds_ne hne]

/-- Mark some names. -/
def mark (marks : Array Bool) (refs : List Ref) : Array Bool :=
  refs.foldl (fun marks r ↦ marks.setIfInBounds r true) marks

/-- The names that a root or a live cell holds. -/
def heldMarks (h : Heap) (roots : List Ref) : Array Bool :=
  h.cells.foldl (fun marks cell ↦ mark marks ((cell.map Cell.kept).getD []))
    (mark (Array.replicate h.cells.size false) roots)

/-- Release the cells that nothing holds. -/
def releaseUnheld (h : Heap) (roots : List Ref) : Heap :=
  let marks := h.heldMarks roots
  ⟨h.cells.mapIdx fun r cell ↦ if marks.getD r false then cell else none⟩

/-- The number of live cells. -/
def liveCount (h : Heap) : Nat :=
  h.cells.countP Option.isSome

/-- Release unheld cells, at most `rounds` times, until all that is left is held. -/
def settleWithin (roots : List Ref) : (rounds : Nat) → Heap → Heap
  | 0, h => h
  | rounds + 1, h =>
    let next := h.releaseUnheld roots
    if next.liveCount = h.liveCount then h else settleWithin roots rounds next

/-- Release everything that is not held. Each round but the last releases a cell. -/
def settle (h : Heap) (roots : List Ref) : Heap :=
  settleWithin roots (h.liveCount + 1) h

end Heap

end LuaData

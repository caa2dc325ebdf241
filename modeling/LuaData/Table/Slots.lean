import LuaData.Error
import LuaData.Table.Handle

/-!
# Slots

The entries of the hash part of a table live in the slots of an arena. A slot is live, or dead when
its entry was removed while an enumeration could still go on from its key, or free. The slots of a
bucket form a chain, a list of slot numbers in the order in which the entries were added; the free
slots form a list from which the next entry is taken.
-/

namespace LuaData

/-- The longest string that is interned by default and that a dead slot keeps alive. -/
def shortStringLimit : Nat := 40

/-- What a slot holds. -/
inductive SlotState where
  | live (key value : Handle)
  | dead (key : Handle)
  | free

/-- A slot, with the hash of its key. -/
structure Slot where
  hash : UInt64
  state : SlotState

/-- The slots of a table. -/
structure Arena where
  slots : Array Slot
  /-- The free slots, the next one to be used first. -/
  free : List Nat
  /-- The number of live slots. -/
  live : Nat
  /-- The number of dead slots. -/
  dead : Nat

namespace Arena

/-- No slots. -/
def empty : Arena := ⟨Array.empty, [], 0, 0⟩

/-- The numbers of live and of dead slots. -/
def counts (a : Arena) : Nat × Nat :=
  (a.live, a.dead)

/-- The slots that take room in the hash part. -/
def used (a : Arena) : Nat :=
  a.live + a.dead

/-- What a slot holds. -/
def state (a : Arena) (i : Nat) : SlotState :=
  (a.slots[i]?.map Slot.state).getD .free

/-- Replace what a slot holds. -/
def setState (a : Arena) (i : Nat) (state : SlotState) : Arena :=
  { a with slots := a.slots.modify i fun slot ↦ { slot with state } }

/-- A slot holds what was put there. -/
theorem state_setState_self (a : Arena) {i : Nat} (state : SlotState) (hi : i < a.slots.size) :
    (a.setState i state).state i = state := by
  simp [Arena.state, setState, hi, Array.getElem_modify]

/-- The other slots stay as they are. -/
theorem state_setState_of_ne (a : Arena) {i j : Nat} (state : SlotState) (hne : i ≠ j) :
    (a.setState i state).state j = a.state j := by
  simp [Arena.state, setState, Array.getElem?_modify, hne]

/-- The hash stored with a slot is the given one. -/
def hasHash (a : Arena) (hash : UInt64) (i : Nat) : Bool :=
  a.slots[i]?.any fun slot ↦ slot.hash == hash

/-- The first live slot of a chain whose key satisfies a predicate. -/
def find? (alive : Ref → Bool) (a : Arena) (chain : List Nat) (hash : UInt64)
    (p : Value → Bool) : Option Nat :=
  chain.find? fun i ↦ a.hasHash hash i &&
    match a.state i with
    | .live key _ => key.holds alive p
    | _ => false

/-- The first slot of a chain, live or dead, whose key satisfies a predicate. -/
def locate? (alive : Ref → Bool) (a : Arena) (chain : List Nat) (hash : UInt64)
    (p : Value → Bool) : Option Nat :=
  chain.find? fun i ↦ a.hasHash hash i &&
    match a.state i with
    | .live key _ => key.holds alive p
    | .dead key => key.holds alive p
    | .free => false

/-- The slot is live. -/
def isLive (a : Arena) (i : Nat) : Bool :=
  match a.state i with
  | .live _ _ => true
  | _ => false

/-- The value in a live slot, unless it has expired. -/
def value? (alive : Ref → Bool) (a : Arena) (i : Nat) : Option Value :=
  match a.state i with
  | .live _ value => value.get alive
  | _ => none

/-- The key and the value in a live slot, unless one of them has expired. -/
def binding? (alive : Ref → Bool) (a : Arena) (i : Nat) : Option (Value × Value) :=
  match a.state i with
  | .live key value =>
    match key.get alive, value.get alive with
    | some k, some v => some (k, v)
    | _, _ => none
  | _ => none

/-- Put a slot into use: a free one if there is one, else a new one. Slot numbers have 32 bits. -/
def allocate (a : Arena) (slot : Slot) : Except Error (Nat × Arena) :=
  match a.free with
  | i :: rest => .ok (i, { a with slots := a.slots.setIfInBounds i slot, free := rest })
  | [] =>
    if a.slots.size < 2 ^ 32 then .ok (a.slots.size, { a with slots := a.slots.push slot })
    else .error (.fault .noSlot)

/-- Add an entry at the end of a chain. -/
def append (a : Arena) (chain : List Nat) (hash : UInt64) (key value : Handle) :
    Except Error (Arena × List Nat) := do
  let (i, a) ← a.allocate ⟨hash, .live key value⟩
  if chain.getLast? = some i then .error (.fault (.selfLink i))
  else .ok ({ a with live := a.live + 1 }, chain ++ [i])

/-- Store an entry in a live slot, or revive a dead one with it. -/
def assign (a : Arena) (i : Nat) (key value : Handle) : Arena :=
  let a :=
    match a.state i with
    | .dead _ => { a with dead := a.dead - 1, live := a.live + 1 }
    | _ => a
  a.setState i (.live key value)

/-- Take a slot out of its chain. -/
def unlink (chain : List Nat) (i : Nat) : Except Error (List Nat) :=
  if i ∈ chain then .ok (chain.erase i) else .error (.fault (.notLinked i))

/-- Return a slot to the free ones. -/
def release (a : Arena) (i : Nat) : Arena :=
  match a.state i with
  | .live _ _ => { a.setState i .free with live := a.live - 1, free := i :: a.free }
  | .dead _ => { a.setState i .free with dead := a.dead - 1, free := i :: a.free }
  | .free => a

/-- A dead slot does not keep such a key alive: a long string, or a value with an identity. -/
def isLargeKey : Value → Bool
  | .str s => shortStringLimit < s.bytes.length
  | v => v.collectable

/-- Make a live slot dead. It stays in its chain, so that an enumeration can go on from its key. -/
def bury (alive : Ref → Bool) (a : Arena) (i : Nat) : Arena :=
  match a.state i with
  | .live key _ =>
    let key :=
      match key.get alive with
      | some k => Handle.ofValue k (isLargeKey k)
      | none => key
    { a.setState i (.dead key) with live := a.live - 1, dead := a.dead + 1 }
  | _ => a

/-- Take a slot out of its chain and free it. -/
def drop (a : Arena) (chain : List Nat) (i : Nat) : Except Error (Arena × List Nat) := do
  let chain ← unlink chain i
  .ok (a.release i, chain)

/-- Remove the entry in a live slot: bury it, or drop the slot. -/
def remove (alive : Ref → Bool) (a : Arena) (chain : List Nat) (i : Nat) (keep : Bool) :
    Except Error (Arena × List Nat) :=
  if keep then .ok (a.bury alive i, chain) else a.drop chain i

/-- Drop several slots of a chain. -/
def dropAll : Arena → List Nat → List Nat → Except Error (Arena × List Nat)
  | a, chain, [] => .ok (a, chain)
  | a, chain, i :: rest => do
    let (a, chain) ← a.drop chain i
    a.dropAll chain rest

/-- The key in a slot in use has expired. -/
def keyExpired (alive : Ref → Bool) (a : Arena) (i : Nat) : Bool :=
  match a.state i with
  | .live key _ => key.expired alive
  | .dead key => key.expired alive
  | .free => false

/-- A live slot has its key and has lost its value. -/
def valueExpired (alive : Ref → Bool) (a : Arena) (i : Nat) : Bool :=
  match a.state i with
  | .live key value => !key.expired alive && value.expired alive
  | _ => false

/-- Clear a chain of what has expired. Slots with an expired key are dropped. Slots with an expired
value are buried while an enumeration may be on the way, and dropped otherwise. -/
def prune (alive : Ref → Bool) (a : Arena) (chain : List Nat) (anchored : Bool) :
    Except Error (Arena × List Nat) :=
  let gone := chain.filter fun i ↦ a.keyExpired alive i || (!anchored && a.valueExpired alive i)
  let buried := if anchored then chain.filter (a.valueExpired alive) else []
  (buried.foldl (bury alive) a).dropAll chain gone

/-- The cells that the slots keep alive. -/
def kept (a : Arena) : List Ref :=
  a.slots.toList.flatMap fun slot ↦
    match slot.state with
    | .live key value => key.kept?.toList ++ value.kept?.toList
    | .dead key => key.kept?.toList
    | .free => []

end Arena

end LuaData

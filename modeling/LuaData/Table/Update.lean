import LuaData.Table.Resize

/-!
# Writing to a table

`Table.set` stores a value under a key, and nil removes the key. A key within the array part is
stored there; the key after its end is appended to it, and then the keys that follow are moved over
from the hash part, unless an enumeration may be on the way. Everything else goes to the hash part,
which is rehashed when it is full. An attempt to write has two halves: `Table.makeReady` clears the
chain of the key of what has expired, and `Table.place` stores the value. They may see different
cells alive, since what the cleared slots kept may be gone.
-/

namespace LuaData.Table

/-- Take a key out of the hash part, with its value. -/
def takeFromHash (ctx : Context) (t : Table) (key : Value) :
    Except Error (Option Value × Table) := do
  let hash := ctx.hash key
  let b := t.bucketOf hash
  match t.arena.find? ctx.alive (t.chain b) hash (·.rawEq key) with
  | none => return (none, t)
  | some i =>
    let (arena, chain) ← t.arena.drop (t.chain b) i
    return (t.arena.value? ctx.alive i,
      { t with arena, buckets := t.buckets.setIfInBounds b chain })

/-- Move the keys after the end of the array part over from the hash part, at most `count` of
them. -/
def absorb (ctx : Context) : (count : Nat) → Table → Except Error Table
  | 0, t => .ok t
  | count + 1, t => do
    match ← t.takeFromHash ctx (.int (Int64.ofNat (t.array.size + 1))) with
    | (none, t) => return t
    | (some v, t) => absorb ctx count { t with array := t.array.push v }

/-- Move all keys after the end of the array part over from the hash part. -/
def absorbTail (ctx : Context) (t : Table) : Except Error Table :=
  t.absorb ctx t.arena.live

/-- Where a write goes. -/
inductive Destination where
  /-- To this index of the array part. -/
  | array (i : Nat)
  /-- To the end of the array part, which grows. -/
  | arrayEnd
  | hash

/-- Where a write under a key in stored form goes. The array part grows by the key after its end,
unless the values are weak or the hash part already has a slot for the key. -/
def destination (ctx : Context) (t : Table) (key value : Value) : Destination :=
  match key with
  | .int k =>
    match t.arrayIndex? k with
    | some i => .array i
    | none =>
      if k.toInt = t.array.size + 1 && !value.isNil && !t.mode.values && !t.hashHolds ctx key then
        .arrayEnd
      else .hash
  | _ => .hash

/-- Clear the chain of a bucket of what has expired. -/
def pruneBucket (ctx : Context) (t : Table) (b : Nat) : Except Error Table := do
  let (arena, chain) ← t.arena.prune ctx.alive (t.chain b) t.anchored
  return { t with arena, buckets := t.buckets.setIfInBounds b chain }

/-- Before a write to the hash part: clear the chain of the key of what has expired. -/
def makeReady (ctx : Context) (t : Table) (key value : Value) : Except Error Table :=
  match t.destination ctx key value with
  | .hash => t.pruneBucket ctx (t.bucketOf (ctx.hash key))
  | _ => .ok t

/-- What came of a write: it is done, or the hash part has no room for the key. -/
inductive Placement where
  | stored (t : Table)
  | full (t : Table)

/-- Write to a slot that holds the key: nil removes the entry, any other value replaces it or
revives the slot. -/
def writeSlot (ctx : Context) (t : Table) (b i : Nat) (key value : Value) : Except Error Table := do
  if value.isNil then
    if t.arena.isLive i then
      let (arena, chain) ← t.arena.remove ctx.alive (t.chain b) i t.anchored
      return { t with arena, buckets := t.buckets.setIfInBounds b chain }
    else return t
  else
    return { t with
      arena := t.arena.assign i (.ofEntry key t.mode.keys) (.ofEntry value t.mode.values) }

/-- Write to the hash part. -/
def placeInHash (ctx : Context) (t : Table) (key value : Value) : Except Error Placement := do
  let hash := ctx.hash key
  let b := t.bucketOf hash
  match t.arena.locate? ctx.alive (t.chain b) hash (·.rawEq key) with
  | some i => return .stored (← t.writeSlot ctx b i key value)
  | none =>
    if value.isNil then return .stored t
    else if t.buckets.size ≤ t.arena.used then return .full t
    else return .stored (← t.insertFresh ctx key value)

/-- Add a value at the end of the array part. -/
def pushBack (ctx : Context) (t : Table) (value : Value) : Except Error Table :=
  let t := { t with array := t.array.push value }
  if t.anchored then .ok t else t.absorbTail ctx

/-- Write under a key in stored form. -/
def place (ctx : Context) (t : Table) (key value : Value) : Except Error Placement := do
  match t.destination ctx key value with
  | .array i => return .stored { t with array := t.array.setIfInBounds i value }
  | .arrayEnd => return .stored (← t.pushBack ctx value)
  | .hash => t.placeInHash ctx key value

/-- Try to write under a key in stored form: clear its chain in the first context, and store the
value in the second. -/
def attempt (before after : Context) (t : Table) (key value : Value) : Except Error Placement := do
  (← t.makeReady before key value).place after key value

/-- The form in which a key is stored. Nil and NaN are no keys. -/
def storedKey (key : Value) : Except Error Value :=
  match key.key? with
  | some key => .ok key
  | none => .error (if key.isNil then .nilKey else .nanKey)

/-- Store a value under a key in stored form, after a rehash if there is no room. -/
def setKey (ctx : Context) (t : Table) (key value : Value) : Except Error Table := do
  match ← t.attempt ctx ctx key value with
  | .stored t => return t
  | .full t =>
    match ← (← t.rehash ctx (some key)).attempt ctx ctx key value with
    | .stored t => return t
    | .full _ => throw (.fault .noRoom)

/-- Store a value under a key; nil removes the key. -/
def set (ctx : Context) (t : Table) (key value : Value) : Except Error Table := do
  t.setKey ctx (← storedKey key) value

/-- Store a value under an integer key. -/
def setInt (ctx : Context) (t : Table) (k : Int64) (value : Value) : Except Error Table :=
  t.setKey ctx (.int k) value

end LuaData.Table

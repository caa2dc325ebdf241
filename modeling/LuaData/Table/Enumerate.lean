import LuaData.Table.Update

/-!
# Enumerating a table

`Table.next` gives the entry after a key: first the keys of the array part in order, then the hash
part by bucket and chain. The only state of an enumeration is its current key, which is looked up
again at every step; a key that was removed in the meantime is still found in its dead slot.
-/

namespace LuaData.Table

/-- The first entry of a chain. -/
def firstInChain? (ctx : Context) (t : Table) (chain : List Nat) : Option (Value × Value) :=
  chain.findSome? (t.arena.binding? ctx.alive)

/-- The first entry of the buckets from `b` on. -/
def firstFromBucket? (ctx : Context) (t : Table) (b : Nat) : Option (Value × Value) :=
  if b < t.buckets.size then
    match t.firstInChain? ctx (t.chain b) with
    | some entry => some entry
    | none => t.firstFromBucket? ctx (b + 1)
  else none
termination_by t.buckets.size - b

/-- The first entry of the given chain, or of a chain after that of bucket `b`. Handing out an entry
of the hash part anchors the table. -/
def scanHash (ctx : Context) (t : Table) (b : Nat) (chain : List Nat) :
    Option (Value × Value) × Table :=
  match (t.firstInChain? ctx chain).or (t.firstFromBucket? ctx (b + 1)) with
  | some entry => (some entry, { t with anchored := true })
  | none => (none, t)

/-- The first index of the array part from `i` on that holds a value. -/
def firstIndexFrom? (t : Table) (i : Nat) : Option Nat :=
  if i < t.array.size then
    if (t.array.getD i .nil).isNil then t.firstIndexFrom? (i + 1) else some i
  else none
termination_by t.array.size - i

/-- The first entry of the array part from an index on, or else of the hash part. -/
def scanArray (ctx : Context) (t : Table) (start : Nat) : Option (Value × Value) × Table :=
  match t.firstIndexFrom? start with
  | some i => (some (.int (Int64.ofNat (i + 1)), t.array.getD i .nil), t)
  | none => t.scanHash ctx 0 (t.chain 0)

/-- The entry after a key of the hash part. -/
def nextInHash (ctx : Context) (t : Table) (key : Value) :
    Except Error (Option (Value × Value) × Table) :=
  let hash := ctx.hash key
  let b := t.bucketOf hash
  let chain := t.chain b
  match t.arena.locate? ctx.alive chain hash (·.rawEq key) with
  | none => .error .badCursor
  | some i => .ok (t.scanHash ctx b ((chain.dropWhile (· != i)).drop 1))

/-- The entry after a key, or `none` after the last one; the entry after nil is the first. The table
that is returned remembers that an enumeration is on the way. -/
def next (ctx : Context) (t : Table) (key : Value) :
    Except Error (Option (Value × Value) × Table) :=
  match key.key? with
  | none => if key.isNil then .ok (t.scanArray ctx 0) else .error .badCursor
  | some key =>
    match key with
    | .int k =>
      match t.arrayIndex? k with
      | some i => .ok (t.scanArray ctx (i + 1))
      | none => t.nextInHash ctx key
    | _ => t.nextInHash ctx key

end LuaData.Table

import LuaData.Table.Slots

/-!
# Tables

A table maps keys to values. Its array part holds the values of the keys `1, 2, …, size`, and its
hash part, an array of bucket chains over an arena of slots, everything else. A key is stored in one
part only.
-/

namespace LuaData

/-- A table. -/
structure Table where
  /-- The values of the keys `1, 2, …`; nil stands for an absent key. -/
  array : Array Value
  /-- The chains of the hash part. -/
  buckets : Array (List Nat)
  arena : Arena
  metatable : Option Ref
  mode : WeakMode
  /-- An enumeration has handed out a key of the hash part since the last rehash. While this is
  set, removed entries leave dead slots behind. -/
  anchored : Bool

namespace Table

/-- The least `e` with `n ≤ 2 ^ e`. -/
def ceilLog2 (n : Nat) : Nat :=
  if n ≤ 1 then 0 else (n - 1).log2 + 1

/-- An empty table with room for the given number of keys in the hash part. -/
def withHashSize (hint : Nat) : Table where
  array := Array.empty
  buckets := Array.replicate (if hint = 0 then 0 else 2 ^ ceilLog2 hint) []
  arena := .empty
  metatable := none
  mode := .strong
  anchored := false

/-- An empty table. -/
def empty : Table := withHashSize 0

/-- The number of keys in the bounds of the array part. -/
def arrayCapacity (t : Table) : Nat := t.array.size

/-- The number of buckets. -/
def hashCapacity (t : Table) : Nat := t.buckets.size

/-- The number of dead slots. -/
def tombstones (t : Table) : Nat := t.arena.dead

/-- The table may have weak handles: in its entries if it is weak, or in its dead slots. -/
def mayExpire (t : Table) : Bool :=
  t.mode.isWeak || t.tombstones != 0

/-- The bucket that a hash selects. -/
def bucketOf (t : Table) (hash : UInt64) : Nat :=
  hash.toNat % t.buckets.size

/-- The chain of a bucket. -/
def chain (t : Table) (b : Nat) : List Nat :=
  t.buckets.getD b []

/-- The index in the array part that belongs to an integer key. -/
def arrayIndex? (t : Table) (k : Int64) : Option Nat :=
  if 1 ≤ k.toInt ∧ k.toInt ≤ t.array.size then some (k.toInt - 1).toNat else none

/-- The keys of the array part are the numbers from one to its size. -/
theorem arrayIndex?_eq_some_iff (t : Table) (k : Int64) (i : Nat) :
    t.arrayIndex? k = some i ↔ k.toInt = i + 1 ∧ i < t.array.size := by
  unfold arrayIndex?
  split
  · simp only [Option.some.injEq]
    omega
  · simp only [reduceCtorEq, false_iff]
    omega

/-- The value of a key of the hash part, nil if it is absent. -/
def getFromHash (ctx : Context) (t : Table) (key : Value) : Value :=
  let hash := ctx.hash key
  ((t.arena.find? ctx.alive (t.chain (t.bucketOf hash)) hash (·.rawEq key)).bind
    (t.arena.value? ctx.alive)).getD .nil

/-- The value of an integer key, nil if it is absent. -/
def getInt (ctx : Context) (t : Table) (k : Int64) : Value :=
  match t.arrayIndex? k with
  | some i => t.array.getD i .nil
  | none => t.getFromHash ctx (.int k)

/-- The value of a key, nil if it is absent. -/
def get (ctx : Context) (t : Table) (key : Value) : Value :=
  match key.key? with
  | none => .nil
  | some (.int k) => t.getInt ctx k
  | some key => t.getFromHash ctx key

/-- The value of the string key with the given bytes. The key is a string in no particular cell:
strings are found by content. -/
def getStr (ctx : Context) (t : Table) (bytes : Bytes) : Value :=
  t.getFromHash ctx (.str ⟨bytes, 0⟩)

/-- The hash part has a slot, live or dead, for a key. -/
def hashHolds (ctx : Context) (t : Table) (key : Value) : Bool :=
  let hash := ctx.hash key
  (t.arena.locate? ctx.alive (t.chain (t.bucketOf hash)) hash (·.rawEq key)).isSome

/-- The entries of the array part, in order. -/
def arrayEntries (t : Table) : List (Value × Value) :=
  (t.array.toList.zipIdx 1).filterMap fun (v, i) ↦
    if v.isNil then none else some (.int (Int64.ofNat i), v)

/-- The entries of the hash part, by bucket and chain. -/
def hashEntries (ctx : Context) (t : Table) : List (Value × Value) :=
  t.buckets.toList.flatMap fun chain ↦ chain.filterMap (t.arena.binding? ctx.alive)

/-- All entries, in the order of the enumeration. -/
def entries (ctx : Context) (t : Table) : List (Value × Value) :=
  t.arrayEntries ++ t.hashEntries ctx

/-- The keys with a value, in the order of the enumeration. -/
def keys (ctx : Context) (t : Table) : List Value :=
  (t.entries ctx).map Prod.fst

/-- The number of keys with a value. -/
def keyCount (ctx : Context) (t : Table) : Nat :=
  (t.entries ctx).length

/-- The cells that the table keeps alive. -/
def kept (t : Table) : List Ref :=
  t.array.toList.filterMap Value.ref? ++ t.arena.kept ++ t.metatable.toList

end Table

end LuaData

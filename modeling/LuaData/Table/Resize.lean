import LuaData.Table.Basic

/-!
# Sizing a table

When the hash part is full, a rehash chooses new sizes for both parts and inserts every entry anew.
The array part gets the largest power of two of which more than half of the keys are in use; the
hash part has a bucket for every entry that remains, rounded up to a power of two. Dead slots and
expired entries are left behind.
-/

namespace LuaData.Table

/-- The binary logarithm of the largest array part that a rehash considers. -/
def maxArrayBits : Nat := 31

/-- The smallest hash part that is not empty. -/
def minHashSize : Nat := 4

/-- The binary logarithm of the largest hash part. -/
def maxHashBits : Nat := 30

/-- An integer key that the array part may hold. -/
def arrayCandidate? : Value → Option Nat
  | .int k => if 1 ≤ k.toInt ∧ k.toInt ≤ 2 ^ maxArrayBits then some k.toInt.toNat else none
  | _ => none

/-- How many of the numbers lie in each of the ranges `2 ^ (e - 1) < n ≤ 2 ^ e`, for
`e = 0, 1, …, maxArrayBits`. -/
def rangeCounts (ns : List Nat) : Array Nat :=
  ns.foldl (fun counts n ↦ counts.modify (ceilLog2 n) (· + 1))
    (Array.replicate (maxArrayBits + 1) 0)

/-- Go through the ranges with their counts: `power` is the end of the next range, `seen` the number
of keys before it, and `best` the largest size so far that is more than half full, with the number
of keys in it. A range that all `total` keys could not fill to a half ends the search. -/
def optimalSize (total : Nat) : (counts : List Nat) → (power seen : Nat) → (best : Nat × Nat) →
    Nat × Nat
  | [], _, _, best => best
  | count :: counts, power, seen, best =>
    if total ≤ power / 2 then best
    else
      let seen := seen + count
      optimalSize total counts (2 * power) seen (if power / 2 < seen then (power, seen) else best)

/-- The size of the array part for a set of integer keys, and how many of them it will hold. -/
def arraySizeFor (ns : List Nat) : Nat × Nat :=
  optimalSize ns.length (rangeCounts ns).toList 1 0 (0, 0)

/-- Add an entry to the hash part. The key must be absent. -/
def insertFresh (ctx : Context) (t : Table) (key value : Value) : Except Error Table := do
  if t.buckets.isEmpty then throw (.fault .noBucket)
  let hash := ctx.hash key
  let b := t.bucketOf hash
  let (arena, chain) ← t.arena.append (t.chain b) hash (.ofEntry key t.mode.keys)
    (.ofEntry value t.mode.values)
  return { t with arena, buckets := t.buckets.setIfInBounds b chain }

/-- Put an absent key into the part that it belongs to. -/
def reinsert (ctx : Context) (t : Table) (entry : Value × Value) : Except Error Table :=
  match entry.1 with
  | .int k =>
    match t.arrayIndex? k with
    | some i => .ok { t with array := t.array.setIfInBounds i entry.2 }
    | none => t.insertFresh ctx entry.1 entry.2
  | key => t.insertFresh ctx key entry.2

/-- The number of buckets for a number of entries. -/
def hashSizeFor (count : Nat) : Nat :=
  if count = 0 then 0 else max (2 ^ ceilLog2 count) minHashSize

/-- Rebuild the table with an array part of the given size and a hash part for the given number of
entries. Values beyond the new array part come first in the new hash part. -/
def resize (ctx : Context) (t : Table) (arraySize hashCount : Nat) : Except Error Table := do
  let hashSize := hashSizeFor hashCount
  if 2 ^ maxHashBits < hashSize then throw .tableOverflow
  let beyond := t.arrayEntries.filter fun (k, _) ↦
    match k with
    | .int k => decide ((arraySize : Int) < k.toInt)
    | _ => false
  let array := t.array.take arraySize ++ Array.replicate (arraySize - t.array.size) .nil
  let bare : Table :=
    { t with array, buckets := Array.replicate hashSize [], arena := .empty, anchored := false }
  (beyond ++ t.hashEntries ctx).foldlM (reinsert ctx) bare

/-- Choose new sizes from the keys in use and the key that is about to be added, and rebuild the
table. A table with weak values has no array part. -/
def rehash (ctx : Context) (t : Table) (extra : Option Value) : Except Error Table :=
  let arrayKeys := t.arrayEntries.map Prod.fst
  let otherKeys := (t.hashEntries ctx).map Prod.fst ++ extra.toList
  let arrayCandidates := arrayKeys.filterMap arrayCandidate?
  let candidates := arrayCandidates ++ otherKeys.filterMap arrayCandidate?
  let total := arrayCandidates.length + otherKeys.length
  let (arraySize, inArray) := if t.mode.values then (0, 0) else arraySizeFor candidates
  t.resize ctx arraySize (total - inArray)

/-- Change which parts of the table are weak. A change rebuilds the table with the new handles. -/
def setMode (ctx : Context) (t : Table) (mode : WeakMode) : Except Error Table :=
  if mode = t.mode then .ok t else rehash ctx { t with mode } none

end LuaData.Table

import LuaData.Error

/-!
# Transcripts

The answers of a session. Objects are shown by kind and number, in the order in which they were
first mentioned. Lists of entries are shown in the order of the table when every key is a boolean or
a number; other lists are sorted by key, because the order of the table then depends on hashes.
-/

namespace LuaData.Session

/-- A value as an answer shows it. -/
inductive Shown where
  | nil
  | bool (b : Bool)
  | int (i : Int64)
  | float (x : Double)
  | text (bytes : Bytes)
  | object (kind : Kind) (number : Nat)

namespace Shown

/-- Entries with such keys are shown in the order of the table. -/
def inTableOrder : Shown → Bool
  | .bool _ => true
  | .int _ => true
  | .float _ => true
  | _ => false

/-- The place of a value's kind among sorted keys. -/
def rank : Shown → Nat
  | .nil => 0
  | .bool _ => 1
  | .int _ => 2
  | .float _ => 3
  | .text bytes => if (Utf8.decode? bytes).isSome then 4 else 5
  | .object _ _ => 6

/-- The order of sorted keys: by kind, then by value; objects by the name of their type and their
number. -/
def le (a b : Shown) : Bool :=
  if a.rank ≠ b.rank then decide (a.rank < b.rank)
  else
    match a, b with
    | .bool x, .bool y => !x || y
    | .int x, .int y => decide (x ≤ y)
    | .float x, .float y => x.le y
    | .text x, .text y => Bytes.le x y
    | .object k m, .object l n =>
      if k = l then decide (m ≤ n) else decide (k.typeName < l.typeName)
    | _, _ => true

end Shown

/-- An answer. -/
inductive Answer where
  | none
  | value (v : Shown)
  | flag (b : Bool)
  | count (n : Nat)
  | text (s : List Char)
  | list (items : List Answer)
  | record (fields : List (String × Answer))
  | failure (kind : ErrorKind) (message : String) (value : Option Shown)

/-- Entries in the order in which they are shown. -/
def arrange {α : Type} (entries : List (Shown × α)) : List (Shown × α) :=
  if entries.all fun (key, _) ↦ key.inTableOrder then entries
  else entries.mergeSort fun a b ↦ a.1.le b.1

/-- A call of a native function. -/
structure CallRecord where
  name : String
  args : List Shown

/-- The sizes of a table. -/
structure TableSizes where
  array : Nat
  hash : Nat
  tombstones : Nat
  keys : Nat
  length : Nat

/-- What a step leaves in the transcript. -/
structure Entry where
  answer : Answer
  calls : List CallRecord
  /-- The sizes of the watched tables; `none` for a register without a table. -/
  watched : List (Option TableSizes)

end LuaData.Session

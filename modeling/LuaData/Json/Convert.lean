import LuaData.Json.Reader
import LuaData.Json.Writer
import LuaData.State.Basic
import LuaData.Table.Length

/-!
# JSON and values

A JSON array becomes a table with the keys `1, 2, …` and an object a table with string keys; null
items and members leave no trace. In the other direction a table whose keys are exactly `1, 2, …, n`
becomes an array, and any other table an object with the texts of its keys; keys that have no text
are left out. Tables that contain themselves and values without a JSON form are refused.
-/

namespace LuaData

namespace Act

variable [Hashing] {σ : Type}

/-- A table with room for some keys and with the given entries, stored one after the other. -/
def tableOf (hashHint : Nat) (entries : List (Value × Value)) : Act σ Value := do
  let ctx := (← get).context
  let t ← entries.foldlM (fun t (key, value) ↦ t.set ctx key value) (Table.withHashSize hashHint)
  return .table (← allocate (.table t))

mutual

/-- The value of a JSON value. Integers have the configured width; those beyond 64 bits become
doubles. -/
def ofJson : Json → Act σ Value
  | .null => return .nil
  | .bool b => return .bool b
  | .int i =>
    match Double.int64? i with
    | some i => integer i
    | none => return .float (Double.ofInt i)
  | .float x => return .float x
  | .string text => createString (Utf8.encode text)
  | .array items => do
    tableOf 0 (← ofItems 1 items)
  | .object members => do
    tableOf members.length (← ofMembers members)

/-- The entries of the items of an array, from a key on. -/
def ofItems (i : Nat) : List Json → Act σ (List (Value × Value))
  | [] => return []
  | item :: rest => do
    let value ← ofJson item
    return (.int (Int64.ofNat i), value) :: (← ofItems (i + 1) rest)

/-- The entries of the members of an object. -/
def ofMembers : List (List Char × Json) → Act σ (List (Value × Value))
  | [] => return []
  | (key, item) :: rest => do
    let key ← createString (Utf8.encode key)
    let value ← ofJson item
    return (key, value) :: (← ofMembers rest)

end

/-- The value of a JSON text. -/
def ofJsonText (text : List Char) : Act σ Value :=
  match Json.parse? text with
  | some j => ofJson j
  | none => throw .jsonSyntax

end Act

namespace Table

/-- The number `n` if the keys of the table are exactly `1, 2, …, n`. -/
def listLength? (ctx : Context) (t : Table) : Option Nat :=
  let n := t.length ctx
  if t.keyCount ctx = n ∧ (List.range n).all fun i ↦ t.hasInt ctx (i + 1) then some n else none

end Table

/-- The text of a key in an object, if it has one. -/
def Value.memberKey? : Value → Option (List Char)
  | .str s => some (Utf8.decodeLossy s.bytes)
  | .num n => some n.text
  | .bool b => some (Value.bool b).display
  | _ => none

namespace State

variable [Hashing] {σ : Type}

/-- The JSON form of a value. `path` lists the tables that are being converted around it. A path is
no longer than the heap, so a `depth` beyond its size is never used up. -/
def jsonWithin (s : State σ) : (depth : Nat) → (path : List Ref) → Value → Except Error Json
  | _, _, .nil => .ok .null
  | _, _, .bool b => .ok (.bool b)
  | _, _, .int i => .ok (.int i.toInt)
  | _, _, .float x => if x.isFinite then .ok (.float x) else .error (.jsonNumber x)
  | _, _, .str str => .ok (.string (Utf8.decodeLossy str.bytes))
  | 0, _, .table _ => .error .jsonCycle
  | depth + 1, path, .table r =>
    if r ∈ path then .error .jsonCycle
    else
      let t := s.table r
      let convert := s.jsonWithin depth (r :: path)
      match t.listLength? s.context with
      | some n => do
        let items ← (List.range n).mapM fun i ↦
          convert (t.getInt s.context (Int64.ofNat (i + 1)))
        return .array items
      | none => do
        let members ← (t.entries s.context).filterMapM fun (key, value) ↦
          match key.memberKey? with
          | none => return none
          | some key => return some (key, ← convert value)
        return .object (Json.ofMembers members)
  | _, _, v => .error (.jsonKind v.kind)

/-- The JSON form of a value. -/
def toJson (s : State σ) (v : Value) : Except Error Json :=
  s.jsonWithin (s.heap.cells.size + 1) [] v

/-- The JSON text of a value. -/
def toJsonText (s : State σ) (pretty : Bool) (v : Value) : Except Error (List Char) := do
  let j ← s.toJson v
  return if pretty then j.pretty else j.compact

end State

end LuaData

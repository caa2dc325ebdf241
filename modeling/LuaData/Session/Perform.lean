import LuaData.Json.Convert
import LuaData.Session.Host
import LuaData.State.Arithmetic
import LuaData.State.Compare
import LuaData.State.Index
import LuaData.State.Sequence
import LuaData.State.Text
import LuaData.Table.Enumerate
import LuaData.Table.Inspect

/-!
# Performing steps

`perform` evaluates the operands of a step in the order in which they stand, does what the step
says, and shows the result.
-/

namespace LuaData.Session

variable [Hashing]

/-- How the bodies of functions and walks are run. -/
abbrev BodyRunner := List Step → List Value → Act Host Unit

/-- Evaluate an operand that must be a table. -/
def evaluateTable (t : Expr) : Act Host Ref := do
  (← evaluate t).checkTable

/-- Evaluate an operand of which only a table counts. -/
def evaluateMetatable (e : Expr) : Act Host (Option Ref) := do
  return (← evaluate e).table?

/-- The key of a range for an integer. -/
def rangeKey (range : KeyRange) (i : Int) : Act Host Value :=
  match range.stem with
  | none => return .int (Int64.ofInt i)
  | some stem => Act.createString (stem ++ Utf8.encode (Integer.text (Int64.ofInt i)))

/-- The sizes of a table. -/
def tableSizes (s : State Host) (r : Ref) : TableSizes :=
  let t := s.table r
  ⟨t.arrayCapacity, t.hashCapacity, t.tombstones, t.keyCount s.context, t.length s.context⟩

/-- The sizes of a table in an answer. -/
def TableSizes.answer (sizes : TableSizes) : Answer :=
  .record [("a", .count sizes.array), ("h", .count sizes.hash), ("d", .count sizes.tombstones),
    ("n", .count sizes.keys), ("len", .count sizes.length)]

/-- A key and a value in an answer. -/
def pairAnswer (key value : Shown) : Answer :=
  .list [.value key, .value value]

/-- Show entries in order. -/
def showEntries (entries : List (Value × Value)) : Act Host (List (Shown × Shown)) :=
  entries.mapM fun (k, v) ↦ return (← showValue k, ← showValue v)

/-- The answer to a question about a table. -/
def answerQuery (r : Ref) (query : TableQuery) : Act Host Answer := do
  let s ← get
  let t := s.table r
  match query with
  | .keys =>
    let keys ← (t.keys s.context).mapM fun k ↦ return (← showValue k, ())
    return .list ((arrange keys).map fun (k, _) ↦ .value k)
  | .pairs =>
    let entries ← showEntries (t.entries s.context)
    return .list ((arrange entries).map fun (k, v) ↦ pairAnswer k v)
  | .keyCount => return .count (t.keyCount s.context)
  | .length => return .count (t.length s.context)
  | .stat => return (tableSizes s r).answer
  | .weakMode =>
    return .record [("keys", .flag t.mode.keys), ("values", .flag t.mode.values),
      ("weak", .flag t.mode.isWeak)]
  | .hasMetatable => return .flag t.metatable.isSome

/-- The step after a cursor in the enumeration of a table. -/
def nextEntry (r : Ref) (cursor : Value) : Act Host (Option (Value × Value)) :=
  Act.modifyTable r fun ctx t ↦ t.next ctx cursor

/-- Visit the entries of a table after a cursor, at most `limit`, and run the body for each. The
cursor is held until the body for the next entry has finished, the value until its own body has. The
answer is the visits, the reason for the end, and the last cursor. -/
def walkFrom (runBody : BodyRunner) (r : Ref) (body : List Step) :
    (limit : Nat) → (cursor : Value) → Act Host (List (Shown × Shown) × Answer × Value)
  | 0, cursor => return ([], .text "max".toList, cursor)
  | limit + 1, cursor => do
    let visit : Except Answer ((Shown × Shown) × Value) ← Act.inScope do
      Act.hold cursor
      unless body.isEmpty do Act.settle
      match ← Act.attempt (nextEntry r cursor) with
      | .error e => return .error (← showError e)
      | .ok none => return .error (.text "done".toList)
      | .ok (some (k, v)) =>
        let shown := (← showValue k, ← showValue v)
        Act.hold k
        Act.hold v
        runBody body [k, v]
        return .ok (shown, k)
    match visit with
    | .error reason => return ([], reason, cursor)
    | .ok (shown, k) =>
      let (visits, reason, last) ← walkFrom runBody r body limit k
      return (shown :: visits, reason, last)

/-- The reasons of a failure as a procedure, with what the function captures. -/
def failureProcedure : Failure → Act Host (Procedure × List Value)
  | .worded kind message => return (.fail (.worded kind message), [])
  | .argument position function message => return (.fail (.argument position function message), [])
  | .text message => return (.raise, [← Act.newString (Utf8.ofString message)])
  | .value v => return (.raise, [← evaluate v])

/-- The procedure of a reply, with what the function captures. -/
def replyProcedure : Reply → Act Host (Procedure × List Value)
  | .echo => return (.echo, [])
  | .fail failure => failureProcedure failure
  | .constants results => return (.constants, ← results.mapM evaluate)
  | .body steps results => return (.body steps results, [])

/-- The text of a payload in an answer. -/
def payloadAnswers (payload : Option Payload) : List (String × Answer) :=
  match payload with
  | some (.int i) => [("int", .value (.int i)), ("str", .none)]
  | some (.text s) => [("int", .none), ("str", .text s.toList)]
  | none => [("int", .none), ("str", .none)]

/-- What a function is. -/
def functionAnswer (f : Function) : Answer :=
  let (native, payload) :=
    match f.body with
    | .native _ => (true, none)
    | .prototype payload => (false, some payload)
  .record ([("name", .text f.name.toList), ("native", .flag native),
    ("body", .text (if native then "Native" else "Prototype").toList),
    ("as_native", .flag native)] ++ payloadAnswers payload)

/-- What a userdata is. -/
def userdataAnswer (u : Userdata) : Answer :=
  let isInt := u.payload matches .int _
  .record ([("type_name", .text u.typeName.toList), ("is_int", .flag isInt),
    ("is_str", .flag !isInt)] ++ payloadAnswers (some u.payload))

/-- Replace a payload by one of the same type. -/
def Userdata.write (u : Userdata) (payload : Payload) : Userdata :=
  match u.payload, payload with
  | .int _, .int _ => { u with payload }
  | .text _, .text _ => { u with payload }
  | _, _ => u

/-- Replace the cell that an object value refers to. -/
def replaceCell (r : Ref) (cell : Cell) : Act Host Unit :=
  modify fun s ↦ { s with heap := s.heap.update r cell }

/-- The diagnostic text of the object that a value refers to, or of the value itself. -/
def inspectObject (s : State Host) (v : Value) : List Char :=
  match v.ref?.bind s.heap.cell? with
  | some (.table t) => t.inspect.toList
  | some (.function f) =>
    let body := if f.body matches .native _ then "native" else "prototype"
    s!"LuaFunction({f.name}, {body})".toList
  | some (.userdata u) => s!"LuaUserdata({u.typeName})".toList
  | some (.thread t) => s!"LuaThread({t.name}, {t.status.name})".toList
  | _ => v.inspect

/-- Perform a step. -/
def perform (runBody : BodyRunner) (step : Step) : Act Host Answer := do
  let call := caller runBody
  match step with
  | .assign v into => finish into (← evaluate v)
  | .unset register =>
    let present := ((← get).registry.lookup register).isSome
    modify fun s ↦ { s with registry := s.registry.filter fun (name, _) ↦ name != register }
    return .flag present
  | .newTable into hashHint =>
    match hashHint with
    | none => finish into (← Act.newTable)
    | some hint => finish into (← Act.createTable hint)
  | .newPrototype into name payload => finish into (← makePrototype name payload)
  | .newUserdata into payload typeName metatable =>
    let metatable ← match metatable with
      | none => pure none
      | some e => evaluateMetatable e
    finish into (← makeUserdata payload typeName metatable)
  | .newThread into name => finish into (← makeThread name)
  | .newFunction into name reply =>
    let (procedure, captured) ← replyProcedure reply
    finish into (← makeFunction name procedure captured)
  | .rawGet t k into =>
    let t ← evaluate t
    let k ← evaluate k
    finish into (← Act.rawGet t k)
  | .rawSet t k v =>
    let t ← evaluate t
    let k ← evaluate k
    let v ← evaluate v
    Act.rawSet t k v
    return .none
  | .rawGetStr t key into =>
    let r ← evaluateTable t
    let s ← get
    finish into ((s.table r).getStr s.context key)
  | .rawSetStr t key v =>
    let t ← evaluate t
    let v ← evaluate v
    let _ ← t.checkTable
    Act.rawSet t (← Act.newString key) v
    return .none
  | .insert t position v =>
    let t ← evaluate t
    let v ← evaluate v
    Act.insert (← t.checkTable) position v
    return .none
  | .remove t position into =>
    let r ← evaluateTable t
    finish into (← Act.remove r position)
  | .fill t range v =>
    let t ← evaluate t
    let v ← v.mapM evaluate
    let r ← t.checkTable
    for i in range.integers do
      Act.rawSet t (← rangeKey range i) (v.getD (.int (Int64.ofInt i)))
      Act.settleFor r
    return .none
  | .getMany t range =>
    let t ← evaluate t
    let _ ← t.checkTable
    let values ← range.integers.mapM fun i ↦ do
      showValue (← Act.rawGet t (← rangeKey range i))
    return .list (values.map .value)
  | .next t k into =>
    let t ← evaluate t
    let k ← evaluate k
    match ← nextEntry (← t.checkTable) k with
    | none => return .text "end".toList
    | some (key, value) =>
      store into key
      return pairAnswer (← showValue key) (← showValue value)
  | .query t query => answerQuery (← evaluateTable t) query
  | .rawLen v =>
    let v ← evaluate v
    let s ← get
    match v with
    | .str str => return .count str.bytes.length
    | .table r => return .count ((s.table r).length s.context)
    | _ => return .none
  | .walk t cursor limit body into =>
    let t ← evaluate t
    let cursor ← evaluate (cursor.getD .nil)
    let (visits, reason, last) ← walkFrom runBody (← t.checkTable) body limit cursor
    store into last
    return .record [("visits", .list ((arrange visits).map fun (k, v) ↦ pairAnswer k v)),
      ("end", reason)]
  | .setMetatable v metatable =>
    let v ← evaluate v
    let metatable ← evaluateMetatable metatable
    Act.setMetatable v metatable
    return .none
  | .setSharedMetatable kind metatable =>
    Act.setSharedMetatable kind (← evaluateMetatable metatable)
    return .none
  | .visibleMetatable v into =>
    let v ← evaluate v
    finish into ((← get).visibleMetatable v)
  | .metatable v into =>
    let v ← evaluate v
    finish into ((((← get).metatable? v).map .table).getD .nil)
  | .ownMetatable v into =>
    let v ← evaluate v
    finish into ((((← get).ownMetatable? v).map .table).getD .nil)
  | .metamethod v event into =>
    let v ← evaluate v
    finish into (((← get).metamethod? v event).getD .nil)
  | .index t k into =>
    let t ← evaluate t
    let k ← evaluate k
    finish into (← Act.index call t k)
  | .setIndex t k v =>
    let t ← evaluate t
    let k ← evaluate k
    let v ← evaluate v
    Act.setIndex call t k v
    return .none
  | .arith op a b into =>
    let a ← evaluate a
    let b ← evaluate b
    finish into (← Act.arith call op a b)
  | .neg a into => finish into (← Act.neg call (← evaluate a))
  | .concat a b into =>
    let a ← evaluate a
    let b ← evaluate b
    finish into (← Act.concat call a b)
  | .toNumber a into => finish into (← Act.toNumber (← evaluate a))
  | .len a into => finish into (← Act.len call (← evaluate a))
  | .toText a => finish none (← Act.toText call (← evaluate a))
  | .compare comparison a b =>
    let a ← evaluate a
    let b ← evaluate b
    match comparison with
    | .equals => return .flag (← Act.equals call a b)
    | .lessThan => return .flag (← Act.lessThan call a b)
    | .lessEqual => return .flag (← Act.lessEqual call a b)
    | .rawEquals => return .flag (a.rawEq b)
  | .call f args into =>
    let f ← evaluate f
    let args ← args.mapM evaluate
    let results ← call f args
    store into results.first
    return .list ((← results.toList.mapM showValue).map .value)
  | .sameString a b =>
    let a ← evaluate a
    let b ← evaluate b
    match a, b with
    | .str x, .str y => return .flag (x.cell == y.cell)
    | _, _ => return .none
  | .interned =>
    let s ← get
    return .count (s.interner.size s.heap.alive)
  | .threadInfo v status =>
    let v ← evaluate v
    let _ ← v.check .thread
    let s ← get
    let r := v.ref?.getD 0
    let thread := (s.heap.thread? r).getD ⟨"", .suspended⟩
    let thread := { thread with status := status.getD thread.status }
    replaceCell r (.thread thread)
    return .record [("name", .text thread.name.toList), ("status", .text thread.status.name.toList)]
  | .functionInfo v =>
    let v ← evaluate v
    let _ ← v.check .function
    let s ← get
    return functionAnswer ((s.heap.function? (v.ref?.getD 0)).getD ⟨"", .native 0, []⟩)
  | .userdataInfo v payload =>
    let v ← evaluate v
    let _ ← v.check .userdata
    let s ← get
    let r := v.ref?.getD 0
    let u := (s.heap.userdata? r).getD ⟨"", .int 0, none⟩
    let u := (payload.map (Userdata.write u)).getD u
    replaceCell r (.userdata u)
    return userdataAnswer u
  | .display v => return .text (← evaluate v).display
  | .inspect v => return .text (← evaluate v).inspect
  | .inspectObject v =>
    let v ← evaluate v
    return .text (inspectObject (← get) v)
  | .toJson v pretty =>
    let v ← evaluate v
    return .text (← (← get).toJsonText pretty v)
  | .ofJson text into => finish into (← Act.ofJsonText text)

end LuaData.Session

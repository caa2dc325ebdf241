import LuaData.State.Call

/-!
# Reading and writing fields

A read of a key that a table does not have goes on with the `__index` handler of the table, and a
write of such a key with its `__newindex` handler: a function is called, any other value is read or
written in its place. `State.indexTarget` and `State.newIndexTarget` follow these chains for a
limited number of links and say where they end; the actions do what is found there.
-/

namespace LuaData

/-- Where a chain of `__index` handlers ends. -/
inductive IndexTarget where
  /-- At a table, which has this value, or at one without the key and without a handler. -/
  | found (value : Value)
  /-- At a handler that is a function, found at this link. -/
  | handler (function receiver : Value)
  /-- At a value of this kind that has no fields. -/
  | notIndexable (kind : Kind)
  /-- The chain is longer than the limit. -/
  | endless

/-- Where a chain of `__newindex` handlers ends. -/
inductive NewIndexTarget where
  /-- At a table, which takes the value. -/
  | store (table : Ref)
  /-- At a handler that is a function, found at this link. -/
  | handler (function receiver : Value)
  /-- At a value of this kind that has no fields. -/
  | notIndexable (kind : Kind)
  /-- The chain is longer than the limit. -/
  | endless

namespace State

variable [Hashing] {σ : Type}

/-- Follow the chain of `__index` handlers for at most `limit` links. -/
def indexTarget (s : State σ) (key : Value) : (limit : Nat) → (current : Value) → IndexTarget
  | 0, _ => .endless
  | limit + 1, current =>
    let found :=
      match current with
      | .table r => s.rawGet r key
      | _ => .nil
    if !found.isNil then .found found
    else
      match s.metamethod? current .index with
      | some handler =>
        if handler.isFunction then .handler handler current else s.indexTarget key limit handler
      | none => if current.table?.isSome then .found .nil else .notIndexable current.kind

/-- Follow the chain of `__newindex` handlers for at most `limit` links. A table that has the key is
the end of the chain. -/
def newIndexTarget (s : State σ) (key : Value) : (limit : Nat) → (current : Value) → NewIndexTarget
  | 0, _ => .endless
  | limit + 1, current =>
    let handler :=
      match current with
      | .table r => if (s.rawGet r key).isNil then s.metamethod? current .newIndex else none
      | _ => s.metamethod? current .newIndex
    match handler with
    | some handler =>
      if handler.isFunction then .handler handler current else s.newIndexTarget key limit handler
    | none =>
      match current with
      | .table r => .store r
      | _ => .notIndexable current.kind

end State

namespace Act

variable [Hashing] {σ : Type}

/-- Read a field. -/
def index (call : Caller σ) (object key : Value) : Act σ Value := do
  let s ← get
  match s.indexTarget key s.options.maxChain object with
  | .found value => return value
  | .handler function receiver => callHandler call function [receiver, key]
  | .notIndexable kind => throw (.indexed kind)
  | .endless => throw (.endlessChain .index)

/-- Write a field. -/
def setIndex (call : Caller σ) (object key value : Value) : Act σ Unit := do
  let s ← get
  match s.newIndexTarget key s.options.maxChain object with
  | .store r => rawSet (.table r) key value
  | .handler function receiver =>
    let _ ← call function [receiver, key, value]
  | .notIndexable kind => throw (.indexed kind)
  | .endless => throw (.endlessChain .newIndex)

end Act

end LuaData

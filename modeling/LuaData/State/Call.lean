import LuaData.State.Metatable

/-!
# Calls

A call of a value that is no function goes to its `__call` handler, with the value as the first
argument, and so on along the chain of handlers. `State.callTarget` follows the chain to the
function that runs; `Act.call` runs it with the host's procedure for native functions.
-/

namespace LuaData

/-- Where a chain of `__call` handlers leads. -/
inductive CallTarget where
  /-- A native function, with its arguments. -/
  | native (function : Ref) (args : List Value)
  /-- A prototype function with this name. -/
  | prototype (name : String)
  /-- A value of this kind that has no handler. -/
  | notCallable (kind : Kind)
  /-- The chain is longer than the limit. -/
  | endless

/-- Follow the chain of `__call` handlers for at most `limit` links. -/
def State.callTarget [Hashing] {σ : Type} (s : State σ) : (limit : Nat) → (handler : Value) →
    (args : List Value) → CallTarget
  | 0, _, _ => .endless
  | limit + 1, handler, args =>
    match handler with
    | .function r =>
      match s.heap.function? r with
      | some ⟨_, .native _, _⟩ => .native r args
      | some ⟨name, .prototype _, _⟩ => .prototype name
      | none => .notCallable .function
    | other =>
      match s.metamethod? other .call with
      | some next => s.callTarget limit next (other :: args)
      | none => .notCallable other.kind

namespace Act

variable [Hashing] {σ : Type}

/-- Call a value with arguments, running native functions by `run`. -/
def call (run : Ref → List Value → Act σ Results) : Caller σ := fun handler args ↦ do
  let s ← get
  match s.callTarget s.options.maxChain handler args with
  | .native r args => run r args
  | .prototype name => throw (.noInterpreter name)
  | .notCallable kind => throw (.called kind)
  | .endless => throw (.endlessChain .call)

/-- Call a handler and keep its first result. -/
def callHandler (call : Caller σ) (handler : Value) (args : List Value) : Act σ Value := do
  return (← call handler args).first

end Act

end LuaData

import LuaData.Session.Script
import LuaData.Session.Transcript
import LuaData.State.Call

/-!
# The host of a session

The host keeps the procedures of the native functions that it made, the numbers of the objects that
it has shown, the calls of the current step, and the arguments of the body that is running. Operands
are held from their evaluation to the end of the step.
-/

namespace LuaData.Session

variable [Hashing]

/-- What a native function of the session does. -/
inductive Procedure where
  /-- Return nothing, without a trace in the transcript. -/
  | silent
  | echo
  /-- Raise an error. -/
  | fail (e : Error)
  /-- Raise the value that the function captured. -/
  | raise
  /-- Return the values that the function captured. -/
  | constants
  | body (steps : List Step) (results : List Expr)

/-- The data of the host. -/
structure Host where
  procedures : Array Procedure
  /-- The objects that have a number, in the order of their numbers. -/
  numbered : Array Ref
  /-- The calls of the current step, the last one first. -/
  calls : List CallRecord
  /-- The arguments of the body that is running. -/
  args : List Value
  /-- Calls of prototype functions with an integer return that integer and the number of arguments.
  -/
  runsPrototypes : Bool

/-- A host that has done nothing yet. -/
def Host.initial (runsPrototypes : Bool) : Host where
  procedures := Array.empty
  numbered := Array.empty
  calls := []
  args := []
  runsPrototypes := runsPrototypes

/-- Change the data of the host. -/
def modifyHost (f : Host → Host) : Act Host Unit :=
  modify fun s ↦ { s with host := f s.host }

/-- The number of an object; an object without one gets the next. -/
def numberOf (r : Ref) : Act Host Nat := do
  let host := (← get).host
  match host.numbered.toList.findIdx? (· == r) with
  | some i => return i + 1
  | none =>
    modifyHost fun host ↦ { host with numbered := host.numbered.push r }
    return host.numbered.size + 1

/-- A value as an answer shows it. -/
def showValue (v : Value) : Act Host Shown := do
  match v with
  | .nil => return .nil
  | .bool b => return .bool b
  | .int i => return .int i
  | .float x => return .float x
  | .str s => return .text s.bytes
  | .table r => return .object .table (← numberOf r)
  | .function r => return .object .function (← numberOf r)
  | .userdata r => return .object .userdata (← numberOf r)
  | .thread r => return .object .thread (← numberOf r)

/-- An error as an answer shows it. Runtime errors show the value that they raise, which for an
error of the library is its message. -/
def showError (e : Error) : Act Host Answer := do
  match e with
  | .raised v => return .failure .runtime e.message (some (← showValue v))
  | .jsonSyntax => return .failure .runtime e.message none
  | _ =>
    let value :=
      if e.kind = .runtime then some (Shown.text (Utf8.ofString e.message)) else none
    return .failure e.kind e.message value

/-- Add a procedure and make a function that runs it. -/
def makeFunction (name : String) (procedure : Procedure) (captured : List Value) :
    Act Host Value := do
  let n := (← get).host.procedures.size
  modifyHost fun host ↦ { host with procedures := host.procedures.push procedure }
  return .function (← Act.allocate (.function ⟨name, .native n, captured⟩))

/-- Make a userdata. -/
def makeUserdata (payload : Payload) (typeName : Option String) (metatable : Option Ref) :
    Act Host Value := do
  return .userdata (← Act.allocate
    (.userdata ⟨typeName.getD payload.typeName, payload, metatable⟩))

/-- Make a suspended thread. -/
def makeThread (name : String) : Act Host Value := do
  return .thread (← Act.allocate (.thread ⟨name, .suspended⟩))

/-- Make a prototype function. -/
def makePrototype (name : String) (payload : Payload) : Act Host Value := do
  return .function (← Act.allocate (.function ⟨name, .prototype payload, []⟩))

/-- Make a new object. -/
def makeObject : Object → Act Host Value
  | .table => Act.newTable
  | .function => makeFunction "anon" .silent []
  | .prototype => makePrototype "proto" (.int 42)
  | .userdata => makeUserdata (.int 7) none none
  | .thread => makeThread "co"

/-- The value of an operand. -/
def valueOf : Expr → Act Host Value
  | .nil => return .nil
  | .bool b => return .bool b
  | .int i => return .int i
  | .float x => return .float x
  | .text bytes => Act.createString bytes
  | .ownText bytes => Act.newString bytes
  | .wrapped i => Act.integer i
  | .register name => do
    return ((← get).registry.lookup name).getD .nil
  | .argument n => do
    let args := (← get).host.args
    return if n = 0 then .nil else args[n - 1]?.getD .nil
  | .create object => do
    let v ← makeObject object
    let _ ← showValue v
    return v

/-- The value of an operand, held until the end of the step. -/
def evaluate (e : Expr) : Act Host Value := do
  let v ← valueOf e
  Act.hold v
  return v

/-- Put a value into a register. -/
def store (into : Option String) (v : Value) : Act Host Unit :=
  match into with
  | none => return ()
  | some name => modify fun s ↦
    { s with registry := (name, v) :: s.registry.filter fun (other, _) ↦ other != name }

/-- Put a value into a register and show it. -/
def finish (into : Option String) (v : Value) : Act Host Answer := do
  store into v
  return .value (← showValue v)

/-- The procedure of a function; the others do nothing. -/
def procedureOf (host : Host) (f : Function) : Procedure :=
  match f.body with
  | .native n => host.procedures.getD n .silent
  | .prototype _ => .silent

/-- Run the procedure of a function. All but the silent ones are listed with their arguments. -/
def runProcedure (runBody : List Step → List Value → Act Host Unit) (f : Function)
    (procedure : Procedure) (args : List Value) : Act Host Results := do
  unless procedure matches .silent do
    let shown ← args.mapM showValue
    modifyHost fun host ↦ { host with calls := ⟨f.name, shown⟩ :: host.calls }
  match procedure with
  | .silent => return .empty
  | .echo => return .ofList args
  | .fail e => throw e
  | .raise => throw (.raised (f.captured.headD .nil))
  | .constants => return .ofList f.captured
  | .body steps results =>
    runBody steps args
    let outer := (← get).host.args
    modifyHost fun host ↦ { host with args }
    let values ← results.mapM evaluate
    modifyHost fun host ↦ { host with args := outer }
    return .ofList values

/-- Run a native function. It and its arguments are held while it runs. -/
def runNative (runBody : List Step → List Value → Act Host Unit) (r : Ref) (args : List Value) :
    Act Host Results := Act.inScope do
  Act.hold (.function r)
  args.forM Act.hold
  let s ← get
  let f := (s.heap.function? r).getD ⟨"", .native 0, []⟩
  runProcedure runBody f (procedureOf s.host f) args

/-- The integer that a prototype function carries. -/
def prototypeInt? (s : State Host) : Value → Option Int64
  | .function r =>
    match s.heap.function? r with
    | some ⟨_, .prototype (.int i), _⟩ => some i
    | _ => none
  | _ => none

/-- How the session calls values. -/
def caller (runBody : List Step → List Value → Act Host Unit) : Caller Host := fun handler args ↦ do
  let s ← get
  match s.host.runsPrototypes, prototypeInt? s handler with
  | true, some i => return .two (.int i) (.int (Int64.ofNat args.length))
  | _, _ => Act.call (runNative runBody) handler args

end LuaData.Session

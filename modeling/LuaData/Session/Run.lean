import LuaData.Session.Perform

/-!
# Running a session

A session performs its steps one after the other; a step that fails does not end it. What a step
made and nobody holds is released at its end, before the watched tables are looked at. A body is run
the same way within the step that calls it, but ends with the first step that fails.
-/

namespace LuaData.Session

variable [Hashing]

/-- The deepest nesting of bodies. -/
def maxNesting : Nat := 1000000

/-- Perform a step, let go of its operands and release what is no longer held. -/
def performAndSettle (runBody : BodyRunner) (step : Step) : Act Host Answer := do
  let answer ← Act.inScope (perform runBody step)
  Act.settle
  return answer

/-- Run the steps of a body with arguments; bodies may be nested `depth` deep. -/
def runBody : (depth : Nat) → BodyRunner
  | 0, _, _ => throw (.worded .internal "bodies nested too deep")
  | depth + 1, steps, args => do
    let outer := (← get).host.args
    modifyHost fun host ↦ { host with args }
    for step in steps do
      let _ ← performAndSettle (runBody depth) step
    modifyHost fun host ↦ { host with args := outer }

/-- How the session calls values. -/
def call : Caller Host :=
  caller (runBody maxNesting)

/-- The sizes of the table in a register. -/
def watch (s : State Host) (register : String) : Option TableSizes :=
  ((s.registry.lookup register).bind Value.table?).map (tableSizes s)

/-- Perform a step of the session and record it. -/
def runStep (watched : List String) (step : Step) (s : State Host) : Entry × State Host :=
  let s := { s with held := [], host := { s.host with calls := [], args := [] } }
  let act : Act Host Answer := do
    match ← Act.attempt (Act.inScope (perform (runBody maxNesting) step)) with
    | .ok answer => return answer
    | .error e => showError e
  let (answer, s) := act s
  let s := s.settle
  (⟨answer.toOption.getD .none, s.host.calls.reverse, watched.map (watch s)⟩, s)

/-- Perform the steps of a session. -/
def runSteps (watched : List String) : List Step → State Host → List Entry
  | [], _ => []
  | step :: steps, s =>
    let (entry, s) := runStep watched step s
    entry :: runSteps watched steps s

/-- The transcript of a session on a new instance. -/
def run (options : Options) (runsPrototypes : Bool) (watched : List String) (steps : List Step) :
    List Entry :=
  runSteps watched steps (State.initial options (Host.initial runsPrototypes))

end LuaData.Session

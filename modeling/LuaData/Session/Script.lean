import LuaData.Heap
import LuaData.Event

/-!
# Scripts of a host session

A host session is a program that embeds an instance: it keeps values in registers and performs one
step after the other. An `Expr` is how a step names an operand, a `Step` is one operation, and a
`Reply` is what a native function of the session does when it is called.
-/

namespace LuaData.Session

/-- The objects that an operand can be made from scratch. -/
inductive Object where
  | table
  | function
  | prototype
  | userdata
  | thread

/-- An operand. -/
inductive Expr where
  | nil
  | bool (b : Bool)
  | int (i : Int64)
  | float (x : Double)
  /-- A string of the instance, shared if it is short. -/
  | text (bytes : Bytes)
  /-- A string in a cell of its own. -/
  | ownText (bytes : Bytes)
  /-- An integer of the configured width. -/
  | wrapped (i : Int64)
  /-- The value of a register, nil if it is not set. -/
  | register (name : String)
  /-- An argument of the body that is running, counted from one, nil if there is none. -/
  | argument (n : Nat)
  /-- A new object. -/
  | create (object : Object)

/-- A range of keys: the integers from `first` to `last` in steps, or the strings that a stem and
such an integer make. -/
structure KeyRange where
  first : Int
  last : Int
  step : Int
  stem : Option Bytes

/-- The integers of a range, in order. -/
def KeyRange.integers (range : KeyRange) : List Int :=
  let span := if 0 < range.step then range.last - range.first else range.first - range.last
  if range.step = 0 ∨ span < 0 then []
  else (List.range (span.toNat / range.step.natAbs + 1)).map fun (n : Nat) ↦
    range.first + n * range.step

/-- An error that a function raises. -/
inductive Failure where
  | worded (kind : ErrorKind) (message : String)
  | argument (position : Nat) (function message : String)
  /-- A string raised as an error. -/
  | text (message : String)
  /-- A value raised as an error. -/
  | value (v : Expr)

/-- A comparison with a truth value as its result. -/
inductive Comparison where
  | equals
  | lessThan
  | lessEqual
  | rawEquals

/-- What a step looks up about a table. -/
inductive TableQuery where
  | keys
  | pairs
  | keyCount
  | length
  | stat
  | weakMode
  | hasMetatable

mutual

/-- A step. `into` names the register that receives the result. -/
inductive Step where
  /-- Evaluate an operand. -/
  | assign (v : Expr) (into : Option String)
  /-- Clear a register. -/
  | unset (register : String)
  | newTable (into : Option String) (hashHint : Option Nat)
  | newPrototype (into : Option String) (name : String) (payload : Payload)
  | newUserdata (into : Option String) (payload : Payload) (typeName : Option String)
      (metatable : Option Expr)
  | newThread (into : Option String) (name : String)
  | newFunction (into : Option String) (name : String) (reply : Reply)
  | rawGet (t k : Expr) (into : Option String)
  | rawSet (t k v : Expr)
  | rawGetStr (t : Expr) (key : Bytes) (into : Option String)
  | rawSetStr (t : Expr) (key : Bytes) (v : Expr)
  | insert (t : Expr) (position : Int64) (v : Expr)
  | remove (t : Expr) (position : Int64) (into : Option String)
  /-- Set all keys of a range to one value, or each to its integer. -/
  | fill (t : Expr) (range : KeyRange) (v : Option Expr)
  | getMany (t : Expr) (range : KeyRange)
  | next (t k : Expr) (into : Option String)
  | query (t : Expr) (query : TableQuery)
  | rawLen (v : Expr)
  /-- Enumerate a table from a key on, running a body for each entry. -/
  | walk (t : Expr) (cursor : Option Expr) (limit : Nat) (body : List Step) (into : Option String)
  | setMetatable (v metatable : Expr)
  | setSharedMetatable (kind : Kind) (metatable : Expr)
  /-- The metatable that scripts see. -/
  | visibleMetatable (v : Expr) (into : Option String)
  | metatable (v : Expr) (into : Option String)
  | ownMetatable (v : Expr) (into : Option String)
  | metamethod (v : Expr) (event : Event) (into : Option String)
  | index (t k : Expr) (into : Option String)
  | setIndex (t k v : Expr)
  | arith (op : Operator) (a b : Expr) (into : Option String)
  | neg (a : Expr) (into : Option String)
  | concat (a b : Expr) (into : Option String)
  | toNumber (a : Expr) (into : Option String)
  | len (a : Expr) (into : Option String)
  | toText (a : Expr)
  | compare (comparison : Comparison) (a b : Expr)
  | call (f : Expr) (args : List Expr) (into : Option String)
  | sameString (a b : Expr)
  /-- The number of interned strings. -/
  | interned
  | threadInfo (v : Expr) (status : Option ThreadStatus)
  | functionInfo (v : Expr)
  | userdataInfo (v : Expr) (payload : Option Payload)
  | display (v : Expr)
  | inspect (v : Expr)
  | inspectObject (v : Expr)
  | toJson (v : Expr) (pretty : Bool)
  | ofJson (text : List Char) (into : Option String)

/-- What a native function does when it is called. -/
inductive Reply where
  /-- Return the arguments. -/
  | echo
  | fail (failure : Failure)
  /-- Return values that are evaluated when the function is made. -/
  | constants (results : List Expr)
  /-- Run a body and return values that are evaluated after it. -/
  | body (steps : List Step) (results : List Expr)

end

end LuaData.Session

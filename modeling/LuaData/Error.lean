import LuaData.Event
import LuaData.Value.Display

/-!
# Errors

An error is a cause: what was expected and found, which key or position was refused, which chain
did not end, or a value that a function raised. `Error.kind` classes the causes and `Error.message`
words them.
-/

namespace LuaData

/-- The classes of errors. -/
inductive ErrorKind where
  /-- An operand of the wrong kind. -/
  | type
  /-- A string operand that is no number. -/
  | arithmetic
  /-- A key or position that a table refuses. -/
  | index
  /-- An argument that a function refuses. -/
  | argument
  /-- A value raised as an error. -/
  | runtime
  /-- A broken invariant of the library. -/
  | internal
  deriving DecidableEq

/-- The integer types of the host that a value can be converted to. -/
inductive HostInteger where
  | signed8
  | signed16
  | signed32
  | signed64
  | unsigned8
  | unsigned16
  | unsigned32
  deriving DecidableEq

namespace HostInteger

/-- The name of the type in messages. -/
def name : HostInteger → String
  | .signed8 => "i8"
  | .signed16 => "i16"
  | .signed32 => "i32"
  | .signed64 => "i64"
  | .unsigned8 => "u8"
  | .unsigned16 => "u16"
  | .unsigned32 => "u32"

/-- The least number of the type. -/
def least : HostInteger → Int
  | .signed8 => -(2 ^ 7)
  | .signed16 => -(2 ^ 15)
  | .signed32 => -(2 ^ 31)
  | .signed64 => -(2 ^ 63)
  | _ => 0

/-- The greatest number of the type. -/
def greatest : HostInteger → Int
  | .signed8 => 2 ^ 7 - 1
  | .signed16 => 2 ^ 15 - 1
  | .signed32 => 2 ^ 31 - 1
  | .signed64 => 2 ^ 63 - 1
  | .unsigned8 => 2 ^ 8 - 1
  | .unsigned16 => 2 ^ 16 - 1
  | .unsigned32 => 2 ^ 32 - 1

end HostInteger

/-- A broken invariant of the storage of a table. -/
inductive Fault where
  /-- A slot to be unlinked is in no chain. -/
  | notLinked (slot : Nat)
  /-- A slot would follow itself in its chain. -/
  | selfLink (slot : Nat)
  /-- All names of slots are taken. -/
  | noSlot
  /-- An entry has no bucket to go to. -/
  | noBucket
  /-- An entry does not fit although room was made for it. -/
  | noRoom
  deriving DecidableEq

/-- The wording of a fault. -/
def Fault.message : Fault → String
  | .notLinked slot => s!"slot {slot} is not in its chain"
  | .selfLink slot => s!"slot {slot} linked to itself"
  | .noSlot => "slot arena overflow"
  | .noBucket => "insert into an empty hash part"
  | .noRoom => "no room in the hash part"

/-- An error. -/
inductive Error where
  /-- A value of one kind was wanted and one of another was given. -/
  | expected (wanted got : Kind)
  /-- A number was given where only an integer will do. -/
  | noInteger
  /-- An integer does not fit a type of the host. -/
  | outOfRange (i : Int64) (type : HostInteger)
  /-- Arithmetic on a value that is no number. -/
  | arithmetic (operand : Kind)
  /-- Concatenation of a value that is neither string nor number. -/
  | concatenate (operand : Kind)
  /-- The length of a value that has none. -/
  | length (operand : Kind)
  /-- An order between values that have none. -/
  | compare (left right : Kind)
  /-- A field of a value that has none. -/
  | indexed (operand : Kind)
  /-- A call of a value that is no function. -/
  | called (operand : Kind)
  /-- A `__tostring` handler returned something else than a string. -/
  | noText
  /-- A write under nil. -/
  | nilKey
  /-- A write under NaN. -/
  | nanKey
  /-- The enumeration was asked to go on from a key that is not in the table. -/
  | badCursor
  /-- A list position outside the list. -/
  | badPosition (position : Int64)
  /-- The table would have more buckets than it may. -/
  | tableOverflow
  /-- A chain of handlers did not end within the limit. -/
  | endlessChain (event : Event)
  /-- The metatable may not be replaced. -/
  | protectedMetatable
  /-- A prototype function was called and nobody can run it. -/
  | noInterpreter (name : String)
  /-- The text is not JSON. -/
  | jsonSyntax
  /-- A NaN or an infinity has no JSON form. -/
  | jsonNumber (x : Double)
  /-- A table that contains itself has no JSON form. -/
  | jsonCycle
  /-- A kind of value without a JSON form. -/
  | jsonKind (kind : Kind)
  /-- A value raised as an error. -/
  | raised (v : Value)
  /-- A function refuses an argument. -/
  | argument (position : Nat) (function message : String)
  /-- An error that the host words itself, of a kind that carries only a text. -/
  | worded (kind : ErrorKind) (message : String)
  /-- A broken invariant. -/
  | fault (f : Fault)

namespace Error

/-- The class of an error. -/
def kind : Error → ErrorKind
  | .expected _ _ => .type
  | .noInteger => .type
  | .outOfRange _ _ => .type
  | .arithmetic operand => if operand = .string then .arithmetic else .type
  | .concatenate _ => .type
  | .length _ => .type
  | .compare _ _ => .type
  | .indexed _ => .type
  | .called _ => .type
  | .noText => .type
  | .nilKey => .index
  | .nanKey => .index
  | .badCursor => .index
  | .badPosition _ => .index
  | .tableOverflow => .index
  | .endlessChain _ => .runtime
  | .protectedMetatable => .runtime
  | .noInterpreter _ => .runtime
  | .jsonSyntax => .runtime
  | .jsonNumber _ => .runtime
  | .jsonCycle => .runtime
  | .jsonKind _ => .runtime
  | .raised _ => .runtime
  | .argument _ _ _ => .argument
  | .worded kind _ => kind
  | .fault _ => .internal

/-- The wording of an error. -/
def message : Error → String
  | .expected wanted got => s!"{wanted.typeName} expected, got {got.typeName}"
  | .noInteger => "number has no integer representation"
  | .outOfRange i type => s!"integer {String.ofList (Integer.text i)} out of range for {type.name}"
  | .arithmetic operand => s!"attempt to perform arithmetic on a {operand.typeName} value"
  | .concatenate operand => s!"attempt to concatenate a {operand.typeName} value"
  | .length operand => s!"attempt to get length of a {operand.typeName} value"
  | .compare left right =>
    if left.typeName = right.typeName then s!"attempt to compare two {left.typeName} values"
    else s!"attempt to compare {left.typeName} with {right.typeName}"
  | .indexed operand => s!"attempt to index a {operand.typeName} value"
  | .called operand => s!"attempt to call a {operand.typeName} value"
  | .noText => "'__tostring' must return a string"
  | .nilKey => "table index is nil"
  | .nanKey => "table index is NaN"
  | .badCursor => "invalid key to 'next'"
  | .badPosition position =>
    s!"position {String.ofList (Integer.text position)} out of bounds"
  | .tableOverflow => "table overflow"
  | .endlessChain event => s!"'{event.field}' chain too long; possible loop"
  | .protectedMetatable => "cannot change a protected metatable"
  | .noInterpreter name => s!"cannot call '{name}': no interpreter installed"
  | .jsonSyntax => "failed to parse JSON"
  | .jsonNumber x => s!"cannot serialize {String.ofList x.text} to JSON"
  | .jsonCycle => "circular reference detected in table"
  | .jsonKind kind => s!"cannot serialize a {kind.typeName} value to JSON"
  | .raised v => String.ofList v.display
  | .argument position function message => s!"bad argument #{position} to '{function}' ({message})"
  | .worded .internal message => s!"internal error: {message}"
  | .worded _ message => message
  | .fault f => s!"internal error: {f.message}"

end Error

end LuaData

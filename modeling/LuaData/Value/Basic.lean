import LuaData.Hash
import LuaData.Number.Basic

/-!
# Values

A value is nil, a boolean or a number, held inline, or it refers to a cell of the heap: a string, a
table, a function, a userdata or a thread. Equality of two values compares numbers by value, strings
by content and the other references by identity; `Value.key?` gives each class of equal values,
nil and NaN apart, one representative under which tables store it.
-/

namespace LuaData

/-- The name of a heap cell. Names are never given twice. -/
abbrev Ref := Nat

/-- The hashes that come from outside: of byte strings, and of the cells of objects. All that is
known of them is that equal byte strings have equal hashes and that a cell keeps its hash. -/
class Hashing where
  bytes : Bytes → UInt64
  cell : Ref → UInt64

/-- A string: its bytes, and the cell that was allocated for them. -/
structure Str where
  bytes : Bytes
  cell : Ref
  deriving DecidableEq, Inhabited

/-- A value. -/
inductive Value where
  | nil
  | bool (b : Bool)
  | num (n : Number)
  | str (s : Str)
  | table (r : Ref)
  | function (r : Ref)
  | userdata (r : Ref)
  | thread (r : Ref)
  deriving DecidableEq, Inhabited

/-- The kinds of values; integers and floats are two kinds of one type. -/
inductive Kind where
  | nil
  | boolean
  | integer
  | float
  | string
  | table
  | function
  | userdata
  | thread
  deriving DecidableEq

/-- The name of the type that a kind belongs to. -/
def Kind.typeName : Kind → String
  | .nil => "nil"
  | .boolean => "boolean"
  | .integer => "number"
  | .float => "number"
  | .string => "string"
  | .table => "table"
  | .function => "function"
  | .userdata => "userdata"
  | .thread => "thread"

namespace Value

/-- An integer value. -/
@[match_pattern] abbrev int (i : Int64) : Value := .num (.int i)

/-- A float value. -/
@[match_pattern] abbrev float (x : Double) : Value := .num (.float x)

/-- The kind of a value. -/
def kind : Value → Kind
  | .nil => .nil
  | .bool _ => .boolean
  | .int _ => .integer
  | .float _ => .float
  | .str _ => .string
  | .table _ => .table
  | .function _ => .function
  | .userdata _ => .userdata
  | .thread _ => .thread

/-- The name of the value's type. -/
def typeName (v : Value) : String :=
  v.kind.typeName

/-- The value is nil. -/
def isNil : Value → Bool
  | .nil => true
  | _ => false

/-- The value is a string. -/
def isString : Value → Bool
  | .str _ => true
  | _ => false

/-- The value is a number. -/
def isNumber : Value → Bool
  | .num _ => true
  | _ => false

/-- The value is a function. -/
def isFunction : Value → Bool
  | .function _ => true
  | _ => false

/-- Only nil and false are false in a condition. -/
def truthy : Value → Bool
  | .nil => false
  | .bool false => false
  | _ => true

/-- The heap cell that the value refers to. -/
def ref? : Value → Option Ref
  | .str s => some s.cell
  | .table r => some r
  | .function r => some r
  | .userdata r => some r
  | .thread r => some r
  | _ => none

/-- The kinds with an identity: tables, functions, userdata and threads. Weak tables hold these
weakly. -/
def collectable : Value → Bool
  | .table _ => true
  | .function _ => true
  | .userdata _ => true
  | .thread _ => true
  | _ => false

/-- The table that the value refers to. -/
def table? : Value → Option Ref
  | .table r => some r
  | _ => none

/-- The bytes of a string value. -/
def bytes? : Value → Option Bytes
  | .str s => some s.bytes
  | _ => none

/-- Equality without metamethods. -/
def rawEq : Value → Value → Bool
  | .nil, .nil => true
  | .bool a, .bool b => a == b
  | .num a, .num b => a.eq b
  | .str a, .str b => a.bytes == b.bytes
  | .table a, .table b => a == b
  | .function a, .function b => a == b
  | .userdata a, .userdata b => a == b
  | .thread a, .thread b => a == b
  | _, _ => false

/-- The key under which a table stores a value: integral floats become integers. Nil and NaN are
no keys. -/
def key? : Value → Option Value
  | .nil => none
  | .float x =>
    if x.isNaN then none
    else
      match x.integer? with
      | some i => some (.int i)
      | none => some (.float x)
  | v => some v

/-- The address that a cell shows. -/
def address (r : Ref) : Nat :=
  0x550000000000 + 16 * r

/-- The hash of a value, for a hash of byte strings and a hash of cells. Equal values have equal
hashes: an integral float hashes like its integer. -/
def hashWith (bytesHash : Bytes → UInt64) (cellHash : Ref → UInt64) : Value → UInt64
  | .nil => 0
  | .bool b => mix64 (if b then 2 else 1)
  | .int i => mix64 i.toUInt64
  | .float x =>
    match x.integer? with
    | some i => mix64 i.toUInt64
    | none => mix64 x.bits
  | .str s => bytesHash s.bytes
  | .table r => cellHash r
  | .function r => cellHash r
  | .userdata r => cellHash r
  | .thread r => cellHash r

/-- The hash of a value, with the hashes from outside. -/
def hash [Hashing] (v : Value) : UInt64 :=
  v.hashWith Hashing.bytes Hashing.cell

end Value

/-- Hashes to run with: strings by their bytes, cells by the address that they show. -/
instance : Hashing where
  bytes := hashBytes
  cell r := mix64 (UInt64.ofNat (Value.address r))

end LuaData

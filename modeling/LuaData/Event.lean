/-!
# Metatable fields

The fields of a metatable that the library reads: the events with a handler, and the fields that
describe the value.
-/

namespace LuaData

/-- A field of a metatable. -/
inductive Event where
  | index
  | newIndex
  | mode
  | len
  | eq
  | add
  | sub
  | mul
  | mod
  | pow
  | div
  | idiv
  | unm
  | lt
  | le
  | concat
  | call
  | toString
  | name
  | metatable
  deriving DecidableEq

namespace Event

/-- The key of the field. -/
def field : Event → String
  | .index => "__index"
  | .newIndex => "__newindex"
  | .mode => "__mode"
  | .len => "__len"
  | .eq => "__eq"
  | .add => "__add"
  | .sub => "__sub"
  | .mul => "__mul"
  | .mod => "__mod"
  | .pow => "__pow"
  | .div => "__div"
  | .idiv => "__idiv"
  | .unm => "__unm"
  | .lt => "__lt"
  | .le => "__le"
  | .concat => "__concat"
  | .call => "__call"
  | .toString => "__tostring"
  | .name => "__name"
  | .metatable => "__metatable"

/-- All fields. -/
def all : List Event :=
  [.index, .newIndex, .mode, .len, .eq, .add, .sub, .mul, .mod, .pow, .div, .idiv, .unm, .lt, .le,
    .concat, .call, .toString, .name, .metatable]

/-- The event with the given key. -/
def ofField? (field : String) : Option Event :=
  all.find? fun e ↦ e.field == field

end Event

end LuaData

import LuaData.Number.Text
import LuaData.Text.Quoted
import LuaData.Text.Utf8
import LuaData.Value.Basic

/-!
# The text of values

`Value.display` is the plain text of a value, and `Value.inspect` the text of diagnostics, in which
strings are quoted. Values with an identity show their type and their address.
-/

namespace LuaData.Value

/-- An address in hexadecimal. -/
def addressText (r : Ref) : List Char :=
  ['0', 'x'] ++ Nat.toDigits 16 (address r)

/-- The plain text of a value. -/
def display : Value → List Char
  | .nil => "nil".toList
  | .bool b => (if b then "true" else "false").toList
  | .num n => n.text
  | .str s => Utf8.decodeLossy s.bytes
  | v => v.typeName.toList ++ [':', ' '] ++ addressText (v.ref?.getD 0)

/-- The text of a value in diagnostics. -/
def inspect : Value → List Char
  | .nil => "nil".toList
  | .bool b => (if b then "true" else "false").toList
  | .num n => n.text
  | .str s => Quoted.quote (Utf8.decodeLossy s.bytes)
  | v => v.typeName.toList ++ ['('] ++ addressText (v.ref?.getD 0) ++ [')']

end LuaData.Value

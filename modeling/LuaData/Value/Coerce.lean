import LuaData.Error
import LuaData.Number.Numeral

/-!
# Conversions of values

Numbers and numeric strings convert to each other where a context asks for one of them. For each
target there is a partial conversion, which is `none` where there is nothing to convert, and a
checked one, which says what was expected.
-/

namespace LuaData.Value

/-- The number that a value is or, for a string, denotes. -/
def number? : Value → Option Number
  | .num n => some n
  | .str s => Numeral.read? s.bytes
  | _ => none

/-- The integer that a value equals or denotes. -/
def integer? (v : Value) : Option Int64 :=
  v.number?.bind Number.integer?

/-- The double that a value equals or denotes. -/
def double? (v : Value) : Option Double :=
  v.number?.map Number.toDouble

/-- The bytes of a string, or of the text of a number. -/
def text? : Value → Option Bytes
  | .str s => some s.bytes
  | .num n => some (Utf8.encode n.text)
  | _ => none

/-- The bytes of a string, or of the text of any other value. -/
def toText : Value → Bytes
  | .str s => s.bytes
  | v => Utf8.encode v.display

/-- The integer floor of a number. -/
def floor? : Value → Option Int64
  | .num n => n.floor?
  | _ => none

/-- The boolean of a boolean value. -/
def boolean? : Value → Option Bool
  | .bool b => some b
  | _ => none

/-- The value, if it has the kind that is wanted. -/
def check (wanted : Kind) (v : Value) : Except Error Value :=
  if v.kind = wanted then .ok v else .error (.expected wanted v.kind)

/-- The boolean of a boolean value. -/
def checkBoolean (v : Value) : Except Error Bool :=
  match v.boolean? with
  | some b => .ok b
  | none => .error (.expected .boolean v.kind)

/-- The integer of a value. A number without one is told from a value that is no number. -/
def checkInteger (v : Value) : Except Error Int64 :=
  match v.integer? with
  | some i => .ok i
  | none => if v.number?.isSome then .error .noInteger else .error (.expected .integer v.kind)

/-- The double of a value. -/
def checkDouble (v : Value) : Except Error Double :=
  match v.double? with
  | some x => .ok x
  | none => .error (.expected .float v.kind)

/-- The bytes of a string or number. -/
def checkText (v : Value) : Except Error Bytes :=
  match v.text? with
  | some bytes => .ok bytes
  | none => .error (.expected .string v.kind)

/-- The table of a table value. -/
def checkTable (v : Value) : Except Error Ref :=
  match v.table? with
  | some r => .ok r
  | none => .error (.expected .table v.kind)

/-- A checked conversion under which nil stands for a default. -/
def orDefault {α : Type} (default : α) (convert : Value → Except Error α) (v : Value) :
    Except Error α :=
  if v.isNil then .ok default else convert v

/-- The integer of a value in a type of the host. -/
def toHostInteger (type : HostInteger) (v : Value) : Except Error Int64 := do
  let i ← v.checkInteger
  if type.least ≤ i.toInt ∧ i.toInt ≤ type.greatest then .ok i else .error (.outOfRange i type)

end LuaData.Value

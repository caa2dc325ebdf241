import LuaData.State.Call

/-!
# Arithmetic on values

Numbers and numeric strings are computed directly; otherwise the first operand with a handler for
the event decides.
-/

namespace LuaData

/-- The event of an operator. -/
def Operator.event : Operator → Event
  | .add => .add
  | .sub => .sub
  | .mul => .mul
  | .mod => .mod
  | .pow => .pow
  | .div => .div
  | .idiv => .idiv
  | .neg => .unm

namespace Value

/-- An operator applied to values that are or denote numbers. -/
def arith? (width : Width) (op : Operator) (a b : Value) : Option Value :=
  match a.number?, b.number? with
  | some x, some y => some (.num (Number.apply width op x y))
  | _, _ => none

/-- The operand to blame when arithmetic fails: the second, if the first is a number. -/
def notNumber (a b : Value) : Value :=
  if a.number?.isSome then b else a

end Value

namespace Act

variable [Hashing] {σ : Type}

/-- An operator applied to values, with handlers. -/
def arith (call : Caller σ) (op : Operator) (a b : Value) : Act σ Value := do
  let s ← get
  match Value.arith? s.options.integerWidth op a b with
  | some v => return v
  | none =>
    match s.binaryMetamethod? a b op.event with
    | some handler => callHandler call handler [a, b]
    | none => throw (.arithmetic (Value.notNumber a b).kind)

/-- Negation; a handler gets the operand twice. -/
def neg (call : Caller σ) (a : Value) : Act σ Value :=
  arith call .neg a a

/-- The number that a value is or denotes, nil if there is none. -/
def toNumber (v : Value) : Act σ Value :=
  match v.number? with
  | some (.int i) => integer i
  | some (.float x) => return .float x
  | none => return .nil

end Act

end LuaData

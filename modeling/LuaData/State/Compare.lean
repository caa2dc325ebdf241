import LuaData.State.Call

/-!
# Comparing values

Equality is raw equality, or for two tables or two userdata the truth of an `__eq` handler. Numbers
and strings are ordered by value; other operands by their `__lt` and `__le` handlers.
-/

namespace LuaData.Act

variable [Hashing] {σ : Type}

/-- Equality. The metatable of the first operand that has one decides, and is held during the call;
one without an `__eq` handler means not equal. -/
def equals (call : Caller σ) (a b : Value) : Act σ Bool := do
  let s ← get
  let comparable :=
    match a, b with
    | .table _, .table _ => true
    | .userdata _, .userdata _ => true
    | _, _ => false
  if a.rawEq b then return true
  else if !comparable then return false
  else
    match (s.metatable? a).or (s.metatable? b) with
    | none => return false
    | some m =>
      let handler := s.field m .eq
      if handler.isNil then return false
      else inScope do
        hold (.table m)
        return (← callHandler call handler [a, b]).truthy

/-- An order decided by numbers, by strings, or by handlers. -/
def order (call : Caller σ) (event : Event) (numbers : Number → Number → Bool)
    (strings : Bytes → Bytes → Bool) (a b : Value) : Act σ Bool := do
  match a, b with
  | .num x, .num y => return numbers x y
  | .str x, .str y => return strings x.bytes y.bytes
  | _, _ =>
    match (← get).binaryMetamethod? a b event with
    | some handler => return (← callHandler call handler [a, b]).truthy
    | none => throw (.compare a.kind b.kind)

/-- The order of values. -/
def lessThan (call : Caller σ) : Value → Value → Act σ Bool :=
  order call .lt Number.lt Bytes.lt

/-- The order of values or equality. -/
def lessEqual (call : Caller σ) : Value → Value → Act σ Bool :=
  order call .le Number.le Bytes.le

end LuaData.Act

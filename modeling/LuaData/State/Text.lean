import LuaData.State.Call
import LuaData.Table.Length

/-!
# Strings from values

Concatenation joins strings and numbers, or calls a `__concat` handler. The length of a value is
that of a string, the result of a `__len` handler, or the border of a table. The text of a value
comes from a `__tostring` handler, or names the value by the `__name` field of its metatable or by
its type.
-/

namespace LuaData.Act

variable [Hashing] {σ : Type}

/-- The first operand that is neither string nor number, or else the second. -/
def notText (a b : Value) : Value :=
  if a.isString || a.isNumber then b else a

/-- Concatenation. -/
def concat (call : Caller σ) (a b : Value) : Act σ Value := do
  match a.text?, b.text? with
  | some x, some y => createString (x ++ y)
  | _, _ =>
    match (← get).binaryMetamethod? a b .concat with
    | some handler => callHandler call handler [a, b]
    | none => throw (.concatenate (notText a b).kind)

/-- The length of a value. -/
def len (call : Caller σ) (v : Value) : Act σ Value := do
  let s ← get
  match v with
  | .str str => return .int (Int64.ofNat str.bytes.length)
  | _ =>
    match s.metamethod? v .len with
    | some handler => callHandler call handler [v]
    | none =>
      match v with
      | .table r => return .int (Int64.ofNat ((s.table r).length s.context))
      | _ => throw (.length v.kind)

/-- The string that a `__tostring` handler returned; a number is converted. -/
def handlerText (result : Value) : Act σ Value := do
  match result with
  | .str _ => return result
  | .num n => newString (Utf8.encode n.text)
  | _ => throw .noText

/-- The text of a value. -/
def toText (call : Caller σ) (v : Value) : Act σ Value := do
  let s ← get
  match s.metamethod? v .toString with
  | some handler => handlerText (← callHandler call handler [v])
  | none =>
    match v with
    | .str _ => return v
    | _ =>
      let name := (s.metatable? v).map fun m ↦ s.field m .name
      match v.ref?, name with
      | some r, some (.str name) =>
        createString (Utf8.encode
          (Utf8.decodeLossy name.bytes ++ [':', ' '] ++ Value.addressText r))
      | _, _ => createString (Utf8.encode v.display)

end LuaData.Act

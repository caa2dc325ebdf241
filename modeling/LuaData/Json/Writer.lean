import LuaData.Decimal.Basic
import LuaData.Json.Basic

/-!
# Writing JSON

`Json.compact` writes a value without blanks, and `Json.pretty` with one item per line and two
blanks for each level. Doubles have the fewest digits that read back.
-/

namespace LuaData.Json

/-- An integer in decimal. -/
def intText (i : Int) : List Char :=
  if i < 0 then '-' :: decimalDigits i.natAbs else decimalDigits i.natAbs

/-- Positional text for exponents from -5 to 15. -/
def floatLayout : Decimal.Layout := ⟨-5, 16, 1⟩

/-- A double with the fewest digits that read back; what is not finite has no number. -/
def floatText (x : Double) : List Char :=
  if !x.isFinite then ['n', 'u', 'l', 'l']
  else
    let magnitude :=
      if x.isZero then ['0', '.', '0'] else (Decimal.shortest x).layout floatLayout
    if x.negative then '-' :: magnitude else magnitude

/-- A hexadecimal digit in lower case. -/
def hexDigit (n : Nat) : Char :=
  if n < 10 then Char.ofNat (48 + n) else Char.ofNat (87 + n)

/-- A character in a string. -/
def escape (c : Char) : List Char :=
  if c = '"' then ['\\', '"']
  else if c = '\\' then ['\\', '\\']
  else if c = '\x08' then ['\\', 'b']
  else if c = '\x0c' then ['\\', 'f']
  else if c = '\n' then ['\\', 'n']
  else if c = '\r' then ['\\', 'r']
  else if c = '\t' then ['\\', 't']
  else if c.toNat < 0x20 then
    ['\\', 'u', '0', '0', hexDigit (c.toNat / 16), hexDigit (c.toNat % 16)]
  else [c]

/-- A string between quotes. -/
def stringText (text : List Char) : List Char :=
  '"' :: text.flatMap escape ++ ['"']

/-- Lay out the items of an array or object between brackets, after the blanks that start a line at
the given level. `none` stands for a layout without blanks. -/
def brackets (opening closing : Char) (level : Option Nat) (items : List (List Char)) : List Char :=
  match items with
  | [] => [opening, closing]
  | items =>
    let line (extra : Nat) : List Char :=
      match level with
      | none => []
      | some n => '\n' :: List.replicate (2 * (n + extra)) ' '
    [opening] ++ ((items.map (line 1 ++ ·)).intersperse [',']).flatten ++ line 0 ++ [closing]

/-- The mark between a key and its value. -/
def colon (level : Option Nat) : List Char :=
  if level.isSome then [':', ' '] else [':']

mutual

/-- The text of a value at a level of nesting. -/
def write (level : Option Nat) : Json → List Char
  | .null => ['n', 'u', 'l', 'l']
  | .bool true => ['t', 'r', 'u', 'e']
  | .bool false => ['f', 'a', 'l', 's', 'e']
  | .int i => intText i
  | .float x => floatText x
  | .string text => stringText text
  | .array items => brackets '[' ']' level (writeItems (level.map (· + 1)) items)
  | .object members => brackets '\x7b' '\x7d' level (writeMembers (level.map (· + 1)) members)

/-- The texts of the items of an array. -/
def writeItems (level : Option Nat) : List Json → List (List Char)
  | [] => []
  | item :: rest => write level item :: writeItems level rest

/-- The texts of the members of an object. -/
def writeMembers (level : Option Nat) : List (List Char × Json) → List (List Char)
  | [] => []
  | (key, value) :: rest =>
    (stringText key ++ colon level ++ write level value) :: writeMembers level rest

end

/-- The text without blanks. -/
def compact (j : Json) : List Char :=
  write none j

/-- The text with one item per line. -/
def pretty (j : Json) : List Char :=
  write (some 0) j

end LuaData.Json

import LuaData.Json.Basic

/-!
# JSON texts

`Json.Tree.parse?` reads a JSON text as it is written: numbers keep their digits and objects all
their members in order. The grammar is that of RFC 8259 and nothing looser.
-/

namespace LuaData.Json

/-- A number as it is written. -/
structure Literal where
  negative : Bool
  whole : List Char
  fraction : List Char
  exponentNegative : Bool
  exponent : List Char
  /-- The number is written without a fraction and without an exponent. -/
  plain : Bool

/-- A JSON text as it is written. The text of a string is `none` where its escapes are halves of
characters. -/
inductive Tree where
  | null
  | bool (b : Bool)
  | number (n : Literal)
  | string (text : Option (List Char))
  | array (items : List Tree)
  | object (members : List (Option (List Char) × Tree))

namespace Tree

/-- The blanks between tokens. -/
def isBlank (c : Char) : Bool :=
  c == ' ' || c == '\n' || c == '\r' || c == '\t'

/-- The text after its leading blanks. -/
def skip (text : List Char) : List Char :=
  text.dropWhile isBlank

/-- The text after a word that it starts with. -/
def after? (word text : List Char) : Option (List Char) :=
  if word.isPrefixOf text then some (text.drop word.length) else none

/-- Digits at the front, at least one, and the rest. -/
def digits1? (text : List Char) : Option (List Char × List Char) :=
  match text.takeWhile Char.isDigit with
  | [] => none
  | digits => some (digits, text.dropWhile Char.isDigit)

/-- The digits before the point: a zero stands alone. -/
def whole? : List Char → Option (List Char × List Char)
  | '0' :: rest =>
    match rest with
    | c :: _ => if c.isDigit then none else some (['0'], rest)
    | [] => some (['0'], [])
  | text => digits1? text

/-- A point and the digits after it, if there is a point. -/
def fraction? : List Char → Option (List Char × List Char)
  | '.' :: rest => digits1? rest
  | text => some ([], text)

/-- The sign of an exponent, and the rest. -/
def exponentSign : List Char → Bool × List Char
  | '-' :: rest => (true, rest)
  | '+' :: rest => (false, rest)
  | text => (false, text)

/-- The sign and the digits of an exponent, if there is one. -/
def exponent? : List Char → Option (Bool × List Char × List Char)
  | [] => some (false, [], [])
  | c :: rest =>
    if c == 'e' || c == 'E' then
      let (negative, rest) := exponentSign rest
      (digits1? rest).map fun (digits, rest) ↦ (negative, digits, rest)
    else some (false, [], c :: rest)

/-- A number at the front, after its sign. -/
def magnitude? (negative : Bool) (text : List Char) : Option (Literal × List Char) := do
  let (whole, text) ← whole? text
  let (fraction, text) ← fraction? text
  let (exponentNegative, exponent, text) ← exponent? text
  return (⟨negative, whole, fraction, exponentNegative, exponent,
    fraction.isEmpty && exponent.isEmpty⟩, text)

/-- A number at the front. -/
def number? : List Char → Option (Literal × List Char)
  | '-' :: rest => magnitude? true rest
  | text => magnitude? false text

/-- The value of a hexadecimal digit. -/
def hexDigit? (c : Char) : Option Nat :=
  if c.isDigit then some (c.toNat - 48)
  else if 'a' ≤ c ∧ c ≤ 'f' then some (c.toNat - 87)
  else if 'A' ≤ c ∧ c ≤ 'F' then some (c.toNat - 55)
  else none

/-- The number that four hexadecimal digits denote. -/
def hex4? (a b c d : Char) : Option Nat := do
  return (((← hexDigit? a) * 16 + (← hexDigit? b)) * 16 + (← hexDigit? c)) * 16 + (← hexDigit? d)

/-- The character of a one-letter escape. -/
def shortEscape? : Char → Option Char
  | '"' => some '"'
  | '\\' => some '\\'
  | '/' => some '/'
  | 'b' => some '\x08'
  | 'f' => some '\x0c'
  | 'n' => some '\n'
  | 'r' => some '\r'
  | 't' => some '\t'
  | _ => none

/-- What stands at one place in a string: a character, or a number of 16 bits. -/
inductive Unit16 where
  | char (c : Char)
  | code (n : Nat)

/-- The contents of a string up to its closing quote, and the rest. Control characters must be
escaped. -/
def units? : List Char → Option (List Unit16 × List Char)
  | [] => none
  | '"' :: rest => some ([], rest)
  | '\\' :: 'u' :: a :: b :: c :: d :: rest => do
    let n ← hex4? a b c d
    let (units, rest) ← units? rest
    return (.code n :: units, rest)
  | '\\' :: e :: rest => do
    let c ← shortEscape? e
    let (units, rest) ← units? rest
    return (.char c :: units, rest)
  | c :: rest => do
    if c.toNat < 0x20 || c == '\\' then none
    let (units, rest) ← units? rest
    return (.char c :: units, rest)

/-- The text of the contents of a string: two numbers that are the halves of a character become that
character, and a half alone is no text. -/
def text? : List Unit16 → Option (List Char)
  | [] => some []
  | .char c :: rest => (text? rest).map (c :: ·)
  | .code n :: rest =>
    if 0xD800 ≤ n ∧ n < 0xDC00 then
      match rest with
      | .code m :: rest =>
        if 0xDC00 ≤ m ∧ m < 0xE000 then
          (text? rest).map (Char.ofNat (0x10000 + (n - 0xD800) * 0x400 + (m - 0xDC00)) :: ·)
        else none
      | _ => none
    else if 0xDC00 ≤ n ∧ n < 0xE000 then none
    else (text? rest).map (Char.ofNat n :: ·)

/-- A string at the front, after its opening quote. -/
def string? (text : List Char) : Option (Option (List Char) × List Char) :=
  (units? text).map fun (units, rest) ↦ (text? units, rest)

mutual

/-- A value at the front. Every level of nesting and every item uses up one unit of fuel. -/
def value? : (fuel : Nat) → List Char → Option (Tree × List Char)
  | 0, _ => none
  | fuel + 1, text =>
    match skip text with
    | [] => none
    | '"' :: rest => (string? rest).map fun (s, rest) ↦ (.string s, rest)
    | '[' :: rest =>
      match skip rest with
      | ']' :: rest => some (.array [], rest)
      | rest => (items? fuel rest).map fun (items, rest) ↦ (.array items, rest)
    | '\x7b' :: rest =>
      match skip rest with
      | '\x7d' :: rest => some (.object [], rest)
      | rest => (members? fuel rest).map fun (members, rest) ↦ (.object members, rest)
    | c :: rest =>
      if c == 'n' then (after? ['u', 'l', 'l'] rest).map fun rest ↦ (.null, rest)
      else if c == 't' then (after? ['r', 'u', 'e'] rest).map fun rest ↦ (.bool true, rest)
      else if c == 'f' then (after? ['a', 'l', 's', 'e'] rest).map fun rest ↦ (.bool false, rest)
      else (number? (c :: rest)).map fun (n, rest) ↦ (.number n, rest)

/-- The items of an array, at least one, up to the closing bracket. -/
def items? : (fuel : Nat) → List Char → Option (List Tree × List Char)
  | 0, _ => none
  | fuel + 1, text => do
    let (item, rest) ← value? fuel text
    match skip rest with
    | ',' :: rest =>
      let (items, rest) ← items? fuel rest
      return (item :: items, rest)
    | ']' :: rest => return ([item], rest)
    | _ => none

/-- The members of an object, at least one, up to the closing brace. -/
def members? : (fuel : Nat) → List Char → Option (List (Option (List Char) × Tree) × List Char)
  | 0, _ => none
  | fuel + 1, text => do
    let (key, rest) ← match skip text with
      | '"' :: rest => string? rest
      | _ => none
    let (value, rest) ← match skip rest with
      | ':' :: rest => value? fuel rest
      | _ => none
    match skip rest with
    | ',' :: rest =>
      let (members, rest) ← members? fuel rest
      return ((key, value) :: members, rest)
    | '\x7d' :: rest => return ([(key, value)], rest)
    | _ => none

end

/-- The JSON text, if it is one. -/
def parse? (text : List Char) : Option Tree :=
  match value? (text.length + 1) text with
  | some (tree, rest) => if (skip rest).isEmpty then some tree else none
  | none => none

end Tree

end LuaData.Json

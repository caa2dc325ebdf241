import LuaData.Text.Unprintable

/-!
# Quoted text

Diagnostics show strings between double quotes. Quotes, backslashes and the usual control
characters have short escapes; other characters without a glyph are shown by their number.
-/

namespace LuaData.Quoted

/-- A character by its number in lower-case hexadecimal, as in `\u{1f}`. -/
def numbered (c : Char) : List Char :=
  ['\\', 'u', '\x7b'] ++ Nat.toDigits 16 c.toNat ++ ['\x7d']

/-- A character as it stands between quotes. -/
def escape (c : Char) : List Char :=
  if c = '"' then ['\\', '"']
  else if c = '\\' then ['\\', '\\']
  else if c = '\n' then ['\\', 'n']
  else if c = '\r' then ['\\', 'r']
  else if c = '\t' then ['\\', 't']
  else if c = '\x00' then ['\\', '0']
  else if c.toNat < 0x20 || c.toNat = 0x7F then numbered c
  else if c.toNat < 0x80 then [c]
  else if Unprintable.contains c then numbered c
  else [c]

/-- A text between quotes. -/
def quote (text : List Char) : List Char :=
  '"' :: text.flatMap escape ++ ['"']

/-- A string between quotes. -/
def quoteString (s : String) : String :=
  String.ofList (quote s.toList)

end LuaData.Quoted

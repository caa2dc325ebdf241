import LuaData.Number.Basic
import LuaData.Table.Slots

/-!
# Options of an instance
-/

namespace LuaData

/-- The options of an instance. -/
structure Options where
  /-- The width of integer results. -/
  integerWidth : Width
  /-- The longest string that is interned. -/
  shortStringLimit : Nat
  /-- The longest chain of handlers that is followed. -/
  maxChain : Nat
  /-- The array hint of new tables. -/
  arraySize : Nat
  /-- The hash hint of new tables. -/
  hashSize : Nat

namespace Options

/-- 64-bit integers, strings up to 40 bytes interned, chains of up to 2000 links, and new tables
without room. -/
def default : Options where
  integerWidth := .bits64
  shortStringLimit := LuaData.shortStringLimit
  maxChain := 2000
  arraySize := 0
  hashSize := 0

/-- The options with another limit of chains, which is at least one. -/
def withMaxChain (limit : Nat) (options : Options) : Options :=
  { options with maxChain := max limit 1 }

/-- The name of a width in texts. -/
def widthName : Width → String
  | .bits32 => "Bits32"
  | .bits64 => "Bits64"

/-- The options in diagnostics. -/
def inspect (o : Options) : String :=
  s!"VmOption \x7b integer_width: {widthName o.integerWidth}, " ++
  s!"short_string_limit: {o.shortStringLimit}, max_tag_loop: {o.maxChain}, " ++
  s!"default_array_size: {o.arraySize}, default_hash_size: {o.hashSize} \x7d"

end Options

end LuaData

import LuaData.Bytes

/-!
# Hashes

`mix64` spreads the bits of a word; numbers, booleans and the addresses of objects are hashed with
it. Strings are hashed by content, with a function from outside; `hashBytes` is one to run with.
-/

namespace LuaData

/-- A bijection of 64-bit words in which every bit of the input moves half of the output. -/
def mix64 (x : UInt64) : UInt64 :=
  let x := (x ^^^ (x >>> 30)) * 0xbf58476d1ce4e5b9
  let x := (x ^^^ (x >>> 27)) * 0x94d049bb133111eb
  x ^^^ (x >>> 31)

/-- The hash of a byte string: each byte is added to the bits, which are then multiplied. -/
def hashBytes (bytes : Bytes) : UInt64 :=
  mix64 (bytes.foldl (fun h b ↦ (h ^^^ b.toUInt64) * 0x100000001b3) 0xcbf29ce484222325)

end LuaData

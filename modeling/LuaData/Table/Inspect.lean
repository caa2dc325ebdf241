import LuaData.Table.Basic

/-!
# Tables in diagnostics
-/

namespace LuaData

/-- A truth value in diagnostics. -/
def flagText (b : Bool) : String :=
  if b then "true" else "false"

/-- The sizes and the weak mode of a table. -/
def Table.inspect (t : Table) : String :=
  s!"LuaTable \x7b array: {t.array.size}, hash: {t.buckets.size}, live: {t.arena.live}, " ++
  s!"dead: {t.arena.dead}, mode: WeakMode \x7b keys: {flagText t.mode.keys}, " ++
  s!"values: {flagText t.mode.values} \x7d \x7d"

end LuaData

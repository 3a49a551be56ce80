/-
Field access and calls as text.
-/
import LuaRecovery.Lua.Name
import LuaRecovery.Lua.Quote

namespace LuaRecovery.Lua

/-- The text of a field of `base`: with a dot for a literal key that is a name, and in
brackets for any other key. -/
def fieldAccess (base key : String) : String :=
  match unquote? key with
  | some name => if isName name then base ++ "." ++ name else base ++ "[" ++ key ++ "]"
  | none => base ++ "[" ++ key ++ "]"

/-- The text of a global: itself if it is a name, else a field of the global table. -/
def globalText (name : String) : String :=
  if isName name then name else "_G[" ++ quote name ++ "]"

/-- The text of a call. -/
def callText (callee : String) (args : List String) : String :=
  callee ++ "(" ++ Text.commaList args ++ ")"

end LuaRecovery.Lua

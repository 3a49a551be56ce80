/-
Listings.

The calls that leave the code and the reported strings are listed after the recovered
text, each list as comment lines under a heading.  An empty list has no heading.
-/
import LuaRecovery.Lua.Quote
import LuaRecovery.Report.Strings
import LuaRecovery.Scene.Basic

namespace LuaRecovery.Report

/-- Comment lines under a heading, or nothing. -/
def underHeading (heading : String) (lines : List String) : List String :=
  if lines.isEmpty then [] else ("-- " ++ heading ++ ":") :: lines.map ("--   " ++ ·)

/-- The line for a call. -/
def callLine (c : Scene.CallRecord) : String :=
  "[" ++ c.category ++ "] " ++ c.name ++ "(" ++ Text.commaList c.args ++ ")"

/-- The line for a reported string.  The preview is quoted, so it stays on one line. -/
def stringLine (r : StringReference) : String :=
  "[" ++ r.hint.getD "None" ++ "] " ++ Lua.quote r.value
    ++ " (length " ++ toString r.fullLength ++ ")"

/-- The listing of calls. -/
def callLines (calls : List Scene.CallRecord) : List String :=
  underHeading "Call graph" (calls.map callLine)

/-- The listing of strings. -/
def stringLines (references : List StringReference) : List String :=
  underHeading "String references" (references.map stringLine)

end LuaRecovery.Report

/-
String literals.

A string is written between double quotes.  The quote, the backslash and the three
usual control characters have short escapes; the other control characters are written
by code with exactly three digits, so that a digit after them is not taken for part of
the escape.
-/
import LuaRecovery.Text.Join

namespace LuaRecovery.Lua

/-- A character inside a string literal. -/
def escape (c : Char) : List Char :=
  if c = '\\' then ['\\', '\\']
  else if c = '"' then ['\\', '"']
  else if c = '\n' then ['\\', 'n']
  else if c = '\r' then ['\\', 'r']
  else if c = '\t' then ['\\', 't']
  else if c.toNat < 32 ∨ c.toNat = 127 then '\\' :: Text.zeroPadded 3 c.toNat
  else [c]

/-- The characters of the literal for a string. -/
def quoteChars (cs : List Char) : List Char := '"' :: (cs.flatMap escape ++ ['"'])

/-- The literal for a string. -/
def quote (s : String) : String := String.ofList (quoteChars s.toList)

/-- The characters with each `x` that a `y` follows, and that `y`, replaced by one `z`,
from left to right. -/
def collapse (x y z : Char) : List Char → List Char
  | c :: d :: rest =>
    if c = x ∧ d = y then z :: collapse x y z rest else c :: collapse x y z (d :: rest)
  | short => short

/-- What a text in double quotes stands for to the scene: the characters between the
quotes with escaped quotes, and then escaped backslashes, taken back.  `none` for a text
that is not in double quotes. -/
def unquoteChars? : List Char → Option (List Char)
  | '"' :: rest =>
    if rest.getLast? = some '"' then
      some (collapse '\\' '\\' '\\' (collapse '\\' '"' '"' rest.dropLast))
    else none
  | _ => none

/-- What a text in double quotes stands for to the scene. -/
def unquote? (s : String) : Option String := (unquoteChars? s.toList).map String.ofList

end LuaRecovery.Lua

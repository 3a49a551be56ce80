/-
Payloads in messages.

A message shows the payload it is about.  A text is put in single quotes, or in double
quotes if it has a single quote and no double one; the quote, the backslash and what
does not show are escaped.  Lists and objects show their elements in order.
-/
import LuaRecovery.Payload
import LuaRecovery.Decimal.Notation
import LuaRecovery.Text.Printable

namespace LuaRecovery.Payload

/-- The hexadecimal numeral of `n`, filled up with zeros to `width` places. -/
def hexPadded (width n : Nat) : List Char :=
  let ds := Nat.toDigits 16 n
  List.replicate (width - ds.length) '0' ++ ds

/-- The quote that encloses the characters: single, unless only the double one is free. -/
def enclosingQuote (cs : List Char) : Char :=
  if cs.contains '\'' && !cs.contains '"' then '"' else '\''

/-- An escape by code point, as short as the code point allows. -/
def codeEscape (n : Nat) : List Char :=
  if n < 0x100 then '\\' :: 'x' :: hexPadded 2 n
  else if n < 0x10000 then '\\' :: 'u' :: hexPadded 4 n
  else '\\' :: 'U' :: hexPadded 8 n

/-- A character between quotes. -/
def shownChar (quote c : Char) : List Char :=
  if c = quote ∨ c = '\\' then ['\\', c]
  else if c = '\n' then ['\\', 'n']
  else if c = '\r' then ['\\', 'r']
  else if c = '\t' then ['\\', 't']
  else if Text.isPrintable c then [c]
  else codeEscape c.toNat

/-- A text between quotes. -/
def shownText (s : String) : String :=
  let cs := s.toList
  let quote := enclosingQuote cs
  String.ofList (quote :: (cs.flatMap (shownChar quote) ++ [quote]))

/-- A byte between quotes; only ASCII characters show as themselves. -/
def shownByte (quote : Char) (b : UInt8) : List Char :=
  if b.toNat < 0x7F then shownChar quote (Char.ofNat b.toNat) else codeEscape b.toNat

/-- A byte string between quotes, marked with a `b`. -/
def shownBytes (bs : List UInt8) : String :=
  let quote := enclosingQuote (bs.map fun b => Char.ofNat b.toNat)
  String.ofList ('b' :: quote :: (bs.flatMap (shownByte quote) ++ [quote]))

mutual

/-- A payload as messages show it. -/
def display : Payload → String
  | null => "None"
  | bool b => if b then "True" else "False"
  | int n => toString n
  | float x => Decimal.write x
  | text s => shownText s
  | bytes bs => shownBytes bs
  | list items => "[" ++ Text.commaList (displayAll items) ++ "]"
  | object fields => "\x7b" ++ Text.commaList (displayFields fields) ++ "\x7d"

/-- The items of a list as messages show them. -/
def displayAll : List Payload → List String
  | [] => []
  | p :: rest => p.display :: displayAll rest

/-- The fields of an object as messages show them. -/
def displayFields : List (String × Payload) → List String
  | [] => []
  | (k, p) :: rest => (shownText k ++ ": " ++ p.display) :: displayFields rest

end

/-- A payload as a text: a text is itself, anything else as messages show it. -/
def asText : Payload → String
  | text s => s
  | p => p.display

end LuaRecovery.Payload

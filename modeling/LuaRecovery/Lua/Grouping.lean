/-
Parentheses around operands.

An operand is put in parentheses when its text has a space outside strings and outside
brackets: such a space only ever stands beside an operator.  The scan keeps the bracket
depth, which may fall below zero, the quote of the string it is in, and whether the
character before was a backslash in a string.
-/
namespace LuaRecovery.Lua

/-- What the scan of a text knows at a position. -/
structure Scan where
  depth : Int := 0
  quote : Option Char := none
  escaped : Bool := false
  deriving DecidableEq, Repr

namespace Scan

/-- The scan after one more character. -/
def step (s : Scan) (c : Char) : Scan :=
  match s.quote with
  | some q =>
    if s.escaped then { s with escaped := false }
    else if c = '\\' then { s with escaped := true }
    else if c = q then { s with quote := none }
    else s
  | none =>
    if c = '"' ∨ c = '\'' then { s with quote := some c }
    else if c = '(' ∨ c = '[' ∨ c = '\x7b' then { s with depth := s.depth + 1 }
    else if c = ')' ∨ c = ']' ∨ c = '\x7d' then { s with depth := s.depth - 1 }
    else s

/-- Whether a character is a space outside strings at depth zero. -/
def isGap (s : Scan) (c : Char) : Bool := s.quote.isNone && c == ' ' && s.depth == 0

/-- Whether the rest of the text has a gap. -/
def hasGap (s : Scan) : List Char → Bool
  | [] => false
  | c :: rest => s.isGap c || (s.step c).hasGap rest

end Scan

/-- Whether a text needs parentheses as an operand. -/
def needsParens (s : String) : Bool := Scan.hasGap {} s.toList

/-- A text as an operand. -/
def wrap (s : String) : String := if needsParens s then "(" ++ s ++ ")" else s

end LuaRecovery.Lua

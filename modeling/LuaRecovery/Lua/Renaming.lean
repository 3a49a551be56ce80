/-
Renaming identifiers.

A name in a text stands for a variable if it is no keyword and does not follow a dot or
a colon; blanks and comments between do not matter.  A renaming replaces such names and
leaves every other lexeme alone.  Of a proposed renaming the pairs count that go from a
name to another name.
-/
import LuaRecovery.Lua.Lexeme
import LuaRecovery.Payload

namespace LuaRecovery.Lua

/-- The lexemes, each with whether it is a name that stands for a variable.  `before` is
the last lexeme that was not silent. -/
def markVariables (before : List Char) : List Lexeme → List (Lexeme × Bool)
  | [] => []
  | l :: rest =>
    let stands := l.kind == .name && !isKeyword l.text && !(before == ['.']) && !(before == [':'])
    (l, stands) :: markVariables (if l.isSilent then before else l.chars) rest

/-- The lexemes of a text, each with whether it stands for a variable. -/
def markedLexemes (source : String) : List (Lexeme × Bool) :=
  markVariables [] (lexemes source.toList)

/-- How often each variable occurs, in order of first occurrence. -/
def occurrences (source : String) : Table String Nat :=
  (markedLexemes source).foldl (fun t (l, v) =>
    if v then t.insert l.text ((t.get? l.text).getD 0 + 1) else t) {}

/-- Whether a proposed pair comes before another: longer names first, then by the order of
characters. -/
def proposalLe (x y : String × Payload) : Bool :=
  if x.1.length = y.1.length then decide (x.1 < y.1) || x.1 == y.1
  else decide (y.1.length < x.1.length)

/-- The pair of names that a proposed pair gives, if it counts. -/
def acceptedPair? : String × Payload → Option (String × String)
  | (old, .text new) => if isName old && isName new && old != new then some (old, new) else none
  | _ => none

/-- The pairs of a proposal that count, in the order in which they are considered. -/
def accepted (proposal : List (String × Payload)) : List (String × String) :=
  (proposal.mergeSort proposalLe).filterMap acceptedPair?

/-- The text with its variables renamed. -/
def rename (source : String) (pairs : List (String × String)) : String :=
  if pairs.isEmpty then source
  else String.join ((markedLexemes source).map fun (l, v) =>
    if v then (pairs.lookup l.text).getD l.text else l.text)

end LuaRecovery.Lua

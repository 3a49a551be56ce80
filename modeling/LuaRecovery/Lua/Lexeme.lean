/-
Lexemes.

A Lua text is cut into lexemes: comments, strings, names, numbers, runs of blanks and
single signs.  Every character belongs to exactly one lexeme, so joining the lexemes
gives the text back.  The cut never fails: a quote or a bracket that starts nothing
complete is a sign of its own, and a long comment that does not end is a comment to the
end of its line.

Each reader below gets the characters after the first one of a lexeme and tells how
many of them belong to it.
-/
import LuaRecovery.Lua.Name
import LuaRecovery.Text.Blank

namespace LuaRecovery.Lua

/-- The kinds of lexemes. -/
inductive LexemeKind where
  | longComment | comment | longString | string | name | number | space | sign
  deriving DecidableEq, Repr

/-- A piece of a Lua text. -/
structure Lexeme where
  kind : LexemeKind
  chars : List Char
  deriving DecidableEq, Repr

/-- The number of leading characters that satisfy `p`. -/
def runLength (p : Char → Bool) (cs : List Char) : Nat := (cs.takeWhile p).length

/-- The number of characters up to the end of the first closing bracket of a level. -/
def closeLength? (level : Nat) : List Char → Option Nat
  | [] => none
  | c :: rest =>
    if c = ']' ∧ (List.replicate level '=' ++ [']']).isPrefixOf rest then some (level + 2)
    else (closeLength? level rest).map (· + 1)

/-- A long bracket after its first character: equals signs, a bracket, and all up to the
closing bracket of the same level. -/
def longBracketRest? (cs : List Char) : Option Nat :=
  let level := runLength (· == '=') cs
  match cs.drop level with
  | '[' :: body => (closeLength? level body).map (level + 1 + ·)
  | _ => none

/-- A string after its opening quote: up to the closing quote on the same line, where a
backslash takes the character after it along. -/
def stringRest? (quote : Char) : List Char → Option Nat
  | [] => none
  | '\\' :: rest => match rest with
    | [] => none
    | _ :: more => (stringRest? quote more).map (· + 2)
  | c :: rest =>
    if c = quote then some 1
    else if c = '\n' then none
    else (stringRest? quote rest).map (· + 1)

/-- A hexadecimal digit. -/
def isHexDigit (c : Char) : Bool :=
  c.isDigit || ('a' ≤ c && c ≤ 'f') || ('A' ≤ c && c ≤ 'F')

/-- The exponent of a number, nothing if it is not complete. -/
def exponentLength : List Char → Nat
  | [] => 0
  | e :: rest =>
    if e = 'e' ∨ e = 'E' then
      let sign := match rest with
        | c :: _ => if c = '+' ∨ c = '-' then 1 else 0
        | [] => 0
      let digits := runLength Char.isDigit (rest.drop sign)
      if digits = 0 then 0 else 1 + sign + digits
    else 0

/-- A decimal number after its first digit. -/
def decimalRest (cs : List Char) : Nat :=
  let whole := runLength Char.isDigit cs
  let fraction := match cs.drop whole with
    | '.' :: rest => 1 + runLength Char.isDigit rest
    | _ => 0
  whole + fraction + exponentLength (cs.drop (whole + fraction))

/-- A number after its first digit `c`. -/
def numberRest (c : Char) (cs : List Char) : Nat :=
  match cs with
  | x :: rest =>
    let digits := runLength isHexDigit rest
    if c = '0' ∧ (x = 'x' ∨ x = 'X') ∧ digits ≠ 0 then 1 + digits else decimalRest cs
  | [] => 0

/-- A comment after its first dash. -/
def commentRest? : List Char → Option (LexemeKind × Nat)
  | '-' :: rest =>
    let long := match rest with
      | '[' :: more => longBracketRest? more
      | _ => none
    match long with
    | some n => some (.longComment, 2 + n)
    | none => some (.comment, 1 + runLength (· != '\n') rest)
  | _ => none

/-- A sign after its first character: only dots come in twos and threes. -/
def signRest (c : Char) (cs : List Char) : Nat :=
  if c = '.' then match cs with
    | '.' :: '.' :: _ => 2
    | '.' :: _ => 1
    | _ => 0
  else 0

/-- The kind of the lexeme that starts with `c`, and how many characters after `c` belong
to it. -/
def lexemeAt (c : Char) (cs : List Char) : LexemeKind × Nat :=
  let comment := if c = '-' then commentRest? cs else none
  let long := if c = '[' then longBracketRest? cs else none
  let short := if c = '"' ∨ c = '\'' then stringRest? c cs else none
  match comment, long, short with
  | some found, _, _ => found
  | none, some n, _ => (.longString, n)
  | none, none, some n => (.string, n)
  | none, none, none =>
    if isNameStart c then (.name, runLength isNameChar cs)
    else if c.isDigit then (.number, numberRest c cs)
    else if Text.isBlank c then (.space, runLength Text.isBlank cs)
    else (.sign, signRest c cs)

/-- The lexemes of a text, in order. -/
def lexemes (cs : List Char) : List Lexeme :=
  match cs with
  | [] => []
  | c :: rest =>
    ⟨(lexemeAt c rest).1, c :: rest.take (lexemeAt c rest).2⟩
      :: lexemes (rest.drop (lexemeAt c rest).2)
termination_by cs.length
decreasing_by
  simp only [List.length_drop, List.length_cons]
  omega

namespace Lexeme

/-- The text of a lexeme. -/
def text (l : Lexeme) : String := String.ofList l.chars

/-- Whether a lexeme says nothing to the reader of the code: blanks and comments. -/
def isSilent (l : Lexeme) : Bool :=
  match l.kind with
  | .space | .comment | .longComment => true
  | _ => false

end Lexeme

end LuaRecovery.Lua

/-
Tokens.

The grammar reads a text as tokens, by the lexical rules of the language: blanks are
those of ASCII, a line ends at either line break, a numeral takes every digit, dot,
letter and underscore that follows and is then good or bad as a whole, and a comment, a
string or a character that is not complete or not of the language leaves the text
without tokens.  Lexemes (see `Lua.Lexeme`) are coarser and never fail; the two are used
for different things.

Each reader gets the characters after the first one of a token and tells how many of
them belong to it.
-/
import LuaRecovery.Lua.Lexeme

namespace LuaRecovery.Lua

/-- A token of the grammar. -/
inductive Token where
  | name
  | keyword (word : String)
  | number
  | string
  | sign (text : String)
  deriving DecidableEq, Repr

/-- A blank between tokens. -/
def isGapChar (c : Char) : Bool :=
  c == ' ' || c == '\t' || c == '\n' || c == '\r' || c == '\x0b' || c == '\x0c'

/-- A character that ends a line. -/
def isLineBreak (c : Char) : Bool := c == '\n' || c == '\r'

/-! ### Numerals -/

/-- The number of characters that a numeral takes: digits and dots, the mark of an exponent
with its sign, and all letters, digits and underscores after these. -/
def numeralLength (cs : List Char) : Nat :=
  let whole := runLength (fun c => c.isDigit || c == '.') cs
  let mark := match cs.drop whole with
    | e :: rest =>
      if e = 'e' ∨ e = 'E' then
        if rest.head? = some '+' ∨ rest.head? = some '-' then 2 else 1
      else 0
    | [] => 0
  whole + mark + runLength isNameChar (cs.drop (whole + mark))

/-- A list that is not empty and holds digits only. -/
def isDigits (cs : List Char) : Bool := !cs.isEmpty && cs.all Char.isDigit

/-- The exponent of a decimal numeral, which may be missing. -/
def isExponent : List Char → Bool
  | [] => true
  | e :: rest =>
    (e == 'e' || e == 'E') && match rest with
      | '+' :: digits => isDigits digits
      | '-' :: digits => isDigits digits
      | digits => isDigits digits

/-- A decimal numeral: digits around at most one dot, and perhaps an exponent. -/
def isDecimalNumeral (cs : List Char) : Bool :=
  let whole := cs.takeWhile Char.isDigit
  match cs.dropWhile Char.isDigit with
  | '.' :: rest =>
    (!whole.isEmpty || !(rest.takeWhile Char.isDigit).isEmpty)
      && isExponent (rest.dropWhile Char.isDigit)
  | rest => !whole.isEmpty && isExponent rest

/-- A numeral: decimal, or hexadecimal digits after their mark. -/
def isNumeral (cs : List Char) : Bool :=
  match cs with
  | '0' :: x :: digits =>
    if x = 'x' ∨ x = 'X' then !digits.isEmpty && digits.all isHexDigit else isDecimalNumeral cs
  | _ => isDecimalNumeral cs

/-! ### Strings and comments -/

/-- A string after its opening quote.  A backslash takes the character after it along, and
both characters of a line break of two. -/
def quotedRest? (quote : Char) : List Char → Option Nat
  | [] => none
  | '\\' :: '\r' :: '\n' :: rest => (quotedRest? quote rest).map (· + 3)
  | '\\' :: '\n' :: '\r' :: rest => (quotedRest? quote rest).map (· + 3)
  | '\\' :: rest => match rest with
    | [] => none
    | _ :: more => (quotedRest? quote more).map (· + 2)
  | c :: rest =>
    if c = quote then some 1
    else if isLineBreak c then none
    else (quotedRest? quote rest).map (· + 1)

/-- Whether a long bracket opens after a first bracket. -/
def opensLongBracket (cs : List Char) : Bool :=
  (cs.dropWhile (· == '=')).head? == some '['

/-- A comment after its two dashes. -/
def remarkRest? (cs : List Char) : Option Nat :=
  match cs with
  | '[' :: rest =>
    if opensLongBracket rest then (longBracketRest? rest).map (· + 1)
    else some (runLength (!isLineBreak ·) cs)
  | _ => some (runLength (!isLineBreak ·) cs)

/-! ### Signs -/

/-- The signs of the language, a sign before those that it starts with. -/
def signs : List String :=
  ["...", "..", "==", "~=", "<=", ">=", "+", "-", "*", "/", "%", "^", "#", "<", ">", "=", "(", ")",
    "\x7b", "\x7d", "[", "]", ";", ":", ",", "."]

/-- The longest sign at the start of a text. -/
def signAt? (cs : List Char) : Option String := signs.find? fun s => s.toList.isPrefixOf cs

/-! ### Reading -/

/-- What starts with `c`: a token, or nothing that counts, and how many characters after `c`
belong to it. -/
def tokenAt? (c : Char) (cs : List Char) : Option (Option Token × Nat) :=
  if isGapChar c then some (none, 0)
  else if c = '-' ∧ cs.head? = some '-' then (remarkRest? cs.tail).map fun n => (none, n + 1)
  else if c = '[' ∧ opensLongBracket cs then (longBracketRest? cs).map fun n => (some .string, n)
  else if c = '"' ∨ c = '\'' then (quotedRest? c cs).map fun n => (some .string, n)
  else if isNameStart c then
    let word := String.ofList (c :: cs.takeWhile isNameChar)
    some (some (if isKeyword word then .keyword word else .name), runLength isNameChar cs)
  else if c.isDigit ∨ (c = '.' ∧ cs.head?.any Char.isDigit) then
    let n := numeralLength (c :: cs)
    if isNumeral ((c :: cs).take n) then some (some .number, n - 1) else none
  else (signAt? (c :: cs)).map fun s => (some (.sign s), s.length - 1)

/-- The tokens of a text, unless some part of it is no token. -/
def tokens? (cs : List Char) : Option (List Token) :=
  match cs with
  | [] => some []
  | c :: rest =>
    match tokenAt? c rest with
    | none => none
    | some (token, n) => (tokens? (rest.drop n)).map (token.toList ++ ·)
termination_by cs.length
decreasing_by
  simp only [List.length_drop, List.length_cons]
  omega

end LuaRecovery.Lua

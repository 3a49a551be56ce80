/-
Names.

A bare name is a letter or underscore and then letters, digits and underscores, all of
ASCII, and is not a keyword.  The test lets one line break at the end through, and a
keyword with one counts as a name.  `sanitize` makes a name out of any text.
-/
namespace LuaRecovery.Lua

/-- The reserved words. -/
def keywords : List String :=
  ["and", "break", "do", "else", "elseif", "end", "false", "for", "function", "if", "in",
    "local", "nil", "not", "or", "repeat", "return", "then", "true", "until", "while"]

/-- Whether a text is a reserved word. -/
def isKeyword (s : String) : Bool := keywords.contains s

/-- A character that a name may start with. -/
def isNameStart (c : Char) : Bool := c.isAlpha || c == '_'

/-- A character that a name may have. -/
def isNameChar (c : Char) : Bool := c.isAlphanum || c == '_'

/-- Characters of a name, and perhaps one line break after them. -/
def isNameTail : List Char → Bool
  | [] => true
  | c :: rest => (c == '\n' && rest.isEmpty) || (isNameChar c && isNameTail rest)

/-- Whether a text is taken for a bare name. -/
def isName (s : String) : Bool :=
  match s.toList with
  | [] => false
  | c :: rest => isNameStart c && isNameTail rest && !isKeyword s

/-- The base that stands in where a text has no usable character. -/
def fallbackName : String := "var"

/-- The text without characters that names do not have and without leading digits, or the
fallback if nothing is left; a keyword gets an underscore. -/
def sanitizeWith (fallback s : String) : String :=
  let kept := (s.toList.filter isNameChar).dropWhile Char.isDigit
  let base := if kept.isEmpty then fallback else String.ofList kept
  if isKeyword base then base ++ "_" else base

/-- A name made out of any text. -/
def sanitize (s : String) : String := sanitizeWith fallbackName s

end LuaRecovery.Lua

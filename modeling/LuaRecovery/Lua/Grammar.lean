/-
The grammar of Lua 5.1.

A chunk is recognised on the tokens of a text by recursive descent.  Only acceptance
matters, so nothing is built, and the precedence of operators plays no part.  Each
recogniser takes the tokens that are left and gives those after what it recognised.  All
of them work with a fuel; every call that uses some up goes to a smaller part of the text
or to the next rule, so a fuel proportional to the number of tokens suffices.
-/
import LuaRecovery.Lua.Token

namespace LuaRecovery.Lua

/-! ### Recognisers for single tokens -/

/-- A given token. -/
def expect (t : Token) : List Token → Option (List Token)
  | u :: rest => if u = t then some rest else none
  | [] => none

/-- A given keyword. -/
def expectWord (word : String) : List Token → Option (List Token) := expect (.keyword word)

/-- A given sign. -/
def expectSign (text : String) : List Token → Option (List Token) := expect (.sign text)

/-- A keyword that ends a block, or the end of the text. -/
def endsBlock : List Token → Bool
  | [] => true
  | .keyword word :: _ => ["end", "else", "elseif", "until"].contains word
  | _ => false

/-- An operator before its operand. -/
def isUnary : Token → Bool
  | .keyword word => word == "not"
  | .sign text => text == "-" || text == "#"
  | _ => false

/-- An operator between its operands. -/
def isBinary : Token → Bool
  | .keyword word => word == "and" || word == "or"
  | .sign text =>
    ["+", "-", "*", "/", "%", "^", "..", "==", "~=", "<", "<=", ">", ">="].contains text
  | _ => false

/-- The rest of a list of names after its first one. -/
def moreNames : List Token → List Token
  | .sign "," :: .name :: rest => moreNames rest
  | rest => rest

/-- The rest of a function name: fields after dots, and perhaps a method after a colon. -/
def functionNameRest : List Token → List Token
  | .sign "." :: .name :: rest => functionNameRest rest
  | .sign ":" :: .name :: rest => rest
  | rest => rest

/-- The parameters of a function after the opening parenthesis. -/
def params : List Token → Option (List Token)
  | .sign ")" :: rest => some rest
  | .sign "..." :: .sign ")" :: rest => some rest
  | .name :: .sign ")" :: rest => some rest
  | .name :: .sign "," :: rest => if rest.head? = some (.sign ")") then none else params rest
  | _ => none

/-- What a prefix expression is, which decides what it may stand for as a statement. -/
inductive Shape where
  | variable | call | group
  deriving DecidableEq, Repr

/-! ### The grammar -/

mutual

/-- A block, up to what ends it. -/
def block : Nat → List Token → Option (List Token)
  | 0, _ => none
  | fuel + 1, ts =>
    if endsBlock ts then some ts
    else match ts with
      | .keyword "return" :: rest => do
        let rest ← if endsBlock rest || rest.head? == some (.sign ";") then some rest
          else expressions fuel rest
        let rest := (expectSign ";" rest).getD rest
        if endsBlock rest then some rest else none
      | _ => do
        let rest ← statement fuel ts
        block fuel ((expectSign ";" rest).getD rest)

/-- A block and the keyword that ends it. -/
def blockUntil (word : String) : Nat → List Token → Option (List Token)
  | 0, _ => none
  | fuel + 1, ts => do expectWord word (← block fuel ts)

/-- The rest of a conditional after the block of a condition. -/
def elseParts : Nat → List Token → Option (List Token)
  | 0, _ => none
  | fuel + 1, ts =>
    match ts with
    | .keyword "elseif" :: rest => do
      let rest ← expectWord "then" (← expression fuel rest)
      elseParts fuel (← block fuel rest)
    | .keyword "else" :: rest => blockUntil "end" fuel rest
    | rest => expectWord "end" rest

/-- A statement. -/
def statement : Nat → List Token → Option (List Token)
  | 0, _ => none
  | fuel + 1, ts =>
    match ts with
    | .keyword "if" :: rest => do
      let rest ← expectWord "then" (← expression fuel rest)
      elseParts fuel (← block fuel rest)
    | .keyword "while" :: rest => do
      let rest ← expectWord "do" (← expression fuel rest)
      blockUntil "end" fuel rest
    | .keyword "do" :: rest => blockUntil "end" fuel rest
    | .keyword "repeat" :: rest => do
      expression fuel (← blockUntil "until" fuel rest)
    | .keyword "for" :: .name :: .sign "=" :: rest => do
      let rest ← expectSign "," (← expression fuel rest)
      let rest ← expression fuel rest
      let rest ← match expectSign "," rest with
        | some more => expression fuel more
        | none => some rest
      blockUntil "end" fuel (← expectWord "do" rest)
    | .keyword "for" :: .name :: rest => do
      let rest ← expectWord "in" (moreNames rest)
      let rest ← expressions fuel rest
      blockUntil "end" fuel (← expectWord "do" rest)
    | .keyword "function" :: .name :: rest => functionBody fuel (functionNameRest rest)
    | .keyword "local" :: .keyword "function" :: .name :: rest => functionBody fuel rest
    | .keyword "local" :: .name :: rest =>
      let rest := moreNames rest
      match expectSign "=" rest with
      | some more => expressions fuel more
      | none => some rest
    | .keyword "break" :: rest => some rest
    | .keyword _ :: _ => none
    | rest => do
      let (shape, rest) ← prefixed fuel rest
      match shape, rest with
      | .call, .sign "=" :: _ => none
      | .call, .sign "," :: _ => none
      | .call, rest => some rest
      | .variable, rest => assignment fuel rest
      | .group, _ => none

/-- The rest of an assignment after its first target. -/
def assignment : Nat → List Token → Option (List Token)
  | 0, _ => none
  | fuel + 1, ts =>
    match ts with
    | .sign "=" :: rest => expressions fuel rest
    | .sign "," :: rest => do
      let (shape, rest) ← prefixed fuel rest
      if shape = .variable then assignment fuel rest else none
    | _ => none

/-- Parameters and body of a function. -/
def functionBody : Nat → List Token → Option (List Token)
  | 0, _ => none
  | fuel + 1, ts => do blockUntil "end" fuel (← params (← expectSign "(" ts))

/-- Expressions with commas between. -/
def expressions : Nat → List Token → Option (List Token)
  | 0, _ => none
  | fuel + 1, ts => do
    let rest ← expression fuel ts
    match rest with
    | .sign "," :: more => expressions fuel more
    | _ => some rest

/-- An expression. -/
def expression : Nat → List Token → Option (List Token)
  | 0, _ => none
  | fuel + 1, ts =>
    match ts with
    | [] => none
    | t :: more =>
      if isUnary t then expression fuel more
      else do
        let rest ← operand fuel (t :: more)
        match rest with
        | [] => some []
        | u :: after => if isBinary u then expression fuel after else some rest

/-- An operand. -/
def operand : Nat → List Token → Option (List Token)
  | 0, _ => none
  | fuel + 1, ts =>
    match ts with
    | .number :: rest => some rest
    | .string :: rest => some rest
    | .sign "..." :: rest => some rest
    | .keyword "function" :: rest => functionBody fuel rest
    | .keyword word :: rest => if ["nil", "true", "false"].contains word then some rest else none
    | .sign "\x7b" :: rest => fields fuel rest
    | rest => (prefixed fuel rest).map (·.2)

/-- A name or an expression in parentheses, and what follows it: fields, and calls. -/
def prefixed : Nat → List Token → Option (Shape × List Token)
  | 0, _ => none
  | fuel + 1, ts =>
    match ts with
    | .name :: rest => suffixes fuel .variable rest
    | .sign "(" :: rest => do
      suffixes fuel .group (← expectSign ")" (← expression fuel rest))
    | _ => none

/-- The fields and calls after a prefix expression. -/
def suffixes : Nat → Shape → List Token → Option (Shape × List Token)
  | 0, _, _ => none
  | fuel + 1, shape, ts =>
    match ts with
    | .sign "." :: rest => do suffixes fuel .variable (← expect .name rest)
    | .sign "[" :: rest => do
      suffixes fuel .variable (← expectSign "]" (← expression fuel rest))
    | .sign ":" :: .name :: rest => do suffixes fuel .call (← arguments fuel rest)
    | .sign ":" :: _ => none
    | .sign "(" :: _ => do suffixes fuel .call (← arguments fuel ts)
    | .sign "\x7b" :: _ => do suffixes fuel .call (← arguments fuel ts)
    | .string :: _ => do suffixes fuel .call (← arguments fuel ts)
    | _ => some (shape, ts)

/-- The arguments of a call. -/
def arguments : Nat → List Token → Option (List Token)
  | 0, _ => none
  | fuel + 1, ts =>
    match ts with
    | .sign "(" :: .sign ")" :: rest => some rest
    | .sign "(" :: rest => do expectSign ")" (← expressions fuel rest)
    | .sign "\x7b" :: rest => fields fuel rest
    | .string :: rest => some rest
    | _ => none

/-- The fields of a table after its opening brace. -/
def fields : Nat → List Token → Option (List Token)
  | 0, _ => none
  | fuel + 1, ts =>
    match ts with
    | .sign "\x7d" :: rest => some rest
    | _ => do
      let rest ← match ts with
        | .sign "[" :: more => do
          let more ← expectSign "]" (← expression fuel more)
          expression fuel (← expectSign "=" more)
        | .name :: .sign "=" :: more => expression fuel more
        | _ => expression fuel ts
      match rest with
      | .sign "," :: more => fields fuel more
      | .sign ";" :: more => fields fuel more
      | more => expectSign "\x7d" more

end

/-- Whether a text is a chunk of Lua. -/
def isChunk (source : String) : Bool :=
  match tokens? source.toList with
  | none => false
  | some ts => block (8 * ts.length + 8) ts == some []

end LuaRecovery.Lua

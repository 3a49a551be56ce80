/-
Reading a float from a text.

A numeral has an optional sign, then digits with an optional point and an optional
exponent, or one of the words `inf`, `infinity` and `nan` in any case.  Blanks around
it are ignored, and a single underscore may stand between two digits.  Digits of any
script are taken.  The value is the nearest float; past the largest float it is
infinite.
-/
import LuaRecovery.Binary64
import LuaRecovery.Text.Blank
import LuaRecovery.Text.Digit

namespace LuaRecovery.Decimal

/-- Blanks that may stand around a numeral: all but the information separators. -/
def isMargin (c : Char) : Bool :=
  Text.isBlank c && !(0x1C ≤ c.toNat && c.toNat ≤ 0x1F)

/-- The character with a decimal digit of any script turned into the digit 0 to 9. -/
def plainDigit (c : Char) : Char :=
  match Text.digitValue? c with
  | some d => Char.ofNat ('0'.toNat + d)
  | none => c

/-- The characters without the underscores that stand between two digits; `none` if an
underscore stands elsewhere.  `afterDigit` says whether the character before was a digit. -/
def dropUnderscores (afterDigit : Bool) : List Char → Option (List Char)
  | [] => some []
  | '_' :: c :: rest =>
    if afterDigit && c.isDigit then (dropUnderscores true rest).map (c :: ·) else none
  | c :: rest =>
    if c = '_' then none else (dropUnderscores c.isDigit rest).map (c :: ·)

/-- The number that a run of the digits 0 to 9 writes, continuing from `start`. -/
def digitsFrom (start : Nat) (ds : List Char) : Nat :=
  Text.valueFrom start (ds.map fun c => c.toNat - '0'.toNat)

/-- A sign, if there is one, and what follows it. -/
def splitSign : List Char → Bool × List Char
  | '-' :: rest => (true, rest)
  | '+' :: rest => (false, rest)
  | rest => (false, rest)

/-- The exponent part, which may be absent. -/
def readExponent? : List Char → Option Int
  | [] => some 0
  | c :: rest =>
    let (negative, ds) := splitSign rest
    if (c = 'e' ∨ c = 'E') ∧ ds ≠ [] ∧ ds.all Char.isDigit then
      some (if negative then -(digitsFrom 0 ds : Int) else digitsFrom 0 ds)
    else none

/-- A decimal numeral without sign: its digits as one number and the power of ten. -/
def readDecimal? (cs : List Char) : Option (Nat × Int) :=
  let whole := cs.takeWhile Char.isDigit
  let rest := cs.dropWhile Char.isDigit
  let (fraction, rest) := match rest with
    | '.' :: r => (r.takeWhile Char.isDigit, r.dropWhile Char.isDigit)
    | r => ([], r)
  if whole = [] ∧ fraction = [] then none
  else (readExponent? rest).map fun e =>
    (digitsFrom (digitsFrom 0 whole) fraction, e - fraction.length)

/-- The float nearest to `digits * 10 ^ exponent`.  The digit count bounds the magnitude,
so an exponent far out of range is settled without building the power. -/
def toFloat (negative : Bool) (digits : Nat) (exponent : Int) : Float :=
  let size : Int := exponent + (Nat.toDigits 10 digits).length
  if digits = 0 ∨ size < -400 then Binary64.ofRatio negative 0 1
  else if 400 < size then Binary64.ofRatio negative (Nat.pow 2 1024) 1
  else
    Binary64.ofRatio negative (digits * Nat.pow 10 exponent.toNat) (Nat.pow 10 (-exponent).toNat)

/-- The float that a word names. -/
def readWord? (negative : Bool) (cs : List Char) : Option Float :=
  let word := String.ofList (cs.map Char.toLower)
  if word = "inf" ∨ word = "infinity" then some (Binary64.ofRatio negative (Nat.pow 2 1024) 1)
  else if word = "nan" then some (0.0 / 0.0)
  else none

/-- The float that a list of characters writes. -/
def readChars? (cs : List Char) : Option Float :=
  let inner := Text.dropEndWhile isMargin (cs.dropWhile isMargin)
  match dropUnderscores false (inner.map plainDigit) with
  | none => none
  | some plain =>
    let (negative, body) := splitSign plain
    match readDecimal? body with
    | some (digits, exponent) => some (toFloat negative digits exponent)
    | none => readWord? negative body

/-- The float that a text writes. -/
def read? (s : String) : Option Float := readChars? s.toList

end LuaRecovery.Decimal

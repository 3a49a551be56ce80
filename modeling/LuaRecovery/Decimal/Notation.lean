/-
Writing a float as a decimal.

The digits are the shortest that read back.  They are written positionally when the
exponent of the first digit is from -4 to 15, with at least one digit after the
point, and otherwise with an exponent of a sign and at least two digits.
-/
import LuaRecovery.Decimal.Shortest
import LuaRecovery.Text.Join

namespace LuaRecovery.Decimal

/-- The exponents of the first digit for which a number is written positionally. -/
def isPositional (leading : Int) : Bool := -4 ≤ leading && leading < 16

/-- The digits with a point before the one whose exponent is -1; a point at an end has a
zero beside it. -/
def positional (ds : List Char) (leading : Int) : List Char :=
  if leading < 0 then
    '0' :: '.' :: (List.replicate (-leading - 1).toNat '0' ++ ds)
  else
    let whole := leading.toNat + 1
    if ds.length ≤ whole then ds ++ List.replicate (whole - ds.length) '0' ++ ['.', '0']
    else ds.take whole ++ '.' :: ds.drop whole

/-- One digit, a point and the others if there are any, then the exponent. -/
def scientific (ds : List Char) (leading : Int) : List Char :=
  let mantissa := match ds with
    | d :: e :: rest => d :: '.' :: e :: rest
    | short => short
  let sign := if leading < 0 then '-' else '+'
  mantissa ++ 'e' :: sign :: Text.zeroPadded 2 leading.natAbs

/-- The text of a positive decimal. -/
def text (x : Decimal) : List Char :=
  let ds := Nat.toDigits 10 x.digits
  let leading := x.exponent + ds.length - 1
  if isPositional leading then positional ds leading else scientific ds leading

/-- The text of a float: `nan`, `inf` and `-inf`, or the shortest decimal. -/
def write (x : Float) : String :=
  match Binary64.decode x with
  | none =>
    if x.isNaN then "nan" else if Binary64.isNegative x then "-inf" else "inf"
  | some f =>
    let digits := if f.mantissa = 0 then ['0', '.', '0'] else (shortest f.mantissa f.exponent).text
    String.ofList (if f.negative then '-' :: digits else digits)

end LuaRecovery.Decimal

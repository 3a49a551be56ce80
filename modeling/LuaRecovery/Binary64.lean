/-
The numbers of a 64-bit float, exactly.

A finite float is a sign and a magnitude `mantissa * 2 ^ exponent`; `decode` reads
the two from its bits.  In the other direction `ofRatio` takes any ratio of naturals
to the nearest float, and a ratio half way between two floats to the one with the
even mantissa.  Both work on naturals only, so reading and writing decimals (see
`Decimal`) needs no inexact step.
-/
namespace LuaRecovery.Binary64

/-- A finite float: the sign, and the magnitude `mantissa * 2 ^ exponent`. -/
structure Finite where
  negative : Bool
  mantissa : Nat
  exponent : Int

/-- The unit of the exponent field: the bits below it are the fraction. -/
def fieldUnit : Nat := Nat.pow 2 52

/-- The sign bit. -/
def signUnit : Nat := Nat.pow 2 63

/-- The smallest exponent, that of the subnormal floats. -/
def minExponent : Int := -1074

/-- The bits of positive infinity; smaller bit patterns are the finite magnitudes in
increasing order. -/
def infinityBits : Nat := 0x7FF * fieldUnit

/-- The sign bit of a float. -/
def isNegative (x : Float) : Bool := signUnit ≤ x.toBits.toNat

/-- The sign and the magnitude of a finite float; `none` for an infinity or not a number. -/
def decode (x : Float) : Option Finite :=
  let bits := x.toBits.toNat
  let field := bits / fieldUnit % 0x800
  let fraction := bits % fieldUnit
  if field = 0x7FF then none
  else if field = 0 then some ⟨isNegative x, fraction, minExponent⟩
  else some ⟨isNegative x, fraction + fieldUnit, minExponent + (field - 1 : Nat)⟩

/-- The integer nearest to `num / den`, a half going to the even neighbour. -/
def roundHalfEven (num den : Nat) : Nat :=
  let q := num / den
  let r := num % den
  if den < 2 * r ∨ (2 * r = den ∧ q % 2 = 1) then q + 1 else q

/-- The ratio `num / den / 2 ^ e` as a pair of naturals. -/
def scaled (num den : Nat) (e : Int) : Nat × Nat :=
  if 0 ≤ e then (num, den * Nat.pow 2 e.toNat) else (num * Nat.pow 2 (-e).toNat, den)

/-- The exponent at which the mantissa of `num / den` has 53 bits, or the smallest one. -/
def exponentOf (num den : Nat) : Int :=
  let guess : Int := (num.log2 : Int) - den.log2 - 52
  let (n, d) := scaled num den guess
  max minExponent (if n < d * fieldUnit then guess - 1 else guess)

/-- The bits of the float nearest to `num / den`, at most those of infinity.  A mantissa
that rounds up to the next power of two carries into the exponent field by itself. -/
def ratioBits (num den : Nat) : Nat :=
  if num = 0 then 0
  else
    let e := exponentOf num den
    let (n, d) := scaled num den e
    min infinityBits ((e - minExponent).toNat * fieldUnit + roundHalfEven n d)

/-- The float nearest to `num / den` with the given sign; infinity past the largest. -/
def ofRatio (negative : Bool) (num den : Nat) : Float :=
  Float.ofBits (UInt64.ofNat (ratioBits num den + if negative then signUnit else 0))

/-- The float nearest to an integer, unless that is past the largest float. -/
def ofInt? (n : Int) : Option Float :=
  if ratioBits n.natAbs 1 < infinityBits then some (ofRatio (decide (n < 0)) n.natAbs 1) else none

/-- The float nearest to the quotient of two integers, unless that is past the largest
float.  Also a quotient of zero has the sign of the division. -/
def ofQuotient? (m n : Int) : Option Float :=
  if ratioBits m.natAbs n.natAbs < infinityBits then
    some (ofRatio (decide (m < 0) != decide (n < 0)) m.natAbs n.natAbs)
  else none

namespace Finite

/-- The mantissa with its sign. -/
def signed (x : Finite) : Int := if x.negative then -(x.mantissa : Int) else x.mantissa

/-- The power of two that multiplies the mantissa, or divides it if the exponent is
negative. -/
def scale (x : Finite) : Nat := Nat.pow 2 x.exponent.natAbs

/-- The integer that a finite float is, if it is one. -/
def toInt? (x : Finite) : Option Int :=
  if 0 ≤ x.exponent then some (x.signed * x.scale)
  else if x.mantissa % x.scale = 0 then some (x.signed / x.scale)
  else none

/-- The largest integer that is not above a finite float. -/
def floor (x : Finite) : Int :=
  if 0 ≤ x.exponent then x.signed * x.scale else x.signed / x.scale

/-- An integer compared with a finite float. -/
def compareInt (m : Int) (x : Finite) : Ordering :=
  if 0 ≤ x.exponent then compare m (x.signed * x.scale) else compare (m * x.scale) x.signed

end Finite

/-- The largest integer that is not above a float; `none` for an infinity or not a number. -/
def floor? (x : Float) : Option Int := (decode x).map Finite.floor

end LuaRecovery.Binary64

/-
The shortest decimal that reads back.

A float stands for every real that rounds to it.  Those reals form an interval
around it, whose ends belong to it exactly when its mantissa is even.  Among the
decimals in the interval the written one has the fewest digits, and among those it
is the nearest to the float.

On the grid of multiples of `10 ^ k` it is enough to look at the two neighbours of
the float: if any point of the grid lies in the interval then one of these does.
Grids are tried from one digit up; seventeen digits always suffice.
-/
import LuaRecovery.Binary64

namespace LuaRecovery

/-- The positive decimal `digits * 10 ^ exponent`. -/
structure Decimal where
  digits : Nat
  exponent : Int

namespace Decimal

/-- A positive float with the interval that rounds to it, in quarters of its last place:
`value`, `low` and `high` stand for `4 * mantissa` and the ends, times
`2 ^ (exponent - 2)`. -/
structure Interval where
  value : Nat
  low : Nat
  high : Nat
  closed : Bool
  exponent : Int

/-- The interval of reals that round to `mantissa * 2 ^ exponent`.  Below a power of two
the floats are twice as dense, so the lower end is nearer there. -/
def interval (mantissa : Nat) (exponent : Int) : Interval where
  value := 4 * mantissa
  low := if mantissa = Binary64.fieldUnit ∧ Binary64.minExponent < exponent then 4 * mantissa - 1
    else 4 * mantissa - 2
  high := 4 * mantissa + 2
  closed := mantissa % 2 = 0
  exponent := exponent - 2

/-- The factors `(a, b)` with `2 ^ e / 10 ^ k = a / b`. -/
def gridRatio (e k : Int) : Nat × Nat :=
  (Nat.pow 2 e.toNat * Nat.pow 10 (-k).toNat, Nat.pow 2 (-e).toNat * Nat.pow 10 k.toNat)

/-- Whether `j * 10 ^ k` lies in the interval, where `a / b = 2 ^ i.exponent / 10 ^ k`. -/
def Interval.has (i : Interval) (a b j : Nat) : Bool :=
  if i.closed then i.low * a ≤ j * b && j * b ≤ i.high * a
  else i.low * a < j * b && j * b < i.high * a

/-- The point of the grid of `10 ^ k` in the interval that is nearest to the float; of
two that are equally near, the even one. -/
def Interval.onGrid? (i : Interval) (k : Int) : Option Nat :=
  let (a, b) := gridRatio i.exponent k
  let j := i.value * a / b
  let below := i.value * a - j * b
  let above := (j + 1) * b - i.value * a
  match i.has a b j, i.has a b (j + 1) with
  | true, false => some j
  | false, true => some (j + 1)
  | true, true =>
    if below < above ∨ (below = above ∧ j % 2 = 0) then some j else some (j + 1)
  | false, false => none

/-- The decimal exponent of the first digit of a positive float.  The smallest float is
above `10 ^ -324`, so scaling by `10 ^ 350` keeps every digit count positive. -/
def Interval.leading (i : Interval) : Int :=
  let (a, b) := gridRatio i.exponent (-350)
  ((Nat.toDigits 10 (i.value * a / b)).length : Int) - 351

/-- The decimal without zeros at the end of its digits. -/
def stripZeros : Nat → Decimal → Decimal
  | 0, x => x
  | fuel + 1, x =>
    if x.digits % 10 = 0 ∧ x.digits ≠ 0 then stripZeros fuel ⟨x.digits / 10, x.exponent + 1⟩
    else x

/-- The first grid, from `count` digits on, with a point in the interval. -/
def Interval.search (i : Interval) (leading : Int) : Nat → Nat → Decimal
  | 0, _ => ⟨0, 0⟩
  | fuel + 1, count =>
    let k := leading + 1 - count
    match i.onGrid? k with
    | some j => stripZeros 20 ⟨j, k⟩
    | none => i.search leading fuel (count + 1)

/-- The shortest decimal that reads back as `mantissa * 2 ^ exponent`, which is positive. -/
def shortest (mantissa : Nat) (exponent : Int) : Decimal :=
  let i := interval mantissa exponent
  i.search i.leading 17 1

end Decimal

end LuaRecovery

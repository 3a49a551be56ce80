/-
Numbers as they are given.

A number that comes from outside is an integer of any size or a float.  Operations on
two integers are exact, except that a quotient is the nearest float; any other operation
is one of floats, to which an integer has to be converted first.  An integer past the
largest float cannot be, and then there is no result.  Comparisons are exact throughout.

On two floats everything is as for the floats alone (`onNumbers?_float`, `between_float`).
-/
import LuaRecovery.Arith

namespace LuaRecovery

/-- An integer or a float. -/
inductive Number where
  | int (n : Int)
  | float (x : Float)

namespace Number

/-- The nearest float, unless that is past the largest. -/
def toFloat? : Number → Option Float
  | int n => Binary64.ofInt? n
  | float x => some x

/-- Whether a number is zero of either sign. -/
def isZero : Number → Bool
  | int n => n == 0
  | float x => x == 0.0

/-! ### Operations -/

/-- An operation on floats, after conversion. -/
def onFloats (f : Float → Float → Float) (x y : Number) : Option Number := do
  return float (f (← x.toFloat?) (← y.toFloat?))

/-- An operation that is exact on integers. -/
def onBoth (f : Int → Int → Int) (g : Float → Float → Float) : Number → Number → Option Number
  | int m, int n => some (int (f m n))
  | x, y => onFloats g x y

/-- The quotient by a number other than zero. -/
def quotient? : Number → Number → Option Float
  | int m, int n => Binary64.ofQuotient? m n
  | x, y => do return (← x.toFloat?) / (← y.toFloat?)

/-- The power of an integer.  If the base is not one of -1, 0 and 1, all exponents past
1024 give a result past the largest float, so they need not be told apart. -/
def intPower (m : Int) (n : Nat) : Int :=
  if 2 ≤ m.natAbs then Int.pow m (min n 1025)
  else if n = 0 then 1
  else if n % 2 = 0 then m * m
  else m

/-- A power.  A negative exponent makes it one of floats. -/
def power? : Number → Number → Option Number
  | int m, int n =>
    if 0 ≤ n then some (int (intPower m n.toNat)) else onFloats Float.pow (int m) (int n)
  | x, y => onFloats Float.pow x y

/-- The remainder of a division whose quotient is rounded down to an integer. -/
def remainder? (x y : Number) : Option Number :=
  if y.isZero then some (float 0.0)
  else do
    let k ← Binary64.floor? (← x.quotient? y)
    let p ← onBoth (· * ·) (· * ·) (int k) y
    onBoth (· - ·) (· - ·) x p

end Number

/-- The result of an operation on numbers; `none` if there is none. -/
def ArithOp.onNumbers? (op : ArithOp) (x y : Number) : Option Number :=
  match op with
  | add => Number.onBoth (· + ·) (· + ·) x y
  | sub => Number.onBoth (· - ·) (· - ·) x y
  | mul => Number.onBoth (· * ·) (· * ·) x y
  | div => if y.isZero then some (.float 0.0) else (x.quotient? y).map .float
  | mod => x.remainder? y
  | pow => x.power? y

/-! ### Comparisons -/

/-- The order of an integer and a float; not a number has none. -/
def Number.intOrder (m : Int) (y : Float) : Option Ordering :=
  match Binary64.decode y with
  | some f => some (f.compareInt m)
  | none => if y.isNaN then none else some (if 0.0 < y then .lt else .gt)

/-- Whether two numbers compare so. -/
def Relation.between (r : Relation) : Number → Number → Bool
  | .int m, .int n => r.fits (some (compare m n))
  | .int m, .float y => r.fits (Number.intOrder m y)
  | .float x, .int n => r.fits ((Number.intOrder n x).map Ordering.swap)
  | .float x, .float y => r.holds x y

/-! ### Floats alone -/

/-- On two floats an operation is that of floats. -/
theorem ArithOp.onNumbers?_float (op : ArithOp) (x y : Float) :
    op.onNumbers? (.float x) (.float y) = (op.carryOut? x y).map .float := by
  cases op with
  | add => rfl
  | sub => rfl
  | mul => rfl
  | pow => rfl
  | div =>
    by_cases h : (y == 0.0) = true
    · simp [onNumbers?, carryOut?, Number.isZero, h]
    · simp [onNumbers?, carryOut?, Number.isZero, Number.quotient?, Number.toFloat?, h]
  | mod =>
    by_cases h : (y == 0.0) = true
    · simp [onNumbers?, carryOut?, remainder?, Number.remainder?, Number.isZero, h]
    · cases hk : Binary64.floor? (x / y) with
      | none =>
        simp [onNumbers?, carryOut?, remainder?, Number.remainder?, Number.isZero,
          Number.quotient?, Number.toFloat?, h, hk]
      | some k =>
        cases hq : Binary64.ofInt? k <;>
          simp [onNumbers?, carryOut?, remainder?, Number.remainder?, Number.isZero,
            Number.quotient?, Number.toFloat?, Number.onBoth, Number.onFloats, h, hk, hq]

/-- On two floats a comparison is that of floats. -/
theorem Relation.between_float (r : Relation) (x y : Float) :
    r.between (.float x) (.float y) = r.holds x y := rfl

end LuaRecovery

/-
Number literals.

An integral number below `10 ^ 15` is written as an integer, zero without a sign; other
numbers with the shortest decimal that reads back.  Lua has no literal for the three
numbers that are not finite, so an expression stands for each.
-/
import LuaRecovery.Decimal.Notation

namespace LuaRecovery.Lua

/-- The bound below which integral numbers are written as integers. -/
def integerBound : Nat := Nat.pow 10 15

/-- The text of a number. -/
def numberText (x : Float) : String :=
  match Binary64.decode x with
  | none =>
    if x.isNaN then "(0/0)" else if Binary64.isNegative x then "-math.huge" else "math.huge"
  | some f => match f.toInt? with
    | some n => if n.natAbs < integerBound then toString n else Decimal.write x
    | none => Decimal.write x

end LuaRecovery.Lua

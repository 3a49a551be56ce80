/-
Operators.

The arithmetic operators and the comparisons, with the signs they are written with and
what they do to floats.  Division and remainder by zero give zero.
-/
import LuaRecovery.Binary64

namespace LuaRecovery

/-- The arithmetic operators. -/
inductive ArithOp where
  | add | sub | mul | div | mod | pow
  deriving DecidableEq, Repr

/-- The comparisons. -/
inductive Relation where
  | eq | ne | lt | le
  deriving DecidableEq, Repr

namespace ArithOp

/-- The sign of an operator. -/
def sign : ArithOp → String
  | add => "+"
  | sub => "-"
  | mul => "*"
  | div => "/"
  | mod => "%"
  | pow => "^"

/-- The operator with a given sign. -/
def ofSign? (s : String) : Option ArithOp :=
  [add, sub, mul, div, mod, pow].find? fun op => op.sign == s

/-- The remainder of a division whose quotient is rounded down to an integer; `none` if the
quotient has no integer below it. -/
def remainder? (x y : Float) : Option Float :=
  if y == 0.0 then some 0.0
  else do
    let k ← Binary64.floor? (x / y)
    let q ← Binary64.ofInt? k
    return x - q * y

/-- The result of an operation on floats. -/
def carryOut? (op : ArithOp) (x y : Float) : Option Float :=
  match op with
  | add => some (x + y)
  | sub => some (x - y)
  | mul => some (x * y)
  | div => some (if y == 0.0 then 0.0 else x / y)
  | mod => remainder? x y
  | pow => some (x.pow y)

end ArithOp

namespace Relation

/-- The sign of a comparison. -/
def sign : Relation → String
  | eq => "=="
  | ne => "~="
  | lt => "<"
  | le => "<="

/-- The comparison with a given sign. -/
def ofSign? (s : String) : Option Relation :=
  [eq, ne, lt, le].find? fun r => r.sign == s

/-- Whether two floats compare so. -/
def holds (r : Relation) (x y : Float) : Bool :=
  match r with
  | eq => x == y
  | ne => x != y
  | lt => x < y
  | le => x ≤ y

/-- Whether two numbers in a given order compare so.  Numbers without an order are only
unequal. -/
def fits (r : Relation) (order : Option Ordering) : Bool :=
  match r with
  | eq => order == some .eq
  | ne => order != some .eq
  | lt => order == some .lt
  | le => order == some .lt || order == some .eq

end Relation

end LuaRecovery

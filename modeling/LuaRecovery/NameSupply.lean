/-
A supply of names.

Asking for a name with a hint gives the sanitized hint, or that with a number from two
up after an underscore.  The numbers for one base only grow, and a name that was
handed out or reserved is not handed out again.  Among the next `used.length + 1`
numbers there is always a free one, because their candidates are different names.
-/
import LuaRecovery.Lua.Name
import LuaRecovery.Table

namespace LuaRecovery

/-- The names in use, and for each base the number last tried. -/
structure NameSupply where
  counters : Table String Nat := {}
  used : List String := []

namespace NameSupply

/-- The candidate with number `k`: the base itself is number one. -/
def candidate (base : String) (k : Nat) : String :=
  if k = 1 then base else base ++ "_" ++ toString k

/-- The first number after `start`, among the next `fuel` ones, whose candidate is free;
the last one tried if none is. -/
def firstFree (used : List String) (base : String) (start : Nat) : Nat → Nat
  | 0 => start
  | fuel + 1 =>
    if used.contains (candidate base (start + 1)) then firstFree used base (start + 1) fuel
    else start + 1

/-- A name for a hint that is not in use, and the supply in which it is. -/
def unique (s : NameSupply) (hint : String) : String × NameSupply :=
  let base := Lua.sanitize hint
  let k := firstFree s.used base ((s.counters.get? base).getD 0) (s.used.length + 1)
  let name := candidate base k
  (name, { counters := s.counters.insert base k, used := name :: s.used })

/-- Put a name in use without handing it out. -/
def reserve (s : NameSupply) (name : String) : NameSupply :=
  { s with used := name :: s.used }

/-- Whether a name is in use. -/
def contains (s : NameSupply) (name : String) : Bool := s.used.contains name

end NameSupply

end LuaRecovery

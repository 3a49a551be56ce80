/-
Limits.

The limits count what a run has used: how deep functions nest, how many instructions
were walked, and how often the caller was asked whether to go on.  The host has limits of
its own.
-/
import LuaRecovery.Diagnostic
import LuaRecovery.Host
import LuaRecovery.Options

namespace LuaRecovery

/-- What a run may use and has used. -/
structure Limits where
  maxDepth : Option Int := some 64
  budget : Option Int := none
  cancel : Nat → Bool := fun _ => false
  instructions : Nat := 0
  depth : Nat := 0
  maxDepthSeen : Nat := 0
  /-- How often the caller was asked whether to stop. -/
  polls : Nat := 0
  /-- What the run is carried out on. -/
  host : Host := {}

namespace Limits

/-- The limits that options set, with nothing used. -/
def ofOptions (o : Options) (host : Host := {}) : Limits :=
  { maxDepth := o.maxDepth, budget := o.budget, cancel := o.cancel, host }

/-- The depth limit that entering a function would break. -/
def depthBreach? (l : Limits) : Option Int :=
  l.maxDepth.filter fun m => decide (0 ≤ m) && decide (m ≤ l.depth)

/-- Enter a function. -/
def enter (l : Limits) : Except Failure Limits :=
  match l.depthBreach? with
  | some m => .error ⟨.tooDeep m, none⟩
  | none => .ok { l with depth := l.depth + 1, maxDepthSeen := max l.maxDepthSeen (l.depth + 1) }

/-- Leave a function. -/
def leave (l : Limits) : Limits := { l with depth := l.depth - 1 }

/-- Count one instruction. -/
def consume (l : Limits) : Limits := { l with instructions := l.instructions + 1 }

/-- The budget that the counted instructions exceed. -/
def budgetBreach? (l : Limits) : Option Int :=
  l.budget.filter fun n => decide (n < l.instructions)

/-- The failure at an index after an instruction was counted, if the budget is exceeded. -/
def budgetFailure? (l : Limits) (index : Int) : Option Failure :=
  l.budgetBreach?.map fun n => ⟨.overBudget n, some index⟩

/-- Ask the caller once more. -/
def poll (l : Limits) : Limits := { l with polls := l.polls + 1 }

/-- The failure at an index if the caller, when asked now, wants to stop. -/
def cancelFailure? (l : Limits) (index : Int) : Option Failure :=
  if l.cancel l.polls then some ⟨.cancelled, some index⟩ else none

end Limits

end LuaRecovery

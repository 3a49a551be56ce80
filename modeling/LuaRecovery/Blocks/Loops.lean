/-
Finding loops.

Before the code is walked, its backward jumps are matched.  A compare whose jump goes
backward waits for the jump that closes it; a later backward jump to the compare or
before closes the innermost waiting one.  Any other backward jump to a place in the
code makes that place the header of a loop that the jump closes.
-/
import LuaRecovery.Instruction

namespace LuaRecovery

/-- The index at which the machine goes on after the jump at `index`. -/
def jumpTarget (index offset : Int) : Int := index + 1 + offset

/-- The headers of loops, with the number of loops that start at each, and the jumps that
close a loop. -/
structure Loops where
  headers : Table Int Nat := {}
  closers : List Int := []

namespace Loops

/-- One more loop starts at `target`. -/
def addHeader (l : Loops) (target : Int) : Loops :=
  { l with headers := l.headers.insert target ((l.headers.get? target).getD 0 + 1) }

/-- The jump at `index` closes a loop. -/
def addCloser (l : Loops) (index : Int) : Loops := { l with closers := index :: l.closers }

/-- The compares still waiting, innermost first, and the loops, after a backward jump that
no compare precedes. -/
def backJump (l : Loops) (waiting : List Int) (index target : Int) : List Int × Loops :=
  let alone :=
    if 0 ≤ target ∧ target ≤ index then (waiting, (l.addHeader target).addCloser index)
    else (waiting, l)
  match waiting with
  | w :: outer => if target ≤ w then (outer, l.addCloser index) else alone
  | [] => alone

/-- The loops of the code from `index` on. -/
def scan (l : Loops) (waiting : List Int) (index : Int) : List Instruction → Loops
  | [] => l
  | [i] =>
    if !i.opcode.isCompare && i.opcode == .jump && decide (i.b < 0) then
      (l.backJump waiting index (jumpTarget index i.b)).2
    else l
  | i :: j :: rest =>
    if i.opcode.isCompare && j.opcode == .jump then
      l.scan (if j.b < 0 then index :: waiting else waiting) (index + 2) rest
    else if !i.opcode.isCompare && i.opcode == .jump && decide (i.b < 0) then
      let (waiting, l) := l.backJump waiting index (jumpTarget index i.b)
      l.scan waiting (index + 1) (j :: rest)
    else l.scan waiting (index + 1) (j :: rest)

/-- The loops of a function's code. -/
def find (code : List Instruction) : Loops := scan {} [] 0 code

end Loops

end LuaRecovery

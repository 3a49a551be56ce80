/-
Conditions of compares.

A compare skips the jump after it when the comparison differs from its operand `a`, so
the condition under which the block is entered is the comparison itself, negated if
`a` is one.
-/
import LuaRecovery.Instruction
import LuaRecovery.Term

namespace LuaRecovery

/-- The comparison that an opcode makes. -/
def Opcode.relation? : Opcode → Option Relation
  | .compareEq => some .eq
  | .compareLt => some .lt
  | .compareLe => some .le
  | _ => none

/-- An opcode that compares nothing was asked for its condition. -/
structure NotACompare where
  opcode : Opcode

/-- The message for an opcode that compares nothing. -/
def NotACompare.message (f : NotACompare) : String :=
  s!"<OpKind.{f.opcode.longName}: '{f.opcode.mnemonic}'>"

/-- A condition, negated if the operand `a` of the compare is one. -/
def negatedIf (a : Int) (condition : String) : String :=
  if a = 1 then "not (" ++ condition ++ ")" else condition

/-- The condition of a compare of two texts. -/
def conditionText (a : Int) (rel : Relation) (left right : String) : String :=
  negatedIf a (left ++ " " ++ rel.sign ++ " " ++ right)

/-- The condition of an instruction, which has to be a compare. -/
def Instruction.condition (i : Instruction) (left right : String) : Except NotACompare String :=
  match i.opcode.relation? with
  | some rel => .ok (conditionText i.a rel left right)
  | none => .error ⟨i.opcode⟩

end LuaRecovery

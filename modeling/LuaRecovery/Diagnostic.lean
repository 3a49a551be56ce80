/-
Diagnostics and failures.

A diagnostic reports something in the code that could not be recovered as it stands,
while the recovery goes on.  A failure ends it.  Both have a code; a failure has a
cause from which its code and its message follow.
-/
import LuaRecovery.Prototype.Fault

namespace LuaRecovery

/-- The code of a diagnostic or a failure. -/
inductive Code where
  | malformedControlFlow | unknownOpcode | constantIndexOutOfRange | depthExceeded
  | emptyOrInvalidInput | budgetExceeded | cancelled | ambiguousArgCount | unbalancedBlock
  | outputSyntax
  deriving DecidableEq, Repr

/-- The word for a code. -/
def Code.word : Code → String
  | malformedControlFlow => "MALFORMED_CONTROL_FLOW"
  | unknownOpcode => "UNKNOWN_OPCODE"
  | constantIndexOutOfRange => "CONSTANT_INDEX_OUT_OF_RANGE"
  | depthExceeded => "DEPTH_EXCEEDED"
  | emptyOrInvalidInput => "EMPTY_OR_INVALID_INPUT"
  | budgetExceeded => "BUDGET_EXCEEDED"
  | cancelled => "CANCELLED"
  | ambiguousArgCount => "AMBIGUOUS_ARG_COUNT"
  | unbalancedBlock => "UNBALANCED_BLOCK"
  | outputSyntax => "OUTPUT_SYNTAX"

/-- Something that could not be recovered as it stands. -/
structure Diagnostic where
  code : Code
  message : String
  /-- The path of the function it was found in. -/
  function : String
  index : Option Int := none

/-- Why an input is rejected before anything is recovered. -/
inductive Rejection where
  | noFunction
  | invalidPayload (fault : LoadFault)
  | notAFunction (kind : String)
  | noInstructions

/-- The message for a rejected input. -/
def Rejection.message : Rejection → String
  | noFunction => "no function supplied"
  | invalidPayload fault => "invalid function payload: " ++ fault.message
  | notAFunction kind => s!"expected a Function, got {kind}"
  | noInstructions => "function has no instructions"

/-- Why a recovery ends. -/
inductive Cause where
  /-- A compare ends the code. -/
  | trailingCompare (index : Int)
  /-- A compare is followed by something other than a jump. -/
  | unpairedCompare (index : Int) (mnemonic : String)
  | tooDeep (limit : Int)
  | overBudget (limit : Int)
  | cancelled
  | rejected (why : Rejection)

namespace Cause

/-- The code of a cause. -/
def code : Cause → Code
  | trailingCompare _ | unpairedCompare _ _ => .malformedControlFlow
  | tooDeep _ => .depthExceeded
  | overBudget _ => .budgetExceeded
  | cancelled => .cancelled
  | rejected _ => .emptyOrInvalidInput

/-- The message for a cause. -/
def message : Cause → String
  | trailingCompare index => s!"compare at {index} is the last instruction; expected a jump"
  | unpairedCompare index mnemonic =>
    s!"compare at {index} is followed by {mnemonic}, expected JMP"
  | tooDeep limit => s!"closure nesting deeper than {limit} levels"
  | overBudget limit => s!"instruction budget of {limit} exceeded"
  | cancelled => "decompilation cancelled by caller"
  | rejected why => why.message

end Cause

/-- The end of a recovery: why, and at which instruction if that is known. -/
structure Failure where
  cause : Cause
  index : Option Int := none

namespace Failure

/-- The code of a failure. -/
def code (f : Failure) : Code := f.cause.code

/-- The message of a failure. -/
def message (f : Failure) : String := f.cause.message

/-- The failure at a given instruction, unless it has a place already. -/
def locate (f : Failure) (index : Int) : Failure := { f with index := f.index.or (some index) }

/-- The diagnostic that reports a failure. -/
def diagnostic (f : Failure) (function : String) : Diagnostic :=
  ⟨f.code, f.message, function, f.index⟩

end Failure

end LuaRecovery

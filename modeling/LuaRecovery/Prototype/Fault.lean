/-
Why a payload is refused.

A fault names the rule that a payload breaks and carries what the message shows.
-/
import LuaRecovery.Payload.Display

namespace LuaRecovery

/-- The rule that a payload breaks. -/
inductive LoadFault where
  /-- A collection was expected and a payload without elements was found. -/
  | notIterable (kind : String)
  /-- A number was expected and a payload that writes none was found. -/
  | notNumeric (kind : String)
  /-- A value whose text as a number is asked for is missing. -/
  | notReal (kind : String)
  /-- A list or an object is looked for among names. -/
  | notAKey (kind : String)
  /-- A text or byte string that should write a float does not. -/
  | badFloat (given : Payload)
  /-- A text that should write an integer does not. -/
  | badInteger (given : String)
  /-- A text writes an integer of more digits than are read. -/
  | tooManyDigits (count : Nat)
  /-- An integer is past the largest float. -/
  | integerTooLarge
  /-- An instruction is neither a list nor an object. -/
  | unsupportedRow (row : Payload)
  /-- A constant has no kind that the virtual machine knows. -/
  | unsupportedConstant (value : Payload)
  /-- A prototype is not an object. -/
  | notAPrototype (kind : String)
  /-- An integer has too many digits to be written. -/
  | unwritable
  /-- The payload is nested deeper than it is read. -/
  | tooNested

namespace LoadFault

/-- The number of digits up to which integers are read, and written on most hosts. -/
def digitLimit : Nat := 4300

/-- The message for a fault.  A text that should write an integer is shown up to 200
characters. -/
def message : LoadFault → String
  | notIterable kind => s!"'{kind}' object is not iterable"
  | notNumeric kind => s!"float() argument must be a string or a real number, not '{kind}'"
  | notReal kind => s!"must be real number, not {kind}"
  | notAKey kind => s!"unhashable type: '{kind}'"
  | badFloat given => "could not convert string to float: " ++ given.display
  | badInteger given =>
    "invalid literal for int() with base 10: "
      ++ String.ofList ((Payload.shownText given).toList.take 200)
  | tooManyDigits count =>
    s!"Exceeds the limit ({digitLimit} digits) for integer string conversion: value has "
      ++ s!"{count} digits; use sys.set_int_max_str_digits() to increase the limit"
  | integerTooLarge => "int too large to convert to float"
  | unsupportedRow row => "Unsupported instruction row: " ++ row.display
  | unsupportedConstant value => "Unsupported constant: " ++ value.display
  | notAPrototype kind => s!"Expected a mapping for a function prototype, got {kind}"
  | unwritable =>
    s!"Exceeds the limit ({digitLimit} digits) for integer string conversion; "
      ++ "use sys.set_int_max_str_digits() to increase the limit"
  | tooNested => "maximum recursion depth exceeded"

end LoadFault

end LuaRecovery

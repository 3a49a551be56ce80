/-
Options.

The options are fixed for a run, and the caller may leave each of them open.  An open
switch counts as off, and an open limit limits nothing.  The length of long strings and
the width of a level have no such reading: a run that comes to need one of them and
finds it open has no answer, and `OptionFault` says which one it was.
-/
import LuaRecovery.Payload

namespace LuaRecovery

/-- A switch: on, off, or left open. -/
abbrev Switch := Option Bool

/-- Whether a switch is on.  An open one is not. -/
def Switch.isOn : Switch → Bool
  | some on => on
  | none => false

@[simp] theorem Switch.isOn_some (on : Bool) : Switch.isOn (some on) = on := rfl

@[simp] theorem Switch.isOn_none : Switch.isOn none = false := rfl

/-- An option that is needed and was left open. -/
inductive OptionFault where
  /-- The length from which a string is long. -/
  | noThreshold
  /-- The number of spaces for one level. -/
  | noWidth

/-- The message for an option that was left open. -/
def OptionFault.message : OptionFault → String
  | noThreshold => "'>=' not supported between instances of 'int' and 'NoneType'"
  | noWidth =>
    "int() argument must be a string, a bytes-like object or a real number, not 'NoneType'"

/-- The options of a run. -/
structure Options where
  /-- Whether the scene of the host is simulated. -/
  simulate : Switch := some true
  /-- How deep functions may nest; any depth if open or negative. -/
  maxDepth : Option Int := some 64
  /-- How many instructions may be walked. -/
  budget : Option Int := none
  /-- The length from which a string is long. -/
  longStringThreshold : Option Int := some 40
  /-- The number of spaces for one level; none if negative. -/
  indentWidth : Option Int := some 4
  header : Switch := some true
  includeCallGraph : Switch := some true
  includeStringRefs : Switch := some true
  /-- Whether the recovered text is checked against the grammar. -/
  validateSyntax : Switch := some false
  /-- The caller's answer each time it is asked whether to stop, by the number of times it
  was asked before. -/
  cancel : Nat → Bool := fun _ => false

namespace Options

/-- A switch as a payload gives it; a value of another type leaves it as it is. -/
def readSwitch (current : Switch) : Payload → Switch
  | .bool on => some on
  | .null => none
  | _ => current

/-- A number as a payload gives it; a value of another type leaves it as it is. -/
def readNumber (current : Option Int) : Payload → Option Int
  | .int n => some n
  | .null => none
  | _ => current

/-- The options with one of them set by name.  An unknown name changes nothing. -/
def put (o : Options) : String × Payload → Options
  | ("simulate_environment", p) => { o with simulate := readSwitch o.simulate p }
  | ("max_depth", p) => { o with maxDepth := readNumber o.maxDepth p }
  | ("instruction_budget", p) => { o with budget := readNumber o.budget p }
  | ("long_string_threshold", p) =>
    { o with longStringThreshold := readNumber o.longStringThreshold p }
  | ("indent_width", p) => { o with indentWidth := readNumber o.indentWidth p }
  | ("header", p) => { o with header := readSwitch o.header p }
  | ("include_call_graph", p) => { o with includeCallGraph := readSwitch o.includeCallGraph p }
  | ("include_string_refs", p) =>
    { o with includeStringRefs := readSwitch o.includeStringRefs p }
  | ("validate_syntax", p) => { o with validateSyntax := readSwitch o.validateSyntax p }
  | _ => o

/-- The options that a payload sets, the others as they are by default. -/
def ofPayload : Payload → Options
  | .object fields => fields.foldl put {}
  | _ => {}

/-- The width that a level is laid out with. -/
def levelWidth (o : Options) : Except OptionFault Nat :=
  match o.indentWidth with
  | some width => .ok width.toNat
  | none => .error .noWidth

end Options

end LuaRecovery

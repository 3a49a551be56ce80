/-
The host of a run.

A run takes place on a host that has limits of its own: it writes integers up to a number
of digits, makes lists and lines up to a length, and its stack holds so many levels of
nesting.  A run that meets one of these limits ends there.  None of them is the program's,
so each may be missing, and a host has none unless it is told otherwise.  What is counted
in memory can always be written.

The host also has the parser with which a recovered text is checked.
-/
import LuaRecovery.Lua.Grammar
import LuaRecovery.Prototype.Fault

namespace LuaRecovery

/-- What a run is carried out on. -/
structure Host where
  /-- The number of digits up to which integers are written. -/
  digits : Option Nat := none
  /-- The length up to which lists are made and lines are indented. -/
  length : Option Nat := none
  /-- Whether the stack has room for reading functions so many levels deep in each other,
  and showing lists and objects so many levels deep in the last one. -/
  reads : Nat → Nat → Bool := fun _ _ => true
  /-- Whether the stack has room for recovering a function so many levels deep. -/
  walks : Nat → Bool := fun _ => true
  /-- Whether the trace is written down. -/
  traced : Bool := false
  /-- The parser that recovered texts are checked with. -/
  accepts : String → Bool := Lua.isChunk

/-- The limit of a host that ends a run. -/
inductive HostFault where
  /-- An integer has too many digits to be written. -/
  | digits (n : Int)
  /-- A list is too long. -/
  | length (count : Nat)
  /-- A line is indented too far. -/
  | indent (count : Nat)
  /-- Functions are nested too deep. -/
  | nesting (depth : Nat)
  deriving DecidableEq

namespace Host

/-- The limits that most hosts have, apart from those of the stack. -/
def standard : Host := { digits := some LoadFault.digitLimit, length := some (Nat.pow 2 63 - 1) }

/-- Whether an integer is written. -/
def writes (h : Host) (n : Int) : Bool := h.digits.all fun d => decide (n.natAbs < Nat.pow 10 d)

/-- Whether a list or a line may have a length. -/
def allots (h : Host) (count : Nat) : Bool := h.length.all fun limit => decide (count ≤ limit)

/-- Whether the stack has room for what is read next. -/
def hasRoom (h : Host) : Bool := h.reads 0 0

/-- The host as it is left inside a function that is read. -/
def insideFunction (h : Host) : Host := { h with reads := fun f l => h.reads (f + 1) l }

/-- The host as it is left inside a list or an object that is shown. -/
def insideList (h : Host) : Host := { h with reads := fun f l => h.reads f (l + 1) }

/-- The fault if one of some integers cannot be written. -/
def writingFault? (h : Host) (ns : List Int) : Option HostFault :=
  (ns.find? fun n => !h.writes n).map .digits

/-- The fault if a list cannot have a length. -/
def listingFault? (h : Host) (count : Nat) : Option HostFault :=
  if h.allots count then none else some (.length count)

/-- The fault if a line cannot be indented so far. -/
def indentFault? (h : Host) (count : Nat) : Option HostFault :=
  if h.allots count then none else some (.indent count)

/-- The fault if a function cannot be recovered so many levels deep. -/
def nestingFault? (h : Host) (depth : Nat) : Option HostFault :=
  if h.walks depth then none else some (.nesting depth)

end Host

end LuaRecovery

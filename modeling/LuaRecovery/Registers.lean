/-
Registers.

A register holds a slot: the Lua text of its value and what else is known of it.  The
table also knows which registers were written and not read since, so that a constant
that is about to be overwritten unread can be kept as an assignment.  Reading goes in
two steps, `peek` for the slot and `touch` for the mark, since what a register holds
does not depend on the marks.

An operand below 256 is a register and any other a constant.  A constant index out of
range gives nil and is noted.
-/
import LuaRecovery.Constant
import LuaRecovery.Operand

namespace LuaRecovery

/-- What kind of value a slot shows. -/
inductive SlotKind where
  | literal | expression | closure | unset
  deriving DecidableEq, Repr

/-- The word for a kind of slot. -/
def SlotKind.word : SlotKind → String
  | literal => "literal"
  | expression => "expr"
  | closure => "closure"
  | unset => "unset"

/-- What a register holds. -/
structure Slot where
  kind : SlotKind
  text : String
  /-- The number that a literal is. -/
  number : Option Number := none
  /-- The object of the scene that the value is. -/
  handle : Option Nat := none
  /-- The object whose method the value is. -/
  receiver : Option Nat := none
  /-- The method that the value is. -/
  method : Option String := none
  /-- Whether the text is a string literal. -/
  isString : Bool := false

namespace Slot

/-- A literal. -/
def literal (text : String) : Slot := { kind := .literal, text }

/-- A literal of a known number. -/
def numeral (text : String) (x : Float) : Slot :=
  { kind := .literal, text, number := some (.float x) }

/-- An expression. -/
def expression (text : String) : Slot := { kind := .expression, text }

/-- An expression whose value is an object of the scene. -/
def object (text : String) (handle : Option Nat) : Slot := { kind := .expression, text, handle }

/-- A function under its name. -/
def closure (name : String) : Slot := { kind := .closure, text := name }

/-- What a register holds that was never written. -/
def unset (index : Int) : Slot := { kind := .unset, text := "reg" ++ toString index }

/-- A constant. -/
def ofConstant : Constant → Slot
  | .number x => numeral (Constant.number x).text x
  | .string s => { kind := .literal, text := (Constant.string s).text, isString := true }
  | c => literal c.text

/-- A slot as an operand of arithmetic. -/
def operand (s : Slot) : Operand := ⟨s.text, s.number⟩

/-- The float that a slot holds.  The code of a function only gives floats. -/
def float? (s : Slot) : Option Float :=
  match s.number with
  | some (.float x) => some x
  | _ => none

/-- A slot as a term. -/
def term (s : Slot) : Term := ⟨s.text, s.float?⟩

/-- A slot as it is read through a local that was bound to it. -/
def renamed (s : Slot) (name : String) : Slot :=
  { s with kind := .expression, text := name, number := none, isString := false }

end Slot

/-- The registers of one function. -/
structure Registers where
  constants : List Constant := []
  slots : Table Int Slot := {}
  /-- The registers that were written and not read since. -/
  unread : List Int := []
  /-- Notes on constant indexes out of range. -/
  anomalies : List String := []

namespace Registers

/-- The operand from which on constants are meant. -/
def constantBase : Int := 256

/-- What a register holds. -/
def peek (r : Registers) (index : Int) : Slot :=
  (r.slots.get? index).getD (Slot.unset index)

/-- The table after a register was read. -/
def touch (r : Registers) (index : Int) : Registers :=
  { r with unread := r.unread.filter (· != index) }

/-- What a register holds, and the table after it was read. -/
def read (r : Registers) (index : Int) : Slot × Registers := (r.peek index, r.touch index)

/-- The table after a register was written. -/
def set (r : Registers) (index : Int) (slot : Slot) : Registers :=
  { r.touch index with slots := r.slots.insert index slot }

/-- The table after a register was written with a value that nothing has read. -/
def setUnread (r : Registers) (index : Int) (slot : Slot) : Registers :=
  let r := r.set index slot
  { r with unread := index :: r.unread }

/-- The table without what a register held. -/
def clear (r : Registers) (index : Int) : Registers :=
  { r.touch index with slots := r.slots.erase index }

/-- Whether a register holds something. -/
def isBound (r : Registers) (index : Int) : Bool := r.slots.contains index

/-- Whether a register was written and not read since. -/
def isUnread (r : Registers) (index : Int) : Bool := r.unread.contains index

/-- The unread registers in increasing order. -/
def unreadList (r : Registers) : List Int := r.unread.mergeSort fun i j => decide (i ≤ j)

/-- The bound registers from `index` on without a gap, at most `fuel` of them. -/
def boundFrom (r : Registers) (index : Int) : Nat → List Int
  | 0 => []
  | fuel + 1 => if r.isBound index then index :: r.boundFrom (index + 1) fuel else []

/-- The bound registers after `base` without a gap. -/
def boundAbove (r : Registers) (base : Int) : List Int := r.boundFrom (base + 1) r.slots.size

/-- The registers that hold something with their texts, in increasing order. -/
def snapshot (r : Registers) : List (Int × String) :=
  (r.slots.entries.mergeSort fun e f => decide (e.1 ≤ f.1)).map fun e => (e.1, e.2.text)

/-- The constant at an index. -/
def constant? (r : Registers) (index : Int) : Option Constant :=
  if 0 ≤ index then r.constants[index.toNat]? else none

/-- The table after a constant was looked up; an index out of range is noted. -/
def lookUp (r : Registers) (index : Int) : Registers :=
  match r.constant? index with
  | some _ => r
  | none =>
    let note := s!"constant index {index} out of range (pool size {r.constants.length})"
    { r with anomalies := r.anomalies ++ [note] }

/-- What was noted, and the table without it. -/
def drain (r : Registers) : List String × Registers := (r.anomalies, { r with anomalies := [] })

/-- The constant at an index as a slot, nil if there is none. -/
def constantSlot (r : Registers) (index : Int) : Slot :=
  match r.constant? index with
  | some c => Slot.ofConstant c
  | none => Slot.literal "nil"

/-- The string constant at an index. -/
def constantString? (r : Registers) (index : Int) : Option String :=
  match r.constant? index with
  | some (.string s) => some s
  | _ => none

/-- What an operand stands for. -/
def peekOperand (r : Registers) (operand : Int) : Slot :=
  if constantBase ≤ operand then r.constantSlot (operand - constantBase) else r.peek operand

/-- The table after an operand was read. -/
def touchOperand (r : Registers) (operand : Int) : Registers :=
  if constantBase ≤ operand then r.lookUp (operand - constantBase) else r.touch operand

/-! ### Integers that are written -/

/-- The integers that the text of what a register holds is made with: its own number if it
was never written. -/
def spelled (r : Registers) (index : Int) : List Int := if r.isBound index then [] else [index]

/-- The integers that looking up a constant writes: an index that is noted. -/
def spelledConstant (r : Registers) (index : Int) : List Int :=
  if (r.constant? index).isSome then [] else [index]

/-- The integers that reading an operand writes. -/
def spelledOperand (r : Registers) (operand : Int) : List Int :=
  if constantBase ≤ operand then r.spelledConstant (operand - constantBase)
  else r.spelled operand

end Registers

end LuaRecovery

/-
Opcodes of the virtual machine.

Every opcode has the mnemonic of the Lua 5.1 machine and a longer name.  A text names
an opcode by either, in any case and with underscores anywhere; a number names the
opcode at that place of the machine's dispatch order.  What names none is `unknown`.
-/
import LuaRecovery.Text.Blank
import LuaRecovery.Text.Capital

namespace LuaRecovery

/-- The operations that are recovered. -/
inductive Opcode where
  | move | loadConstant | loadBool | loadNil
  | getUpvalue | getGlobal | getField | setGlobal | setUpvalue | setField
  | newTable | selfIndex
  | add | sub | mul | div | mod | pow
  | negate | invert | length | concat
  | jump | compareEq | compareLt | compareLe
  | call | ret | closure | nop | unknown
  deriving DecidableEq, Repr, Inhabited

namespace Opcode

/-- All opcodes, in dispatch order where they have one. -/
def all : List Opcode :=
  [move, loadConstant, loadBool, loadNil, getUpvalue, getGlobal, getField, setGlobal,
    setUpvalue, setField, newTable, selfIndex, add, sub, mul, div, mod, pow, negate, invert,
    length, concat, jump, compareEq, compareLt, compareLe, call, ret, closure, nop, unknown]

/-- The mnemonic of the virtual machine. -/
def mnemonic : Opcode → String
  | move => "MOVE"
  | loadConstant => "LOADK"
  | loadBool => "LOADBOOL"
  | loadNil => "LOADNIL"
  | getUpvalue => "GETUPVAL"
  | getGlobal => "GETGLOBAL"
  | getField => "GETTABLE"
  | setGlobal => "SETGLOBAL"
  | setUpvalue => "SETUPVAL"
  | setField => "SETTABLE"
  | newTable => "NEWTABLE"
  | selfIndex => "SELF"
  | add => "ADD"
  | sub => "SUB"
  | mul => "MUL"
  | div => "DIV"
  | mod => "MOD"
  | pow => "POW"
  | negate => "UNM"
  | invert => "NOT"
  | length => "LEN"
  | concat => "CONCAT"
  | jump => "JMP"
  | compareEq => "EQ"
  | compareLt => "LT"
  | compareLe => "LE"
  | call => "CALL"
  | ret => "RETURN"
  | closure => "CLOSURE"
  | nop => "NOP"
  | unknown => "UNKNOWN"

/-- The longer name. -/
def longName : Opcode → String
  | loadConstant => "LOAD_CONST"
  | loadBool => "LOAD_BOOL"
  | loadNil => "LOAD_NIL"
  | getUpvalue => "GET_UPVALUE"
  | getGlobal => "LOAD_GLOBAL"
  | getField => "GET_FIELD"
  | setGlobal => "SET_GLOBAL"
  | setUpvalue => "SET_UPVALUE"
  | setField => "SET_FIELD"
  | newTable => "NEW_TABLE"
  | selfIndex => "SELF_INDEX"
  | jump => "JUMP"
  | compareEq => "COMPARE_EQ"
  | compareLt => "COMPARE_LT"
  | compareLe => "COMPARE_LE"
  | closure => "MAKE_CLOSURE"
  | other => other.mnemonic

/-- Whether the opcode compares its operands and is followed by a jump. -/
def isCompare : Opcode → Bool
  | compareEq | compareLt | compareLe => true
  | _ => false

/-- A text without its underscores. -/
def withoutUnderscores (s : String) : String := String.ofList (s.toList.filter (· != '_'))

/-- The opcode that a text in capitals names exactly: by mnemonic, by longer name, or by
longer name without underscores. -/
def ofCapitals? (s : String) : Option Opcode :=
  all.find? fun op =>
    s == op.mnemonic || s == op.longName || s == withoutUnderscores op.longName

/-- The opcode that a text names; blanks around it and letter case do not matter, nor do
underscores. -/
def ofName (s : String) : Opcode :=
  let name := Text.capitals (Text.trim s)
  ((ofCapitals? name).or (ofCapitals? (withoutUnderscores name))).getD unknown

/-- The opcode at a place of the dispatch order.  The places of operations that are not
recovered are `unknown`. -/
def ofNumber (n : Int) : Opcode :=
  if n = 0x1C then call
  else if n = 0x1E then ret
  else if n = 0x24 then closure
  else if 0 ≤ n ∧ n ≤ 0x19 then all[n.toNat]?.getD unknown
  else unknown

end Opcode

end LuaRecovery

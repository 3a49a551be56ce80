/-
Instructions.

An instruction is an opcode with three signed operands.  It may also keep the opcode
number it was read from, which then names it if the opcode is unknown.  A row of a
payload gives an instruction either as a list `[op, a, b, c]` or as an object.
-/
import LuaRecovery.Opcode
import LuaRecovery.Payload.Coerce

namespace LuaRecovery

/-- An opcode number as it stood in the payload; a truth value counts as a number. -/
inductive RawOpcode where
  | number (n : Int)
  | flag (b : Bool)

/-- The opcode number in capital hexadecimal digits, filled up to two places. -/
def RawOpcode.hex (raw : RawOpcode) : String :=
  let n := match raw with
    | number n => n
    | flag b => Payload.truthInt b
  let ds := (Nat.toDigits 16 n.natAbs).map Char.toUpper
  String.ofList <| if n < 0 then '-' :: ds else List.replicate (2 - ds.length) '0' ++ ds

/-- An opcode with its operands; `b` and `c` are signed. -/
structure Instruction where
  opcode : Opcode
  a : Int := 0
  b : Int := 0
  c : Int := 0
  raw : Option RawOpcode := none
  deriving Inhabited

namespace Instruction

/-- The mnemonic, or for an unknown opcode its number if that is kept. -/
def mnemonic (i : Instruction) : String :=
  match i.opcode, i.raw with
  | .unknown, some raw => "OP_" ++ raw.hex
  | op, _ => op.mnemonic

/-- The opcode that a payload names, with its number if it was given as one. -/
def decodeOpcode : Payload → Opcode × Option RawOpcode
  | .int n => (Opcode.ofNumber n, some (.number n))
  | .text s => (Opcode.ofName s, none)
  | _ => (.unknown, none)

/-- The opcode number in the field `opcode` of a row. -/
def opcodeField? (fields : List (String × Payload)) : Option RawOpcode :=
  match Payload.field? fields "opcode" with
  | some (.int n) => some (.number n)
  | some (.bool b) => some (.flag b)
  | _ => none

/-- The opcode of a row given as an object: the first field that is given names it, and
an unknown one keeps the number in the field `opcode`. -/
def opcodeOf (fields : List (String × Payload)) : Opcode × Option RawOpcode :=
  let named := (Payload.firstGiven? fields ["op", "mnemonic", "opcode", "opnum"]).getD .null
  match decodeOpcode named with
  | (.unknown, none) => (.unknown, opcodeField? fields)
  | other => other

/-- The value of the first field that is present, zero if none is. -/
def operand (fields : List (String × Payload)) : List String → Except LoadFault Int
  | [] => .ok 0
  | k :: ks => match Payload.field? fields k with
    | some v => v.toInteger
    | none => operand fields ks

/-- The operand `b` of a row given as an object: the signed jump offset if present, else
the plain operand, else the wide one. -/
def operandB (fields : List (String × Payload)) : Except LoadFault Int := do
  let plain ← operand fields ["B", "b"]
  match Payload.field? fields "sBx" with
  | some v => v.toInteger
  | none =>
    match Payload.field? fields "B", Payload.field? fields "b", Payload.field? fields "Bx" with
    | none, none, some v => v.toInteger
    | _, _, _ => .ok plain

/-- The instruction that a row of a payload gives. -/
def ofRow (h : Host) : Payload → Except LoadFault Instruction
  | .object fields => do
    let (opcode, raw) := opcodeOf fields
    let b ← operandB fields
    let a ← operand fields ["A", "a"]
    let c ← operand fields ["C", "c"]
    return { opcode, a, b, c, raw }
  | .list items => do
    let item (i : Nat) : Payload := items[i]?.getD (.int 0)
    let (opcode, raw) := decodeOpcode (item 0)
    let a ← (item 1).toInteger
    let b ← (item 2).toInteger
    let c ← (item 3).toInteger
    return { opcode, a, b, c, raw }
  | row => .error (row.refusal h (.unsupportedRow row))

end Instruction

end LuaRecovery

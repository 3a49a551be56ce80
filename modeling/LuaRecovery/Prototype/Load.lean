/-
Loading a prototype from a payload.

A prototype is given as an object.  Each of its parts has one or more field names; the
first name that is given counts, and a part that is null, zero, false or empty is
empty.  The parts are read in a fixed order, so a payload with several faults is
refused for the first of them.
-/
import LuaRecovery.Prototype

namespace LuaRecovery.Prototype

/-- The names of the field that holds the instructions. -/
def instructionKeys : List String := ["instructions", "code", "bytecode"]

/-- The names of the field that holds the constants. -/
def constantKeys : List String := ["constants", "consts"]

/-- The names of the field that holds the nested prototypes. -/
def childKeys : List String := ["children", "prototypes", "functions"]

/-- The part under the given names, or an empty list if it does not count. -/
def part (fields : List (String × Payload)) (ks : List String) : Payload :=
  match Payload.firstGiven? fields ks with
  | some p => if p.isTruthy then p else .list []
  | none => .list []

/-- The items of a part are items of some field. -/
theorem mem_of_part {fields : List (String × Payload)} {ks : List String}
    {items : List Payload} {p : Payload} (h : part fields ks = .list items) (hp : p ∈ items) :
    ∃ k, (k, Payload.list items) ∈ fields := by
  unfold part at h
  split at h
  · rename_i q hq
    split at h
    · exact Payload.mem_of_firstGiven? (h ▸ hq)
    · obtain rfl : [] = items := by simpa using h
      simp at hp
  · obtain rfl : [] = items := by simpa using h
    simp at hp

/-- The count under the first of two names that is present. -/
def count (fields : List (String × Payload)) (k k' : String) : Except LoadFault Int :=
  (((Payload.field? fields k).or (Payload.field? fields k')).getD .null).toInteger

/-- The text of the field `name`. -/
def nameOf (h : Host) (fields : List (String × Payload)) : Except LoadFault String :=
  match (Payload.field? fields "name").filter Payload.isTruthy with
  | some p => p.textOn h
  | none => .ok ""

/-- Whether the function takes variable arguments, which it does unless told otherwise. -/
def varargOf (fields : List (String × Payload)) : Bool :=
  match Payload.field? fields "is_vararg" with
  | some p => p.isTruthy
  | none => true

/-- The names of the upvalues. -/
def upvalueNamesOf (h : Host) (fields : List (String × Payload)) : Except LoadFault (List String) :=
  match (Payload.field? fields "upvalue_names").filter Payload.isTruthy with
  | some p => do (← p.elements).mapM (Payload.textOn h)
  | none => .ok []

/-- The prototype that a payload gives.  A function inside another is read one level
deeper. -/
def load (p : Payload) (host : Host := {}) : Except LoadFault Prototype :=
  if !host.hasRoom then .error .tooNested else
  match p with
  | .object fields => do
    let instructions ← (← (part fields instructionKeys).elements).mapM (Instruction.ofRow host)
    let constants ← (← (part fields constantKeys).elements).mapM (Constant.ofPayload host)
    let children ← match _h : part fields childKeys with
      | .list items => items.attach.mapM (fun ⟨c, _⟩ => load c host.insideFunction)
      | other => do
        match ← other.elements with
        | [] => pure []
        | c :: _ =>
          throw (if host.insideFunction.hasRoom then .notAPrototype c.kind else .tooNested)
    let name ← nameOf host fields
    let paramCount ← count fields "num_params" "numparams"
    let vararg := varargOf fields
    let upvalueCount ← count fields "upvalue_count" "nups"
    let upvalueNames ← upvalueNamesOf host fields
    return { instructions, constants, children, name, paramCount, vararg, upvalueCount,
             upvalueNames }
  | other => .error (.notAPrototype other.kind)
termination_by sizeOf p
decreasing_by
  rename_i hc
  obtain ⟨k, hk⟩ := mem_of_part _h hc
  have h₁ := List.sizeOf_lt_of_mem hc
  have h₂ := List.sizeOf_lt_of_mem hk
  simp at h₂ ⊢
  omega

end LuaRecovery.Prototype

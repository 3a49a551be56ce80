/-
Walking a function.

A function is recovered by walking its code once.  The walk has two parts of state: the
frame, which belongs to the function, and the context, which all functions of a run
share.  A walk ends early with a failure, which may carry what was recovered so far,
because a value refers to an object that the scene does not have, because it needs an
option that was left open, or because the host cannot go on; the state at that point is
kept.

This file has the state and the actions that every step is made of.
-/
import LuaRecovery.Blocks.Basic
import LuaRecovery.Limits
import LuaRecovery.Registers
import LuaRecovery.Report.Strings
import LuaRecovery.Scene.Access

namespace LuaRecovery

/-- What all functions of a run share. -/
structure Context where
  options : Options := {}
  limits : Limits := {}
  scene : Scene := {}
  strings : Report.StringReport := { threshold := some 40 }
  diagnostics : List Diagnostic := []
  /-- The records of the trace. -/
  trace : List String := []

namespace Context

/-- The context at the start of a run. -/
def start (o : Options) (host : Host := {}) : Context :=
  { options := o
    limits := Limits.ofOptions o host
    scene := if o.simulate.isOn then Scene.opened else Scene.blank
    strings := { threshold := o.longStringThreshold } }

/-- Report something that could not be recovered as it stands. -/
def report (c : Context) (d : Diagnostic) : Context :=
  { c with diagnostics := c.diagnostics ++ [d] }

/-- Add a record to the trace. -/
def log (c : Context) (record : String) : Context := { c with trace := c.trace ++ [record] }

end Context

/-- A variable of a function around, under its name there. -/
structure Upvalue where
  name : String
  handle : Option Nat := none

/-- The state of the walk that belongs to the function. -/
structure Frame where
  code : List Instruction := []
  name : String
  /-- The names of the functions around and of this one. -/
  path : String
  anonymous : Bool := true
  vararg : Bool := true
  params : List String := []
  upvalues : List Upvalue := []
  registers : Registers := {}
  blocks : Blocks := {}
  body : List Statement := []
  /-- The assignments of the body that bind registers, in order. -/
  bindings : List Binding := []
  /-- The local that each register is bound to. -/
  locals : Table Int String := {}
  /-- The local that holds each object. -/
  objectLocals : Table Nat String := {}
  /-- The register at which an open list of results starts. -/
  top : Option Int := none
  /-- The upvalues referred to, in order of first use. -/
  captured : List String := []

/-- The function recovered so far. -/
def Frame.routine (f : Frame) : Routine :=
  { name := f.name, body := f.body, anonymous := f.anonymous, captured := f.captured
    params := f.params, vararg := f.vararg, bindings := f.bindings }

/-- The state of a walk. -/
structure Walk where
  frame : Frame
  context : Context

/-- Why a walk ends early. -/
inductive Stop where
  /-- A failure, and what was recovered of the function in which it arose. -/
  | failed (failure : Failure) (recovered : Option Routine)
  /-- A value refers to an object that the scene does not have. -/
  | scene (fault : Scene.Fault)
  /-- An option that is needed was left open. -/
  | option (fault : OptionFault)
  /-- The host cannot go on. -/
  | host (fault : HostFault)

/-- An action of a walk.  It keeps the state where it ends early. -/
abbrev Walking := EStateM Stop Walk

/-- Recovers a function under a name and a path, with its upvalues. -/
abbrev Builder := String → String → List Upvalue → EStateM Stop Context Routine

/-- A function written inside the one that is walked. -/
structure Child where
  name : String
  upvalueCount : Int
  build : Builder

namespace Walking

/-! ### The host -/

/-- End the walk if the host cannot do what comes next. -/
def askHost (fault? : Host → Walk → Option HostFault) : Walking Unit := do
  let w ← get
  if let some fault := fault? w.context.limits.host w then throw (.host fault)

/-- Make sure that integers can be written. -/
def spell (numbers : Walk → List Int) : Walking Unit :=
  askHost fun host w => host.writingFault? (numbers w)

/-- Make sure that a function can be recovered inside this one. -/
def descend : Walking Unit :=
  askHost fun host w => host.nestingFault? w.context.limits.depth

/-- The inclusive range of integers from `first` to `last`. -/
def range (first last : Int) : List Int :=
  (List.range (last + 1 - first).toNat).map fun (k : Nat) => first + (k : Int)

/-- The inclusive range of integers as a list in memory. -/
def listed (first last : Int) : Walking (List Int) := do
  askHost fun host _ => host.listingFault? (last + 1 - first).toNat
  return range first last

/-! ### The frame -/

/-- Add a statement to the body. -/
def emit (s : Statement) : Walking Unit :=
  modify fun w => { w with frame.body := w.frame.body ++ [s] }

/-- Add an assignment to the body that binds registers. -/
def emitBinding (registers : List Int) (s : Statement) : Walking Unit :=
  modify fun w =>
    { w with
      frame.bindings := w.frame.bindings ++ [⟨w.frame.body.length, registers⟩]
      frame.body := w.frame.body ++ [s] }

/-- Add statements to the body. -/
def emitAll (ss : List Statement) : Walking Unit :=
  modify fun w => { w with frame.body := w.frame.body ++ ss }

/-- Change the registers. -/
def modifyRegisters (f : Registers → Registers) : Walking Unit :=
  modify fun w => { w with frame.registers := f w.frame.registers }

/-- What a register holds; this counts as reading it. -/
def readRegister (index : Int) : Walking Slot := do
  spell (·.frame.registers.spelled index)
  modifyGet fun w =>
    (w.frame.registers.peek index,
      { w with frame.registers := w.frame.registers.touch index })

/-- The text of what a register holds. -/
def readText (index : Int) : Walking String := return (← readRegister index).text

/-- The texts of what registers hold, read in order. -/
def readTexts : List Int → Walking (List String)
  | [] => pure []
  | index :: rest => do
    let text ← readText index
    return text :: (← readTexts rest)

/-- What an operand stands for; this counts as reading it. -/
def readOperand (operand : Int) : Walking Slot := do
  spell (·.frame.registers.spelledOperand operand)
  modifyGet fun w =>
    (w.frame.registers.peekOperand operand,
      { w with frame.registers := w.frame.registers.touchOperand operand })

/-- Write a register. -/
def setRegister (index : Int) (slot : Slot) : Walking Unit :=
  modifyRegisters fun r => r.set index slot

/-- Write registers one after the other. -/
def setRegisters (slot : Slot) : List Int → Walking Unit
  | [] => pure ()
  | index :: rest => do
    setRegister index slot
    setRegisters slot rest

/-- Forget what registers hold. -/
def clearRegisters (indexes : List Int) : Walking Unit :=
  modifyRegisters fun r => indexes.foldl Registers.clear r

/-- Emit what an operation on the blocks gives. -/
def emitBlocks (f : Blocks → List Statement × Blocks) : Walking Unit := do
  let nodes ← modifyGet fun w =>
    let (nodes, blocks) := f w.frame.blocks
    (nodes, { w with frame.blocks := blocks })
  emitAll nodes

/-- Carry out an action; if it stops, the frame stays as it was. -/
def keepingFrame {α : Type} (action : Walking α) : Walking α := fun w =>
  match action w with
  | .error stop w' => .error stop { w' with frame := w.frame }
  | result => result

/-! ### The context -/

/-- Whether the scene is simulated. -/
def simulating : Walking Bool := return (← get).context.options.simulate.isOn

/-- Report something in this function. -/
def report (code : Code) (message : String) (index : Int) : Walking Unit :=
  modify fun w =>
    { w with context := w.context.report ⟨code, message, w.frame.path, some index⟩ }

/-- Ask the scene. -/
def query {α : Type} (f : Scene → Except Scene.Fault α) : Walking α := do
  match f (← get).context.scene with
  | .ok a => pure a
  | .error fault => throw (.scene fault)

/-- Change the scene. -/
def modifyScene {α : Type} (f : Scene → Except Scene.Fault (α × Scene)) : Walking α := do
  let (a, scene) ← query f
  modify fun w => { w with context.scene := scene }
  return a

/-- Ask the report of strings. -/
def queryStrings {α : Type} (f : Report.StringReport → Except OptionFault α) : Walking α := do
  match f (← get).context.strings with
  | .ok a => pure a
  | .error fault => throw (.option fault)

/-- A name that is not in use. -/
def uniqueName (hint : String) : Walking String :=
  modifyScene fun s => .ok (s.uniqueName hint)

end Walking

end LuaRecovery

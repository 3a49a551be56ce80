/-
Locals.

A register gets a local when its value has to be written down.  The first assignment to
it declares the local, and the register keeps it to the end of the function.  A local
for an object of the scene is named after the object.
-/
import LuaRecovery.Walk.Basic

namespace LuaRecovery.Walking

/-- The local of a register. -/
def localOf? (reg : Int) : Walking (Option String) := return (← get).frame.locals.get? reg

/-- A new name for the local of a register, made from its number. -/
def numberedName (reg : Int) : Walking String := do
  spell fun _ => [reg]
  uniqueName s!"v{reg}"

/-- A name for the local of a register: that of the object it holds, if no local of the
function has it, else a new one. -/
def chooseName (reg : Int) (value : Slot) : Walking String := do
  match value.handle, ← simulating with
  | some handle, true =>
    let display ← query (·.nameOf handle)
    if (← get).frame.locals.values.contains display then uniqueName display
    else pure display
  | _, _ => numberedName reg

/-- Forget which objects a local holds. -/
def forgetObjects (name : String) : Walking Unit :=
  modify fun w =>
    { w with frame.objectLocals := w.frame.objectLocals.filterValues (· != name) }

/-- The local of a register, and whether it has to be declared.  A register without one
gets the name that `choose` gives; a local that is assigned again no longer holds the
objects it held. -/
def takeLocal (reg : Int) (choose : Walking String) : Walking (String × Bool) := do
  match ← localOf? reg with
  | some name =>
    forgetObjects name
    return (name, false)
  | none =>
    let name ← choose
    modify fun w => { w with frame.locals := w.frame.locals.insert reg name }
    return (name, true)

/-- Write the value of a register down as an assignment to its local. -/
def bindLocal (reg : Int) (value : Slot) (comment : Option String) : Walking String := do
  let (name, declares) ← takeLocal reg (chooseName reg value)
  emitBinding [reg] (.assign name value.text declares comment)
  setRegister reg (value.renamed name)
  if let some handle := value.handle then
    modify fun w => { w with frame.objectLocals := w.frame.objectLocals.insert handle name }
  return name

/-- The locals of registers that a call assigns at once, and whether one is declared. -/
def bindTargets : List Int → Walking (List String × Bool)
  | [] => pure ([], false)
  | reg :: rest => do
    let (name, declares) ← takeLocal reg (numberedName reg)
    setRegister reg (.expression name)
    let (names, more) ← bindTargets rest
    return (name :: names, declares || more)

/-- Write the results of a call down as one assignment to the locals of registers. -/
def bindMany (registers : List Int) (expression : String) (comment : Option String) :
    Walking Unit := do
  let (targets, declares) ← keepingFrame (bindTargets registers)
  emitBinding registers (.assign (Text.commaList targets) expression declares comment)

/-- The local of a register, which is written down first unless it holds the local. -/
def ensureNamed (reg : Int) : Walking String := do
  let value ← readRegister reg
  match ← localOf? reg with
  | some name => if value.text = name then pure name else bindLocal reg value none
  | none => bindLocal reg value none

/-- Write a constant down that is about to be lost unread. -/
def flushUnread (reg : Int) : Walking Unit := do
  let registers := (← get).frame.registers
  if registers.isUnread reg then
    let _ ← bindLocal reg (registers.peek reg) none

/-- Write down the constants of all given registers that are unread. -/
def flushAll : List Int → Walking Unit
  | [] => pure ()
  | reg :: rest => do
    flushUnread reg
    flushAll rest

/-- The upvalue that a function has at an index. -/
def knownUpvalue? (upvalues : List Upvalue) (index : Int) : Option Upvalue :=
  if 0 ≤ index then upvalues[index.toNat]? else none

/-- The upvalue at an index, which is noted as referred to. -/
def upvalueAt (index : Int) : Walking Upvalue := do
  spell fun w => if (knownUpvalue? w.frame.upvalues index).isSome then [] else [index]
  let frame := (← get).frame
  let known := knownUpvalue? frame.upvalues index
  let upvalue := known.getD { name := "upval" ++ toString index }
  if !frame.captured.contains upvalue.name then
    modify fun w => { w with frame.captured := w.frame.captured ++ [upvalue.name] }
  return upvalue

/-- Whether a handle is that of a service. -/
def servesHandle (handle : Option Nat) : Walking Bool := do
  if ← simulating then query (·.isService handle) else pure false

/-- Whether a text is the name of the object with a handle. -/
def namesHandle (text : String) (handle : Option Nat) : Walking Bool := do
  match handle, ← simulating with
  | some handle, true => return (← query (·.nameOf handle)) == text
  | _, _ => pure false

/-- Let a register hold a value that was read.  An object that a local holds is read from
it; a service, and the first value of a register, gets a local, unless the text is
already the object's name. -/
def holdObject (reg : Int) (text : String) (handle : Option Nat) : Walking Unit := do
  let frame := (← get).frame
  match handle.bind frame.objectLocals.get? with
  | some name => setRegister reg (.object name handle)
  | none =>
    if (← servesHandle handle) || !frame.locals.contains reg then
      if ← namesHandle text handle then setRegister reg (.object text handle)
      else
        let _ ← bindLocal reg (.object text handle) none
    else setRegister reg (.object text handle)

end LuaRecovery.Walking

/-
Walking a whole function.

The walk goes through the code from the first instruction on.  Before each instruction
the caller is asked whether to stop and the instruction is counted; then the markers
that are due come out, the step is carried out, and what it noted is reported.  At the
end, constants that nothing has read are written down and the open blocks are closed.

A function inside another is recovered while the step of its closure is carried out.
`Prototype.build` therefore recurses on the tree of prototypes: the children of a
prototype are turned into builders, and the walk of its own code calls them.
-/
import LuaRecovery.Prototype
import LuaRecovery.Walk.Step
import LuaRecovery.Walk.Trace

namespace LuaRecovery

namespace Walking

/-! ### The walk -/

/-- Ask the caller whether to stop. -/
def pollCaller (index : Nat) : Walking Unit := do
  let limits := (← get).context.limits
  modify fun w => { w with context.limits := limits.poll }
  if let some failure := limits.cancelFailure? index then throw (.failed failure none)

/-- Count an instruction. -/
def countInstruction (index : Nat) : Walking Unit := do
  let limits := (← get).context.limits.consume
  modify fun w => { w with context.limits := limits }
  spell (·.context.limits.budgetBreach?.toList)
  if let some failure := limits.budgetFailure? index then throw (.failed failure none)

/-- Emit the markers that are due at an index. -/
def emitDue (index : Int) : Walking Unit := emitBlocks (·.due index)

/-- Emit the markers that are due at indexes one after the other. -/
def emitDueAll : List Int → Walking Unit
  | [] => pure ()
  | index :: rest => do
    emitDue index
    emitDueAll rest

/-- Report constant indexes out of range, each with a remark in the body. -/
def reportConstants (index : Int) : List String → Walking Unit
  | [] => pure ()
  | message :: rest => do
    emit (.remark message)
    report .constantIndexOutOfRange message index
    reportConstants index rest

/-- Report blocks that do not nest. -/
def reportBlocks : List (Int × String) → Walking Unit
  | [] => pure ()
  | (index, message) :: rest => do
    report .unbalancedBlock message index
    reportBlocks rest

/-- Report what the registers and the blocks have noted. -/
def reportAnomalies (index : Int) : Walking Unit := do
  let constants ← modifyGet fun w =>
    let (notes, registers) := w.frame.registers.drain
    (notes, { w with frame.registers := registers })
  reportConstants index constants
  let blocks ← modifyGet fun w =>
    let (notes, blocks) := w.frame.blocks.drain
    (notes, { w with frame.blocks := blocks })
  reportBlocks blocks

/-- Opcodes that write their register `a` without reading it first. -/
def overwrites : Opcode → Bool
  | .loadBool | .loadNil | .getUpvalue | .getGlobal | .newTable | .closure => true
  | _ => false

/-- Write down a constant that an instruction is about to overwrite unread. -/
def flushOverwritten (i : Instruction) : Walking Unit :=
  if overwrites i.opcode then flushUnread i.a else pure ()

/-- Carry out an action at an index: a failure without a place is one there. -/
def locating {α : Type} (index : Int) (action : Walking α) : Walking α := fun w =>
  match action w with
  | .error (.failed failure recovered) w => .error (.failed (failure.locate index) recovered) w
  | result => result

/-- Walk one instruction.  The answer is the number of instructions it took. -/
def advance (children : List Child) (i : Instruction) (index : Nat) : Walking Nat := do
  pollCaller index
  countInstruction index
  emitDue index
  let mark := (← get).frame.body.length
  flushOverwritten i
  let taken ← locating index (step children i index)
  emitDueAll (range (index + 1) (index + taken - 1))
  reportAnomalies index
  traceStep index i mark
  return taken

/-- Walk the code from an index on.  Every step takes at least one instruction, so as many
steps as there are instructions suffice. -/
def walkFrom (children : List Child) : Nat → Nat → Walking Unit
  | 0, _ => pure ()
  | fuel + 1, index => do
    match (← get).frame.code[index]? with
    | none => pure ()
    | some i =>
      let taken ← advance children i index
      walkFrom children fuel (index + taken)

/-- Write down what nothing has read, and close what is open. -/
def windUp : Walking Unit := do
  let frame := (← get).frame
  flushAll frame.registers.unreadList
  emitBlocks (·.finish frame.code.length)
  reportAnomalies frame.code.length

/-- Report the strings among the constants. -/
def observeStrings : List Constant → Walking Unit
  | [] => pure ()
  | .string s :: rest => do
    let strings ← queryStrings (·.observe s)
    modify fun w => { w with context.strings := strings }
    observeStrings rest
  | _ :: rest => observeStrings rest

/-- Walk a function from its first instruction to the end. -/
def walk (children : List Child) : Walking Unit := do
  let frame := (← get).frame
  let constants := frame.registers.constants
  log (openingRecord frame.path frame.code.length constants.length children.length)
  observeStrings constants
  walkFrom children frame.code.length 0
  windUp

end Walking

namespace Frame

/-- The upvalues that were passed, and after them those that only have a name. -/
def allUpvalues (passed : List Upvalue) (names : List String) : List Upvalue :=
  passed ++ (names.drop passed.length).map fun name => ⟨name, none⟩

/-- Name the parameters from `index` on. -/
def addParams (f : Frame) (scene : Scene) (index : Nat) : Nat → Frame × Scene
  | 0 => (f, scene)
  | count + 1 =>
    let (param, scene) := scene.uniqueName s!"arg{index}"
    let f := { f with
      params := f.params ++ [param]
      locals := f.locals.insert index param
      registers := f.registers.set index (.expression param) }
    f.addParams scene (index + 1) count

/-- The frame of a function whose parameters have no names yet. -/
def bare (p : Prototype) (name path : String) (passed : List Upvalue) : Frame :=
  { code := p.instructions, name, path
    anonymous := p.name == ""
    vararg := p.vararg
    upvalues := allUpvalues passed p.upvalueNames
    registers := { constants := p.constants }
    blocks := Blocks.ofCode p.instructions }

/-- The frame before the walk: the parameters have their names. -/
def start (p : Prototype) (name path : String) (passed : List Upvalue) (scene : Scene) :
    Frame × Scene :=
  (bare p name path passed).addParams scene 0 p.paramCount.toNat

/-- The frame of a function whose walk has failed: the failure is shown where it arose, and
the open blocks are closed. -/
def abandon (f : Frame) (failure : Failure) (recovered : Option Routine) : Frame :=
  let shown : List Statement := match recovered with
    | none => [.remark (failure.code.word ++ ": " ++ failure.message)]
    | some _ => []
  let (nodes, blocks) := f.blocks.finish f.code.length
  { f with body := f.body ++ shown ++ nodes, blocks := blocks.drain.2 }

end Frame

/-- Leave the function that was entered last. -/
def Context.leave (c : Context) : Context := { c with limits := c.limits.leave }

/-- Recover one function, given builders for the functions inside it.  A failure carries
what was recovered, unless the function could not be entered. -/
def buildWith (p : Prototype) (children : List Child) : Builder := fun name path upvalues c =>
  let (frame, scene) := Frame.start p name path upvalues c.scene
  let c := { c with scene }
  match c.limits.enter with
  | .error failure => .error (.failed failure none) c
  | .ok limits =>
    match Walking.walk children ⟨frame, { c with limits }⟩ with
    | .ok () w => .ok w.frame.routine w.context.leave
    | .error (.failed failure recovered) w =>
      .error (.failed failure (some (w.frame.abandon failure recovered).routine)) w.context.leave
    | .error stop w => .error stop w.context.leave

mutual

/-- Recover a function and all functions inside it that its code reaches. -/
def Prototype.build : Prototype → Builder
  | ⟨instructions, constants, children, name, paramCount, vararg, upvalueCount, upvalueNames⟩ =>
    buildWith
      ⟨instructions, constants, children, name, paramCount, vararg, upvalueCount, upvalueNames⟩
      (Prototype.builders children)

/-- Builders for a list of prototypes. -/
def Prototype.builders : List Prototype → List Child
  | [] => []
  | p :: rest => ⟨p.name, p.upvalueCount, p.build⟩ :: Prototype.builders rest

end

namespace Prototype

theorem build_eq (p : Prototype) : p.build = buildWith p (builders p.children) := by
  cases p
  rw [build]

theorem builders_eq (ps : List Prototype) :
    builders ps = ps.map fun p => ⟨p.name, p.upvalueCount, p.build⟩ := by
  induction ps with
  | nil => rw [builders, List.map_nil]
  | cons p rest ih => rw [builders, ih, List.map_cons]

end Prototype

end LuaRecovery

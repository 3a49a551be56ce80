/-
One instruction.

Every opcode has a step that changes the registers and emits statements.  A step tells
how many instructions it took: a compare takes the jump after it, and a closure the
instructions after it that name its upvalues.
-/
import LuaRecovery.Blocks.Condition
import LuaRecovery.Walk.Locals

namespace LuaRecovery.Walking

/-- The comment on a call or return whose number of values is not known. -/
def variableArgs : String := "variable argument count"

/-! ### Loading and storing -/

/-- Whether the constant at an index is a long string. -/
def isLongConstant (index : Int) : Walking Bool := do
  match (← get).frame.registers.constantString? index with
  | some s => queryStrings (·.isLong s)
  | none => pure false

/-- Load a constant.  A long string is written down at once. -/
def loadConstant (i : Instruction) : Walking Unit := do
  flushUnread i.a
  spell (·.frame.registers.spelledConstant i.b)
  let value := (← get).frame.registers.constantSlot i.b
  modifyRegisters (·.lookUp i.b)
  if ← isLongConstant i.b then
    let _ ← bindLocal i.a value none
  else modifyRegisters (·.setUnread i.a value)

/-- Read an upvalue into a local.  An object stays known through the local. -/
def getUpvalue (i : Instruction) : Walking Unit := do
  let upvalue ← upvalueAt i.b
  let name ← bindLocal i.a (.expression upvalue.name) none
  if upvalue.handle.isSome then setRegister i.a (.object name upvalue.handle)

/-- Assign an upvalue. -/
def setUpvalue (i : Instruction) : Walking Unit := do
  let upvalue ← upvalueAt i.b
  emit (.assign upvalue.name (← readText i.a) false none)

/-- The name of a global by the index of its constant. -/
def globalName (index : Int) : Walking String := do
  spell (·.frame.registers.spelledConstant index)
  let registers := (← get).frame.registers
  modifyRegisters (·.lookUp index)
  match registers.constant? index with
  | some (.string s) => pure s
  | some c => pure c.text
  | none => pure s!"unknown_global_{index}"

/-- What a global stands for in the scene, if that is simulated. -/
def readGlobal (name : String) : Walking (Option Scene.Reading) := do
  if ← simulating then modifyScene fun s => .ok (s.readGlobal name) else pure none

/-- Let a register hold a global.  A service is held as an object. -/
def holdGlobal (reg : Int) (name : String) : Walking Unit := do
  match ← readGlobal name with
  | some reading =>
    if ← query (·.isService (some reading.handle)) then
      holdObject reg reading.text (some reading.handle)
    else setRegister reg (.object reading.text (some reading.handle))
  | none => setRegister reg (.expression (Lua.globalText name))

/-- Read a global. -/
def getGlobal (i : Instruction) : Walking Unit := do
  holdGlobal i.a (← globalName i.b)

/-- Assign a global. -/
def setGlobal (i : Instruction) : Walking Unit := do
  let name ← globalName i.b
  emit (.assign (Lua.globalText name) (← readText i.a) false none)

/-- Let a register hold the field of a value. -/
def holdField (reg : Int) (base key : Slot) : Walking Unit := do
  match base.handle, ← simulating with
  | some handle, true =>
    let reading ← modifyScene fun s => s.read handle key.text base.text
    holdObject reg reading.text (some reading.handle)
  | _, _ => holdObject reg (Lua.fieldAccess base.text key.text) none

/-- Read a field. -/
def getField (i : Instruction) : Walking Unit := do
  let base ← readRegister i.b
  let key ← readOperand i.c
  holdField i.a base key

/-- Assign a field. -/
def setField (i : Instruction) : Walking Unit := do
  let target ← readText i.a
  let key ← readOperand i.b
  let value ← readOperand i.c
  emit (.assign (Lua.fieldAccess target key.text) value.text false none)

/-- The method that a key names: a string literal that is a name between its quotes. -/
def methodOf? (key : Slot) : Option String :=
  if key.isString ∧ 2 ≤ key.text.length then
    let candidate := String.ofList (key.text.toList.drop 1).dropLast
    if Lua.isName candidate then some candidate else none
  else none

/-- Read a method together with its receiver. -/
def selfIndex (i : Instruction) : Walking Unit := do
  let receiver ← readRegister i.b
  let key ← readOperand i.c
  let callee : Slot := match methodOf? key with
    | some method =>
      { kind := .expression, text := receiver.text ++ ":" ++ method
        receiver := receiver.handle, method := some method }
    | none => .expression (Lua.fieldAccess receiver.text key.text)
  setRegister (i.a + 1) receiver
  setRegister i.a callee

/-! ### Operators -/

/-- Let a register hold a term. -/
def holdTerm (reg : Int) (t : Term) : Walking Unit :=
  setRegister reg <| match t.value with
    | some x => .numeral t.text x
    | none => .expression t.text

/-- A slot as an operand: its number counts only if the scene is simulated. -/
def termOf (simulated : Bool) (slot : Slot) : Term :=
  if simulated then slot.term else .symbol slot.text

/-- An arithmetic operation. -/
def arith (op : ArithOp) (i : Instruction) : Walking Unit := do
  let left ← readOperand i.b
  let right ← readOperand i.c
  let simulated ← simulating
  holdTerm i.a (Term.combine op (termOf simulated left) (termOf simulated right))

/-- The negative of a number. -/
def negate (i : Instruction) : Walking Unit := do
  let operand ← readRegister i.b
  holdTerm i.a (termOf (← simulating) operand).negate

/-- An operator before its operand. -/
def unary (sign : String) (i : Instruction) : Walking Unit := do
  let operand ← readRegister i.b
  setRegister i.a (.expression (sign ++ Lua.wrap operand.text))

/-- The concatenation of a range of registers, which has at least one. -/
def concat (i : Instruction) : Walking Unit := do
  let parts ← readTexts (range i.b (max i.b i.c))
  setRegister i.a (.expression (Text.join " .. " (parts.map Lua.wrap)))

/-! ### Calls -/

/-- The registers of an argument list after `base`, and whether their number is a guess.
A count of zero means an open list: up to the results that were held open for it, or
else the bound registers without a gap. -/
def argumentRegisters (base count : Int) : Walking (List Int × Bool) := do
  if count ≠ 0 then return (← listed (base + 1) (base + max 0 (count - 1)), false)
  let frame := (← get).frame
  match frame.top with
  | some top =>
    if base < top then
      modify fun w => { w with frame.top := none }
      return (← listed (base + 1) top, false)
    else return (frame.registers.boundAbove base, true)
  | none => return (frame.registers.boundAbove base, true)

/-- Whether the next instruction takes an open list of values. -/
def feedsOpenList (index : Nat) : Walking Bool := do
  match (← get).frame.code[index + 1]? with
  | some next => return (next.opcode == .call || next.opcode == .ret) && next.b == 0
  | none => return false

/-- The arguments of a method without its receiver. -/
def withoutReceiver (method : Option String) (base : Int) : List Int → List Int
  | reg :: rest => if method.isSome ∧ reg = base + 1 then rest else reg :: rest
  | [] => []

/-- The call as the scene makes it, or as it stands without a scene. -/
def makeCall (site : Scene.CallSite) : Walking Scene.CallOutcome := do
  if ← simulating then modifyScene fun s => s.call site
  else return { callee := site.callee, args := site.args }

/-- Report that the number of values is a guess. -/
def reportGuess (ambiguous : Bool) (message : String) (index : Nat) : Walking Unit :=
  if ambiguous then report .ambiguousArgCount message index else pure ()

/-- The comment on a number of values that is a guess. -/
def guessComment (ambiguous : Bool) : Option String :=
  if ambiguous then some variableArgs else none

/-- Whether the results of a call are held open for the next instruction. -/
def holdsOpen (i : Instruction) (index : Nat) : Walking Bool :=
  if i.c = 0 then feedsOpenList index else pure false

/-- Write the results of a call down: in locals, held open, or as a call that has none. -/
def placeResults (i : Instruction) (index : Nat) (outcome : Scene.CallOutcome)
    (comment : Option String) : Walking Unit := do
  let base := i.a
  let expression := Lua.callText outcome.callee outcome.args
  let results := i.c - 1
  if results = 1 then
    let _ ← bindLocal base (.object expression outcome.handle) comment
  else if 1 < results then
    bindMany (range base (base + results - 1)) expression comment
  else if ← holdsOpen i index then
    setRegister base (.object expression outcome.handle)
    modify fun w => { w with frame.top := some base }
  else
    emit (.call outcome.callee outcome.args comment)
    if (← localOf? base).isNone then clearRegisters [base]

/-- A call. -/
def call (i : Instruction) (index : Nat) : Walking Unit := do
  let base := i.a
  let callee ← readRegister base
  let (registers, ambiguous) ← argumentRegisters base i.b
  let registers := withoutReceiver callee.method base registers
  let args ← readTexts registers
  reportGuess ambiguous ("call to " ++ callee.text ++ " with open argument list") index
  let outcome ← makeCall
    { callee := callee.text, args, calleeHandle := callee.handle, receiver := callee.receiver
      method := callee.method }
  clearRegisters (range (base + 1) (base + max (registers.length : Int) (i.b - 1)))
  placeResults i index outcome (guessComment ambiguous)

/-- A return.  An empty one at the end of the code is left out. -/
def ret (i : Instruction) (index : Nat) : Walking Unit := do
  if i.b = 1 then
    if index + 1 ≠ (← get).frame.code.length then emit (.ret [] none)
  else if 1 < i.b then
    emit (.ret (← readTexts (range i.a (i.a + i.b - 2))) none)
  else
    let (registers, ambiguous) ← argumentRegisters (i.a - 1) 0
    let values ← readTexts registers
    reportGuess ambiguous "return with open value list" index
    emit (.ret values (guessComment ambiguous))

/-! ### Closures -/

/-- The upvalue that a register is for a closure in the register `target` with the local
`name`: any other register has to have a local first. -/
def captureRegister (target : Int) (name : String) (reg : Int) : Walking Upvalue := do
  if reg = target then return { name }
  let slot ← readRegister reg
  return { name := ← ensureNamed reg, handle := slot.handle }

/-- The upvalues that the instructions after a closure name: registers of this function or
its own upvalues. -/
def captures (target : Int) (name : String) : List Instruction → Walking (List Upvalue)
  | [] => pure []
  | i :: rest => do
    match i.opcode with
    | .move =>
      let upvalue ← captureRegister target name i.b
      return upvalue :: (← captures target name rest)
    | .getUpvalue =>
      let upvalue ← upvalueAt i.b
      return upvalue :: (← captures target name rest)
    | _ => pure []

/-- Recover a function written inside this one for a register with the local `name`.  If
that fails, what was recovered of it is still emitted. -/
def buildChild (child : Child) (reg : Int) (name : String) (upvalues : List Upvalue)
    (declares : Bool) : Walking Unit := do
  let w ← get
  match child.build name (w.frame.path ++ "/" ++ name) upvalues w.context with
  | .ok routine context =>
    set { w with context }
    emitBinding [reg] (.define name routine declares none)
  | .error stop context =>
    set { w with context }
    if let .failed _ (some routine) := stop then
      emitBinding [reg] (.define name routine declares none)
    throw stop

/-- The function inside at an index. -/
def childAt? (children : List Child) (index : Int) : Option Child :=
  if 0 ≤ index then children[index.toNat]? else none

/-- A closure of a function that is not there. -/
def missingChild (count : Nat) (i : Instruction) (index : Nat) : Walking Nat := do
  spell fun _ => [i.b]
  let message := s!"closure prototype index {i.b} out of range ({count} children)"
  emit (.remark message)
  report .constantIndexOutOfRange message index
  setRegister i.a (.literal "nil")
  return 0

/-- A closure.  The answer is the number of instructions that name its upvalues. -/
def closure (children : List Child) (i : Instruction) (index : Nat) : Walking Nat := do
  match childAt? children i.b with
  | none => missingChild children.length i index
  | some child =>
    let hint := if child.name = "" then "func" else child.name
    let (name, declares) ← takeLocal i.a (uniqueName hint)
    let following := ((← get).frame.code.drop (index + 1)).take child.upvalueCount.toNat
    let upvalues ← captures i.a name following
    descend
    buildChild child i.a name upvalues declares
    setRegister i.a (.closure name)
    return upvalues.length

/-! ### Control flow -/

/-- A compare, which opens a block.  Two known numbers are compared at once if the scene is
simulated. -/
def compare (rel : Relation) (i : Instruction) (index : Nat) : Walking Unit := do
  match pairedJump (← get).frame.code index with
  | .error failure => throw (.failed failure none)
  | .ok jump =>
    let left ← readOperand i.b
    let right ← readOperand i.c
    let condition :=
      if (← simulating) && left.number.isSome && right.number.isSome then
        negatedIf i.a (Term.compare rel left.term right.term).text
      else conditionText i.a rel left.text right.text
    emitBlocks fun b =>
      let (node, b) := b.openConditional index jump.b condition
      ([node], b)

/-- A jump that no compare precedes. -/
def jump (i : Instruction) (index : Nat) : Walking Unit := do
  spell (·.frame.blocks.spelledJump index i.b)
  emitBlocks (·.jump index i.b)

/-- An opcode that is not recovered. -/
def unknown (i : Instruction) (index : Nat) : Walking Unit := do
  spell fun _ => [i.a, i.b, i.c]
  let message := s!"unknown opcode {i.mnemonic} (A={i.a}, B={i.b}, C={i.c})"
  emit (.remark message)
  report .unknownOpcode message index

/-- Carry out one instruction.  The answer is the number of instructions it took. -/
def step (children : List Child) (i : Instruction) (index : Nat) : Walking Nat := do
  match i.opcode with
  | .move => setRegister i.a (← readRegister i.b); return 1
  | .loadConstant => loadConstant i; return 1
  | .loadBool => setRegister i.a (.literal (if i.b = 0 then "false" else "true")); return 1
  | .loadNil => setRegisters (.literal "nil") (range i.a (max i.a i.b)); return 1
  | .getUpvalue => getUpvalue i; return 1
  | .setUpvalue => setUpvalue i; return 1
  | .getGlobal => getGlobal i; return 1
  | .setGlobal => setGlobal i; return 1
  | .getField => getField i; return 1
  | .setField => setField i; return 1
  | .newTable => let _ ← bindLocal i.a (.expression "\x7b\x7d") none; return 1
  | .selfIndex => selfIndex i; return 1
  | .add => arith .add i; return 1
  | .sub => arith .sub i; return 1
  | .mul => arith .mul i; return 1
  | .div => arith .div i; return 1
  | .mod => arith .mod i; return 1
  | .pow => arith .pow i; return 1
  | .negate => negate i; return 1
  | .invert => unary "not " i; return 1
  | .length => unary "#" i; return 1
  | .concat => concat i; return 1
  | .call => call i index; return 1
  | .ret => ret i index; return 1
  | .closure => return 1 + (← closure children i index)
  | .compareEq => compare .eq i index; return 2
  | .compareLt => compare .lt i index; return 2
  | .compareLe => compare .le i index; return 2
  | .jump => jump i index; return 1
  | .nop => return 1
  | .unknown => unknown i index; return 1

end LuaRecovery.Walking

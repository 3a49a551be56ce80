/-
Open blocks.

A block is opened by a marker when its header is met.  A branch is closed at a known
index, so its closing is pending there; a loop is closed by the jump that goes back.
The stack holds the open blocks, innermost first, and a block is open exactly while it
is on the stack.  Closing a block closes the blocks inside it first, each with a
remark, so the markers always nest.
-/
import LuaRecovery.Blocks.Loops
import LuaRecovery.Diagnostic
import LuaRecovery.Statement

namespace LuaRecovery

/-- The two kinds of blocks. -/
inductive BlockKind where
  | branch | loop
  deriving DecidableEq, Repr

/-- The word for a kind of block. -/
def BlockKind.word : BlockKind → String
  | branch => "if"
  | loop => "while"

/-- An open block. -/
structure Block where
  /-- The number that tells a block from all others. -/
  id : Nat
  kind : BlockKind
  openedAt : Int
  /-- Where a branch is closed. -/
  endIndex : Option Int := none
  hasElse : Bool := false
  deriving DecidableEq, Repr

/-- The open blocks of a function, the markers that are pending, and the loops that are
still to open. -/
structure Blocks where
  headers : Table Int Nat := {}
  closers : List Int := []
  stack : List Block := []
  /-- At each index, the blocks to divide or close there. -/
  pending : Table Int (List (Nat × MarkerRole)) := {}
  anomalies : List (Int × String) := []
  nextId : Nat := 0

namespace Blocks

/-- No block is open, and the loops of the code are known. -/
def ofCode (code : List Instruction) : Blocks :=
  let loops := Loops.find code
  { headers := loops.headers, closers := loops.closers }

/-- The number of open blocks. -/
def depth (b : Blocks) : Nat := b.stack.length

/-- Whether a block is open. -/
def isOpen (b : Blocks) (id : Nat) : Bool := b.stack.any (·.id == id)

/-- The indexes at which markers are pending, in increasing order. -/
def pendingIndexes (b : Blocks) : List Int :=
  ((b.pending.filterValues fun items => !items.isEmpty).keys).mergeSort fun i j => decide (i ≤ j)

/-- Note an anomaly at an index. -/
def note (b : Blocks) (index : Int) (text : String) : Blocks :=
  { b with anomalies := b.anomalies ++ [(index, text)] }

/-- Open a block. -/
def push (b : Blocks) (kind : BlockKind) (openedAt : Int) (endIndex : Option Int) : Blocks :=
  { b with stack := ⟨b.nextId, kind, openedAt, endIndex, false⟩ :: b.stack, nextId := b.nextId + 1 }

/-- Let a marker be pending at an index. -/
def schedule (b : Blocks) (index : Int) (item : Nat × MarkerRole) : Blocks :=
  { b with pending := b.pending.insert index ((b.pending.get? index).getD [] ++ [item]) }

/-! ### Closing -/

/-- A block in words. -/
def describe (block : Block) : String := s!"{block.kind.word} block opened at {block.openedAt}"

/-- The statements for a block that is closed by a block around it. -/
def closedEarly (block : Block) : List Statement :=
  [.remark (describe block ++ " closed early"), .closing]

/-- Close a block, and before it the blocks inside it. -/
def close (b : Blocks) (id : Nat) (index : Int) : List Statement × Blocks :=
  let inner := b.stack.takeWhile (·.id != id)
  let rest := b.stack.dropWhile (·.id != id)
  let notes := inner.map fun block =>
    (index, describe block ++ " closed early by enclosing block")
  let nodes := inner.flatMap closedEarly ++ if rest.isEmpty then [] else [.closing]
  (nodes, { b with stack := rest.tail, anomalies := b.anomalies ++ notes })

/-- Carry out a pending marker of a block, unless the block is closed. -/
def settle (b : Blocks) (index : Int) (item : Nat × MarkerRole) : List Statement × Blocks :=
  if b.isOpen item.1 then
    if item.2 = .divides then ([.dividing], b) else b.close item.1 index
  else ([], b)

/-- Carry out pending markers in order. -/
def settleAll (b : Blocks) (index : Int) : List (Nat × MarkerRole) → List Statement × Blocks
  | [] => ([], b)
  | item :: rest =>
    let (nodes, b) := b.settle index item
    let (more, b) := b.settleAll index rest
    (nodes ++ more, b)

/-- Open a number of loops without condition. -/
def openLoops (b : Blocks) (index : Int) : Nat → List Statement × Blocks
  | 0 => ([], b)
  | count + 1 =>
    let (nodes, b) := (b.push .loop index none).openLoops index count
    (.marker "while true do" .opens :: nodes, b)

/-- The place of a block on the stack, from the innermost; past all of them if it is
closed. -/
def rank (b : Blocks) (id : Nat) : Nat := b.stack.findIdx (·.id == id)

/-- The pending markers at an index, those of inner blocks first. -/
def dueItems (b : Blocks) (index : Int) : List (Nat × MarkerRole) :=
  ((b.pending.get? index).getD []).mergeSort fun x y => decide (b.rank x.1 ≤ b.rank y.1)

/-- Carry out the markers that are pending at an index. -/
def settleDue (b : Blocks) (index : Int) : List Statement × Blocks :=
  { b with pending := b.pending.erase index }.settleAll index (b.dueItems index)

/-- Open the loops that start at an index. -/
def openDue (b : Blocks) (index : Int) : List Statement × Blocks :=
  { b with headers := b.headers.erase index }.openLoops index ((b.headers.get? index).getD 0)

/-- The markers to emit before what the instruction at an index gives: the pending ones, and
then the loops that start there. -/
def due (b : Blocks) (index : Int) : List Statement × Blocks :=
  let (nodes, b) := b.settleDue index
  let (loops, b) := b.openDue index
  (nodes ++ loops, b)

/-! ### Jumps -/

/-- Open the block of a compare at an index whose jump has the given offset: a loop if the
jump goes backward, else a branch that ends where it goes. -/
def openConditional (b : Blocks) (index offset : Int) (condition : String) :
    Statement × Blocks :=
  if offset < 0 then
    (.marker ("while " ++ condition ++ " do") .opens, b.push .loop index none)
  else
    let target := jumpTarget (index + 1) offset
    let opened := b.push .branch index (some target)
    (.marker ("if " ++ condition ++ " then") .opens, opened.schedule target (b.nextId, .closes))

/-- Whether an index does not lie past the end of the innermost of some blocks. -/
def endsInside (target : Int) : List Block → Bool
  | [] => true
  | block :: _ => block.endIndex.all fun e => decide (target ≤ e)

/-- The branch that the jump at `index` to `target` gives an else part: the innermost
block, if it is a branch without one that ends after the jump, nothing else is pending
there, and the target does not lie past the end of the block around it. -/
def elseBranch? (b : Blocks) (index target : Int) : Option Block :=
  match b.stack with
  | [] => none
  | inner :: outer =>
    let waiting := ((b.pending.get? (index + 1)).getD []).filter fun item => b.isOpen item.1
    if inner.kind = .branch ∧ !inner.hasElse ∧ inner.endIndex = some (index + 1)
        ∧ waiting.map (·.1) = [inner.id] ∧ endsInside target outer then some inner
    else none

/-- Give the innermost branch an else part that starts after the jump and ends at its
target. -/
def addElse (b : Blocks) (inner : Block) (index target : Int) : Blocks :=
  let stack := { inner with hasElse := true, endIndex := some target } :: b.stack.tail
  let pending := b.pending.insert (index + 1) [(inner.id, .divides)]
  { b with stack, pending }.schedule target (inner.id, .closes)

/-- The innermost loop. -/
def innermostLoop? (b : Blocks) : Option Block := b.stack.find? (·.kind == .loop)

/-- The remark for a jump that is not structured. -/
def gotoRemark (target : Int) : Statement := .remark s!"goto {target}"

/-- What a jump that no compare precedes gives. -/
def jump (b : Blocks) (index offset : Int) : List Statement × Blocks :=
  let target := jumpTarget index offset
  if b.closers.contains index then
    match b.innermostLoop? with
    | some loop => b.close loop.id index
    | none => ([gotoRemark target], b.note index s!"loop back-edge at {index} has no open loop")
  else if offset < 0 then ([gotoRemark target], b)
  else match b.elseBranch? index target with
    | some inner => ([], b.addElse inner index target)
    | none => ([], b)

/-- The integers that such a jump writes: its target if there is no block for it. -/
def spelledJump (b : Blocks) (index offset : Int) : List Int :=
  if (if b.closers.contains index then b.innermostLoop?.isNone else offset < 0) then
    [jumpTarget index offset]
  else []

/-! ### The end of the code -/

/-- Emit the markers due at each index in order. -/
def dueAll (b : Blocks) : List Int → List Statement × Blocks
  | [] => ([], b)
  | index :: rest =>
    let (nodes, b) := b.due index
    let (more, b) := b.dueAll rest
    (nodes ++ more, b)

/-- The statements for a block that is open at the end. -/
def unterminated (block : Block) : List Statement :=
  [.remark ("unterminated " ++ describe block), .closing]

/-- Carry out what is pending and close what is open. -/
def finish (b : Blocks) (endIndex : Int) : List Statement × Blocks :=
  let (nodes, b) := b.dueAll b.pendingIndexes
  let notes := b.stack.map fun block =>
    (endIndex, describe block ++ " left open at end of function")
  (nodes ++ b.stack.flatMap unterminated,
    { b with stack := [], anomalies := b.anomalies ++ notes })

/-- The anomalies noted so far, and the blocks without them. -/
def drain (b : Blocks) : List (Int × String) × Blocks :=
  (b.anomalies, { b with anomalies := [] })

end Blocks

/-! ### The jump of a compare -/

/-- The instruction after the compare at an index, which has to be a jump. -/
def checkPair (index : Int) : Option Instruction → Except Failure Instruction
  | none => .error ⟨.trailingCompare index, some index⟩
  | some i =>
    if i.opcode = .jump then .ok i
    else .error ⟨.unpairedCompare index i.mnemonic, some index⟩

/-- The jump that follows the compare at an index. -/
def pairedJump (code : List Instruction) (index : Nat) : Except Failure Instruction :=
  checkPair index code[index + 1]?

/-- Why no jump is found for an index. -/
inductive PairFault where
  | failed (failure : Failure)
  /-- The index counts from the end, past the first instruction. -/
  | outOfRange

/-- The message for an index without a jump. -/
def PairFault.message : PairFault → String
  | failed failure => failure.message
  | outOfRange => "list index out of range"

/-- The jump that follows an index, where the instructions before the first one are counted
from the end of the code. -/
def pairedJumpAt (code : List Instruction) (index : Int) : Except PairFault Instruction :=
  if -1 ≤ index then (checkPair index code[(index + 1).toNat]?).mapError .failed
  else match code.reverse[(-index - 2).toNat]? with
    | some i => (checkPair index (some i)).mapError .failed
    | none => .error .outOfRange

end LuaRecovery

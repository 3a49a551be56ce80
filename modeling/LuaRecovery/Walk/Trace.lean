/-
The trace of a walk.

After each instruction the trace gets a record with the instruction, the statements it
gave and what the registers hold.
-/
import LuaRecovery.Walk.Basic

namespace LuaRecovery

/-- A statement in one line. -/
def Statement.summary : Statement → String
  | .assign target value declares _ =>
    (if declares then "local " else "") ++ target ++ " = " ++ value
  | .define target routine declares _ =>
    (if declares then "local " else "") ++ target ++ " = " ++ routine.name
  | .call callee args _ => Lua.callText callee args
  | .ret values _ => Text.trimEnd ("return " ++ Text.commaList values)
  | .marker text _ => text
  | .verbatim text => text
  | .function routine => "function " ++ routine.name
  | .foreign value => value.display

/-- The first text unless it is empty. -/
def textOr (text fallback : String) : String := if text = "" then fallback else text

/-- The record for an instruction, the statements it gave and the registers after it. -/
def traceRecord (index : Nat) (i : Instruction) (emitted : List Statement)
    (registers : List (Int × String)) : String :=
  let place := String.ofList (Text.zeroPadded 4 index)
  let statements := Text.join " | " (emitted.map Statement.summary)
  let held := Text.commaList (registers.map fun e => s!"r{e.1}={e.2}")
  s!"[{place}] {i.mnemonic} A={i.a} B={i.b} C={i.c} => "
    ++ textOr statements "<no-op>" ++ " || registers: " ++ textOr held "<empty>"

/-- The record at the start of a function. -/
def openingRecord (path : String) (instructions constants children : Nat) : String :=
  s!"Building {path} (instructions={instructions}, constants={constants}, children={children})"

namespace Walking

/-- Add a record to the trace. -/
def log (record : String) : Walking Unit :=
  modify fun w => { w with context := w.context.log record }

/-- Trace an instruction; the statements it gave are those after the first `mark`. -/
def traceStep (index : Nat) (i : Instruction) (mark : Nat) : Walking Unit := do
  spell fun w =>
    if w.context.limits.host.traced then w.frame.registers.slots.keys ++ [i.a, i.b, i.c] else []
  let frame := (← get).frame
  log (traceRecord index i (frame.body.drop mark) frame.registers.snapshot)

end Walking

end LuaRecovery

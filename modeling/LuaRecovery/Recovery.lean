/-
Recovering the text of a program.

A payload is loaded, the function in it is walked, and what was recovered is laid out,
renamed if the caller wishes so, and put between a header and the listings of calls and
strings.  A payload that is no function is rejected.  A failure on the way does not lose
what was recovered before it: the text then says that it is partial, and why.
-/
import LuaRecovery.Outline
import LuaRecovery.Lua.Renaming
import LuaRecovery.Prototype.Load
import LuaRecovery.Report.Listing
import LuaRecovery.Walk.Build

namespace LuaRecovery

/-- What a recovery gives. -/
structure Recovery where
  text : String
  routine : Option Routine := none
  calls : List Scene.CallRecord := []
  strings : List Report.StringReference := []
  diagnostics : List Diagnostic := []
  failure : Option Failure := none
  /-- The names that were changed. -/
  renames : List (String × String) := []
  /-- How often each variable occurs, if the caller renames them. -/
  identifiers : Option (Table String Nat) := none
  /-- The records of the trace. -/
  trace : List String := []

/-- What a recovery cannot answer for. -/
inductive Recovery.Fault where
  /-- A number of the payload is too large, or the payload is nested too deep. -/
  | load (fault : LoadFault)
  | scene (fault : Scene.Fault)
  | layout (fault : LayoutFault)
  | option (fault : OptionFault)
  /-- The host cannot go on. -/
  | host (fault : HostFault)

namespace Recovery

/-- The name of the outermost function. -/
def rootName : String := "main"

/-- The first lines of a recovered text. -/
def headerLines : List String :=
  ["-- Decompiled with High-Level Flow Recovery", "-- Target: Roblox / Moonsec VM"]

/-- The header, if it is wanted. -/
def header (o : Options) : List String := if o.header.isOn then headerLines else []

/-- The line that says that a text is partial. -/
def partialLine (f : Failure) : String :=
  "-- PARTIAL OUTPUT (" ++ f.code.word ++ "): " ++ f.message

/-! ### Accepting an input -/

/-- The function in a payload, why the payload is rejected, or a fault. -/
def accept (payload : Payload) (host : Host := {}) : Except Fault (Except Rejection Prototype) :=
  match payload with
  | .null => .ok (.error .noFunction)
  | .object _ =>
    match Prototype.load payload host with
    | .error .integerTooLarge => .error (.load .integerTooLarge)
    | .error .tooNested => .error (.load .tooNested)
    | .error fault => .ok (.error (.invalidPayload fault))
    | .ok p => .ok (.ok p)
  | _ => .ok (.error (.notAFunction payload.kind))

/-- The answer to a rejected input. -/
def rejected (o : Options) (why : Rejection) : Recovery :=
  let failure : Failure := ⟨.rejected why, none⟩
  { text := Text.join "\n" (header o ++ [partialLine failure]) ++ "\n"
    diagnostics := [failure.diagnostic rootName]
    failure := some failure }

/-! ### Walking, laying out and renaming -/

/-- The outcome of the walk: what was recovered, the failure that ended it, and the context
in which the failure is reported. -/
def walked (p : Prototype) (c : Context) :
    Except Fault (Routine × Option Failure × Context) :=
  match (p.build rootName rootName []).run c with
  | .ok routine c => .ok (routine, none, c)
  | .error (.failed failure recovered) c =>
    .ok (recovered.getD { name := rootName }, some failure, c.report (failure.diagnostic rootName))
  | .error (.scene fault) _ => .error (.scene fault)
  | .error (.option fault) _ => .error (.option fault)
  | .error (.host fault) _ => .error (.host fault)

/-- The text of a body.  Where the blocks do not nest this is reported, and they are laid
out as they are. -/
def layOut (width : Nat) (r : Routine) (c : Context) : Except Fault (String × Context) :=
  match ({ width } : Layout).bodyText r with
  | .ok text => .ok (text, c)
  | .error (.unprintable shown) => .error (.layout (.unprintable shown))
  | .error fault =>
    match ({ width, lenient := true } : Layout).bodyText r with
    | .ok text => .ok (text, c.report ⟨.unbalancedBlock, fault.message, rootName, none⟩)
    | .error fault => .error (.layout fault)

/-- Make sure that the lines of a routine can be indented. -/
def checkIndent (host : Host) (width : Nat) (r : Routine) : Except Fault Unit :=
  match Layout.indentFault? host width r with
  | some fault => .error (.host fault)
  | none => .ok ()

/-- Report a body that the parser does not accept, if this is to be checked. -/
def checkGrammar (o : Options) (failure : Option Failure) (body : String) (c : Context)
    (host : Host := {}) : Context :=
  if o.validateSyntax.isOn && failure.isNone && !host.accepts body then
    c.report ⟨.outputSyntax, "", rootName, none⟩
  else c

/-! ### The text -/

/-- The listings that are wanted. -/
def trailer (o : Options) (calls : List Scene.CallRecord) (strings : List Report.StringReference) :
    List String :=
  (if o.includeCallGraph.isOn then Report.callLines calls else [])
    ++ (if o.includeStringRefs.isOn then Report.stringLines strings else [])

/-- The whole text around a body. -/
def assemble (o : Options) (failure : Option Failure) (body : String)
    (calls : List Scene.CallRecord) (strings : List Report.StringReference) : String :=
  let above := header o ++ (failure.map partialLine).toList
  let gap := if above.isEmpty || body = "" then [] else [""]
  let below := trailer o calls strings
  let lines := above ++ gap ++ (if body = "" then [] else [body])
    ++ (if below.isEmpty then [] else "" :: below)
  Text.trimEnd (Text.join "\n" lines) ++ "\n"

/-! ### The trace -/

/-- A limit in the trace. -/
def limitText : Option Int → String
  | some limit => toString limit
  | none => "None"

/-- A truth value in the trace. -/
def truthText (b : Bool) : String := if b then "True" else "False"

/-- A switch in the trace. -/
def switchText : Switch → String
  | some on => truthText on
  | none => "None"

/-- The first record of a trace. -/
def startRecord (p : Prototype) (o : Options) : String :=
  "Starting decompiler (instructions=" ++ toString p.instructions.length
    ++ ", max_depth=" ++ limitText o.maxDepth ++ ", budget=" ++ limitText o.budget
    ++ ", simulate=" ++ switchText o.simulate ++ ")"

/-- The last record of a trace. -/
def endRecord (c : Context) (failure : Option Failure) : String :=
  "Decompiler finished (instructions=" ++ toString c.limits.instructions
    ++ ", depth=" ++ toString c.limits.maxDepthSeen
    ++ ", diagnostics=" ++ toString c.diagnostics.length
    ++ ", partial=" ++ truthText failure.isSome ++ ")"

/-! ### Everything together -/

/-- The context in which a function is walked: that of a fresh run whose trace has begun. -/
def startContext (p : Prototype) (o : Options) (host : Host := {}) : Context :=
  (Context.start o host).log (startRecord p o)

/-- Recover the text of a function.  `proposal` holds the names that the caller would like
to change, if it wants to change any. -/
def ofPrototype (p : Prototype) (o : Options) (proposal : Option (List (String × Payload)))
    (host : Host := {}) : Except Fault Recovery :=
  if p.instructions.isEmpty then .ok (rejected o .noInstructions)
  else do
    let (routine, failure, c) ← walked p (startContext p o host)
    let width ← o.levelWidth.mapError .option
    checkIndent host width routine
    let (body, c) ← layOut width routine c
    let renames := (proposal.map Lua.accepted).getD []
    let renamed := Lua.rename body renames
    let c := checkGrammar o failure renamed c host
    let c := c.log (endRecord c failure)
    .ok
      { text := assemble o failure renamed c.scene.calls c.strings.references
        routine := some routine
        calls := c.scene.calls
        strings := c.strings.references
        diagnostics := c.diagnostics
        failure
        renames
        identifiers := proposal.map fun _ => Lua.occurrences body
        trace := c.trace }

/-- Recover the text of the function in a payload. -/
def ofPayload (payload : Payload) (o : Options) (proposal : Option (List (String × Payload)))
    (host : Host := {}) : Except Fault Recovery := do
  match ← accept payload host with
  | .error why => .ok (rejected o why)
  | .ok p => ofPrototype p o proposal host

end Recovery

end LuaRecovery

/-
Laying statements out as lines.

Every line is indented by its level.  An opening marker raises the level for the lines
after it, a closing marker lowers it before its own line, and a dividing marker does
both.  The level of a body never falls below the level the body starts at, its floor.

A strict layout refuses a marker that would take the level below the floor and a body
that ends above it; a lenient one keeps the level at the floor and goes on.
-/
import LuaRecovery.Statement
import LuaRecovery.Payload.Display

namespace LuaRecovery

/-- Why a routine is not laid out. -/
inductive LayoutFault where
  /-- A marker closes or divides a block and none is open. -/
  | stray (marker : String)
  /-- Blocks are open at the end of a body. -/
  | leftOpen (count : Nat)
  /-- A body holds something that is no statement. -/
  | unprintable (value : Payload)

/-- The message for a routine that is not laid out. -/
def LayoutFault.message : LayoutFault → String
  | stray marker => s!"printer indentation error: '{marker}' without an open block"
  | leftOpen count =>
    s!"printer indentation error: {count} block(s) left open at end of function body"
  | unprintable value => "Cannot print node " ++ value.display

/-- How statements are laid out. -/
structure Layout where
  /-- The number of spaces for one level. -/
  width : Nat := 4
  /-- Whether markers that do not nest are let through. -/
  lenient : Bool := false

namespace Layout

/-- The lines so far and the level of the next one. -/
structure Page where
  lines : List String := []
  level : Nat := 0

namespace Page

/-- The page with one more line at the current level. -/
def line (p : Page) (width : Nat) (text : String) : Page :=
  { p with lines := p.lines ++ [String.ofList (List.replicate (width * p.level) ' ') ++ text] }

/-- The page one level further in. -/
def indent (p : Page) : Page := { p with level := p.level + 1 }

/-- The page at a given level. -/
def atLevel (p : Page) (level : Nat) : Page := { p with level }

end Page

/-- A line with its comment, if it has one that is not empty. -/
def withComment (text : String) : Option String → String
  | some comment => if comment = "" then text else text ++ " -- " ++ comment
  | none => text

/-- The parameters of a routine, with the dots of a variable argument list. -/
def paramList (params : List String) (vararg : Bool) : String :=
  Text.commaList (if vararg then params ++ ["..."] else params)

/-- The line that names the upvalues of a routine, if it has any. -/
def upvalueLines (captured : List String) : List String :=
  if captured.isEmpty then [] else ["-- upvalues: " ++ Text.commaList captured]

/-- One level out for a marker, not below the floor. -/
def dedent (l : Layout) (floor : Nat) (marker : String) (p : Page) : Except LayoutFault Page :=
  if p.level ≤ floor then
    if l.lenient then .ok (p.atLevel floor) else .error (.stray marker)
  else .ok (p.atLevel (p.level - 1))

/-- The end of a body, at its floor. -/
def endBody (l : Layout) (floor : Nat) (p : Page) : Except LayoutFault Page :=
  if p.level = floor then .ok p
  else if l.lenient then .ok (p.atLevel floor)
  else .error (.leftOpen (p.level - floor))

/-- The header of a function that an assignment defines. -/
def defineHeader (target : String) (params : List String) (vararg declares : Bool)
    (comment : Option String) : String :=
  let list := paramList params vararg
  withComment (if declares then "local function " ++ target ++ "(" ++ list ++ ")"
      else target ++ " = function(" ++ list ++ ")") comment

/-- The line of a statement that takes one line and opens nothing. -/
def assignLine (target value : String) (declares : Bool) (comment : Option String) : String :=
  withComment ((if declares then "local " else "") ++ target ++ " = " ++ value) comment

/-- The line of a return statement. -/
def returnLine (values : List String) (comment : Option String) : String :=
  withComment (if values.isEmpty then "return" else "return " ++ Text.commaList values) comment

mutual

/-- The page after a function with a given header. -/
def function (l : Layout) (header : String) : RoutineOf Statement → Page → Except LayoutFault Page
  | ⟨_, body, _, captured, _, _, _⟩, p => do
    let base := p.level
    let p := (p.line l.width header).indent
    let p := (upvalueLines captured).foldl (fun p t => p.line l.width t) p
    let p ← l.statements (base + 1) body p
    let p ← l.endBody (base + 1) p
    return (p.atLevel base).line l.width "end"

/-- The page after the statements of a body. -/
def statements (l : Layout) (floor : Nat) : List Statement → Page → Except LayoutFault Page
  | [], p => .ok p
  | s :: rest, p => do
    let p ← l.statement floor s p
    l.statements floor rest p

/-- The page after a statement. -/
def statement (l : Layout) (floor : Nat) : Statement → Page → Except LayoutFault Page
  | .marker text .opens, p => .ok (p.line l.width text).indent
  | .marker text .divides, p => do
    let p ← l.dedent floor text p
    return (p.line l.width text).indent
  | .marker text .closes, p => do
    let p ← l.dedent floor text p
    return p.line l.width text
  | .assign target value declares comment, p =>
    .ok (p.line l.width (assignLine target value declares comment))
  | .define target routine declares comment, p =>
    l.function (defineHeader target routine.params routine.vararg declares comment) routine p
  | .call callee args comment, p =>
    .ok (p.line l.width (withComment (Lua.callText callee args) comment))
  | .ret values comment, p => .ok (p.line l.width (returnLine values comment))
  | .function routine, p =>
    l.function ("function " ++ routine.name ++ "(" ++ paramList routine.params routine.vararg
      ++ ")") routine p
  | .verbatim text, p => .ok (p.line l.width text)
  | .foreign value, _ => .error (.unprintable value)

end

/-- The text of the body of a routine. -/
def bodyText (l : Layout) (r : Routine) : Except LayoutFault String := do
  let p := (upvalueLines r.captured).foldl (fun p t => p.line l.width t) ({} : Page)
  let p ← l.statements 0 r.body p
  let p ← l.endBody 0 p
  return Text.join "\n" p.lines

/-- The text of a routine as a function definition of its own. -/
def definitionText (l : Layout) (r : Routine) (isLocal : Bool) : Except LayoutFault String := do
  let header := (if isLocal then "local function " else "function ") ++ r.name ++ "("
    ++ paramList r.params r.vararg ++ ")"
  let p ← l.function header r {}
  return Text.join "\n" p.lines

end Layout

end LuaRecovery

/-
The lines of a routine.

`routineLines` has the lines of a routine in order, each with its level and with the level
of the body that it belongs to.  They are the lines that a lenient layout prints, so they
tell how far the text of a routine is indented before it is laid out.
-/
import LuaRecovery.Host
import LuaRecovery.Layout

namespace LuaRecovery

namespace Statement

/-- What a marker does to the nesting of blocks, for a statement that is one. -/
def role? : Statement → Option MarkerRole
  | .marker _ role => some role
  | _ => none

/-- The line of a statement.  For one with a routine it is the header. -/
def line : Statement → String
  | .assign target value declares comment => Layout.assignLine target value declares comment
  | .define target r declares comment =>
    Layout.defineHeader target r.params r.vararg declares comment
  | .call callee args comment => Layout.withComment (Lua.callText callee args) comment
  | .ret values comment => Layout.returnLine values comment
  | .marker text _ => text
  | .verbatim text => text
  | .function r => "function " ++ r.name ++ "(" ++ Layout.paramList r.params r.vararg ++ ")"
  | .foreign _ => ""

/-- The number of open blocks around the line of a statement, if so many are open before it. -/
def depthAt (depth : Nat) (s : Statement) : Nat :=
  match s.role? with
  | some .closes | some .divides => depth - 1
  | _ => depth

/-- The number of blocks that are open after a statement, if so many are open before it. -/
def depthAfter (depth : Nat) (s : Statement) : Nat :=
  match s.role? with
  | some .opens => depth + 1
  | some .divides => depth - 1 + 1
  | some .closes => depth - 1
  | none => depth

end Statement

namespace Layout

/-- A line, with the level of the body that it belongs to. -/
structure Line where
  floor : Nat
  level : Nat
  text : String
  deriving DecidableEq, Repr

/-- A line as it is printed. -/
def Line.render (width : Nat) (line : Line) : String :=
  String.ofList (List.replicate (width * line.level) ' ') ++ line.text

mutual

/-- The lines inside a routine whose body has a level. -/
def routineLines (level : Nat) : Routine → List Line
  | ⟨_, body, _, captured, _, _, _⟩ =>
    (upvalueLines captured).map (Line.mk level level) ++ bodyLines level 0 body

/-- The lines of the rest of a body with a level, with a number of open blocks. -/
def bodyLines (floor depth : Nat) : List Statement → List Line
  | [] => []
  | s :: rest =>
    statementLines floor (floor + s.depthAt depth) s ++ bodyLines floor (s.depthAfter depth) rest

/-- The lines of a statement at a level. -/
def statementLines (floor level : Nat) : Statement → List Line
  | .define target r declares comment =>
    ⟨floor, level, (Statement.define target r declares comment).line⟩ ::
      (routineLines (level + 1) r ++ [⟨floor, level, "end"⟩])
  | .function r =>
    ⟨floor, level, (Statement.function r).line⟩ ::
      (routineLines (level + 1) r ++ [⟨floor, level, "end"⟩])
  | s => [⟨floor, level, s.line⟩]

end

/-- What keeps a host from indenting the lines of a routine, whichever is met first. -/
def indentFault? (h : Host) (width : Nat) (r : Routine) : Option HostFault :=
  (routineLines 0 r).findSome? fun line => h.indentFault? (width * line.level)

end Layout

end LuaRecovery

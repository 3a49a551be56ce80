/-
The trace log.

A trace is written through a log.  Besides the listeners that others attached, the log
has at most one trace file at a time.  Opening a trace detaches the file before it, so
each run writes to a file of its own, and starts the file empty.  A record reaches the
file if it is at least as severe as the level of the log.
-/
import LuaRecovery.Table
import LuaRecovery.Text.Join

namespace LuaRecovery

/-- A log, with the files written so far. -/
structure TraceLog where
  /-- The number of listeners that are no trace files. -/
  listeners : Nat := 1
  /-- The trace file that records go to. -/
  file : Option String := none
  /-- The level below which records are dropped; zero if none was set. -/
  level : Int := 0
  /-- Whether records also go to the logs above this one. -/
  propagates : Bool := true
  /-- The content of each file. -/
  files : Table String String := {}

namespace TraceLog

/-- The level from which on a trace takes records unless it is told otherwise. -/
def defaultLevel : Int := 10

/-- The level that holds where none was set. -/
def inheritedLevel : Int := 30

/-- The parts of a path, without empty ones and ones that stay in place, and with steps
back undone. -/
def pathParts (path : String) : List String :=
  (path.splitOn "/").foldl (fun parts part =>
    if part = "" ∨ part = "." then parts
    else if part = ".." then parts.dropLast
    else parts ++ [part]) []

/-- The one spelling of a path. -/
def plainPath (path : String) : String := Text.join "/" (pathParts path)

/-- The number of listeners, trace files included. -/
def handlers (l : TraceLog) : Nat := l.listeners + if l.file.isSome then 1 else 0

/-- Detach the trace file. -/
def detach (l : TraceLog) : TraceLog := { l with file := none }

/-- How many trace files detaching removes. -/
def attached (l : TraceLog) : Nat := if l.file.isSome then 1 else 0

/-- Start a trace in a file. -/
def openFile (l : TraceLog) (path : String) (level : Int) : TraceLog :=
  { l with
    file := some (plainPath path)
    level
    propagates := false
    files := l.files.insert (plainPath path) "" }

/-- Whether a record of a severity is taken. -/
def takes (l : TraceLog) (severity : Int) : Bool :=
  0 < severity && (if l.level = 0 then inheritedLevel else l.level) ≤ severity

/-- Write a record. -/
def write (l : TraceLog) (severity : Int) (text : String) : TraceLog :=
  match l.file with
  | some path =>
    if l.takes severity then
      { l with files := l.files.insert path ((l.files.get? path).getD "" ++ text ++ "\n") }
    else l
  | none => l

/-- Write records to a file that is open for these only. -/
def writeTo (l : TraceLog) (path : String) (level : Option Int)
    (records : List (Int × String)) : TraceLog :=
  (records.foldl (fun l (severity, text) => l.write severity text)
    (l.openFile path (level.getD defaultLevel))).detach

/-- The files in the order of their paths. -/
def listing (l : TraceLog) : List (String × String) :=
  l.files.entries.mergeSort fun x y => decide (x.1 < y.1) || x.1 == y.1

end TraceLog

end LuaRecovery

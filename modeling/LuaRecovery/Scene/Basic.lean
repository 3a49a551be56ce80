/-
The simulated scene.

While a function is recovered, the objects of the host that its registers may hold are
tracked as numbered records.  An object has a display name that no other object or
local has, a kind, and the place it was read from.  Nothing is executed: the objects
only give names to locals and tell which calls cross the boundary of the script.

The same place is read as the same object: `slots` remembers the object of every
parent and key.  The scene also holds the supply of names, since objects and locals
share one.
-/
import LuaRecovery.NameSupply
import LuaRecovery.Scene.Catalog

namespace LuaRecovery

/-- What kind of host object a record stands for. -/
inductive ObjectKind where
  | service | uiLibrary | numericProxy | generic
  deriving DecidableEq, Repr

/-- The word for a kind of object. -/
def ObjectKind.word : ObjectKind → String
  | service => "service"
  | uiLibrary => "ui_library"
  | numericProxy => "numeric_proxy"
  | generic => "generic"

namespace Scene

/-- The record of an object.  Its parent only says where it was found. -/
structure Object where
  id : Nat
  name : String
  kind : ObjectKind
  parent : Option Nat := none
  key : Option String := none

/-- A call that crosses the boundary of the script. -/
structure CallRecord where
  category : String
  name : String
  args : List String := []

/-- Why an operation of the scene is refused. -/
inductive Fault where
  /-- No object has this number. -/
  | unknownHandle (handle : Nat)

/-- The message for a refused operation. -/
def Fault.message : Fault → String
  | unknownHandle _ => "list index out of range"

end Scene

/-- The objects met so far, where each was found, the recorded calls, and the names in
use. -/
structure Scene where
  names : NameSupply := {}
  objects : List Scene.Object := []
  slots : Table (Option Nat × String) Nat := {}
  calls : List Scene.CallRecord := []

namespace Scene

/-- The number of the root object. -/
def rootHandle : Nat := 0

/-- A scene without objects, for a run that simulates nothing. -/
def blank : Scene := {}

/-- A fresh scene: the root object, whose name is in use. -/
def opened : Scene :=
  { names := NameSupply.reserve {} rootName
    objects := [⟨rootHandle, rootName, .generic, none, none⟩] }

/-- A name that is not in use. -/
def uniqueName (s : Scene) (hint : String) : String × Scene :=
  let (name, names) := s.names.unique hint
  (name, { s with names })

/-- A new object with a fresh name. -/
def add (s : Scene) (hint : String) (kind : ObjectKind) (parent : Option Nat)
    (key : Option String) : Nat × Scene :=
  let handle := s.objects.length
  let (name, s) := s.uniqueName hint
  (handle, { s with objects := s.objects ++ [⟨handle, name, kind, parent, key⟩] })

/-- The object at a place, created if nothing was read there before. -/
def child (s : Scene) (parent : Option Nat) (key : String) (kind : ObjectKind)
    (hint : String) : Nat × Scene :=
  match s.slots.get? (parent, key) with
  | some handle => (handle, s)
  | none =>
    let (handle, s) := s.add hint kind parent (some key)
    (handle, { s with slots := s.slots.insert (parent, key) handle })

/-- The object with a given number. -/
def object (s : Scene) (handle : Nat) : Except Fault Object :=
  match s.objects[handle]? with
  | some o => .ok o
  | none => .error (.unknownHandle handle)

/-- The display name of an object. -/
def nameOf (s : Scene) (handle : Nat) : Except Fault String := (s.object handle).map (·.name)

/-- Whether a handle is that of a service. -/
def isService (s : Scene) : Option Nat → Except Fault Bool
  | some handle => (s.object handle).map (·.kind == .service)
  | none => .ok false

/-- Whether an object belongs to a user-interface library. -/
def isUiLibrary (s : Scene) (handle : Nat) : Except Fault Bool :=
  (s.object handle).map (·.kind == .uiLibrary)

end Scene

end LuaRecovery

/-
Reading, writing and calling in the scene.

These are the three places where recovered code meets the host.  A read gives the
object at the place and the text that reads it; a write is recorded as the text of the
field written; a call may be rewritten to the form in which a script would have
written it, may give an object, and is recorded if it crosses the boundary.
-/
import LuaRecovery.Lua.Access
import LuaRecovery.Scene.Basic

namespace LuaRecovery.Scene

/-- An object that was read and the text that reads it. -/
structure Reading where
  handle : Nat
  text : String

/-- The object of a service, whose name is the short one if the service has one. -/
def service (s : Scene) (key : String) : Nat × Scene :=
  s.child (some rootHandle) key .service ((shortName? key).getD (Lua.sanitize key))

/-- What a global stands for: the root, a service, or nothing that is simulated. -/
def readGlobal (s : Scene) (name : String) : Option Reading × Scene :=
  if name = rootName then (some ⟨rootHandle, rootName⟩, s)
  else match aliasedService? name with
    | some key =>
      let (handle, s) := s.service key
      (some ⟨handle, name⟩, s)
    | none => (none, s)

/-- The kind of the object read under a literal key. -/
def kindUnder (s : Scene) (handle : Nat) (key : String) : Except Fault ObjectKind :=
  (s.isUiLibrary handle).map fun ui =>
    if ui then .uiLibrary
    else if numericProperties.contains key then .numericProxy
    else .generic

/-- Read the field of an object.  A service read from the root is written as a lookup. -/
def read (s : Scene) (handle : Nat) (keyText baseText : String) :
    Except Fault (Reading × Scene) :=
  let text := Lua.fieldAccess baseText keyText
  match Lua.unquote? keyText with
  | none =>
    let (found, s) := s.child (some handle) keyText .generic "field"
    .ok (⟨found, text⟩, s)
  | some key =>
    if handle = rootHandle ∧ (shortName? key).isSome then
      let (found, s) := s.service key
      .ok (⟨found, baseText ++ ":GetService(\"" ++ key ++ "\")"⟩, s)
    else do
      let kind ← s.kindUnder handle key
      let (found, s) := s.child (some handle) key kind key
      return (⟨found, text⟩, s)

/-- The name of the part that a creating method makes: without the word for creating. -/
def createdName (method : String) : String :=
  let cs := method.toList
  match creationWords.find? fun w =>
      w.toList.isPrefixOf cs && decide (w.length < cs.length) with
  | some w => String.ofList (cs.drop w.length)
  | none => method

/-- A new part of a user interface. -/
def uiObject (s : Scene) (method : String) (parent : Option Nat) : Nat × Scene :=
  s.add (createdName method) .uiLibrary parent (some method)

/-- A call as it is made: the text of the callee and the arguments, with what is known of
the callee. -/
structure CallSite where
  callee : String
  args : List String
  calleeHandle : Option Nat := none
  receiver : Option Nat := none
  method : Option String := none

/-- A call as it is written, and the object it gives. -/
structure CallOutcome where
  callee : String
  args : List String
  handle : Option Nat := none
  category : Option String := none

/-- The call before it is recorded.  The first convention that fits applies: a literal
called with a literal is a user-interface library; a call of the root, and a lookup on
it, give a service; a constructor gives a new object; a method of a user-interface
object gives a part of it. -/
def resolve (s : Scene) (site : CallSite) : Except Fault (CallOutcome × Scene) :=
  let plain : CallOutcome := { callee := site.callee, args := site.args }
  let first := (site.args.head?).bind Lua.unquote?
  match Lua.unquote? site.callee, first with
  | some library, some part =>
    let (handle, s) := s.uiObject part none
    .ok ({ callee := Lua.sanitize library ++ ":" ++ Lua.sanitize part
           args := site.args.tail, handle := some handle }, s)
  | _, _ =>
    if site.calleeHandle = some rootHandle ∧ site.args ≠ [] then
      let call := { plain with callee := site.callee ++ ":GetService" }
      match first with
      | some key =>
        let (handle, s) := s.service key
        .ok ({ call with handle := some handle }, s)
      | none => .ok (call, s)
    else if site.receiver = some rootHandle ∧ site.method.any isServiceLookup ∧ first.isSome then
      let (handle, s) := s.service (first.getD "")
      .ok ({ plain with handle := some handle }, s)
    else if isConstructor site.callee ∧ first.isSome then
      let (handle, s) := s.add (first.getD "") .generic none none
      .ok ({ plain with handle := some handle }, s)
    else match site.receiver, site.method with
      | some receiver, some method => do
        if ← s.isUiLibrary receiver then
          let (handle, s) := s.uiObject method (some receiver)
          return ({ plain with handle := some handle }, s)
        else return (plain, s)
      | _, _ => .ok (plain, s)

/-- Make a call: resolve it, and record it if its callee crosses the boundary. -/
def call (s : Scene) (site : CallSite) : Except Fault (CallOutcome × Scene) := do
  let (outcome, s) ← s.resolve site
  match category? outcome.callee with
  | some category =>
    let record : CallRecord := ⟨category, outcome.callee, outcome.args⟩
    return ({ outcome with category := some category }, { s with calls := s.calls ++ [record] })
  | none => return (outcome, s)

end LuaRecovery.Scene

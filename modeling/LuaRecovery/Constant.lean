/-
Constants.

The virtual machine has four kinds of constants.  A payload gives one as a plain value,
as a byte string with one character per byte, or as an object that names the kind.
-/
import LuaRecovery.Payload.Coerce
import LuaRecovery.Lua.Number
import LuaRecovery.Lua.Quote

namespace LuaRecovery

/-- A constant of a prototype. -/
inductive Constant where
  | nil
  | bool (b : Bool)
  | number (x : Float)
  | string (s : String)
  deriving Inhabited

namespace Constant

/-- The literal for a constant. -/
def text : Constant → String
  | nil => "nil"
  | bool b => if b then "true" else "false"
  | number x => Lua.numberText x
  | string s => Lua.quote s

/-- The kind that an object names: the field `type`, or `kind` if that is not given, in
small letters. -/
def kindOf (h : Host) (fields : List (String × Payload)) : Except LoadFault String :=
  let field k := ((Payload.field? fields k).filter Payload.isTruthy)
  let named := ((field "type").or (field "kind")).getD (.text "")
  (named.textOn h).map fun text => String.ofList (text.toList.map Char.toLower)

/-- The constant of a kind with a value; `none` for a kind that there is not. -/
def ofKind (h : Host) (kind : String) (inner : Payload) : Except LoadFault (Option Constant) :=
  if kind ∈ ["nil", "null"] then .ok (some nil)
  else if kind ∈ ["bool", "boolean"] then .ok (some (bool inner.isTruthy))
  else if kind ∈ ["number", "num", "int", "float"] then inner.toFloat.map fun x => some (number x)
  else if kind ∈ ["string", "str"] then (inner.textOn h).map fun s => some (string s)
  else .ok none

/-- The constant that an object gives by kind and value. -/
def ofTyped (h : Host) (fields : List (String × Payload)) : Except LoadFault (Option Constant) := do
  ofKind h (← kindOf h fields) ((Payload.field? fields "value").getD .null)

/-- The constant that a payload gives. -/
def ofPayload (h : Host) (p : Payload) : Except LoadFault Constant :=
  match p with
  | .null => .ok nil
  | .bool b => .ok (bool b)
  | .int n => (Payload.floatOfInt n).map number
  | .float x => .ok (number x)
  | .bytes bs => .ok (string (String.ofList (bs.map fun b => Char.ofNat b.toNat)))
  | .text s => .ok (string s)
  | .object fields => do
    match ← ofTyped h fields with
    | some c => return c
    | none => throw (p.refusal h (.unsupportedConstant p))
  | .list _ => .error (p.refusal h (.unsupportedConstant p))

end Constant

end LuaRecovery

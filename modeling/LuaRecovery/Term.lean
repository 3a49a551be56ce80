/-
Numeric terms.

A term is a text together with the float it is known to be, if it is known.  An
operation on two known terms is carried out, and its result is known if it is finite;
otherwise the result is the text of the operation.
-/
import LuaRecovery.Arith
import LuaRecovery.Lua.Grouping
import LuaRecovery.Lua.Number
import LuaRecovery.Payload.Coerce

namespace LuaRecovery

/-- A text and the float it is known to be. -/
structure Term where
  text : String
  value : Option Float := none

/-- The outcome of a comparison: its text, and its truth if that is known. -/
structure Verdict where
  text : String
  truth : Option Bool := none

/-- The outcome of a comparison that was carried out. -/
def Verdict.ofBool (truth : Bool) : Verdict := ⟨if truth then "true" else "false", some truth⟩

/-- The text of an operation on two texts. -/
def operationText (sign left right : String) : String :=
  Lua.wrap left ++ " " ++ sign ++ " " ++ Lua.wrap right

/-- The text of the negative of a text. -/
def negativeText (text : String) : String := "-" ++ Lua.wrap text

namespace Term

/-- A known number. -/
def known (x : Float) : Term := ⟨Lua.numberText x, some x⟩

/-- A text of unknown value. -/
def symbol (text : String) : Term := ⟨text, none⟩

/-- A truth value as a term. -/
def ofBool (b : Bool) : Term := symbol (if b then "true" else "false")

/-- The term that a payload gives: numbers are known, anything else is its text. -/
def ofPayload : Payload → Except LoadFault Term
  | .bool b => .ok (ofBool b)
  | .int n => (Payload.floatOfInt n).map known
  | .float x => .ok (known x)
  | p => .ok (symbol p.asText)

/-- The number that an operation on two terms gives, if it is known and finite. -/
def fold? (op : ArithOp) (l r : Term) : Option Float :=
  match l.value, r.value with
  | some x, some y => (op.carryOut? x y).filter Float.isFinite
  | _, _ => none

/-- An operation on two terms. -/
def combine (op : ArithOp) (l r : Term) : Term :=
  match fold? op l r with
  | some z => known z
  | none => symbol (operationText op.sign l.text r.text)

/-- The negative of a term. -/
def negate (t : Term) : Term :=
  match t.value with
  | some x => known (-x)
  | none => symbol (negativeText t.text)

/-- A comparison of two terms. -/
def compare (rel : Relation) (l r : Term) : Verdict :=
  match l.value, r.value with
  | some x, some y => Verdict.ofBool (rel.holds x y)
  | _, _ => ⟨operationText rel.sign l.text r.text, none⟩

end Term

end LuaRecovery

/-
Recovered statements.

A routine is a function in recovered form: a name, parameters and a body.  A body is a
flat list of statements; blocks are shown by markers that open, divide and close them.
Texts inside statements are finished Lua text.
-/
import LuaRecovery.Lua.Access
import LuaRecovery.Payload

namespace LuaRecovery

/-- What a marker does to the nesting of blocks. -/
inductive MarkerRole where
  | opens | divides | closes
  deriving DecidableEq, Repr

/-- The word for the role of a marker. -/
def MarkerRole.word : MarkerRole → String
  | opens => "open"
  | divides => "middle"
  | closes => "close"

/-- An assignment that binds registers: its place in the body, and the registers whose
locals it assigns. -/
structure Binding where
  place : Nat
  registers : List Int
  deriving DecidableEq, Repr

/-- A function in recovered form over a type of statements. -/
structure RoutineOf (σ : Type) where
  name : String
  body : List σ := []
  /-- Whether the prototype had no name. -/
  anonymous : Bool := true
  /-- The upvalues it refers to, in order of first use. -/
  captured : List String := []
  params : List String := []
  vararg : Bool := true
  /-- The assignments of the body that bind registers, in order. -/
  bindings : List Binding := []

/-- A recovered statement. -/
inductive Statement where
  /-- An assignment of an expression. -/
  | assign (target value : String) (declares : Bool) (comment : Option String)
  /-- An assignment of a function. -/
  | define (target : String) (routine : RoutineOf Statement) (declares : Bool)
      (comment : Option String)
  | call (callee : String) (args : List String) (comment : Option String)
  | ret (values : List String) (comment : Option String)
  | marker (text : String) (role : MarkerRole)
  /-- A line of text as it is. -/
  | verbatim (text : String)
  /-- A function that stands by itself. -/
  | function (routine : RoutineOf Statement)
  /-- Something that is no statement. -/
  | foreign (value : Payload)

/-- A function in recovered form. -/
abbrev Routine := RoutineOf Statement

instance : Inhabited Statement := ⟨.verbatim ""⟩

namespace Statement

/-- A marker that closes a block. -/
def closing : Statement := marker "end" .closes

/-- A marker that divides a block. -/
def dividing : Statement := marker "else" .divides

/-- A line that is a comment. -/
def remark (text : String) : Statement := verbatim ("-- " ++ text)

end Statement

end LuaRecovery

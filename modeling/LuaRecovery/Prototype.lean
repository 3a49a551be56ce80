/-
Function prototypes.

A prototype is the compiled form of one function: its code, its constants, and the
prototypes of the functions written inside it.
-/
import LuaRecovery.Constant
import LuaRecovery.Instruction

namespace LuaRecovery

/-- The compiled form of one function. -/
structure Prototype where
  instructions : List Instruction := []
  constants : List Constant := []
  children : List Prototype := []
  name : String := ""
  paramCount : Int := 0
  vararg : Bool := true
  upvalueCount : Int := 0
  upvalueNames : List String := []
  deriving Inhabited

/-- What holds of a prototype whenever it holds of its children holds of every prototype. -/
theorem Prototype.induct_children {motive : Prototype → Prop}
    (h : ∀ p : Prototype, (∀ child ∈ p.children, motive child) → motive p) (p : Prototype) :
    motive p := by
  refine @Prototype.rec motive (fun children => ∀ child ∈ children, motive child) ?_ ?_ ?_ p
  · intro instructions constants children name paramCount vararg upvalueCount upvalueNames ih
    exact h _ ih
  · exact fun child hchild => absurd hchild List.not_mem_nil
  · intro first rest hfirst hrest child hchild
    rcases List.mem_cons.mp hchild with rfl | hchild
    · exact hfirst
    · exact hrest child hchild

end LuaRecovery

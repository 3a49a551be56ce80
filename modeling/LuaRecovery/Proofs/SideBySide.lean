/-
Two walks of one function side by side.

What a step shows in the skeleton, notes or counts depends on the code, the constants, the
open blocks and the results that are held open, and on nothing that the scene has a say in.
So every step is a twin of itself whatever the registers hold, and with the functions inside,
by induction on the tree of prototypes, so is every recovery.
-/
import LuaRecovery.Proofs.Skeleton

namespace LuaRecovery

namespace Walking

/-! ### Lines, notes and blocks -/

variable (index : Int) (i : Instruction)

end Walking

/-- A builder that recovers the same skeleton, or ends in the same way, in contexts that are
alike, whatever the names and the upvalues it is given. -/
def Builder.Steady (build : Builder) : Prop :=
  ∀ name path upvalues name' path' upvalues' (c d : Context), c.Alike d →
    Agree Context.Alike (fun r r' : Routine => skeleton r.body = skeleton r'.body)
      (build name path upvalues c) (build name' path' upvalues' d)

namespace Walking

variable {children : List Child}

end Walking

/-! ### Builders -/

/-- What is kept of walks that were cut short in the same way has the same skeleton. -/
theorem Frame.Alike.abandon {f g : Frame} (h : f.Alike g) (failure : Failure)
    {r r' : Option Routine} (hr : r.isNone = r'.isNone) :
    LuaRecovery.skeleton (f.abandon failure r).body
      = LuaRecovery.skeleton (g.abandon failure r').body := by
  have hshown : ∀ shown : List Statement,
      LuaRecovery.skeleton (f.body ++ shown ++ (f.blocks.finish f.code.length).1)
        = LuaRecovery.skeleton (g.body ++ shown ++ (g.blocks.finish g.code.length).1) := by
    intro shown
    rw [h.blocks, h.code, skeleton_append, skeleton_append, skeleton_append, skeleton_append,
      h.skeleton]
  cases r with
  | none =>
    cases r' with
    | none => exact hshown _
    | some => cases hr
  | some =>
    cases r' with
    | none => cases hr
    | some => exact hshown _

end LuaRecovery

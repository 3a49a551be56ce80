/-
The depth at which functions are recovered.

A function is entered one deeper than the function around it, and it is left again however its walk
ends.  The functions inside are recovered within the steps of their closures, and what stops one of
them stops all functions around it, each of which is left on the way.  So a build ends at the depth
at which it started, and builds on one context do not get into each other's way.

`Within` says of limits how much deeper they are than others.  A walk stays at its depth, which is
one more than that of its job, so at any moment of a build the depth has grown by the number of
functions that are being recovered.
-/
import LuaRecovery.Proofs.Jobs
import LuaRecovery.Proofs.Metered

namespace LuaRecovery

/-! ### Limits further inside -/

namespace Limits

/-- Limits that are `n` functions further inside.  The same is allowed, nothing that was used is
given back, and the depth that was seen has grown no further than is allowed. -/
structure Within (l : Limits) (n : Nat) (k : Limits) : Prop where
  bounds : l.SameBounds k
  depth : k.depth = l.depth + n
  instructions : l.instructions ≤ k.instructions
  seen : l.maxDepthSeen ≤ k.maxDepthSeen
  allowed : ∀ m, l.maxDepth = some m → 0 ≤ m → k.maxDepthSeen ≤ max (l.maxDepthSeen : Int) m

theorem within_self (l : Limits) : l.Within 0 l where
  bounds := ⟨rfl, rfl, rfl, rfl⟩
  depth := rfl
  instructions := Nat.le_refl _
  seen := Nat.le_refl _
  allowed _ _ _ := Int.le_max_left _ _

variable {l k k' : Limits} {n n' : Nat}

theorem Within.trans (h : l.Within n k) (h' : k.Within n' k') : l.Within (n + n') k' where
  bounds := ⟨h.bounds.budget.trans h'.bounds.budget, h.bounds.maxDepth.trans h'.bounds.maxDepth,
    h.bounds.cancel.trans h'.bounds.cancel, h.bounds.host.trans h'.bounds.host⟩
  depth := by rw [h'.depth, h.depth, Nat.add_assoc]
  instructions := Nat.le_trans h.instructions h'.instructions
  seen := Nat.le_trans h.seen h'.seen
  allowed := by
    intro m hm hpos
    have hfirst := h.allowed m hm hpos
    have hlast := h'.allowed m (h.bounds.maxDepth ▸ hm) hpos
    omega

theorem within_of_spends (h : Walking.Spends l k) : l.Within 0 k := by
  cases h with
  | poll => exact { within_self l with bounds := ⟨rfl, rfl, rfl, rfl⟩ }
  | consume =>
    exact { within_self l with bounds := ⟨rfl, rfl, rfl, rfl⟩, instructions := Nat.le_succ _ }

/-- A function is entered only if its depth is allowed. -/
theorem within_of_enter (h : l.enter = .ok k) : l.Within 1 k := by
  cases hbreach : l.depthBreach? with
  | some m => simp [enter_of_breach hbreach] at h
  | none =>
    obtain rfl : l.inside = k := by simpa [enter_of_none hbreach] using h
    refine ⟨⟨rfl, rfl, rfl, rfl⟩, rfl, Nat.le_refl _, Nat.le_max_left _ _, ?_⟩
    intro m hm hpos
    have hdepth := depthBreach?_eq_none.mp hbreach m hm hpos
    show ((max l.maxDepthSeen (l.depth + 1) : Nat) : Int) ≤ max (l.maxDepthSeen : Int) m
    omega

theorem Within.leave (h : l.Within (n + 1) k) : l.Within n k.leave :=
  { h with bounds := { h.bounds with }, depth := by simp [Limits.leave, h.depth] }

/-- The limits with nothing else used, but `n` functions deeper. -/
def deeper (l : Limits) (n : Nat) : Limits := { l with depth := l.depth + n }

/-- Whether a function can be entered depends on the depth alone. -/
theorem Within.depthBreach? (h : l.Within n k) : k.depthBreach? = (l.deeper n).depthBreach? := by
  simp only [Limits.depthBreach?, deeper, h.bounds.maxDepth, h.depth]

end Limits

/-! ### Walks stay at their depth -/

namespace Walking

/-- A walk is one deeper than the build that it belongs to, which ends where it started. -/
theorem level_enclosed :
    Enclosed (fun c d => c.limits.Within 0 d.limits) fun c d => c.limits.Within 1 d.limits where
  refl c := c.limits.within_self
  trans h₁ h₂ := h₁.trans h₂
  scene w _ _ := w.context.limits.within_self
  limits _ _ h := Limits.within_of_spends h
  trace c _ := c.limits.within_self
  report c _ := c.limits.within_self
  calls c _ := c.limits.within_self
  strings c _ := c.limits.within_self
  enter h henter := h.trans (Limits.within_of_enter henter)
  inside h₁ h₂ := h₁.trans h₂
  leave h := h.leave

end Walking

open Walking

/-- A build ends at the depth at which it starts, however it ends. -/
theorem Prototype.build_resumes (p : Prototype) (name path : String) (upvalues : List Upvalue)
    (c : Context) : c.limits.Within 0 (lastContext (p.build name path upvalues c)).limits :=
  level_enclosed.build p name path upvalues c

/-! ### Every moment of a build -/

namespace Job

variable {j : Job}

/-- At any moment of a build the depth has grown by the number of functions that are being
recovered. -/
theorem Live.within {frames : List Frame} {c : Context} (h : j.Live frames c) :
    j.context.limits.Within frames.length c.limits := by
  induction h with
  | here hreached => exact hreached.enclosed level_enclosed
  | inside hopens _ ih =>
    rw [List.length_cons, Nat.add_comm]
    exact (hopens.enclosed level_enclosed).trans ih

end Job

/-! ### Builds one after the other -/

/-- A function to recover, under a name and a path and with upvalues. -/
structure Request where
  source : Prototype
  name : String
  path : String
  upvalues : List Upvalue

/-- The job for a function in a context. -/
def Request.on (r : Request) (c : Context) : Job := ⟨r.source, r.name, r.path, r.upvalues, c⟩

/-- The context after builds one after the other, whether they succeed or not. -/
def Context.afterBuilds (c : Context) : List Request → Context
  | [] => c
  | r :: rest => (lastContext (r.on c).result).afterBuilds rest

theorem Context.within_afterBuilds (c : Context) (requests : List Request) :
    c.limits.Within 0 (c.afterBuilds requests).limits := by
  induction requests generalizing c with
  | nil => exact c.limits.within_self
  | cons r rest ih =>
    exact (r.source.build_resumes r.name r.path r.upvalues c).trans (ih _)

/-- Every build ends at the depth at which it started.  However a build ends, and whatever builds
came before it on the context, the depth is what it was, no instruction is counted back, and the
greatest depth has grown no further than is allowed.  While a build goes on, the depth is that of
the context from which all builds started and one for each function that is being recovered: the
limit for the next one is as if there had been no build before. -/
theorem builds_restore_depth (c : Context) (earlier : List Request) (r : Request) :
    c.limits.Within 0 (c.afterBuilds earlier).limits ∧ (c.afterBuilds earlier).limits.Within 0
        (lastContext (r.on (c.afterBuilds earlier)).result).limits ∧
      (c.afterBuilds earlier).limits.depthBreach? = c.limits.depthBreach? ∧
      ∀ frames d, (r.on (c.afterBuilds earlier)).Live frames d →
        c.limits.Within frames.length d.limits ∧
          d.limits.depthBreach? = (c.limits.deeper frames.length).depthBreach? := by
  have hbefore := c.within_afterBuilds earlier
  have hbuild := r.source.build_resumes r.name r.path r.upvalues (c.afterBuilds earlier)
  refine ⟨hbefore, hbuild, hbefore.depthBreach?, fun frames d hlive => ?_⟩
  have hinside : c.limits.Within frames.length d.limits := by
    have := hbefore.trans hlive.within
    rwa [Nat.zero_add] at this
  exact ⟨hinside, hinside.depthBreach?⟩

end LuaRecovery

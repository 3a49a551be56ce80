/-
Relations between contexts.

A walk does little to its context: the scene grows, limits are used up, something is reported or
added to the trace.  A relation between contexts that holds across this is `Contextual`, and it
then holds across every action.  With what is known of entering and leaving a function it also
holds between the contexts before and after a build, however that ends, by induction on the tree
of prototypes.  The first relation of this kind is `Later`: a scene only grows.
-/
import LuaRecovery.Proofs.HostLimits
import LuaRecovery.Proofs.Invariants

namespace LuaRecovery

namespace Walking

variable {S I : Context → Context → Prop} {children : List Child}

/-- A relation between contexts that holds across what a walk does to its context. -/
structure Contextual (S : Context → Context → Prop) : Prop where
  refl : ∀ c, S c c
  trans : ∀ {c₁ c₂ c₃}, S c₁ c₂ → S c₂ c₃ → S c₁ c₃
  scene : ∀ (w : Walk) scene, Stages w scene → S w.context { w.context with scene }
  limits : ∀ c l, Spends c.limits l → S c { c with limits := l }
  trace : ∀ c records, S c { c with trace := records }
  report : ∀ c d, S c (c.report d)

namespace Contextual

variable (hS : Contextual S)

include hS

theorem fenced : Fenced fun w w' => S w.context w'.context where
  refl w := hS.refl w.context
  trans _ _ _ := hS.trans
  registers w _ _ := hS.refl w.context
  scene := hS.scene
  objects w _ := hS.refl w.context
  captured w _ _ _ := hS.refl w.context
  assign w _ _ _ := hS.refl w.context
  bind w scene _ _ _ _ _ _ hstages _ _ _ := hS.scene w scene hstages
  note w _ := hS.refl w.context
  limits w := hS.limits w.context
  trace w := hS.trace w.context
  report w := hS.report w.context
  emit w _ _ := hS.refl w.context
  drainRegisters w := hS.refl w.context
  drainBlocks w := hS.refl w.context
  blocks w _ _ _ := hS.refl w.context

theorem prepare (child : Child) (i : Instruction) (index : Nat) :
    Keeps (fun w w' => S w.context w'.context) (prepare child i index) :=
  prepare_keeps hS.fenced.toCarried (fun w scene _ _ _ hstages _ => hS.scene w scene hstages) child
    index

theorem addParams (count : Nat) : ∀ (f : Frame) (c : Context) (index : Nat),
    S c { c with scene := (f.addParams c.scene index count).2 } := by
  induction count with
  | zero => exact fun _ c _ => hS.refl c
  | succ count ih =>
    intro f c index
    exact hS.trans (hS.scene ⟨f, c⟩ _ ⟨c.scene.uniqueName_grows _, fun _ => rfl, rfl⟩) (ih _ _ _)

end Contextual

/-- A builder relates the context in which it starts to the one in which it ends. -/
def Relates (S : Context → Context → Prop) (build : Builder) : Prop :=
  ∀ name path upvalues c, S c (lastContext (build name path upvalues c))

/-- What is known of the context where a walk ends, once its function is left, is known of the one
that is handed back. -/
theorem lastContext_handBack {P : Context → Prop} {result : EStateM.Result Stop Walk Unit}
    (h : After (fun _ w => P w.context.leave) (fun _ w => P w.context.leave) result) :
    P (lastContext (handBack result)) := by
  rcases result with ⟨_, w⟩ | ⟨_ | _ | _ | _, w⟩ <;> exact h

/-- A relation between the contexts before and after a build, and the one from the context before
to those of the walk, which is inside the function. -/
structure Enclosed (S I : Context → Context → Prop) : Prop extends Contextual S where
  calls : ∀ c records, S c { c with scene.calls := records }
  strings : ∀ c strings, S c { c with strings }
  enter : ∀ {c d limits}, S c d → d.limits.enter = .ok limits → I c { d with limits }
  inside : ∀ {c d d'}, I c d → S d d' → I c d'
  leave : ∀ {c d}, I c d → S c d.leave

namespace Enclosed

variable (hS : Enclosed S I)

include hS

theorem preserved (c : Context) :
    Preserved (fun w w' => S w.context w'.context) (fun w => I c w.context)
      fun _ w => I c w.context where
  blocked :=
    { hS.fenced with
      top := fun w _ => hS.refl w.context
      log := fun w => hS.calls w.context
      strings := fun w => hS.strings w.context }
  keeps hw h := hS.inside h hw
  stops _ hw h := hS.inside h hw
  located _ h := h

theorem closure (hchildren : ∀ child ∈ children, Relates S child.build) (i : Instruction)
    (index : Nat) :
    Keeps (fun w w' => S w.context w'.context) (closure children i index) := by
  refine closure_keeps hS.fenced.toTold (fun child => hS.prepare child i index) ?_
  intro child hchild name upvalues declares w
  have hbuilt := hchildren child hchild name (w.frame.path ++ "/" ++ name) upvalues w.context
  refine buildChild_after (fun _ _ hrun => ?_) (fun _ _ _ hrun => ⟨trivial, ?_⟩)
    fun _ _ hrun _ => ⟨trivial, ?_⟩
  all_goals
    rw [hrun] at hbuilt
    exact hbuilt

theorem entered (p : Prototype) (name path : String) (upvalues : List Upvalue) {c : Context}
    {limits : Limits} (h : c.limits.enter = .ok limits) :
    I c { c with scene := (Frame.start p name path upvalues c.scene).2, limits } :=
  hS.enter (hS.addParams p.paramCount.toNat (Frame.bare p name path upvalues) c 0) h

theorem buildWith (p : Prototype) (hchildren : ∀ child ∈ children, Relates S child.build) :
    Relates S (buildWith p children) := by
  intro name path upvalues c
  cases henter : c.limits.enter with
  | error failure =>
    rw [buildWith_refused henter]
    exact hS.addParams p.paramCount.toNat (Frame.bare p name path upvalues) c 0
  | ok limits =>
    rw [buildWith_entered henter]
    have hkept := hS.preserved c
    refine lastContext_handBack (P := S c) (after_mono (hkept.walk ?_
      (hS.entered p name path upvalues henter)) (fun _ _ h => hS.leave h) fun _ _ h => hS.leave h)
    exact fun i index w hw => hkept.after (hS.closure hchildren i index) hw

/-- However a function is recovered, its builder relates the contexts. -/
theorem build (p : Prototype) : Relates S p.build :=
  p.build_induction (X := Relates S) fun p _ hchildren => hS.buildWith p hchildren

end Enclosed

/-! ### Contexts only grow -/

/-- The scene of a context has only grown, and without a simulation no object was added.  The
options and the host are the same. -/
structure Later (c c' : Context) : Prop where
  grows : c.scene.Grows c'.scene
  idle : c.options.simulate.isOn = false → c'.scene.objects = c.scene.objects
  options : c'.options = c.options
  host : c'.limits.host = c.limits.host

theorem Later.refl (c : Context) : Later c c := ⟨.refl _, fun _ => rfl, rfl, rfl⟩

theorem Later.trans {c₁ c₂ c₃ : Context} (h₁ : Later c₁ c₂) (h₂ : Later c₂ c₃) : Later c₁ c₃ where
  grows := h₁.grows.trans h₂.grows
  idle h := (h₂.idle (by rw [h₁.options]; exact h)).trans (h₁.idle h)
  options := h₂.options.trans h₁.options
  host := h₂.host.trans h₁.host

theorem Stages.later {w : Walk} {scene : Scene} (h : Stages w scene) :
    Later w.context { w.context with scene } :=
  ⟨h.grows, h.idle, rfl, rfl⟩

theorem later_enclosed : Enclosed Later Later where
  refl := .refl
  trans := .trans
  scene _ _ h := h.later
  limits _ _ h := ⟨.refl _, fun _ => rfl, rfl, by cases h <;> rfl⟩
  trace _ _ := ⟨.refl _, fun _ => rfl, rfl, rfl⟩
  report _ _ := ⟨.refl _, fun _ => rfl, rfl, rfl⟩
  calls c records := ⟨c.scene.grows_logged records, fun _ => rfl, rfl, rfl⟩
  strings _ _ := ⟨.refl _, fun _ => rfl, rfl, rfl⟩
  enter h henter := h.trans ⟨.refl _, fun _ => rfl, rfl, by rw [Limits.eq_of_enter henter]⟩
  inside := .trans
  leave h := h.trans ⟨.refl _, fun _ => rfl, rfl, rfl⟩

end Walking

/-- Whatever a function is recovered as, and however that ends, the context has only grown. -/
theorem Prototype.build_grows (p : Prototype) : Walking.Relates Walking.Later p.build :=
  Walking.later_enclosed.build p

end LuaRecovery

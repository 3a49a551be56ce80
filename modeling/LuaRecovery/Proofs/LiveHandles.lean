/-
How a recovery ends, and the handles on the way.

A handle is held by a register, as what it holds or as the receiver of a method, by an upvalue,
or by a local that holds an object.  Handles go from the scene into registers, from there into
upvalues of the functions inside, and from these into registers again.  All functions that are
being recovered at a moment share one scene, which only grows, so it is enough that a handle
refers to an object when it is handed on.

With this the scene is never asked for an object that it does not have.  A recovery therefore
ends in a routine, or in a failure, or it finds an option open that it needs, or the host refuses
what it is asked for.  What that can be is bounded by the operands and the nesting of the function.
-/
import LuaRecovery.Proofs.Jobs
import LuaRecovery.Proofs.NameCapture
import LuaRecovery.Proofs.Safety

namespace LuaRecovery

/-- A handle that a frame holds. -/
inductive Frame.HoldsHandle (f : Frame) (handle : Nat) : Prop
  | register {index : Int} {slot : Slot} (held : f.registers.slots.get? index = some slot)
      (is : slot.handle = some handle) : f.HoldsHandle handle
  | receiver {index : Int} {slot : Slot} (held : f.registers.slots.get? index = some slot)
      (is : slot.receiver = some handle) : f.HoldsHandle handle
  | upvalue {u : Upvalue} (held : u ∈ f.upvalues) (is : u.handle = some handle) :
      f.HoldsHandle handle
  | object (held : handle ∈ f.objectLocals.keys) : f.HoldsHandle handle

variable {b : Bounds} {n : Nat}

theorem Frame.Grounded.lt {f : Frame} (h : f.Grounded b n) {handle : Nat}
    (hheld : f.HoldsHandle handle) : handle < n := by
  cases hheld with
  | register held is => exact (h.registers.slots _ _ held).handle _ is
  | receiver held is => exact (h.registers.slots _ _ held).receiver _ is
  | upvalue held is => exact h.upvalues _ held _ is
  | object held => exact h.objects _ held

namespace Walking

theorem approach_safe {i : Instruction} (hi : b.Admits i) (index : Nat) :
    Safe b n (approach i index) := by
  refine safe_seq (pollCaller_safe index) ?_
  refine safe_seq (countInstruction_safe index) ?_
  refine safe_seq (emitBlocks_safe _) ?_
  exact safe_ite (flushUnread_safe hi.a) (safe_done _)

theorem opening_safe (children : List Child) : Safe b n (opening children) :=
  safe_seq safe_get <| safe_seq (log_safe _) <| observeStrings_safe _

end Walking

namespace Job

open Walking

variable {j : Job} {index : Nat} {i : Instruction} {q : Prototype} {ready : Prepared} {w : Walk}
  {frames : List Frame} {c : Context}

/-! ### Handles refer to objects -/

/-- A job whose upvalues and whose scene have handles of objects only, and whose function is
within bounds. -/
structure Grounded (b : Bounds) (j : Job) : Prop where
  context : j.context.Grounded b
  upvalues : ∀ u ∈ j.upvalues, Within j.context.scene.objects.length u.handle
  reach : j.source.reach ≤ b.size
  height : b.level + j.source.height ≤ b.height

/-- Every handle refers to an object, in a scene that is no smaller than that of the job. -/
def Sees (b : Bounds) (j : Job) (w : Walk) : Prop :=
  w.Grounded b.inner ∧ j.context.scene.objects.length ≤ w.size

theorem Sees.after {α : Type} {P : Nat → α → Prop} {m : Walking α} (hw : j.Sees b w)
    (hm : Safe b.inner 0 m P) :
    After (fun a w' => j.Sees b w' ∧ P w'.size a) (fun stop w' => stop.Expected b.inner w'.context)
      (m w) :=
  after_imp (hm w hw.1 (Nat.zero_le _)) (fun _ _ h => ⟨⟨h.1, Nat.le_trans hw.2 h.2.1⟩, h.2.2⟩)

theorem Grounded.children (hj : j.Grounded b) :
    ∀ child ∈ j.children, child.build.Safe b.inner ∧ b.inner.level < b.inner.height := by
  intro child hchild
  rw [Job.children, Prototype.builders_eq] at hchild
  obtain ⟨q, hq, rfl⟩ := List.mem_map.mp hchild
  obtain ⟨hreach, hheight, hlevel⟩ := Prototype.inner_bounds hq hj.reach hj.height
  exact ⟨q.build_safe hreach hheight, hlevel⟩

theorem At.sees (h : j.At index w) (hj : j.Grounded b) : j.Sees b w := by
  refine h.invariant (I := j.Sees b) (E := fun stop w => stop.Expected b.inner w.context)
    (fun limits henter => ?_) (fun w hw => ?_) fun i index w hi hw => ?_
  · obtain ⟨hstart, hobjects⟩ :=
      Frame.start_grounded hj.context hj.upvalues hj.reach j.name j.path henter
    exact ⟨hstart, Nat.le_of_eq (congrArg List.length hobjects).symm⟩
  · exact after_imp (hw.after (opening_safe j.children)) (fun _ _ h => h.1)
  · have hadvance := advance_safe (n := 0) hj.children (hw.1.frame.place hi)
    exact after_imp (hw.after hadvance) (fun _ _ h => h.1)

theorem Due.sees (h : j.Due index i w) (hj : j.Grounded b) : j.Sees b w := by
  obtain @⟨before, hreached, hi, happroached⟩ := h
  have hbefore := hreached.sees hj
  have hadmits : b.inner.Admits i :=
    Nat.lt_of_le_of_lt (Nat.le_add_right _ _) (hbefore.1.frame.place hi)
  have hafter := hbefore.after (approach_safe hadmits index)
  rw [happroached] at hafter
  exact hafter.1

/-- The job of a function inside is given handles of objects. -/
theorem Opens.sees (h : j.Opens index i q ready w) (hj : j.Grounded b) :
    j.Sees b w ∧ (inside q ready w).Grounded b.inner := by
  obtain @⟨before, hdue, -, hchild, hprepared⟩ := h
  obtain ⟨hreach, hheight, hlevel⟩ :=
    Prototype.inner_bounds (Prototype.mem_of_childAt? hchild) hj.reach hj.height
  have hafter := (hdue.sees hj).after (prepare_safe hlevel q.asChild i index)
  rw [hprepared] at hafter
  exact ⟨hafter.1, hafter.1.1.context, hafter.2, hreach, hheight⟩

/-- Every handle of every function that is being recovered refers to an object. -/
theorem Live.holds (h : j.Live frames c) (hj : j.Grounded b) :
    j.context.scene.objects.length ≤ c.scene.objects.length ∧
      ∀ f ∈ frames, ∀ handle, f.HoldsHandle handle → handle < c.scene.objects.length := by
  induction h generalizing b with
  | here hreached =>
    obtain ⟨hw, hsize⟩ := hreached.sees hj
    refine ⟨hsize, fun f hf handle hheld => ?_⟩
    rw [List.mem_singleton.mp hf] at hheld
    exact hw.frame.lt hheld
  | inside hopens _ ih =>
    obtain ⟨⟨hw, hsize⟩, hinside⟩ := hopens.sees hj
    obtain ⟨hgrown, hframes⟩ := ih hinside
    refine ⟨Nat.le_trans hsize hgrown, fun f hf handle hheld => ?_⟩
    rcases List.mem_cons.mp hf with rfl | hf
    · exact (hw.frame.mono hgrown).lt hheld
    · exact hframes f hf handle hheld

/-! ### The end of a recovery -/

theorem fresh_grounded (p : Prototype) (name path : String) (o : Options) (host : Host) :
    (fresh p name path o host).Grounded (p.bounds o host) :=
  ⟨Context.start_grounded p o host, nofun, Nat.le_max_left _ _, Nat.le_of_eq (Nat.zero_add _)⟩

/-- Without a simulation the scene stays empty. -/
theorem Live.no_objects {p : Prototype} {name path : String} {o : Options} {host : Host}
    (h : (fresh p name path o host).Live frames c) (hoff : o.simulate.isOn = false) :
    c.scene.objects = [] :=
  (h.later.idle hoff).trans (Context.start_objects hoff)

/-- **A recovery ends in a routine or in a failure.**  Whatever the function, the options and the
host, a recovery in a fresh context gets to the end of the code and gives a routine, or it ends in
a failure, or the length of long strings was left open and it needs it, or the host refuses an
integer, a list or a level of nesting that is within the bounds of the function.  On the way every
handle that a function holds refers to an object, and without a simulation none holds any. -/
theorem ends_in_routine_or_failure (p : Prototype) (name path : String) (o : Options)
    (host : Host) :
    ((∃ r c, p.build name path [] (Context.start o host) = .ok r c ∧
          ∃ index w, (fresh p name path o host).At index w ∧ p.instructions.length ≤ index) ∨
        (∃ failure recovered c,
          p.build name path [] (Context.start o host) = .error (.failed failure recovered) c) ∨
        (o.longStringThreshold = none ∧
          ∃ fault c, p.build name path [] (Context.start o host) = .error (.option fault) c) ∨
        ∃ fault c, p.build name path [] (Context.start o host) = .error (.host fault) c ∧
          host.Refuses fault ∧ fault.Within (max p.reach (o.budget.getD 0).natAbs) p.height) ∧
      ∀ frames c, (fresh p name path o host).Live frames c → ∀ f ∈ frames, ∀ handle,
        f.HoldsHandle handle → handle < c.scene.objects.length ∧ o.simulate.isOn = true := by
  refine ⟨?_, fun frames c hlive f hf handle hheld => ?_⟩
  · rcases p.build_ends name path (Context.start_grounded p o host) rfl with ⟨r, c, hbuild⟩ | hrest
    · exact .inl ⟨r, c, hbuild, at_end (j := fresh p name path o host) hbuild⟩
    · exact .inr hrest
  · have hlt := (hlive.holds (fresh_grounded p name path o host)).2 f hf handle hheld
    refine ⟨hlt, Bool.not_eq_false _ ▸ fun hoff => ?_⟩
    rw [hlive.no_objects hoff] at hlt
    exact absurd hlt (Nat.not_lt_zero handle)

/-- The limit of the host that a recovery met. -/
def limitMet? : EStateM.Result Stop Context Routine → Option HostFault
  | .error (.host fault) _ => some fault
  | _ => none

theorem error_of_limitMet? {result : EStateM.Result Stop Context Routine} {fault : HostFault}
    (h : limitMet? result = some fault) : ∃ c, result = .error (.host fault) c := by
  unfold limitMet? at h
  split at h
  · cases h
    exact ⟨_, rfl⟩
  · cases h

/-- A return of two registers, the second of which has a number of 4301 digits. -/
def farReturn : Prototype :=
  { instructions := [{ opcode := .ret, a := .ofNat (Nat.pow 10 4300 - 1), b := 3 }] }

/-- A register whose number a usual host does not write ends the recovery without a failure. -/
theorem farReturn_refused :
    ∃ c, farReturn.build "main" "main" [] (Context.start { simulate := some false }
      Host.standard) = .error (.host (.digits (.ofNat (Nat.pow 10 4300)))) c :=
  error_of_limitMet? (by decide +kernel)

end Job

end LuaRecovery

/-
The walk around the steps.

Around the step of each instruction the walk keeps its accounts: it asks the caller, counts
the instruction, reports what was noted and adds to the trace.  Most of this is quiet;
`Accounted` adds to `Told` the moves by which notes are taken up to be reported.  What is left
of a walk are its blocks, and the functions inside; the rule for a run, `walkFrom_after`, leaves
both to what is known of `advance`.
-/
import LuaRecovery.Proofs.Steps

namespace LuaRecovery

/-- A stop at a given instruction, unless it has a place already. -/
def Stop.locate : Stop → Int → Stop
  | .failed failure recovered, index => .failed (failure.locate index) recovered
  | stop, _ => stop

namespace Walking

/-- A relation that also holds across the moves by which notes are taken up. -/
structure Accounted (R : Walk → Walk → Prop) (A : Int → Prop := fun _ => True) : Prop
    extends Told R A where
  drainRegisters : ∀ w, R w { w with frame.registers := w.frame.registers.drain.2 }
  drainBlocks : ∀ w, R w { w with frame.blocks := w.frame.blocks.drain.2 }

variable {R : Walk → Walk → Prop} {A : Int → Prop}

theorem flushOverwritten_keeps {T : Stop → Prop} [Stop.Covers T] (hR : Carried R A)
    {i : Instruction} (h : overwrites i.opcode = true → A i.a) :
    Keeps R (flushOverwritten i) T := by
  unfold flushOverwritten
  split
  · rename_i hover
    exact flushUnread_keeps hR (h hover)
  · exact hR.done ()

section

variable (hR : Quiet R A) {T : Stop → Prop}

include hR

theorem pollCaller_keeps (index : Nat) : Keeps R (pollCaller index) := by
  intro w
  refine after_state (after_bind (after_modify ?_))
  cases w.context.limits.cancelFailure? index with
  | none => exact hR.limits w _ .poll
  | some failure => exact ⟨trivial, hR.limits w _ .poll⟩

theorem countInstruction_keeps (index : Nat) : Keeps R (countInstruction index) := by
  intro w
  refine after_state (after_bind (after_modify (after_bind (after_askHost ?_ fun _ _ =>
    ⟨trivial, hR.limits w _ .consume⟩))))
  cases w.context.limits.consume.budgetFailure? index with
  | none => exact hR.limits w _ .consume
  | some failure => exact ⟨trivial, hR.limits w _ .consume⟩

theorem log_keeps (record : String) : Keeps R (log record) T :=
  fun w => hR.trace w _

theorem traceStep_keeps [Stop.Covers T] (index : Nat) (i : Instruction) (mark : Nat) :
    Keeps R (traceStep index i mark) T := by
  refine hR.seq (askHost_keeps hR.refl _) ?_
  exact hR.seq (fun w => hR.refl w) <| log_keeps hR _

theorem observeStrings_keeps (hstrings : Observed R) :
    ∀ constants, Keeps R (observeStrings constants) Stop.IsMute := by
  intro constants
  induction constants with
  | nil => exact hR.done ()
  | cons c rest ih =>
    cases c with
    | string s =>
      refine hR.chain (queryStrings_keeps hR _) fun strings => ?_
      exact hR.seq (fun w => hstrings w strings) <| ih
    | _ => exact ih

end

section

variable (hR : Accounted R A) {T : Stop → Prop}

include hR

theorem reportConstants_keeps (index : Int) :
    ∀ messages, Keeps R (reportConstants index messages) T := by
  intro messages
  induction messages with
  | nil => exact hR.done ()
  | cons message rest ih =>
    refine hR.seq (emitLine_keeps hR.toTold trivial) ?_
    exact hR.seq (report_keeps hR.toTold _ _ _) ih

theorem reportBlocks_keeps : ∀ notes, Keeps R (reportBlocks notes) T := by
  intro notes
  induction notes with
  | nil => exact hR.done ()
  | cons note rest ih => exact hR.seq (report_keeps hR.toTold _ _ _) ih

theorem reportAnomalies_keeps (index : Int) : Keeps R (reportAnomalies index) T := by
  refine hR.chain (fun w => hR.drainRegisters w) fun constants => ?_
  refine hR.seq (reportConstants_keeps hR index constants) ?_
  exact hR.chain (fun w => hR.drainBlocks w) fun notes => reportBlocks_keeps hR notes

end

/-! ### Runs -/

variable {E : Stop → Walk → Prop}

/-- What holds after an action that is carried out at an index: a failure has its place then. -/
theorem after_locating_at {α : Type} {Q : α → Walk → Prop} {m : Walking α} {w : Walk} {index : Int}
    (h : After Q (fun stop w' => E (stop.locate index) w') (m w)) :
    After Q E (locating index m w) := by
  unfold locating
  cases hm : m w with
  | ok a w' => rwa [hm] at h
  | error stop w' =>
    rw [hm] at h
    cases stop <;> exact h

/-- What holds after an action wherever its failure has its place. -/
theorem after_locating {α : Type} {Q : α → Walk → Prop} {m : Walking α} {w : Walk} (index : Int)
    (h : After Q E (m w))
    (hE : ∀ failure recovered w', E (.failed failure recovered) w' →
      E (.failed (failure.locate index) recovered) w') : After Q E (locating index m w) := by
  refine after_locating_at (after_fault h fun stop w' h => ?_)
  cases stop with
  | failed failure recovered => exact hE _ _ _ h
  | _ => exact h

/-- A walk goes on behind the instructions that were taken. -/
theorem walkFrom_run {children : List Child} {i : Instruction} {index taken : Nat} {w w' : Walk}
    (hi : w.frame.code[index]? = some i) (h : advance children i index w = .ok taken w')
    (fuel : Nat) :
    walkFrom children (fuel + 1) index w = walkFrom children fuel (index + taken) w' := by
  rw [walkFrom, run_get, hi]
  exact run_bind h _

/-- What every instruction keeps, the walk of the code keeps. -/
theorem walkFrom_after {children : List Child} {I : Nat → Walk → Prop}
    (hadvance : ∀ i index w, I index w → After (fun taken w' => I (index + taken) w') E
      (advance children i index w)) :
    ∀ fuel index w, I index w →
      After (fun _ w' => ∃ last, I last w') E (walkFrom children fuel index w) := by
  intro fuel
  induction fuel with
  | zero => exact fun index w h => ⟨index, h⟩
  | succ fuel ih =>
    intro index w h
    refine after_state ?_
    cases w.frame.code[index]? with
    | none => exact ⟨index, h⟩
    | some i =>
      exact after_seq (hadvance i index w h) fun taken w' h' => ih (index + taken) w' h'

end Walking

/-! ### Builders -/

/-- What the end of its walk makes a builder hand back. -/
def handBack : EStateM.Result Stop Walk Unit → EStateM.Result Stop Context Routine
  | .ok () w => .ok w.frame.routine w.context.leave
  | .error (.failed failure recovered) w =>
    .error (.failed failure (some (w.frame.abandon failure recovered).routine)) w.context.leave
  | .error stop w => .error stop w.context.leave

/-- A routine that is handed back whole comes from a walk that got to its end. -/
theorem ok_of_handBack {result : EStateM.Result Stop Walk Unit} {r : Routine} {d : Context}
    (h : handBack result = .ok r d) :
    ∃ v, result = .ok () v ∧ r = v.frame.routine ∧ d = v.context.leave := by
  rcases result with ⟨_, v⟩ | ⟨_ | _ | _ | _, v⟩ <;> cases h
  exact ⟨v, rfl, rfl, rfl⟩

variable {upvalues : List Upvalue} {name path : String} {p : Prototype}

theorem buildWith_entered {children : List Child} {c : Context} {limits : Limits}
    (h : c.limits.enter = .ok limits) :
    buildWith p children name path upvalues c = handBack (Walking.walk children
      ⟨(Frame.start p name path upvalues c.scene).1,
        { c with scene := (Frame.start p name path upvalues c.scene).2, limits }⟩) := by
  unfold buildWith
  dsimp only
  rw [h]
  dsimp only
  rcases Walking.walk children _ with ⟨_, w⟩ | ⟨_ | _ | _ | _, w⟩ <;> rfl

theorem buildWith_refused {children : List Child} {c : Context} {failure : Failure}
    (h : c.limits.enter = .error failure) :
    buildWith p children name path upvalues c = .error (.failed failure none)
      { c with scene := (Frame.start p name path upvalues c.scene).2 } := by
  unfold buildWith
  dsimp only
  rw [h]

/-- The context in which a builder ends. -/
def lastContext : EStateM.Result Stop Context Routine → Context
  | .ok _ c => c
  | .error _ c => c

/-- A property of what a builder hands back: the routine, or what was recovered of it before a
failure. -/
def HandsBack (P : Routine → Prop) : EStateM.Result Stop Context Routine → Prop
  | .ok routine _ => P routine
  | .error (.failed _ (some routine)) _ => P routine
  | .error _ _ => True

theorem HandsBack.mono {P P' : Routine → Prop} {result : EStateM.Result Stop Context Routine}
    (h : HandsBack P result) (hP : ∀ r, P r → P' r) : HandsBack P' result := by
  match result, h with
  | .ok r _, h => exact hP r h
  | .error (.failed _ (some r)) _, h => exact hP r h
  | .error (.failed _ none) _, _ => trivial
  | .error (.scene _) _, _ => trivial
  | .error (.option _) _, _ => trivial
  | .error (.host _) _, _ => trivial

/-- A property of whatever a builder hands back. -/
def Builder.Yields (P : Routine → Prop) (build : Builder) : Prop :=
  ∀ name path upvalues c, HandsBack P (build name path upvalues c)

/-- What a builder hands back, from what its walk ends in. -/
theorem buildWith_yields {P : Routine → Prop} (p : Prototype) (children : List Child)
    (hwalk : ∀ name path upvalues scene c, Walking.After (fun _ w => P w.frame.routine)
      (fun _ w => ∀ failure recovered, P (w.frame.abandon failure recovered).routine)
      (Walking.walk children ⟨(Frame.start p name path upvalues scene).1, c⟩)) :
    (buildWith p children).Yields P := by
  intro name path upvalues c
  cases henter : c.limits.enter with
  | error failure =>
    rw [buildWith_refused henter]
    trivial
  | ok limits =>
    have hrun := hwalk name path upvalues c.scene
      { c with scene := (Frame.start p name path upvalues c.scene).2, limits }
    rw [buildWith_entered henter]
    generalize Walking.walk children _ = result at hrun ⊢
    match result, hrun with
    | .ok _ w, h => exact h
    | .error (.failed failure recovered) w, h => exact h failure recovered
    | .error (.scene _) _, _ => trivial
    | .error (.option _) _, _ => trivial
    | .error (.host _) _, _ => trivial

/-- What holds of the builder of a function whenever it holds of the builders of the functions
inside holds of every function. -/
theorem Prototype.build_induction {X : Builder → Prop}
    (h : ∀ p children, (∀ child ∈ children, X child.build) → X (buildWith p children))
    (p : Prototype) : X p.build := by
  induction p using Prototype.induct_children with
  | h p ih =>
    rw [Prototype.build_eq]
    refine h p _ fun child hchild => ?_
    rw [Prototype.builders_eq] at hchild
    obtain ⟨q, hq, rfl⟩ := List.mem_map.mp hchild
    exact ih q hq

theorem Prototype.build_yields {P : Routine → Prop}
    (h : ∀ p children, (∀ child ∈ children, child.build.Yields P) →
      (buildWith p children).Yields P) (p : Prototype) : p.build.Yields P :=
  Prototype.build_induction h p

/-- A builder hands nothing back only if the function could not be entered. -/
theorem enter_of_nothing_recovered {c c' : Context} {failure : Failure}
    (h : p.build name path upvalues c = .error (.failed failure none) c') :
    c.limits.enter = .error failure := by
  rw [Prototype.build_eq] at h
  cases henter : c.limits.enter with
  | error refused =>
    rw [buildWith_refused henter] at h
    cases h
    rfl
  | ok limits =>
    rw [buildWith_entered henter] at h
    generalize Walking.walk _ _ = result at h
    rcases result with ⟨_, w⟩ | ⟨_ | _ | _ | _, w⟩ <;> cases h

end LuaRecovery

/-
Constants that nothing reads.

A constant that is loaded waits in its register until something reads it; only a long string is
written down at once.  Before an instruction overwrites its register `a` without reading it, a
constant that waits there is written down as an assignment to the local of the register, and what
still waits at the end of the code is written down then.  So a constant that nothing reads is in
the body exactly once, before the statements of what overwrites it.

There is one exception.  An instruction that sets a range of registers to nil only looks at the
first of them.  A constant that waits in another register of the range is lost, unless it is a long
string.
-/
import LuaRecovery.Proofs.SeparateLocals
import LuaRecovery.Proofs.SparedRegisters

namespace LuaRecovery

open List

/-- The constant at an index as a slot, nil if there is none. -/
def Prototype.constantSlot (p : Prototype) (index : Int) : Slot :=
  Registers.constantSlot { constants := p.constants } index

/-- Whether an instruction writes registers without reading any for it. -/
def Instruction.isLoad (i : Instruction) : Bool :=
  i.opcode == .loadConstant || Walking.overwrites i.opcode

/-- The bindings of a register by the statements from `first` on and before `last`. -/
def RoutineOf.bindingsIn {σ : Type} (r : RoutineOf σ) (reg : Int) (first last : Nat) :
    List Binding :=
  (bindingsOf reg r.bindings).filter fun b => decide (first ≤ b.place ∧ b.place < last)

theorem Registers.constantSlot_congr {r r' : Registers} (h : r.constants = r'.constants)
    (index : Int) : r.constantSlot index = r'.constantSlot index := by
  unfold constantSlot constant?
  rw [h]

theorem Registers.constantString?_lookUp (r : Registers) (index index' : Int) :
    (r.lookUp index').constantString? index = r.constantString? index := by
  unfold constantString? constant?
  rw [r.lookUp_constants]

theorem Registers.peek_setUnread (r : Registers) (index : Int) (slot : Slot) :
    (r.setUnread index slot).peek index = slot := by
  show ((r.slots.insert index slot).get? index).getD _ = slot
  rw [Table.get?_insert, if_pos rfl, Option.getD_some]

namespace Walking

variable {reg : Int} {value : Slot} {text : String} {before w w' : Walk}

/-! ### Values that wait and values that are written down -/

/-- A value waits unread in a register, and nothing has bound the register since a state. -/
structure Waiting (reg : Int) (value : Slot) (before w : Walk) : Prop where
  unread : w.frame.registers.isUnread reg = true
  holds : w.frame.registers.peek reg = value
  bindings : bindingsOf reg w.frame.bindings = bindingsOf reg before.frame.bindings
  body : before.frame.body.length ≤ w.frame.body.length

/-- A text was written down as what a register held, and nothing else has bound the register since
a state. -/
structure WrittenOnce (reg : Int) (text : String) (before w : Walk) : Prop where
  read : w.frame.registers.isUnread reg = false
  once : ∃ place name declares, bindingsOf reg w.frame.bindings =
      bindingsOf reg before.frame.bindings ++ [⟨place, [reg]⟩] ∧
    before.frame.body.length ≤ place ∧
    w.frame.body[place]? = some (.assign name text declares none) ∧
    w.frame.locals.get? reg = some name

theorem Waiting.carry (h : Waiting reg value before w) (hw : Untouched reg w w')
    (honward : Onward w w') : Waiting reg value before w' where
  unread := hw.registers.unread.trans h.unread
  holds := hw.registers.peek.trans h.holds
  bindings := hw.bindings.trans h.bindings
  body := Nat.le_trans h.body honward.body.length_le

theorem WrittenOnce.carry (h : WrittenOnce reg text before w) (hw : Untouched reg w w')
    (honward : Onward w w') : WrittenOnce reg text before w' := by
  obtain ⟨place, name, declares, hbindings, hplace, hshown, hname⟩ := h.once
  exact ⟨hw.registers.unread.trans h.read, place, name, declares, hw.bindings.trans hbindings,
    hplace, getElem?_prefix_mono honward.body hshown, honward.locals reg name hname⟩

/-- What is written down is written down once. -/
theorem bindLocal_once (value : Slot)
    (hbindings : bindingsOf reg w.frame.bindings = bindingsOf reg before.frame.bindings)
    (hbody : before.frame.body.length ≤ w.frame.body.length) :
    Once (fun _ w' => WrittenOnce reg value.text before w') (bindLocal reg value none w) := by
  refine after_mono (bindLocal_writes reg value none w) ?_ fun _ _ _ => trivial
  rintro name _ ⟨scene, objects, locals, declares, rfl, -, -, hnames⟩
  refine ⟨?_, w.frame.body.length, name, declares, ?_, hbody, ?_, ?_⟩
  · exact (w.frame.registers.isUnread_touch reg reg).trans (if_pos rfl)
  · show bindingsOf reg (w.frame.bindings ++ [⟨w.frame.body.length, [reg]⟩]) = _
    rw [bindingsOf_append, hbindings]
    simp [bindingsOf]
  · exact getElem?_concat_length
  · exact singleton_inj.mp hnames.names

/-- What waits is written down. -/
theorem Waiting.flush (h : Waiting reg value before w) :
    Once (fun _ w' => WrittenOnce reg value.text before w') (flushUnread reg w) := by
  refine after_state ?_
  rw [if_pos h.unread, h.holds]
  exact after_bind (bindLocal_once value h.bindings h.body)

/-- What was written down is not written down again. -/
theorem WrittenOnce.flush (h : WrittenOnce reg text before w) :
    Once (fun _ w' => WrittenOnce reg text before w') (flushUnread reg w) := by
  refine after_state ?_
  rw [h.read]
  exact h

/-! ### Loading a constant -/

/-- The constant at an index is a long string. -/
def LongAt (index : Int) (w : Walk) : Prop :=
  ∃ s, w.frame.registers.constantString? index = some s ∧ w.context.strings.isLong s = .ok true

/-- The constant that an instruction loads. -/
def loadedValue (load : Instruction) (w : Walk) : Slot := w.frame.registers.constantSlot load.b

/-- A constant that was loaded after a state has not been touched since: it waits in its register,
or it was written down at once because it is long. -/
structure Loaded (load : Instruction) (before w : Walk) : Prop where
  long : LongAt load.b before → WrittenOnce load.a (loadedValue load before).text before w
  short : ¬LongAt load.b before → Waiting load.a (loadedValue load before) before w

variable {load : Instruction}

theorem Loaded.carry (h : Loaded load before w) (hw : Untouched load.a w w')
    (honward : Onward w w') : Loaded load before w' where
  long hlong := (h.long hlong).carry hw honward
  short hshort := (h.short hshort).carry hw honward

theorem Loaded.flush (h : Loaded load before w) :
    Once (fun _ w' => WrittenOnce load.a (loadedValue load before).text before w')
      (flushUnread load.a w) := by
  by_cases hlong : LongAt load.b before
  · exact (h.long hlong).flush
  · exact (h.short hlong).flush

theorem isLongConstant_after (index : Int) (w : Walk) :
    Once (fun long w' => w' = w ∧ (long = true ↔ LongAt index w)) (isLongConstant index w) := by
  refine after_state ?_
  cases hstring : w.frame.registers.constantString? index with
  | none =>
    refine ⟨rfl, by simp, ?_⟩
    rintro ⟨s, hs, -⟩
    rw [hstring] at hs
    cases hs
  | some s =>
    refine after_state ?_
    cases hlong : w.context.strings.isLong s with
    | error fault =>
      dsimp only
      rw [hlong]
      trivial
    | ok long =>
      dsimp only
      rw [hlong]
      refine ⟨rfl, fun h => ⟨s, hstring, h ▸ hlong⟩, ?_⟩
      rintro ⟨s', hs', hlong'⟩
      rw [hstring] at hs'
      cases hs'
      rw [hlong] at hlong'
      exact Except.ok.inj hlong'

theorem storeConstant_loads (load : Instruction) (w : Walk) :
    Once (fun _ w' => Loaded load w w') (storeConstant load w) := by
  refine after_bind (after_askHost ?_ fun _ _ => trivial)
  refine after_state (after_bind (after_modify ?_))
  refine after_seq (isLongConstant_after load.b _) ?_
  rintro long _ ⟨rfl, hlong⟩
  have hsame : LongAt load.b
      { w with frame.registers := w.frame.registers.lookUp load.b } ↔ LongAt load.b w := by
    unfold LongAt
    rw [Registers.constantString?_lookUp]
  rw [hsame] at hlong
  cases long with
  | true =>
    have hbound : Once (fun _ w' => WrittenOnce load.a (loadedValue load w).text w w')
        (bindLocal load.a (loadedValue load w) none
          { w with frame.registers := w.frame.registers.lookUp load.b }) :=
      bindLocal_once _ rfl (Nat.le_refl _)
    refine after_bind (after_imp hbound (fun _ w' h => ?_))
    exact ⟨fun _ => h, fun hshort => absurd (hlong.mp rfl) hshort⟩
  | false =>
    refine ⟨fun h => (Bool.false_ne_true (hlong.mpr h)).elim, fun _ => ?_⟩
    exact ⟨contains_iff_mem.mpr mem_cons_self, Registers.peek_setUnread _ _ _, rfl, Nat.le_refl _⟩

/-! ### Before an instruction writes -/

/-- What an instruction does before it writes anything.  Only the load of a constant looks at its
register as a part of its own step. -/
def poise (i : Instruction) : Walking Unit :=
  if i.opcode = .loadConstant then flushUnread i.a else pure ()

/-- What is done before an instruction looks at its register. -/
def lead (index : Nat) : Walking Unit := do
  pollCaller index
  countInstruction index
  emitDue index

theorem approach_poise (i : Instruction) (index : Nat) :
    (approach i index >>= fun _ => poise i) = lead index >>= fun _ =>
      if i.isLoad then flushUnread i.a else pure () := by
  have hflush : (flushOverwritten i >>= fun _ => poise i) =
      if i.isLoad then flushUnread i.a else pure () := by
    unfold flushOverwritten poise Instruction.isLoad
    by_cases hload : i.opcode = .loadConstant
    · rw [hload]
      rfl
    · rw [if_neg hload, beq_eq_false_iff_ne.mpr hload, Bool.false_or]
      exact bind_pure_unit
  unfold approach lead
  simp only [bind_assoc, hflush]

/-- What leaves a register alone and takes nothing back. -/
theorem after_sparing {α : Type} {T T' : Stop → Prop} {m : Walking α}
    (hm : Keeps (Untouched reg) m T) (honward : Keeps Onward m T') (w : Walk) :
    Once (fun _ w' => Untouched reg w w' ∧ Onward w w') (m w) :=
  after_loose (after_and (hm w) (honward w))

theorem flushUnread_other {index : Int} (h : index ≠ reg) (w : Walk) :
    Once (fun _ w' => Untouched reg w w' ∧ Onward w w') (flushUnread index w) :=
  after_sparing (flushUnread_keeps (untouched_fenced reg).toCarried h)
    (flushUnread_keeps onward_blocked.toCarried trivial) w

theorem lead_keeps {R : Walk → Walk → Prop} {A : Int → Prop} (hR : Fenced R A) (index : Nat) :
    Keeps R (lead index) := by
  refine hR.seq (pollCaller_keeps hR.toQuiet index) ?_
  exact hR.seq (countInstruction_keeps hR.toQuiet index) <| emitDue_keeps hR index

theorem lead_after (reg : Int) (index : Nat) (w : Walk) :
    Once (fun _ w' => Untouched reg w w' ∧ Onward w w') (lead index w) :=
  after_sparing (lead_keeps (untouched_fenced reg) index)
    (lead_keeps onward_blocked.toFenced index) w

theorem conclude_after (reg : Int) (i : Instruction) (index mark taken : Nat) (w : Walk) :
    Once (fun _ w' => Untouched reg w w' ∧ Onward w w') (conclude i index mark taken w) :=
  after_sparing (conclude_keeps (untouched_fenced reg) i index mark taken)
    (conclude_keeps onward_blocked.toFenced i index mark taken) w

/-! ### The end of the code -/

theorem WrittenOnce.flushAll (regs : List Int) : ∀ {w : Walk}, WrittenOnce reg text before w →
    Once (fun _ w' => WrittenOnce reg text before w') (flushAll regs w) := by
  induction regs with
  | nil => exact fun h => h
  | cons index rest ih =>
    intro w h
    by_cases hindex : index = reg
    · subst hindex
      exact after_seq h.flush fun _ w' h' => ih h'
    · exact after_seq (flushUnread_other hindex w) fun _ w' h' => ih (h.carry h'.1 h'.2)

/-- What waits in one of the registers that are looked at is written down. -/
theorem Waiting.flushAll (regs : List Int) : ∀ {w : Walk}, reg ∈ regs → Waiting reg value before w →
    Once (fun _ w' => WrittenOnce reg value.text before w') (flushAll regs w) := by
  induction regs with
  | nil => exact fun hmem => absurd hmem not_mem_nil
  | cons index rest ih =>
    intro w hmem h
    by_cases hindex : index = reg
    · subst hindex
      exact after_seq h.flush fun _ w' h' => h'.flushAll rest
    · have hrest : reg ∈ rest := (mem_cons.mp hmem).resolve_left (Ne.symm hindex)
      exact after_seq (flushUnread_other hindex w) fun _ w' h' => ih hrest (h.carry h'.1 h'.2)

/-- At the end what was loaded and not read is there once. -/
theorem Loaded.windUp (h : Loaded load before w) :
    Once (fun _ w' => WrittenOnce load.a (loadedValue load before).text before w') (windUp w) := by
  have hflushed : Once (fun _ w' => WrittenOnce load.a (loadedValue load before).text before w')
      (flushAll w.frame.registers.unreadList w) := by
    by_cases hlong : LongAt load.b before
    · exact (h.long hlong).flushAll _
    · refine (h.short hlong).flushAll _ ?_
      exact mem_mergeSort.mpr (contains_iff_mem.mp (h.short hlong).unread)
  refine after_state (after_seq hflushed fun _ w₁ h₁ => ?_)
  have hrest {R : Walk → Walk → Prop} {A : Int → Prop} (hR : Fenced R A) :
      Keeps R (emitBlocks (·.finish w.frame.code.length) >>= fun _ =>
        reportAnomalies w.frame.code.length) :=
    hR.seq (emitBlocks_keeps hR fun b => Blocks.finish_scaffold b _) <|
      reportAnomalies_keeps hR.toAccounted _
  exact after_mono (after_sparing (hrest (untouched_fenced load.a))
    (hrest onward_blocked.toFenced) w₁) (fun _ _ h' => h₁.carry h'.1 h'.2) fun _ _ _ => trivial

end Walking

namespace Job

open Walking

variable {j : Job} {n m : Nat} {load i : Instruction} {reg : Int} {text : String}
  {w₀ w₁ v w : Walk} {r : Routine} {d : Context}

/-- The states in which an instruction has looked at its register and not written anything yet. -/
inductive Poised (j : Job) (index : Nat) (i : Instruction) (w : Walk) : Prop
  | intro {before : Walk} (due : j.Due index i before) (poised : poise i before = .ok () w) :
      j.Poised index i w

/-- Among the statements of a routine from `first` on and before `last` just one binds a register:
it assigns a text to the local of the register. -/
def KeepsOnce (j : Job) (r : Routine) (reg : Int) (text : String) (first last : Nat) : Prop :=
  ∃ place name declares w, r.bindingsIn reg first last = [⟨place, [reg]⟩] ∧
    r.body[place]? = some (.assign name text declares none) ∧ j.Ends w ∧
    w.frame.locals.get? reg = some name

/-! ### From one instruction to another -/

theorem poise_onward (i : Instruction) : Keeps Onward (poise i) Stop.IsFault :=
  keeps_ite (flushUnread_keeps onward_blocked.toCarried trivial) (keeps_pure onward_blocked.refl ())

theorem Poised.owns (h : j.Poised n i w) : j.Owns w.frame := by
  obtain @⟨before, hdue, hpoised⟩ := h
  have honward := poise_onward i before
  rw [hpoised] at honward
  exact hdue.owns.onward honward

/-- The step of the load of a constant goes on by storing it. -/
theorem Poised.step_load (h : j.Poised n load w₀) (hload : load.opcode = .loadConstant) :
    ∃ before, j.Due n load before ∧ step j.children load n before =
      (storeConstant load >>= fun _ => pure 1) w₀ := by
  obtain @⟨before, hdue, hpoised⟩ := h
  refine ⟨before, hdue, ?_⟩
  unfold poise at hpoised
  rw [if_pos hload] at hpoised
  unfold step
  rw [hload]
  show (loadConstant load >>= fun _ => pure 1) before = _
  rw [loadConstant_eq, bind_assoc, run_bind hpoised]

theorem Poised.midway (h : j.Poised n i w) : j.Midway n w := by
  by_cases hload : i.opcode = .loadConstant
  · obtain ⟨before, hdue, hstep⟩ := h.step_load hload
    obtain ⟨hreached, hi, happroach⟩ := hdue
    refine midway_of_step hreached hi happroach ?_
    rw [hstep]
    have hstore := storeConstant_keeps (i := i) onward_blocked.toQuiet trivial w
    exact after_bind (after_fault hstore fun _ _ h => h.2)
  · obtain ⟨hdue, hpoised⟩ := h
    unfold poise at hpoised
    rw [if_neg hload] at hpoised
    cases hpoised
    exact hdue.midway

/-- A job that succeeds gets from the step of an instruction to where it writes. -/
theorem Due.poised (h : j.Due n i v) (hok : j.result = .ok r d) : ∃ w, j.Poised n i w := by
  by_cases hload : i.opcode = .loadConstant
  · obtain ⟨taken, _, u, _, hpasses⟩ := h.passes hok
    have hstep := hpasses.stepped
    unfold step at hstep
    rw [hload] at hstep
    obtain ⟨_, _, hrun, -⟩ := ok_of_bind hstep
    rw [loadConstant_eq] at hrun
    obtain ⟨_, w, hflush, -⟩ := ok_of_bind hrun
    exact ⟨w, h, (congrFun (if_pos hload) v).trans hflush⟩
  · exact ⟨v, h, congrFun (if_neg hload) v⟩

/-- A constant that was loaded and that no instruction up to an index reads or writes. -/
theorem Poised.loaded (h : j.Poised n load w₀) (hload : load.opcode = .loadConstant)
    (hok : j.result = .ok r d) (hreached : j.At m v) (hlt : n < m)
    (hspared : j.Spared load.a n m) : Loaded load w₀ v := by
  obtain ⟨before, hdue, hstep⟩ := h.step_load hload
  obtain ⟨taken, _, u, w', hpasses⟩ := hdue.passes hok
  obtain ⟨mark, hconclude⟩ := hpasses.concluded
  obtain ⟨_, _, hstore, htaken⟩ := ok_of_bind (hstep.symm.trans hpasses.stepped)
  cases htaken
  have hloaded := storeConstant_loads load w₀
  rw [hstore] at hloaded
  have hconcluded := conclude_after load.a load n mark 1 u
  rw [hconclude] at hconcluded
  have hnext := hpasses.next
  exact (hloaded.carry hconcluded.1 hconcluded.2).carry
    (hnext.untouched hreached hlt hspared) (hnext.onward hreached hlt)

/-- What an instruction does to a constant that waits, before it writes anything. -/
theorem Poised.parts (h : j.Poised m i w₁) : ∃ u u', j.At m u ∧ lead m u = .ok () u' ∧
    (if i.isLoad then flushUnread i.a else pure () : Walking Unit) u' = .ok () w₁ := by
  obtain @⟨before, ⟨hreached, -, happroach⟩, hpoised⟩ := h
  have hrun := run_bind happroach fun _ => poise i
  rw [approach_poise, hpoised] at hrun
  obtain ⟨_, u', hlead, hflush⟩ := ok_of_bind hrun
  exact ⟨_, u', hreached, hlead, hflush⟩

/-- Before an instruction writes: a constant that waits in the register that it looks at is written
down, and any other is left alone. -/
theorem Poised.meets (h : j.Poised n load w₀) (hload : load.opcode = .loadConstant)
    (hok : j.result = .ok r d) (h' : j.Poised m i w₁) (hlt : n < m)
    (hspared : j.Spared load.a n m) :
    (i.isLoad = true ∧ i.a = load.a → WrittenOnce load.a (loadedValue load w₀).text w₀ w₁) ∧
    (¬(i.isLoad = true ∧ i.a = load.a) → Loaded load w₀ w₁) := by
  obtain ⟨u, u', hreached, hlead, hflush⟩ := h'.parts
  have hled := lead_after load.a m u
  rw [hlead] at hled
  have hloaded := (h.loaded hload hok hreached hlt hspared).carry hled.1 hled.2
  refine ⟨fun ⟨hi, ha⟩ => ?_, fun hother => ?_⟩
  · have hwritten := hloaded.flush
    rw [if_pos hi, ha] at hflush
    rwa [hflush] at hwritten
  · by_cases hi : i.isLoad = true
    · have hflushed := flushUnread_other (fun ha => hother ⟨hi, ha⟩) u'
      rw [if_pos hi] at hflush
      rw [hflush] at hflushed
      exact hloaded.carry hflushed.1 hflushed.2
    · rw [if_neg hi] at hflush
      cases hflush
      exact hloaded

/-! ### What a job hands back -/

/-- The bindings of a register between two states of a walk are those of the routine between the
lengths of the body then. -/
theorem bindingsIn_of_onward {more : List Binding} (hplaced : j.Owns w₀.frame)
    (honward : Onward w₁ v) (hbindings : bindingsOf reg w₁.frame.bindings =
      bindingsOf reg w₀.frame.bindings ++ more)
    (hmore : ∀ b ∈ more, w₀.frame.body.length ≤ b.place ∧ b.place < w₁.frame.body.length) :
    v.frame.routine.bindingsIn reg w₀.frame.body.length w₁.frame.body.length = more := by
  obtain ⟨rest, hrest⟩ := honward.bindings
  have hplaces := honward.places
  rw [← hrest, drop_left] at hplaces
  show (bindingsOf reg v.frame.bindings).filter _ = more
  rw [← hrest, bindingsOf_append, hbindings, filter_append, filter_append]
  have hbefore : (bindingsOf reg w₀.frame.bindings).filter (fun b =>
      decide (w₀.frame.body.length ≤ b.place ∧ b.place < w₁.frame.body.length)) = [] := by
    refine filter_eq_nil_iff.mpr fun b hb => ?_
    have hlt := hplaced.placed b (mem_of_mem_filter hb)
    rw [decide_eq_true_eq]
    omega
  have hafter : (bindingsOf reg rest).filter (fun b =>
      decide (w₀.frame.body.length ≤ b.place ∧ b.place < w₁.frame.body.length)) = [] := by
    refine filter_eq_nil_iff.mpr fun b hb => ?_
    have hle := hplaces b (mem_of_mem_filter hb)
    rw [decide_eq_true_eq]
    omega
  rw [hbefore, hafter, nil_append, append_nil]
  exact filter_eq_self.mpr fun b hb => decide_eq_true (hmore b hb)

theorem keepsOnce_of_written (hplaced : j.Owns w₀.frame) (hwritten : WrittenOnce reg text w₀ w₁)
    (honward : Onward w₁ v) (hend : j.Ends v) :
    j.KeepsOnce v.frame.routine reg text w₀.frame.body.length w₁.frame.body.length := by
  obtain ⟨place, name, declares, hbindings, hplace, hshown, hname⟩ := hwritten.once
  refine ⟨place, name, declares, v, bindingsIn_of_onward hplaced honward hbindings ?_,
    getElem?_prefix_mono honward.body hshown, hend, honward.locals reg name hname⟩
  intro b hb
  rw [mem_singleton.mp hb]
  exact ⟨hplace, (List.getElem?_eq_some_iff.mp hshown).1⟩

/-- Where the walk of a job that succeeds ends. -/
theorem ends_of_ok (hok : j.result = .ok r d) : ∃ w v, j.At j.source.instructions.length w ∧
    windUp w = .ok () v ∧ j.Ends v ∧ r = v.frame.routine := by
  obtain ⟨w, v, hreached, hwound, hr, -⟩ := end_of_ok hok
  obtain ⟨limits, henter, hwalk⟩ := hreached.walk_end
  exact ⟨w, v, hreached, hwound, ⟨limits, henter, .inl (hwalk.trans hwound)⟩, hr⟩

end Job

/-- Only a range that is set to nil has other registers than the one that is looked at. -/
theorem Instruction.loadNil_of_mem {i : Instruction} {reg : Int} (hi : i.isLoad = true)
    (hreg : reg ∈ i.registersWritten) (hother : reg ≠ i.a) : i.opcode = .loadNil := by
  unfold isLoad at hi
  unfold registersWritten at hreg
  cases hop : i.opcode with
  | loadNil => rfl
  | loadConstant | loadBool | getUpvalue | getGlobal | newTable | closure =>
    rw [hop] at hreg
    exact absurd (mem_singleton.mp hreg) hother
  | _ =>
    rw [hop] at hi
    cases hi

/-- **A constant that nothing reads is kept once, unless it is lost in a range that is set to nil.**
Let a function be recovered whose code loads a constant, and let no instruction behind read or write
its register up to one that overwrites it, or up to the end.  At the end the body has just one
assignment for the load: that of the constant to the local of the register.  It stands before the
statements of the instruction that overwrites the register, if this is the first one that the
instruction writes, or if the constant is a long string.  Otherwise a range of registers is set to
nil, and the body has no such assignment. -/
theorem unread_constants_are_kept_once {j : Job} {r : Routine} {d : Context} {n : Nat}
    {load : Instruction} (hok : j.result = .ok r d)
    (hi : j.source.instructions[n]? = some load) (hload : load.opcode = .loadConstant) :
    ∃ w₀, j.Poised n load w₀ ∧
      (∀ m i, n < m → j.source.Reads m → j.source.instructions[m]? = some i → i.isLoad = true →
        load.a ∈ i.registersWritten → j.Spared load.a n m → ∃ w₁, j.Poised m i w₁ ∧
          (load.a = i.a ∨ Walking.LongAt load.b w₀ →
            j.KeepsOnce r load.a (j.source.constantSlot load.b).text w₀.frame.body.length
              w₁.frame.body.length) ∧
          (load.a ≠ i.a → ¬Walking.LongAt load.b w₀ → i.opcode = .loadNil ∧
            r.bindingsIn load.a w₀.frame.body.length w₁.frame.body.length = [])) ∧
      (j.Spared load.a n j.source.instructions.length →
        j.KeepsOnce r load.a (j.source.constantSlot load.b).text w₀.frame.body.length
          r.body.length) := by
  have hown : load.isCapture = false := by
    rw [Instruction.isCapture, hload]
    rfl
  obtain ⟨before, hreached⟩ := Job.at_of_own hok hi (by simp [hload]) hown
  obtain ⟨_, hadvance⟩ := hreached.advances hok (hreached.owns.code ▸ hi)
  obtain ⟨_, _, _, happroach, -⟩ := Walking.ok_of_advance hadvance
  have hdue : j.Due n load _ := ⟨hreached, hreached.owns.code ▸ hi, happroach⟩
  obtain ⟨w₀, hpoised⟩ := hdue.poised hok
  obtain ⟨last, v, hend, hwound, hends, rfl⟩ := Job.ends_of_ok hok
  have htext : Walking.loadedValue load w₀ = j.source.constantSlot load.b :=
    Registers.constantSlot_congr hpoised.owns.constants load.b
  refine ⟨w₀, hpoised, fun m i hlt hreads hi' hloads hwritten hspared => ?_, fun hspared => ?_⟩
  · obtain ⟨_, _, _, hdue', -⟩ := Job.due_of_reads hok hreads hi'
    obtain ⟨w₁, hpoised'⟩ := hdue'.poised hok
    have honward := hpoised'.midway.ends_onward hends
    obtain ⟨hflushed, hspared'⟩ := hpoised.meets hload hok hpoised' hlt hspared
    refine ⟨w₁, hpoised', fun hkept => ?_, fun hother hshort => ?_⟩
    · refine Job.keepsOnce_of_written hpoised.owns ?_ honward hends
      rw [← htext]
      by_cases ha : i.a = load.a
      · exact hflushed ⟨hloads, ha⟩
      · exact (hspared' fun h => ha h.2).long (hkept.resolve_left (Ne.symm ha))
    · refine ⟨Instruction.loadNil_of_mem hloads hwritten hother, ?_⟩
      have hwaiting := (hspared' fun h => hother h.2.symm).short hshort
      exact Job.bindingsIn_of_onward hpoised.owns honward
        (hwaiting.bindings.trans (append_nil _).symm) fun b hb => absurd hb not_mem_nil
  · have hlt := (List.getElem?_eq_some_iff.mp hi).1
    have hwritten := (hpoised.loaded hload hok hend hlt hspared).windUp
    rw [hwound] at hwritten
    rw [← htext]
    exact Job.keepsOnce_of_written hpoised.owns hwritten (Walking.onward_blocked.refl v) hends

/-- Constants for two registers, both set to nil, and a constant that nothing overwrites. -/
def nilRange : Job :=
  .root {
    instructions := [{ opcode := .loadConstant, a := 1 }, { opcode := .loadConstant, b := 1 },
      { opcode := .loadNil, b := 1 }, { opcode := .loadConstant, a := 2 }]
    constants := [.string "x", .string "y"] } { simulate := some false }

theorem nilRange_recovered : ∃ r d, nilRange.result = .ok r d ∧
    r.body.map Statement.summary = ["local v0 = \"y\"", "local v2 = \"x\""] :=
  Job.result_of_eval (fun r _ =>
    r.body.map Statement.summary = ["local v0 = \"y\"", "local v2 = \"x\""]) (by decide +kernel)

theorem nilRange_reads : nilRange.source.Reads 2 := by
  have hfirst : nilRange.source.Reads 1 :=
    .next (i := { opcode := .loadConstant, a := 1 }) .first rfl
  exact .next (i := { opcode := .loadConstant, b := 1 }) hfirst rfl

/-- In `nilRange` the constant of the first register of the range is kept, and so is the last
constant. -/
theorem nilRange_keeps_constants : ∃ r d w₁ w₂ w₃, nilRange.result = .ok r d ∧
    nilRange.Poised 1 { opcode := .loadConstant, b := 1 } w₁ ∧
    nilRange.Poised 2 { opcode := .loadNil, b := 1 } w₂ ∧
    nilRange.Poised 3 { opcode := .loadConstant, a := 2 } w₃ ∧
    nilRange.KeepsOnce r 0 "\"y\"" w₁.frame.body.length w₂.frame.body.length ∧
    nilRange.KeepsOnce r 2 "\"x\"" w₃.frame.body.length r.body.length := by
  obtain ⟨r, d, hok, -⟩ := nilRange_recovered
  obtain ⟨w₁, hpoised₁, hover, -⟩ := unread_constants_are_kept_once (n := 1) hok rfl rfl
  obtain ⟨w₂, hpoised₂, hkept, -⟩ := hover 2 _ (by decide) nilRange_reads rfl rfl (by decide)
    fun index i w hfirst hlast => by omega
  obtain ⟨w₃, hpoised₃, -, hlast⟩ := unread_constants_are_kept_once (n := 3) hok rfl rfl
  refine ⟨r, d, w₁, w₂, w₃, hok, hpoised₁, hpoised₂, hpoised₃, hkept (.inl rfl), hlast ?_⟩
  intro index i w hfirst hlength
  have hfour : index < 4 := hlength
  omega

/-- A constant for a register, which is then set to nil together with the one before it. -/
def nilPair : Job :=
  .root { instructions := [{ opcode := .loadConstant, a := 1 }, { opcode := .loadNil, b := 1 }]
          constants := [.string "x"] } { simulate := some false }

/-- Nothing reads the constant of `nilPair` before its register is set to nil, and no statement
shows it. -/
theorem nilPair_loses_constant :
    ∃ r d, nilPair.result = .ok r d ∧ r.body = [] ∧ nilPair.Spared 1 0 1 ∧
      1 ∈ Instruction.registersWritten { opcode := .loadNil, b := 1 } := by
  obtain ⟨r, d, hok, hbody⟩ : ∃ r d, nilPair.result = .ok r d ∧ r.body.length = 0 :=
    Job.result_of_eval (fun r _ => r.body.length = 0) (by decide +kernel)
  refine ⟨r, d, hok, length_eq_zero_iff.mp hbody, fun index i w hfirst hlast => ?_, by decide⟩
  omega

end LuaRecovery

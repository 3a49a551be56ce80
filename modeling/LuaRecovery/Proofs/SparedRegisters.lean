/-
Registers that an instruction leaves alone.

What is known of a register that an instruction neither reads nor writes is the same before and
after: what it holds, whether it was read since it was written, and which assignments bind it.  The
lemmas follow the actions that steps are made of; together they say so of every step, and of every
stretch of a walk.
-/
import LuaRecovery.Proofs.RegisterUse

namespace LuaRecovery

open List

/-- The bindings of a register. -/
def bindingsOf (reg : Int) (bindings : List Binding) : List Binding :=
  bindings.filter fun b => decide (reg ∈ b.registers)

theorem bindingsOf_append (reg : Int) (xs ys : List Binding) :
    bindingsOf reg (xs ++ ys) = bindingsOf reg xs ++ bindingsOf reg ys :=
  filter_append _ _

theorem bindingsOf_other {reg : Int} {registers : List Int} (h : reg ∉ registers) (place : Nat) :
    bindingsOf reg [⟨place, registers⟩] = [] := by
  simp [bindingsOf, h]

namespace Walking

/-! ### Actions that leave a register alone -/

/-- What is known of a register is the same in two states. -/
structure Untouched (reg : Int) (w w' : Walk) : Prop where
  registers : w.frame.registers.SameAt reg w'.frame.registers
  bindings : bindingsOf reg w'.frame.bindings = bindingsOf reg w.frame.bindings

variable {reg : Int}

theorem Untouched.refl (w : Walk) : Untouched reg w w := ⟨.refl _, rfl⟩

theorem Untouched.trans (w₁ w₂ w₃ : Walk) (h₁ : Untouched reg w₁ w₂) (h₂ : Untouched reg w₂ w₃) :
    Untouched reg w₁ w₃ :=
  ⟨h₁.registers.trans h₂.registers, h₂.bindings.trans h₁.bindings⟩

/-- The bindings that are added concern other registers. -/
theorem untouched_bound {registers : List Int} (h : reg ∉ registers) (w : Walk) (c : Context)
    (s : Statement) (locals : Table Int String) :
    Untouched reg w (bound { w with context := c } registers s locals) := by
  refine ⟨.refl _, ?_⟩
  show bindingsOf reg (w.frame.bindings ++ [⟨w.frame.body.length, registers⟩]) = _
  rw [bindingsOf_append, bindingsOf_other h, append_nil]

/-- Whatever concerns other registers leaves a register alone. -/
theorem untouched_fenced (reg : Int) : Fenced (Untouched reg) (· ≠ reg) where
  refl := .refl
  trans := .trans
  registers _ _ h := ⟨h.others reg fun hne => hne rfl, rfl⟩
  scene _ _ _ := ⟨.refl _, rfl⟩
  objects _ _ := ⟨.refl _, rfl⟩
  captured _ _ _ _ := ⟨.refl _, rfl⟩
  assign _ _ _ _ := ⟨.refl _, rfl⟩
  bind w scene _ _ locals _ _ _ _ hregisters _ _ :=
    untouched_bound (fun hmem => hregisters reg hmem rfl) w { w.context with scene } _ locals
  note w index := ⟨w.frame.registers.lookUp_sameAt index, rfl⟩
  limits _ _ _ := ⟨.refl _, rfl⟩
  trace _ _ := ⟨.refl _, rfl⟩
  report _ _ := ⟨.refl _, rfl⟩
  emit _ _ _ := ⟨.refl _, rfl⟩
  drainRegisters _ := ⟨⟨rfl, rfl⟩, rfl⟩
  drainBlocks _ := ⟨.refl _, rfl⟩
  blocks _ _ _ _ := ⟨.refl _, rfl⟩

section

variable {reg : Int} {i : Instruction}

/-- An action after which nothing is known but that it left a register alone, if it answers. -/
theorem after_untouched {α : Type} {T : Stop → Prop} {m : Walking α}
    (hm : Keeps (Untouched reg) m T) (w : Walk) :
    Once (fun _ w' => Untouched reg w w') (m w) :=
  after_loose (hm w)

theorem others_of_not_mem {registers : List Int} (h : reg ∉ registers) : ∀ r ∈ registers, r ≠ reg :=
  fun _ hr heq => h (heq ▸ hr)

/-! ### Lists of values -/

/-- A call reads its list and clears it, and writes its results. -/
theorem finishCall_untouched {f : Frame} (ha : i.a ≠ reg) (hlist : reg ∉ f.listAbove i.a i.b)
    (hresults : reg ∉ range i.a (i.a + i.c - 2)) (index : Nat) (ambiguous : Bool) :
    Keeps (Untouched reg) (finishCall i index (f.listAbove i.a i.b) ambiguous) Stop.IsMute := by
  have hR := untouched_fenced reg
  have hlog : Logged (Untouched reg) := fun _ _ => ⟨.refl _, rfl⟩
  refine hR.chain (readRegister_keeps hR.toCarried ha) fun callee => ?_
  have hsublist := withoutReceiver_sublist callee.method i.a (f.listAbove i.a i.b)
  have hargs := others_of_not_mem fun hmem => hlist (hsublist.subset hmem)
  refine hR.chain (readTexts_keeps hR.toCarried hargs) fun args => ?_
  refine hR.seq (reportGuess_keeps hR.toTold _ _ _) ?_
  refine hR.chain (makeCall_keeps hR.toCarried hlog _) fun outcome => ?_
  refine hR.chain (clearRegisters_keeps hR.toCarried (others_of_not_mem ?_)) fun _ => ?_
  · intro hmem
    have hlength := hsublist.length_le
    rw [mem_range] at hmem
    exact hlist (mem_listAbove (by omega) (by omega))
  · have hlast : i.a + (i.c - 1) - 1 = i.a + i.c - 2 := by omega
    rw [← hlast] at hresults
    exact placeResults_keeps hR.toQuiet (fun _ _ => ⟨.refl _, rfl⟩) hR.emit ha
      (others_of_not_mem hresults) _ _ _

variable {w : Walk} {index : Nat}

theorem call_untouched (ha : i.a ≠ reg) (hlist : reg ∉ w.frame.listAbove i.a i.b)
    (hresults : reg ∉ range i.a (i.a + i.c - 2)) (index : Nat) :
    Once (fun _ w' => Untouched reg w w') (call i index w) := by
  obtain ⟨ambiguous, top, hrun⟩ := argumentRegisters_barring i.a i.b
    { w with frame.registers := w.frame.registers.touch i.a }
  refine (call_barring ((listAbove_touch w.frame i.a i.a i.b) ▸ hrun)).after ?_
  have hfinish := finishCall_untouched ha hlist hresults index ambiguous { w with frame.top := top }
  exact after_mono hfinish (fun _ _ h => ⟨h.registers, h.bindings⟩) fun _ _ _ => trivial

theorem ret_untouched (hlist : reg ∉ w.frame.listAbove (i.a - 1) (max 0 i.b)) (index : Nat) :
    Once (fun _ w' => Untouched reg w w') (ret i index w) := by
  have hR := untouched_fenced reg
  by_cases hopen : i.b ≤ 0
  · rw [Int.max_eq_left hopen] at hlist
    obtain ⟨ambiguous, top, hrun⟩ := argumentRegisters_barring (i.a - 1) 0 w
    refine (ret_barring hopen hrun).after ?_
    have hfinish : Keeps (Untouched reg)
        (finishReturn index (w.frame.listAbove (i.a - 1) 0) ambiguous) Stop.IsMute := by
      refine hR.chain (readTexts_keeps hR.toCarried (others_of_not_mem hlist)) ?_
      exact fun _ => hR.seq (reportGuess_keeps hR.toTold _ _ _) <| emitLine_keeps hR.toTold trivial
    exact after_mono (hfinish { w with frame.top := top })
      (fun _ _ h => ⟨h.registers, h.bindings⟩) fun _ _ _ => trivial
  · unfold ret
    by_cases hnone : i.b = 1
    · rw [if_pos hnone]
      refine after_untouched (T := Stop.IsMute) ?_ w
      refine hR.chain (fun w => hR.refl w) fun w => ?_
      exact keeps_ite (emitLine_keeps hR.toTold trivial) (hR.done ())
    · rw [if_neg hnone, if_pos (by omega)]
      have hvalues : reg ∉ range i.a (i.a + i.b - 2) := by
        unfold Frame.listAbove at hlist
        rw [if_pos (by omega), mem_range] at hlist
        rw [mem_range]
        omega
      refine after_untouched (T := Stop.IsMute) ?_ w
      refine hR.chain (readTexts_keeps hR.toCarried (others_of_not_mem hvalues)) ?_
      exact fun _ => emitLine_keeps hR.toTold trivial

/-! ### Closures -/

theorem prepare_untouched {child : Child}
    (h : ∀ c ∈ ((w.frame.code.drop (index + 1)).take child.upvalueCount.toNat).takeWhile
      Instruction.isCapture, c.opcode = .move → c.b ≠ i.a → c.b ≠ reg) :
    Once (fun _ w' => Untouched reg w w') (prepare child i index w) := by
  refine after_bind (after_mono (takeLocal_after i.a (uniqueName_after _ w)) ?_ fun _ _ h => h.elim)
  rintro ⟨name, declares⟩ _ ⟨scene, objects, locals, rfl, -⟩
  refine after_state ?_
  refine after_seq (after_untouched (T := Stop.IsMute)
    (captures_keeps (untouched_fenced reg).toCarried name h) _) fun _ _ hrest => ?_
  refine after_bind (after_askHost ?_ fun _ _ => trivial)
  exact ⟨hrest.registers, hrest.bindings⟩

theorem buildChild_untouched (ha : i.a ≠ reg) (child : Child) (name : String)
    (upvalues : List Upvalue) (declares : Bool) (w : Walk) :
    Once (fun _ w' => Untouched reg w w') (buildChild child i.a name upvalues declares w) := by
  have hother : reg ∉ [i.a] := fun hmem => ha (mem_singleton.mp hmem).symm
  exact buildChild_after (fun _ c _ => untouched_bound hother w c _ _) (fun _ _ _ _ => trivial)
    fun _ _ _ _ => trivial

theorem closure_untouched {p : Prototype} (hcode : w.frame.code = p.instructions)
    (hop : i.opcode = .closure) (hread : reg ∉ p.registersRead w.frame i index) (ha : i.a ≠ reg) :
    Once (fun _ w' => Untouched reg w w') (closure (Prototype.builders p.children) i index w) := by
  have hR := untouched_fenced reg
  have hset (slot : Slot) := setRegister_keeps (T := Stop.IsMute) hR.toCarried ha slot
  have hfound := p.childAt?_builders i.b
  cases hchild : p.childAt? i.b with
  | none =>
    rw [hchild] at hfound
    unfold Walking.closure
    rw [hfound]
    refine after_untouched (T := Stop.IsMute) ?_ w
    refine hR.seq (askHost_keeps hR.refl _) ?_
    refine hR.seq (emitLine_keeps hR.toTold trivial) ?_
    refine hR.seq (report_keeps hR.toTold _ _ _) ?_
    exact hR.seq (hset _) (hR.done 0)
  | some q =>
    rw [hchild] at hfound
    unfold Prototype.registersRead at hread
    rw [hop, hchild] at hread
    have hcaptures : ∀ c ∈ p.captures q index, c.opcode = .move → c.b ≠ i.a → c.b ≠ reg := by
      intro c hc hmove htarget heq
      refine hread (mem_map.mpr ⟨c, mem_filter.mpr ⟨hc, ?_⟩, heq⟩)
      simp [hmove, htarget]
    rw [closure_eq hfound]
    refine after_seq (prepare_untouched (by rw [hcode]; exact hcaptures)) fun ready w₁ hw₁ => ?_
    refine after_seq (buildChild_untouched ha _ _ _ _ w₁) fun _ w₂ hw₂ => ?_
    refine after_seq (after_untouched (hset _) w₂) fun _ w₃ hw₃ => ?_
    exact hR.trans _ _ _ hw₁ (hR.trans _ _ _ hw₂ hw₃)

/-! ### Whole instructions -/

/-- A step leaves alone what its instruction neither reads nor writes. -/
theorem step_untouched {p : Prototype} (hcode : w.frame.code = p.instructions)
    (hread : reg ∉ p.registersRead w.frame i index) (hwritten : reg ∉ i.registersWritten) :
    Once (fun _ w' => Untouched reg w w') (step (Prototype.builders p.children) i index w) := by
  have hR := untouched_fenced reg
  have hclosure := fun hop => closure_untouched hcode hop hread
  have hspared {T : Stop → Prop} {m : Walking Unit} (hm : Keeps (Untouched reg) m T) (taken : Nat) :
      Once (fun _ w' => Untouched reg w w') ((m >>= fun _ => pure taken) w) :=
    after_bind (after_untouched hm w)
  have hhead {x : Int} {xs : List Int} (h : reg ∉ x :: xs) : x ≠ reg :=
    (ne_of_not_mem_cons h).symm
  have htail {x : Int} {xs : List Int} (h : reg ∉ x :: xs) : ∀ r ∈ xs, r ≠ reg :=
    others_of_not_mem (not_mem_of_not_mem_cons h)
  have hboth {xs ys : List Int} (h : ∀ r ∈ xs ++ ys, r ≠ reg) := forall_mem_append.mp h
  revert hread hwritten
  unfold step Prototype.registersRead Instruction.registersWritten
  cases hop : i.opcode with
  | move =>
    intro hread hwritten
    refine after_untouched (hR.seq (readRegister_keeps hR.toCarried (hhead hread)) ?_) w
    exact taking_keeps hR.toQuiet (setRegister_keeps hR.toCarried (hhead hwritten) _) 1
  | loadConstant =>
    exact fun _ hwritten => hspared (loadConstant_keeps hR.toQuiet (hhead hwritten)) 1
  | loadBool =>
    intro _ hwritten
    exact hspared (T := Stop.IsMute) (setRegister_keeps hR.toCarried (hhead hwritten) _) 1
  | loadNil =>
    intro _ hwritten
    refine hspared (T := Stop.IsMute) ?_ 1
    exact setRegisters_keeps hR.toCarried (others_of_not_mem hwritten) _
  | getUpvalue =>
    exact fun _ hwritten => hspared (getUpvalue_keeps hR.toCarried (hhead hwritten)) 1
  | setUpvalue => exact fun hread _ => hspared (setUpvalue_keeps hR.toCarried (hhead hread)) 1
  | getGlobal => exact fun _ hwritten => hspared (getGlobal_keeps hR.toQuiet (hhead hwritten)) 1
  | setGlobal => exact fun hread _ => hspared (setGlobal_keeps hR.toQuiet (hhead hread)) 1
  | getField =>
    intro hread hwritten
    exact hspared (getField_keeps hR.toQuiet (hhead hread) (htail hread) (hhead hwritten)) 1
  | setField =>
    intro hread _
    obtain ⟨hkey, hvalue⟩ := hboth (htail hread)
    exact hspared (setField_keeps hR.toQuiet (hhead hread) hkey hvalue) 1
  | newTable =>
    intro _ hwritten
    exact after_bind (after_untouched (bindLocal_keeps hR.toCarried _ none (hhead hwritten)) w)
  | selfIndex =>
    intro hread hwritten
    exact hspared (selfIndex_keeps hR.toQuiet (hhead hread) (htail hread) (hhead hwritten)
      (htail hwritten _ mem_cons_self)) 1
  | add | sub | mul | div | mod | pow =>
    intro hread hwritten
    obtain ⟨hleft, hright⟩ := hboth (others_of_not_mem hread)
    exact hspared (arith_keeps hR.toQuiet _ hleft hright (hhead hwritten)) 1
  | negate =>
    intro hread hwritten
    exact hspared (negate_keeps hR.toCarried (hhead hread) (hhead hwritten)) 1
  | invert | length =>
    intro hread hwritten
    exact hspared (unary_keeps hR.toCarried _ (hhead hread) (hhead hwritten)) 1
  | concat =>
    intro hread hwritten
    exact hspared (concat_keeps hR.toCarried (others_of_not_mem hread) (hhead hwritten)) 1
  | call =>
    intro hread hwritten
    exact after_bind (call_untouched (hhead hread) (not_mem_of_not_mem_cons hread)
      (not_mem_of_not_mem_cons hwritten) index)
  | ret => exact fun hread _ => after_bind (ret_untouched hread index)
  | closure => exact fun _ hwritten => after_bind (hclosure hop (hhead hwritten))
  | compareEq | compareLt | compareLe =>
    intro hread _
    obtain ⟨hleft, hright⟩ := hboth (others_of_not_mem hread)
    exact hspared (compare_keeps hR _ hleft hright index) 2
  | jump =>
    intro _ _
    refine hspared (hR.seq (askHost_keeps hR.refl _) ?_) 1
    exact emitBlocks_keeps hR fun b => b.jump_scaffold _ _
  | nop => exact fun _ _ => hR.refl w
  | unknown => exact fun _ _ => hspared (unknown_keeps hR.toTold i index) 1

theorem mem_registersWritten (h : overwrites i.opcode = true) : i.a ∈ i.registersWritten := by
  unfold Instruction.registersWritten
  cases hop : i.opcode with
  | loadNil => exact mem_range.mpr ⟨Int.le_refl _, Int.le_max_left _ _⟩
  | loadBool | getUpvalue | getGlobal | newTable | closure => exact mem_singleton_self _
  | _ =>
    rw [hop] at h
    cases h

end

end Walking

namespace Job

open Walking

variable {j : Job} {reg : Int} {first last : Nat} {v w : Walk}

/-- No instruction that is carried out between two indexes reads or writes a register. -/
def Spared (j : Job) (reg : Int) (first last : Nat) : Prop :=
  ∀ index i w, first < index → index < last → j.Due index i w →
    reg ∉ j.source.registersRead w.frame i index ∧ reg ∉ i.registersWritten

/-- Instructions that spare a register leave it alone together. -/
theorem At.untouched (h : j.At (first + 1) v) (h' : j.At last w) (hle : first < last)
    (hspared : j.Spared reg first last) : Untouched reg v w := by
  refine (h.stretch h' hle).carries h Untouched.refl Untouched.trans ?_
  intro k i taken w w' hfirst hlast hreached hi hadvance
  obtain ⟨w₁, w₂, mark, happroach, hstep, hconclude⟩ := ok_of_advance hadvance
  have hdue : j.Due k i w₁ := ⟨hreached, hi, happroach⟩
  obtain ⟨hread, hwritten⟩ := hspared k i w₁ hfirst hlast hdue
  have hother : overwrites i.opcode = true → i.a ≠ reg :=
    fun hover heq => hwritten (heq ▸ mem_registersWritten hover)
  have hbefore := keeps_ok (approach_keeps (untouched_fenced reg) hother k) happroach
  have hduring : After _ _ (step j.children i k w₁) :=
    step_untouched hdue.owns.code hread hwritten
  rw [hstep] at hduring
  have hafter := keeps_ok (conclude_keeps (untouched_fenced reg) i k mark taken) hconclude
  exact (hbefore.trans _ _ _ hduring).trans _ _ _ hafter

end Job

end LuaRecovery

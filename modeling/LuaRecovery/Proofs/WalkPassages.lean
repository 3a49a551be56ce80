/-
The passages of a walk.

A walk adds to its body in a fixed order.  Before an instruction what is due comes out, then what
its step gives, then what is due at the instructions it takes along, and last the remarks on its
constants.  At the end constants that nothing has read are written down, and what is still pending
comes out.  `Job.passages` has all this, with its places, for a whole walk.

What a step does to the blocks is one of three things, `Effect`: it leaves them alone, it opens one
for a compare, or it is a jump.  Everything that is said about the blocks of a walk can start from
that.
-/
import LuaRecovery.Proofs.Metered
import LuaRecovery.Proofs.Passages
import LuaRecovery.Proofs.WholeWalks

namespace LuaRecovery

open List

namespace Walking

/-! ### Passages -/

/-- The indexes that an instruction takes along. -/
def along (index taken : Nat) : List Int := range (index + 1) (index + taken - 1)

/-- The passages of an instruction that is walked from `w` to `w'` and whose step ends in `v`. -/
def passagesAt (index taken : Nat) (w v w' : Walk) : List Passage :=
  w.frame.blocks.duePassages w.frame.body.length [(index : Int)]
    ++ [⟨index, false, w.frame.body.length + (w.frame.blocks.due index).1.length,
        v.frame.body.length⟩]
    ++ v.frame.blocks.duePassages v.frame.body.length (along index taken)
    ++ [⟨index, false, v.frame.body.length + (v.frame.blocks.dueAll (along index taken)).1.length,
        w'.frame.body.length⟩]

/-- The passages of the end of a walk.  Constants that nothing has read are written down behind the
last instruction. -/
def passagesAtEnd (w : Walk) : List Passage :=
  match flushAll w.frame.registers.unreadList w with
  | .error _ _ => []
  | .ok _ v =>
    ⟨(w.frame.code.length : Int) - 1, false, w.frame.body.length, v.frame.body.length⟩
      :: v.frame.blocks.duePassages v.frame.body.length v.frame.blocks.pendingIndexes

/-- The passages of a walk from an index on. -/
def passagesFrom (children : List Child) : Nat → Nat → Walk → List Passage
  | 0, _, w => passagesAtEnd w
  | fuel + 1, index, w =>
    match w.frame.code[index]? with
    | none => passagesAtEnd w
    | some i =>
      match approach i index w with
      | .error _ _ => []
      | .ok _ v =>
        match step children i index v, advance children i index w with
        | .ok taken v, .ok _ w' =>
          passagesAt index taken w v w' ++ passagesFrom children fuel (index + taken) w'
        | _, _ => []

variable {children : List Child} {i : Instruction} {index taken fuel : Nat} {w v w' : Walk}

theorem mem_along {k : Int} : k ∈ along index taken ↔ index < k ∧ k < index + taken := by
  simp only [along, range, mem_map, List.mem_range]
  constructor
  · rintro ⟨n, hn, rfl⟩
    omega
  · intro h
    exact ⟨(k - index - 1).toNat, by omega, by omega⟩

theorem along_increasing (index taken : Nat) : (along index taken).Pairwise (· < ·) := by
  rw [along, range, pairwise_map]
  exact pairwise_lt_range.imp fun h => by omega

@[simp] theorem along_one (index : Nat) : along index 1 = [] := range_of_lt (by omega)

@[simp] theorem along_two (index : Nat) : along index 2 = [(index : Int) + 1] := by
  rw [along, range_of_le (by omega), range_of_lt (by omega)]

theorem passagesFrom_end (h : w.frame.code[index]? = none) (fuel : Nat) :
    passagesFrom children fuel index w = passagesAtEnd w := by
  cases fuel with
  | zero => rfl
  | succ fuel => simp only [passagesFrom, h]

theorem passagesFrom_advance {w₁ : Walk} (hi : w.frame.code[index]? = some i)
    (happroach : approach i index w = .ok () w₁) (hstep : step children i index w₁ = .ok taken v)
    (hadvance : advance children i index w = .ok taken w') :
    passagesFrom children (fuel + 1) index w =
      passagesAt index taken w v w' ++ passagesFrom children fuel (index + taken) w' := by
  simp only [passagesFrom, hi, happroach, hstep, hadvance]

/-! ### Blocks that are left alone -/

/-- The blocks are as they were. -/
def Fixed (w w' : Walk) : Prop := w'.frame.blocks = w.frame.blocks

theorem fixed_told : Told Fixed where
  refl _ := rfl
  trans _ _ _ h₁ h₂ := h₂.trans h₁
  registers _ _ _ := rfl
  scene _ _ _ := rfl
  objects _ _ := rfl
  captured _ _ _ _ := rfl
  assign _ _ _ _ := rfl
  bind _ _ _ _ _ _ _ _ _ _ _ _ := rfl
  note _ _ := rfl
  limits _ _ _ := rfl
  trace _ _ := rfl
  report _ _ := rfl
  emit _ _ _ := rfl

/-- The blocks are as they were, and nothing was noted. -/
structure Unnoted (w w' : Walk) : Prop where
  blocks : w'.frame.blocks = w.frame.blocks
  notes : w'.frame.registers.anomalies = w.frame.registers.anomalies

theorem unnoted_carried : Carried Unnoted where
  refl _ := ⟨rfl, rfl⟩
  trans _ _ _ h₁ h₂ := ⟨h₂.blocks.trans h₁.blocks, h₂.notes.trans h₁.notes⟩
  registers _ _ h := ⟨rfl, h.anomalies⟩
  scene _ _ _ := ⟨rfl, rfl⟩
  objects _ _ := ⟨rfl, rfl⟩
  captured _ _ _ _ := ⟨rfl, rfl⟩
  assign _ _ _ _ := ⟨rfl, rfl⟩
  bind _ _ _ _ _ _ _ _ _ _ _ _ := ⟨rfl, rfl⟩

theorem closure_unnoted {child : Child} (h : childAt? children i.b = some child) (index : Nat)
    (w : Walk) :
    Once (fun _ w' => Unnoted w w') (closure children i index w) := by
  have hR := unnoted_carried
  rw [closure_eq h]
  refine after_seq (Q := fun _ w' => Unnoted w w') ?_ fun ready w₁ h₁ => ?_
  · refine after_mono (prepare_after (hR.restrict fun _ _ => trivial) child index w) ?_
      fun _ _ _ => trivial
    rintro ready w' ⟨scene, objects, locals, -, -, -, -, h⟩
    exact ⟨h.blocks, h.notes⟩
  · refine after_seq (Q := fun _ w' => Unnoted w w') ?_ fun _ w₂ h₂ => ?_
    · exact buildChild_after (fun _ _ _ => ⟨h₁.blocks, h₁.notes⟩) (fun _ _ _ _ => trivial)
        fun _ _ _ _ => trivial
    · refine after_seq (Q := fun _ w' => Unnoted w w') ?_ fun _ _ h => h
      exact after_mono (setRegister_keeps (T := fun _ => True) hR trivial (.closure ready.name) w₂)
        (fun _ w₃ h₃ => hR.trans _ _ _ h₂ h₃) fun _ _ _ => trivial

/-! ### What a step does to the blocks -/

/-- What a step that takes some instructions does to the blocks and the body: it adds what nests,
opens a block, or jumps.  Only a closure that notes nothing, or a compare, takes others along. -/
inductive Effect (index : Nat) (i : Instruction) (w : Walk) : Nat → Walk → Prop
  | adds {taken : Nat} {w' : Walk} {more : List Statement}
      (noCompare : i.opcode.isCompare = false) (noJump : i.opcode ≠ .jump)
      (blocks : w'.frame.blocks = w.frame.blocks) (body : w'.frame.body = w.frame.body ++ more)
      (nested : Nested more)
      (notes : taken = 1 ∨ w'.frame.registers.anomalies = w.frame.registers.anomalies) :
      Effect index i w taken w'
  | compares {w' : Walk} {jump : Instruction} (condition : String)
      (isCompare : i.opcode.isCompare = true) (paired : w.frame.code[index + 1]? = some jump)
      (blocks : w'.frame.blocks = (w.frame.blocks.openConditional index jump.b condition).2)
      (body : w'.frame.body =
        w.frame.body ++ [(w.frame.blocks.openConditional index jump.b condition).1]) :
      Effect index i w 2 w'
  | jumps {w' : Walk} (isJump : i.opcode = .jump)
      (blocks : w'.frame.blocks = (w.frame.blocks.jump index i.b).2)
      (body : w'.frame.body = w.frame.body ++ (w.frame.blocks.jump index i.b).1) :
      Effect index i w 1 w'

theorem readOperand_blocks (operand : Int) (w : Walk) :
    Once (fun _ w' => w'.frame.blocks = w.frame.blocks ∧ w'.frame.body = w.frame.body)
      (readOperand operand w) :=
  after_bind (after_askHost ⟨rfl, rfl⟩ fun _ _ => trivial)

theorem compare_effect (rel : Relation) (hi : i.opcode.isCompare = true) (index : Nat) (w : Walk) :
    Once (fun taken w' => Effect index i w taken w')
      ((compare rel i index >>= fun _ => pure 2) w) := by
  refine after_seq (Q := fun _ w' => Effect index i w 2 w') ?_ fun _ _ h => h
  refine after_state ?_
  rcases pairedJump_cases w.frame.code index with ⟨jump, hpaired, hjump, -⟩ | ⟨cause, hpaired⟩
  · rw [hpaired]
    have hopen : ∀ (v : Walk) (condition : String), v.frame.blocks = w.frame.blocks →
        v.frame.body = w.frame.body →
        Effect index i w 2 (v.grow (v.frame.blocks.openConditional index jump.b condition).2
          [(v.frame.blocks.openConditional index jump.b condition).1]) := by
      intro v condition hblocks hbody
      refine .compares condition hi hjump ?_ ?_
      · rw [← hblocks]
        rfl
      · rw [← hblocks, ← hbody]
        rfl
    refine after_seq (readOperand_blocks i.b w) fun left w₁ h₁ => ?_
    refine after_seq (readOperand_blocks i.c w₁) fun right w₂ h₂ => ?_
    exact hopen w₂ _ (h₂.1.trans h₁.1) (h₂.2.trans h₁.2)
  · rw [hpaired]
    trivial

theorem closure_effect (hchildren : ∀ child ∈ children, child.build.Nests)
    (hi : i.opcode = .closure) (index : Nat) (w : Walk) :
    Once (fun taken w' => Effect index i w taken w')
      ((closure children i index >>= fun taken => pure (1 + taken)) w) := by
  have haside := closure_aside hchildren i index w
  have hcompare : i.opcode.isCompare = false := by rw [hi]; rfl
  have hjump : i.opcode ≠ .jump := by simp [hi]
  cases hfound : childAt? children i.b with
  | some child =>
    refine after_seq (after_loose (after_and haside (closure_unnoted hfound index w))) ?_
    rintro taken w' ⟨⟨-, -, more, hbody, hmore⟩, hunnoted⟩
    exact .adds hcompare hjump hunnoted.blocks hbody hmore (.inr hunnoted.notes)
  | none =>
    have hfixed : Once (fun taken w' => Fixed w w' ∧ taken = 0) (closure children i index w) := by
      have hmissing := missingChild_keeps fixed_told children.length i index w
      have htaken : Once (fun taken _ => taken = 0) (missingChild children.length i index w) :=
        after_seq (after_any _) fun _ _ _ => after_seq (after_any _) fun _ _ _ =>
          after_seq (after_any _) fun _ _ _ => taking_after _ 0 _
      unfold Walking.closure
      rw [hfound]
      exact after_loose (after_and hmissing htaken)
    refine after_seq (after_loose (after_and haside hfixed)) ?_
    rintro taken w' ⟨⟨-, -, more, hbody, hmore⟩, hblocks, rfl⟩
    exact .adds hcompare hjump hblocks hbody hmore (.inl rfl)

theorem step_effect (hchildren : ∀ child ∈ children, child.build.Nests) (i : Instruction)
    (index : Nat) (w : Walk) :
    Once (fun taken w' => Effect index i w taken w') (step children i index w) := by
  by_cases hop : i.opcode.isStructural = false
  · have haside :=
      step_keeps aside_accounted.toTold aside_topped aside_logged children i index hop w
    have hfixed := step_keeps fixed_told (fun _ _ => rfl) (fun _ _ => rfl) children i index hop w
    have htaken : Once (fun taken _ => taken = 1) (step children i index w) := by
      unfold step
      cases hcode : i.opcode with
      | closure | compareEq | compareLt | compareLe | jump =>
        rw [hcode] at hop
        cases hop
      | nop => exact rfl
      | move => exact after_seq (after_any _) fun _ w _ => taking_after _ 1 w
      | _ => exact taking_after _ 1 w
    refine after_mono (after_and haside (after_and hfixed htaken)) ?_ fun _ _ _ => trivial
    rintro taken w' ⟨⟨-, -, more, hbody, hmore⟩, hblocks, htaken⟩
    refine .adds ?_ (fun hjump => ?_) hblocks hbody hmore (.inl htaken)
    · cases hcode : i.opcode with
      | compareEq | compareLt | compareLe =>
        rw [hcode] at hop
        cases hop
      | _ => rfl
    · rw [hjump] at hop
      cases hop
  · unfold step
    cases hcode : i.opcode with
    | closure => exact closure_effect hchildren hcode index w
    | compareEq => exact compare_effect .eq (by rw [hcode]; rfl) index w
    | compareLt => exact compare_effect .lt (by rw [hcode]; rfl) index w
    | compareLe => exact compare_effect .le (by rw [hcode]; rfl) index w
    | jump =>
      exact after_bind (after_bind (after_askHost (.jumps hcode rfl rfl) fun _ _ => trivial))
    | _ =>
      rw [hcode] at hop
      exact absurd rfl hop

/-- A step only adds to the body. -/
theorem Effect.grows (h : Effect index i w taken w') :
    w.frame.body.length ≤ w'.frame.body.length := by
  cases h with
  | adds _ _ _ hbody => simp [hbody]
  | compares _ _ _ _ hbody => simp [hbody]
  | jumps _ _ hbody => simp [hbody]

/-! ### What is done around a step -/

theorem observeStrings_frame (constants : List Constant) (w : Walk) :
    Once (fun _ w' => w'.frame = w.frame) (observeStrings constants w) := by
  induction constants generalizing w with
  | nil => exact rfl
  | cons c rest ih =>
    cases c with
    | string s =>
      refine after_seq (Q := fun _ w' => w' = w) ?_ ?_
      · refine after_state ?_
        dsimp only
        cases w.context.strings.observe s with
        | ok strings => exact rfl
        | error fault => trivial
      · rintro strings _ rfl
        exact after_bind (after_modify (ih _))
    | _ => exact ih w

/-- What is done before the first instruction leaves the frame as it is. -/
theorem opening_frame (children : List Child) (w : Walk) :
    Once (fun _ w' => w'.frame = w.frame) (opening children w) :=
  after_state (after_bind (after_modify (observeStrings_frame _ _)))

/-- What constants left unread add to a walk. -/
theorem unread_effect {m : Walking Unit}
    (hm : ∀ {R : Walk → Walk → Prop}, Carried R → Keeps R m Stop.IsFault)
    (h : m w = .ok () w') :
    ∃ more, Nested more ∧ w'.frame.body = w.frame.body ++ more ∧ Unnoted w w' := by
  have haside := hm aside_accounted.toCarried w
  have hunnoted := hm unnoted_carried w
  rw [h] at haside hunnoted
  obtain ⟨more, hbody, hmore⟩ := haside.body
  exact ⟨more, hmore, hbody, hunnoted⟩

theorem frame_of_pollCaller (h : pollCaller index w = .ok () w') : w'.frame = w.frame := by
  rw [pollCaller_eq] at h
  split at h
  · cases h
    rfl
  · cases h

theorem frame_of_countInstruction (h : countInstruction index w = .ok () w') :
    w'.frame = w.frame := by
  have hafter : Once (fun _ w' => w'.frame = w.frame) (countInstruction index w) :=
    countInstruction_after rfl index (fun _ => rfl) (fun _ _ => trivial) fun _ _ => trivial
  rwa [h] at hafter

/-- Before a step what is due comes out, and then a constant that is overwritten. -/
theorem approach_effect (h : approach i index w = .ok () w') :
    ∃ more, Nested more ∧ w'.frame.blocks = (w.frame.blocks.due index).2 ∧
      w'.frame.body = w.frame.body ++ (w.frame.blocks.due index).1 ++ more ∧
      w'.frame.registers.anomalies = w.frame.registers.anomalies := by
  obtain ⟨_, w₁, hpoll, h⟩ := ok_of_bind h
  obtain ⟨_, w₂, hcount, h⟩ := ok_of_bind h
  obtain ⟨_, w₃, hdue, hflush⟩ := ok_of_bind h
  obtain ⟨more, hmore, hbody, hunnoted⟩ :=
    unread_effect (fun hR => flushOverwritten_keeps hR fun _ => trivial) hflush
  have hframe : w₂.frame = w.frame :=
    (frame_of_countInstruction hcount).trans (frame_of_pollCaller hpoll)
  obtain rfl := (EStateM.Result.ok.inj ((emitDue_run index).symm.trans hdue)).2
  rw [← hframe]
  exact ⟨more, hmore, hunnoted.blocks, hbody, hunnoted.notes⟩

/-- The reports on blocks of a function at a path. -/
def blockReports (path : String) (notes : List (Int × String)) : List Diagnostic :=
  notes.map fun note => ⟨.unbalancedBlock, note.2, path, some note.1⟩

/-- After a step what is due along comes out, and then the remarks on constants. -/
theorem conclude_effect {mark taken' : Nat} (h : conclude i index mark taken w = .ok taken' w') :
    w'.frame.blocks = (w.frame.blocks.dueAll (along index taken)).2.drain.2 ∧
      w'.frame.body = w.frame.body ++ (w.frame.blocks.dueAll (along index taken)).1 ++
        w.frame.registers.anomalies.map .remark ∧
      w'.frame.registers.anomalies = [] ∧
      ∃ more, w'.context.diagnostics = w.context.diagnostics ++ more ++
        blockReports w'.frame.path (w.frame.blocks.dueAll (along index taken)).2.anomalies := by
  unfold conclude at h
  rw [run_bind (emitDueAll_run _ w), run_bind (Job.reportAnomalies_run _ _)] at h
  obtain ⟨_, v, htrace, h⟩ := ok_of_bind h
  cases h
  obtain ⟨_, _, hspell, hlog⟩ := ok_of_bind htrace
  obtain rfl := eq_of_askHost hspell
  cases hlog
  exact ⟨rfl, rfl, rfl, _, rfl⟩

/-- At the end unread constants are written down, and then the blocks are closed. -/
theorem windUp_effect (h : windUp w = .ok () w') :
    ∃ v more, flushAll w.frame.registers.unreadList w = .ok () v ∧ Nested more ∧
      v.frame.body = w.frame.body ++ more ∧ Unnoted w v ∧
      w'.frame.body = v.frame.body ++ (v.frame.blocks.finish w.frame.code.length).1 ++
        v.frame.registers.anomalies.map .remark ∧
      ∃ reports, w'.context.diagnostics = v.context.diagnostics ++ reports ++
        blockReports w'.frame.path (v.frame.blocks.finish w.frame.code.length).2.anomalies := by
  unfold windUp at h
  rw [run_get] at h
  obtain ⟨_, v, hflush, h⟩ := ok_of_bind h
  obtain ⟨more, hmore, hbody, hunnoted⟩ :=
    unread_effect (fun hR => flushAll_keeps hR (fun _ => trivial) _) hflush
  rw [run_bind (m := emitBlocks _) rfl, Job.reportAnomalies_run] at h
  cases h
  exact ⟨v, more, hflush, hmore, hbody, hunnoted, rfl, _, rfl⟩

/-! ### Reports stay -/

/-- What was reported stays reported. -/
def Reported (c c' : Context) : Prop := c.diagnostics <+: c'.diagnostics

theorem reported_enclosed : Enclosed Reported Reported where
  refl _ := prefix_rfl
  trans := List.IsPrefix.trans
  scene _ _ _ := prefix_rfl
  limits _ _ _ := prefix_rfl
  trace _ _ := prefix_rfl
  report _ _ := prefix_append _ _
  calls _ _ := prefix_rfl
  strings _ _ := prefix_rfl
  enter h _ := h
  inside := List.IsPrefix.trans
  leave h := h

end Walking

namespace Job

open Walking

/-- The passages of what a job hands back that succeeds. -/
def passages (j : Job) : List Passage :=
  match j.context.limits.enter with
  | .error _ => []
  | .ok limits =>
    match opening j.children (j.entered limits) with
    | .error _ _ => []
    | .ok _ w => passagesFrom j.children j.source.instructions.length 0 w

variable {j : Job} {index taken : Nat} {i : Instruction} {w v w' : Walk} {r : Routine} {d : Context}

theorem closures_reported (j : Job) (c : Context) (i : Instruction) (index : Nat) (w : Walk)
    (hw : Reported c w.context) :
    After (fun _ w' => Reported c w'.context) (fun _ w' => Reported c w'.context)
      (closure j.children i index w) :=
  (reported_enclosed.preserved c).after
    (reported_enclosed.closure (j.forall_children reported_enclosed.build) i index) hw

/-- What a job has reported when it gets to an index is among what it has reported at the end. -/
theorem At.reported (h : j.At index w) (hok : j.result = .ok r d) :
    w.context.diagnostics <+: d.diagnostics := by
  obtain ⟨fuel, -, hresult⟩ := h.result
  have hrest := (reported_enclosed.preserved w.context).rest (j.closures_reported w.context) fuel
    index prefix_rfl
  have hlast := lastContext_handBack (P := Reported w.context) hrest
  rwa [← hresult, hok] at hlast

/-- What a job has reported after the step of an instruction is among what it has reported at the
end, however it ends. -/
theorem Due.reported {d : Diagnostic} (h : j.Due index i w)
    (hstep : After (fun _ w' => d ∈ w'.context.diagnostics)
      (fun _ w' => d ∈ w'.context.diagnostics) (step j.children i index w)) :
    d ∈ (lastContext j.result).diagnostics := by
  have hkept : Preserved (fun w w' => Reported w.context w'.context)
      (fun w => d ∈ w.context.diagnostics) fun _ w => d ∈ w.context.diagnostics :=
    ⟨(reported_enclosed.preserved w.context).blocked, fun h hw => h.subset hw,
      fun _ h hw => h.subset hw, fun _ h => h⟩
  obtain ⟨mark, fuel, hresult⟩ := h.result
  rw [hresult]
  refine lastContext_handBack (P := fun c => d ∈ c.diagnostics) ?_
  refine after_seq (after_locating index hstep fun _ _ _ h => h) fun taken w₁ hw₁ => ?_
  refine after_seq (hkept.conclude i index mark taken hw₁) fun taken w₂ hw₂ => ?_
  refine hkept.rest (fun i index w hw => ?_) fuel (index + taken) hw₂
  exact hkept.after
    (reported_enclosed.closure (j.forall_children reported_enclosed.build) i index) hw

/-- What a job had been given before is still there when it gets to an index. -/
theorem At.reported_before (h : j.At index w) : j.context.diagnostics <+: w.context.diagnostics :=
  h.enclosed reported_enclosed

theorem reported_step (happroach : approach i index w = .ok () v)
    (hstep : step j.children i index v = .ok taken w') : Reported w.context w'.context := by
  have hkept := reported_enclosed.preserved w.context
  have hbefore := hkept.approach i index prefix_rfl
  rw [happroach] at hbefore
  have hafter := hkept.step (fun _ => j.closures_reported w.context i index v hbefore) hbefore
  rwa [hstep] at hafter

variable (hok : j.result = .ok r d) (hi : j.source.instructions[index]? = some i)

include hok hi

/-- A job that succeeds gets to every instruction but the jumps and those that may name an
upvalue. -/
theorem at_of_own
    (hjump : i.opcode ≠ .jump) (hcapture : i.isCapture = false) : ∃ w, j.At index w := by
  have hgo : ∀ left start w, j.At start w → start ≤ index → index ≤ start + left →
      ∃ w, j.At index w := by
    intro left
    induction left with
    | zero =>
      intro start w h hle hge
      obtain rfl : start = index := by omega
      exact ⟨w, h⟩
    | succ left ih =>
      intro start w h hle hge
      by_cases hlt : start < index
      · have hlength := (List.getElem?_eq_some_iff.mp hi).1
        obtain ⟨i₀, hi₀⟩ : ∃ i₀, w.frame.code[start]? = some i₀ := by
          rw [h.owns.code]
          exact ⟨_, getElem?_eq_getElem (by omega)⟩
        obtain ⟨w', hadvance⟩ := h.advances hok hi₀
        have hpos := j.source.width_pos i₀ start
        by_cases hnext : start + j.source.width i₀ start ≤ index
        · exact ih _ w' (.next h hi₀ hadvance) hnext (by omega)
        · -- Only jumps and instructions that name an upvalue are taken along.
          obtain ⟨w₁, w₂, mark, happroach, hstep, -⟩ := ok_of_advance hadvance
          have hdue : j.Due start i₀ w₁ := ⟨h, hi₀, happroach⟩
          rcases hdue.taken_along hstep hlt (by omega) hi with ⟨-, hop⟩ | ⟨-, hcaptured⟩
          · exact absurd hop hjump
          · rw [hcapture] at hcaptured
            cases hcaptured
      · obtain rfl : start = index := by omega
        exact ⟨w, h⟩
  obtain ⟨w, hw⟩ := at_zero hok
  exact hgo index 0 w hw (by omega) (by omega)

theorem at_of_compare (hop : i.opcode.isCompare = true) : ∃ w, j.At index w := by
  have hplain : i.opcode ≠ .jump ∧ i.isCapture = false := by
    unfold Instruction.isCapture
    cases hcode : i.opcode with
    | compareEq | compareLt | compareLe => exact ⟨nofun, rfl⟩
    | _ =>
      rw [hcode] at hop
      cases hop
  exact at_of_own hok hi hplain.1 hplain.2

end Job

end LuaRecovery

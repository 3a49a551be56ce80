/-
What every instruction keeps.

Between instructions the state of a walk may have a property that the moves keep and that a
closure restores.  `Preserved` says what has to be shown of such a property: a relation that
carries it across the moves, those of the blocks among them.  Then it holds after every
instruction and at the end of the walk, given only what is known of closures, and wherever the
walk stops something weaker holds.

The first relation of this kind is `Onward`: a walk adds to what it has recovered and never
takes back.
-/
import LuaRecovery.Proofs.Scaffold
import LuaRecovery.Proofs.Walks

namespace LuaRecovery

open List

theorem Registers.lookUp_constants (r : Registers) (index : Int) :
    (r.lookUp index).constants = r.constants := by
  unfold lookUp
  split <;> rfl

namespace Walking

/-- A relation that also holds across what is done to the blocks. -/
structure Fenced (R : Walk → Walk → Prop) (A : Int → Prop := fun _ => True) : Prop
    extends Accounted R A where
  blocks : ∀ w b nodes, Scaffold nodes →
    R w { w with frame.blocks := b, frame.body := w.frame.body ++ nodes }

/-- A relation that holds across all moves. -/
structure Blocked (R : Walk → Walk → Prop) : Prop extends Fenced R where
  top : Topped R
  log : Logged R
  strings : Observed R

section

variable {R : Walk → Walk → Prop} {A : Int → Prop} (hR : Fenced R A) {T : Stop → Prop}

include hR

theorem emitBlocks_keeps {f : Blocks → List Statement × Blocks} (hf : ∀ b, Scaffold (f b).1) :
    Keeps R (emitBlocks f) T :=
  fun w => hR.blocks w (f w.frame.blocks).2 (f w.frame.blocks).1 (hf w.frame.blocks)

theorem emitDue_keeps (index : Int) : Keeps R (emitDue index) T :=
  emitBlocks_keeps hR fun b => Blocks.due_scaffold b index

theorem emitDueAll_keeps : ∀ indexes, Keeps R (emitDueAll indexes) T := by
  intro indexes
  induction indexes with
  | nil => exact hR.done ()
  | cons index rest ih => exact hR.seq (emitDue_keeps hR index) ih

theorem compare_keeps (rel : Relation) {i : Instruction}
    (hb : ∀ reg ∈ Registers.ofOperand i.b, A reg) (hc : ∀ reg ∈ Registers.ofOperand i.c, A reg)
    (index : Nat) : Keeps R (compare rel i index) := by
  refine hR.chain (fun w => hR.refl w) fun w => ?_
  cases pairedJump w.frame.code index with
  | error failure => exact fun w => ⟨trivial, hR.refl w⟩
  | ok jump =>
    refine hR.chain (readOperand_keeps hR.toQuiet hb) fun left => ?_
    refine hR.chain (readOperand_keeps hR.toQuiet hc) fun right => ?_
    refine hR.chain (hR.keeps simulating_offstage) fun simulated => ?_
    exact emitBlocks_keeps hR fun b => Blocks.openConditional_scaffold b _ _ _

theorem jump_keeps [Stop.Covers T] (i : Instruction) (index : Nat) : Keeps R (jump i index) T :=
  hR.seq (askHost_keeps hR.refl _) <| emitBlocks_keeps hR fun b => Blocks.jump_scaffold b _ _

end

section

variable {R : Walk → Walk → Prop} (hR : Fenced R)

include hR

/-- Every opcode that recovers no function and takes no list of values. -/
theorem idleStep_keeps (children : List Child) (i : Instruction) (index : Nat)
    (hi : i.opcode ≠ .closure) (hcall : i.opcode ≠ .call) (hret : i.opcode ≠ .ret) :
    Keeps R (step children i index) := by
  by_cases hop : i.opcode.isStructural = false
  · exact keeps_any (lineStep_keeps hR.toTold children i index hop hcall hret)
  · unfold step
    have hall {registers : List Int} : ∀ reg ∈ registers, True := fun _ _ => trivial
    have hcompare : ∀ rel, Keeps R (compare rel i index >>= fun _ => pure 2) :=
      fun rel => hR.seq (compare_keeps hR rel hall hall index) <| hR.done 2
    cases hcode : i.opcode with
    | closure => exact absurd hcode hi
    | compareEq => exact hcompare .eq
    | compareLt => exact hcompare .lt
    | compareLe => exact hcompare .le
    | jump => exact hR.seq (jump_keeps hR i index) (hR.done 1)
    | _ =>
      rw [hcode] at hop
      exact absurd rfl hop

theorem windUp_keeps : Keeps R windUp := by
  refine hR.chain (fun w => hR.refl w) fun w => ?_
  refine hR.chain (flushAll_keeps hR.toCarried (fun _ => trivial) _) ?_
  intro _
  refine hR.seq (emitBlocks_keeps hR fun b => Blocks.finish_scaffold b _) ?_
  exact reportAnomalies_keeps hR.toAccounted _

end

/-- Every opcode but the closure.  None of them observes strings. -/
theorem fencedStep_keeps {R : Walk → Walk → Prop} (hR : Fenced R) (htop : Topped R)
    (hlog : Logged R) (children : List Child) (i : Instruction) (index : Nat)
    (hi : i.opcode ≠ .closure) : Keeps R (step children i index) := by
  by_cases hop : i.opcode.isStructural = false
  · exact keeps_any (step_keeps hR.toTold htop hlog children i index hop)
  · have hlists : i.opcode ≠ .call ∧ i.opcode ≠ .ret := by
      constructor
      all_goals
        intro hcode
        rw [hcode] at hop
        exact hop rfl
    exact idleStep_keeps hR children i index hi hlists.1 hlists.2

theorem plainStep_keeps {R : Walk → Walk → Prop} (hR : Blocked R) (children : List Child)
    (i : Instruction) (index : Nat) (hi : i.opcode ≠ .closure) :
    Keeps R (step children i index) :=
  fencedStep_keeps hR.toFenced hR.top hR.log children i index hi

/-! ### The parts of a walk -/

/-- What is done before the step of an instruction. -/
def approach (i : Instruction) (index : Nat) : Walking Unit := do
  pollCaller index
  countInstruction index
  emitDue index
  flushOverwritten i

/-- What is done after the step of an instruction that took `taken` instructions. -/
def conclude (i : Instruction) (index mark taken : Nat) : Walking Nat := do
  emitDueAll (range (index + 1) (index + taken - 1))
  reportAnomalies index
  traceStep index i mark
  return taken

/-- What is done before the first instruction. -/
def opening (children : List Child) : Walking Unit := do
  let frame := (← get).frame
  let constants := frame.registers.constants
  log (openingRecord frame.path frame.code.length constants.length children.length)
  observeStrings constants

section

variable {R : Walk → Walk → Prop} {A : Int → Prop} (hR : Fenced R A)

include hR

theorem approach_keeps {i : Instruction} (h : overwrites i.opcode = true → A i.a) (index : Nat) :
    Keeps R (approach i index) := by
  refine hR.seq (pollCaller_keeps hR.toQuiet index) ?_
  refine hR.seq (countInstruction_keeps hR.toQuiet index) ?_
  refine hR.seq (emitDue_keeps hR index) ?_
  exact flushOverwritten_keeps hR.toCarried h

theorem conclude_keeps (i : Instruction) (index mark taken : Nat) :
    Keeps R (conclude i index mark taken) := by
  refine hR.seq (emitDueAll_keeps hR _) ?_
  refine hR.seq (reportAnomalies_keeps hR.toAccounted _) ?_
  refine hR.seq (traceStep_keeps hR.toQuiet _ _ _) ?_
  exact hR.done taken

end

theorem opening_keeps {R : Walk → Walk → Prop} (hR : Quiet R) (hstrings : Observed R)
    (children : List Child) : Keeps R (opening children) := by
  refine hR.chain (fun w => hR.refl w) fun w => ?_
  refine hR.seq (log_keeps hR _) ?_
  exact keeps_any (observeStrings_keeps hR hstrings _)

theorem walk_eq (children : List Child) (w : Walk) :
    walk children w = (opening children >>= fun _ =>
      walkFrom children w.frame.code.length 0 >>= fun _ => windUp) w := rfl

variable {i : Instruction} {index : Nat} {w w' : Walk}

/-- The walk of an instruction from where its step is carried out. -/
theorem advance_of_approach {w w₁ : Walk} (h : approach i index w = .ok () w₁)
    (children : List Child) :
    ∃ mark, advance children i index w =
      (locating index (step children i index) >>= conclude i index mark) w₁ := by
  obtain ⟨_, w₂, hpoll, h⟩ := ok_of_bind h
  obtain ⟨_, w₃, hcount, h⟩ := ok_of_bind h
  obtain ⟨_, w₄, hdue, hflush⟩ := ok_of_bind h
  refine ⟨w₄.frame.body.length, ?_⟩
  unfold advance
  rw [run_bind hpoll, run_bind hcount, run_bind hdue, run_get, run_bind hflush]
  rfl

/-- An instruction that cannot be approached is not walked. -/
theorem advance_of_approach_error {stop : Stop} (h : approach i index w = .error stop w')
    (children : List Child) : advance children i index w = .error stop w' := by
  unfold advance
  rcases error_of_bind h with hpoll | ⟨_, w₁, hpoll, h⟩
  · exact run_bind_error hpoll _
  rw [run_bind hpoll]
  rcases error_of_bind h with hcount | ⟨_, w₂, hcount, h⟩
  · exact run_bind_error hcount _
  rw [run_bind hcount]
  rcases error_of_bind h with hdue | ⟨_, w₃, hdue, hflush⟩
  · exact run_bind_error hdue _
  rw [run_bind hdue, run_get]
  exact run_bind_error hflush _

/-- What holds after an instruction, by what holds once it was approached. -/
theorem advance_after_approach {children : List Child} {w : Walk} {A : Walk → Prop}
    {Q : Nat → Walk → Prop} {E : Stop → Walk → Prop}
    (happroach : After (fun _ w' => A w') E (approach i index w))
    (hrest : ∀ mark w₁, approach i index w = .ok () w₁ → A w₁ →
      After Q E ((locating index (step children i index) >>= conclude i index mark) w₁)) :
    After Q E (advance children i index w) := by
  cases hrun : approach i index w with
  | ok _ w₁ =>
    obtain ⟨mark, hadvance⟩ := advance_of_approach hrun children
    rw [hrun] at happroach
    rw [hadvance]
    exact hrest mark w₁ hrun happroach
  | error stop w₁ =>
    rw [hrun] at happroach
    rw [advance_of_approach_error hrun]
    exact happroach

theorem ok_of_locating {α : Type} {index : Int} {m : Walking α} {a : α}
    (h : locating index m w = .ok a w') : m w = .ok a w' := by
  unfold locating at h
  split at h
  · cases h
  · exact h

/-- The parts of an instruction that was walked. -/
theorem ok_of_advance {children : List Child} {index taken : Nat}
    (h : advance children i index w = .ok taken w') :
    ∃ w₁ w₂ mark, approach i index w = .ok () w₁ ∧ step children i index w₁ = .ok taken w₂ ∧
      conclude i index mark taken w₂ = .ok taken w' := by
  obtain ⟨_, w₁, hpoll, h⟩ := ok_of_bind h
  obtain ⟨_, w₂, hcount, h⟩ := ok_of_bind h
  obtain ⟨_, w₃, hdue, h⟩ := ok_of_bind h
  rw [run_get] at h
  obtain ⟨_, w₄, hflush, h⟩ := ok_of_bind h
  obtain ⟨taken', w₅, hstep, h⟩ := ok_of_bind h
  have happroach : approach i index w = .ok () w₄ := by
    unfold approach
    rw [run_bind hpoll, run_bind hcount, run_bind hdue, hflush]
  have htaken : taken' = taken := by
    obtain ⟨_, w₆, -, h⟩ := ok_of_bind h
    obtain ⟨_, w₇, -, h⟩ := ok_of_bind h
    obtain ⟨_, w₈, -, h⟩ := ok_of_bind h
    cases h
    rfl
  subst htaken
  exact ⟨w₄, w₅, w₃.frame.body.length, happroach, ok_of_locating hstep, h⟩

/-! ### Properties that are kept -/

/-- A property that a relation carries across the moves, and what holds where a walk stops. -/
structure Preserved (R : Walk → Walk → Prop) (I : Walk → Prop) (E : Stop → Walk → Prop) :
    Prop where
  blocked : Blocked R
  keeps : ∀ {w w'}, R w w' → I w → I w'
  stops : ∀ {w w'} stop, R w w' → I w → E stop w'
  located : ∀ {failure recovered w} (index : Int), E (.failed failure recovered) w →
    E (.failed (failure.locate index) recovered) w

namespace Preserved

variable {R : Walk → Walk → Prop} {I : Walk → Prop} {E : Stop → Walk → Prop} (h : Preserved R I E)

include h

variable {w : Walk} {children : List Child}

theorem after {α : Type} {m : Walking α} (hm : Keeps R m) (hw : I w) :
    After (fun _ w' => I w') E (m w) :=
  after_mono (hm w) (fun _ _ h' => h.keeps h' hw) fun stop _ h' => h.stops stop h'.2 hw

theorem approach (i : Instruction) (index : Nat) (hw : I w) :
    After (fun _ w' => I w') E (approach i index w) :=
  h.after (approach_keeps h.blocked.toFenced (fun _ => trivial) index) hw

theorem conclude (i : Instruction) (index mark taken : Nat) (hw : I w) :
    After (fun _ w' => I w') E (conclude i index mark taken w) :=
  h.after (conclude_keeps h.blocked.toFenced i index mark taken) hw

theorem step {i : Instruction} {index : Nat}
    (hclosure : i.opcode = .closure → After (fun _ w' => I w') E (closure children i index w))
    (hw : I w) : After (fun _ w' => I w') E (step children i index w) := by
  by_cases hop : i.opcode = .closure
  · unfold Walking.step
    rw [hop]
    exact after_bind (hclosure hop)
  · exact h.after (plainStep_keeps h.blocked children i index hop) hw

/-- An instruction keeps the property if a closure does. -/
theorem advance {i : Instruction} {index : Nat} (hclosure : ∀ w, I w → i.opcode = .closure →
      After (fun _ w' => I w') E (closure children i index w)) (hw : I w) :
    After (fun _ w' => I w') E (advance children i index w) := by
  have hR := h.blocked
  refine after_seq (h.after (pollCaller_keeps hR.toQuiet index) hw) fun _ w hw => ?_
  refine after_seq (h.after (countInstruction_keeps hR.toQuiet index) hw) fun _ w hw => ?_
  refine after_seq (h.after (emitDue_keeps hR.toFenced index) hw) fun _ w hw => ?_
  refine after_state ?_
  refine after_seq (h.after (flushOverwritten_keeps hR.toCarried fun _ => trivial) hw) ?_
  intro _ w hw
  have hstep := h.step (fun hop => hclosure w hw hop) hw
  refine after_seq (after_locating index hstep fun _ _ _ h' => h.located index h') ?_
  exact fun taken w hw => h.conclude i index _ taken hw

theorem opening (children : List Child) (hw : I w) :
    After (fun _ w' => I w') E (opening children w) :=
  h.after (opening_keeps h.blocked.toQuiet h.blocked.strings children) hw

theorem windUp (hw : I w) : After (fun _ w' => I w') E (windUp w) :=
  h.after (windUp_keeps h.blocked.toFenced) hw

/-- The rest of a walk keeps the property if closures do. -/
theorem rest (hclosure : ∀ i index w, I w → After (fun _ w' => I w') E (closure children i index w))
    (fuel index : Nat) (hw : I w) :
    After (fun _ w' => I w') E ((walkFrom children fuel index >>= fun _ => Walking.windUp) w) := by
  have hrun := walkFrom_after (I := fun _ => I) (E := E)
    fun i index w hw => h.advance (fun w hw _ => hclosure i index w hw) hw
  refine after_seq (hrun fuel index w hw) ?_
  rintro _ w' ⟨_, hw'⟩
  exact h.windUp hw'

/-- A walk keeps the property if closures do. -/
theorem walk (hclosure : ∀ i index w, I w → After (fun _ w' => I w') E (closure children i index w))
    (hw : I w) : After (fun _ w' => I w') E (walk children w) := by
  rw [walk_eq]
  exact after_seq (h.opening children hw) fun _ w hw => h.rest hclosure _ 0 hw

end Preserved

/-! ### A walk takes nothing back -/

/-- What a walk has been given stays, what it has recovered is only added to, a register keeps its
local, and the assignments that bind registers since then are among the statements since then. -/
structure Onward (w w' : Walk) : Prop where
  code : w'.frame.code = w.frame.code
  path : w'.frame.path = w.frame.path
  params : w'.frame.params = w.frame.params
  upvalues : w'.frame.upvalues = w.frame.upvalues
  captured : w.frame.captured <+: w'.frame.captured
  nodup : w.frame.captured.Nodup → w'.frame.captured.Nodup
  body : w.frame.body <+: w'.frame.body
  bindings : w.frame.bindings <+: w'.frame.bindings
  places : ∀ b ∈ w'.frame.bindings.drop w.frame.bindings.length,
    w.frame.body.length ≤ b.place ∧ b.place < w'.frame.body.length
  constants : w'.frame.registers.constants = w.frame.registers.constants
  locals : ∀ reg name, w.frame.locals.get? reg = some name → w'.frame.locals.get? reg = some name

namespace Onward

variable {w w' : Walk}

theorem trans (w₁ w₂ w₃ : Walk) (h₁ : Onward w₁ w₂) (h₂ : Onward w₂ w₃) : Onward w₁ w₃ where
  code := h₂.code.trans h₁.code
  path := h₂.path.trans h₁.path
  params := h₂.params.trans h₁.params
  upvalues := h₂.upvalues.trans h₁.upvalues
  captured := h₁.captured.trans h₂.captured
  nodup h := h₂.nodup (h₁.nodup h)
  body := h₁.body.trans h₂.body
  bindings := h₁.bindings.trans h₂.bindings
  places b hb := by
    obtain ⟨more, hmore⟩ := h₁.bindings
    obtain ⟨rest, hrest⟩ := h₂.bindings
    have hfirst := h₁.places b
    have hlast := h₂.places b
    have hbody := h₁.body.length_le
    have hbody' := h₂.body.length_le
    rw [← hrest, drop_left] at hlast
    rw [← hmore, drop_left] at hfirst
    rw [← hrest, ← hmore, append_assoc, drop_left] at hb
    rcases mem_append.mp hb with hb | hb
    · have := hfirst hb
      omega
    · have := hlast hb
      omega
  constants := h₂.constants.trans h₁.constants
  locals reg name h := h₂.locals reg name (h₁.locals reg name h)

/-- Statements were added to the body, and registers may have got locals. -/
theorem of_append (hcode : w'.frame.code = w.frame.code) (hpath : w'.frame.path = w.frame.path)
    (hparams : w'.frame.params = w.frame.params)
    (hupvalues : w'.frame.upvalues = w.frame.upvalues)
    (hcaptured : w'.frame.captured = w.frame.captured)
    {nodes : List Statement} (hbody : w'.frame.body = w.frame.body ++ nodes)
    {more : List Binding} (hbindings : w'.frame.bindings = w.frame.bindings ++ more)
    (hplaces : ∀ b ∈ more, w.frame.body.length ≤ b.place ∧ b.place < (w.frame.body ++ nodes).length)
    (hconstants : w'.frame.registers.constants = w.frame.registers.constants)
    (hlocals : ∀ reg name, w.frame.locals.get? reg = some name →
      w'.frame.locals.get? reg = some name) : Onward w w' where
  code := hcode
  path := hpath
  params := hparams
  upvalues := hupvalues
  captured := hcaptured ▸ prefix_rfl
  nodup := by rw [hcaptured]; exact id
  body := by rw [hbody]; exact prefix_append _ _
  bindings := by rw [hbindings]; exact prefix_append _ _
  places := by rwa [hbindings, drop_left, hbody]
  constants := hconstants
  locals := hlocals

theorem placed_last (body : List Statement) (registers : List Int) (s : Statement) :
    ∀ b ∈ [(⟨body.length, registers⟩ : Binding)], body.length ≤ b.place ∧
      b.place < (body ++ [s]).length := by
  intro b hb
  rw [mem_singleton.mp hb]
  simp

/-- Nothing of it has changed. -/
theorem of_same (hcode : w'.frame.code = w.frame.code) (hpath : w'.frame.path = w.frame.path)
    (hupvalues : w'.frame.upvalues = w.frame.upvalues)
    (hroutine : w'.frame.routine = w.frame.routine)
    (hconstants : w'.frame.registers.constants = w.frame.registers.constants)
    (hlocals : w'.frame.locals = w.frame.locals) : Onward w w' := by
  have hbody : w'.frame.body = w.frame.body := congrArg RoutineOf.body hroutine
  have hbindings : w'.frame.bindings = w.frame.bindings := congrArg RoutineOf.bindings hroutine
  exact .of_append hcode hpath (congrArg RoutineOf.params hroutine) hupvalues
    (congrArg RoutineOf.captured hroutine) (hbody.trans (append_nil _).symm)
    (hbindings.trans (append_nil _).symm) nofun hconstants
    (by rw [hlocals]; exact fun _ _ h => h)

end Onward

theorem onward_blocked : Blocked Onward where
  refl _ := .of_same rfl rfl rfl rfl rfl rfl
  trans := Onward.trans
  registers _ _ h := .of_same rfl rfl rfl rfl h.constants rfl
  scene _ _ _ := .of_same rfl rfl rfl rfl rfl rfl
  objects _ _ := .of_same rfl rfl rfl rfl rfl rfl
  captured w name _ hfresh := by
    refine ⟨rfl, rfl, rfl, rfl, prefix_append _ _, fun h => ?_, prefix_rfl,
      prefix_rfl, by simp, rfl, fun _ _ h => h⟩
    refine nodup_append.mpr ⟨h, pairwise_singleton _ _, ?_⟩
    rintro x hx y hy rfl
    exact hfresh (mem_singleton.mp hy ▸ hx)
  assign _ _ _ _ :=
    .of_append rfl rfl rfl rfl rfl rfl (append_nil _).symm nofun rfl fun _ _ h => h
  bind _ _ _ _ _ _ _ _ _ _ hbinds _ :=
    .of_append rfl rfl rfl rfl rfl rfl rfl (Onward.placed_last _ _ _) rfl hbinds.kept
  note w index := .of_same rfl rfl rfl rfl (w.frame.registers.lookUp_constants index) rfl
  report _ _ := .of_same rfl rfl rfl rfl rfl rfl
  top _ _ := .of_same rfl rfl rfl rfl rfl rfl
  log _ _ := .of_same rfl rfl rfl rfl rfl rfl
  emit _ _ _ := .of_append rfl rfl rfl rfl rfl rfl (append_nil _).symm nofun rfl fun _ _ h => h
  limits _ _ _ := .of_same rfl rfl rfl rfl rfl rfl
  strings _ _ := .of_same rfl rfl rfl rfl rfl rfl
  trace _ _ := .of_same rfl rfl rfl rfl rfl rfl
  drainRegisters _ := .of_same rfl rfl rfl rfl rfl rfl
  drainBlocks _ := .of_same rfl rfl rfl rfl rfl rfl
  blocks _ _ _ _ :=
    .of_append rfl rfl rfl rfl rfl rfl (append_nil _).symm nofun rfl fun _ _ h => h

theorem onward_preserved (w : Walk) : Preserved Onward (Onward w) fun _ => Onward w where
  blocked := onward_blocked
  keeps h hw := Onward.trans _ _ _ hw h
  stops _ h hw := Onward.trans _ _ _ hw h
  located _ h := h

theorem takeLocal_onward {w : Walk} {scene : Scene} {objects : Table Nat String}
    {locals : Table Int String} {registers : List Int} {declares : Bool}
    (h : Binds w.frame.locals registers locals declares) :
    Onward w { w with
      frame.locals := locals
      frame.objectLocals := objects
      context.scene := scene } :=
  .of_append rfl rfl rfl rfl rfl (append_nil _).symm (append_nil _).symm nofun rfl h.kept

theorem prepare_onward {T : Stop → Prop} [Stop.Covers T] (child : Child) (i : Instruction)
    (index : Nat) : Keeps Onward (prepare child i index) T :=
  prepare_keeps onward_blocked.toCarried (fun _ _ _ _ _ _ hbinds => takeLocal_onward hbinds)
    child index

/-- Whatever comes of the function inside. -/
theorem buildChild_onward (child : Child) (reg : Int) (name : String) (upvalues : List Upvalue)
    (declares : Bool) :
    Keeps Onward (buildChild child reg name upvalues declares) := by
  intro w
  have hdefine : ∀ routine c, Onward w (bound { w with context := c } [reg]
      (.define name routine declares none) w.frame.locals) :=
    fun _ _ => .of_append rfl rfl rfl rfl rfl rfl rfl (Onward.placed_last _ _ _) rfl fun _ _ h => h
  refine buildChild_after (fun routine c _ => hdefine routine c)
    (fun _ routine c _ => ⟨trivial, hdefine routine c⟩) fun _ _ _ _ => ⟨trivial, ?_⟩
  exact .of_same rfl rfl rfl rfl rfl rfl

theorem closure_onward (children : List Child) (i : Instruction) (index : Nat) :
    Keeps Onward (closure children i index) :=
  closure_keeps onward_blocked.toTold (fun child => prepare_onward child i index)
    fun child _ => buildChild_onward child i.a

end Walking

end LuaRecovery

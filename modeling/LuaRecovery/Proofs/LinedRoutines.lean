/-
What is recovered of contained functions.

Two kinds of names go from a function into what is recovered of it as they are: globals that pass
the test for names, which lets a name with a line break behind it through, and upvalues that were
not passed and that the debug information names.  A function is contained if none of those that
its code refers to has a line break, and the same holds of the functions inside.  Whatever is
recovered of a contained function, wholly or up to a failure, has no line break in any of its
texts.
-/
import LuaRecovery.Proofs.LinedSteps
import LuaRecovery.Proofs.UpvalueChains

namespace LuaRecovery

open List

open Layout

/-! ### Contained functions -/

/-- A function refers to its upvalue at an index: by an instruction that is read, or by one
behind a closure. -/
inductive Prototype.Refers (p : Prototype) (k : Nat) : Prop
  | use {index : Nat} {i : Instruction} (reads : p.Reads index)
      (instruction : p.instructions[index]? = some i) (uses : i.UsesUpvalue k)
  | capture {index : Nat} {i c : Instruction} {q : Prototype} (closes : p.Closes index i q)
      (captured : c ∈ p.captures q index) (opcode : c.opcode = .getUpvalue) (same : c.b = k)

/-- The names that a function takes over as they are have no line break: those of the globals that
opcodes of a list refer to, and those of the upvalues that it refers to and that are not among
the first `passed`. -/
structure Prototype.NamesLined (ops : List Opcode) (passed : Nat) (p : Prototype) : Prop where
  globals : ∀ index i, p.Reads index → p.instructions[index]? = some i → i.opcode ∈ ops →
    ¬ Lua.TrailsBreak (p.globalName i.b)
  upvalues : ∀ k, p.Refers k → passed ≤ k → ∀ x, p.upvalueNames[k]? = some x → OneLine x

/-- It does not matter which instructions are read if no instruction and no name breaks a line. -/
theorem Prototype.namesLined_of_all {ops : List Opcode} {passed : Nat} {p : Prototype}
    (hglobals : ∀ i ∈ p.instructions, i.opcode ∈ ops → ¬ Lua.TrailsBreak (p.globalName i.b))
    (hupvalues : ∀ x ∈ p.upvalueNames.drop passed, OneLine x) : p.NamesLined ops passed := by
  refine ⟨fun index i _ hi => hglobals i (mem_of_getElem? hi), fun k _ hk x hx => ?_⟩
  refine hupvalues x (mem_of_getElem? (i := k - passed) ?_)
  rw [getElem?_drop, Nat.add_sub_cancel' hk, hx]

/-- The names that a function takes over as they are have no line break, nor do those that the
functions inside take over whose closures are read. -/
inductive Prototype.Contained (ops : List Opcode) : Nat → Prototype → Prop
  | intro {passed : Nat} {p : Prototype} (names : p.NamesLined ops passed)
      (inside : ∀ index i q, p.Closes index i q → Contained ops (p.captures q index).length q) :
      Contained ops passed p

namespace Prototype

variable {p : Prototype} {passed : List Upvalue}

/-- The name of an upvalue is one that was passed, one of the debug information, or made from the
index. -/
theorem oneLine_upvalueName (hpassed : ∀ u ∈ passed, OneLine u.name) {index : Int}
    (h : ∀ k : Nat, index = k → passed.length ≤ k → ∀ x, p.upvalueNames[k]? = some x → OneLine x) :
    OneLine (p.upvalueName passed index) := by
  have hindex : OneLine ("upval" ++ toString index) :=
    .append (by decide) (oneLine_toString_int index)
  unfold upvalueName
  dsimp only
  split
  · next hnonneg =>
      obtain ⟨k, rfl⟩ := Int.eq_ofNat_of_zero_le hnonneg
      rw [Int.toNat_natCast, Frame.allUpvalues, getElem?_append]
      split
      · next hlt =>
          rw [getElem?_eq_getElem hlt]
          exact hpassed _ (getElem_mem hlt)
      · next hle =>
          have hle := Nat.not_lt.mp hle
          rw [getElem?_map, getElem?_drop, Nat.add_sub_cancel' hle]
          cases hname : p.upvalueNames[k]? with
          | none => exact hindex
          | some x => exact h k rfl hle x hname
  · exact hindex

end Prototype

namespace Walking

variable {p : Prototype} {passed : List Upvalue}

/-! ### Closures -/

variable {i : Instruction} {name : String} {index : Nat}

theorem captureRegister_lines (hname : OneLine name) (target reg : Int) :
    Lines p passed (captureRegister target name reg) fun u => OneLine u.name := by
  refine lines_ite (lines_pure hname) (lines_seq (readRegister_lines reg) ?_)
  exact lines_bind (ensureNamed_lines reg) fun _ hfound => lines_pure hfound

theorem captures_lines (hname : OneLine name) (target : Int) (instructions : List Instruction)
    (h : ∀ c ∈ instructions.takeWhile Instruction.isCapture, c.opcode = .getUpvalue →
      OneLine (p.upvalueName passed c.b)) :
    Lines p passed (captures target name instructions) fun us => ∀ u ∈ us, OneLine u.name := by
  induction instructions with
  | nil => exact lines_pure (forall_mem_nil _)
  | cons i rest ih =>
    have hcons (hcapture : i.isCapture = true) {m : Walking Upvalue}
        (hm : Lines p passed m fun u => OneLine u.name) :
        Lines p passed (m >>= fun u => captures target name rest >>= fun more => pure (u :: more))
          fun us => ∀ u ∈ us, OneLine u.name := by
      rw [takeWhile_cons_of_pos hcapture] at h
      have hrest := ih fun c hc => h c (mem_cons_of_mem _ hc)
      exact lines_bind hm fun u hu => lines_bind hrest fun more hmore =>
        lines_pure (forall_mem_cons.mpr ⟨hu, hmore⟩)
    unfold captures
    cases hop : i.opcode with
    | move =>
      exact hcons (by rw [Instruction.isCapture, hop]; rfl) (captureRegister_lines hname target i.b)
    | getUpvalue =>
      have hcapture : i.isCapture = true := by rw [Instruction.isCapture, hop]; rfl
      refine hcons hcapture (upvalueAt_lines (h i ?_ hop))
      rw [takeWhile_cons_of_pos hcapture]
      exact mem_cons_self
    | _ => exact lines_pure (forall_mem_nil _)

/-- A closure gets a name and upvalues without a line break, as many as the instructions behind it
name. -/
theorem prepare_lines {q : Prototype} (i : Instruction) (index : Nat)
    (h : ∀ c ∈ p.captures q index, c.opcode = .getUpvalue → OneLine (p.upvalueName passed c.b)) :
    Lines p passed (prepare q.asChild i index) fun ready => OneLine ready.name ∧
        ready.upvalues.length = (p.captures q index).length ∧
        ∀ u ∈ ready.upvalues, OneLine u.name := by
  intro w hw
  have hlength := prepare_hands q hw.code i index
  have hlined : Lines p passed (prepare q.asChild i index) fun ready => OneLine ready.name ∧
      ∀ u ∈ ready.upvalues, OneLine u.name := by
    refine lines_bind (takeLocal_lines (uniqueName_lines _) i.a) fun taken htaken => ?_
    refine lines_bind lines_get fun w' hw' => ?_
    rw [hw'.code]
    refine lines_bind (captures_lines htaken i.a _ h) fun _ hus => ?_
    exact lines_seq (askHost_lines _) <| lines_pure ⟨htaken, hus⟩
  refine after_mono (after_and (hlined w hw) hlength) ?_ fun _ _ h => h.1
  rintro ready w' ⟨⟨hw', hname, hus⟩, -, -, hlength, -⟩
  exact ⟨hw', hname, hlength, hus⟩

/-- What is handed back is lined: the routine, or the stop. -/
def LinedResult : EStateM.Result Stop Context Routine → Prop
  | .ok r _ => Throughout RoutineOf.Lined r
  | .error stop _ => stop.Lined

/-- A function is recovered with lined texts if its name and the upvalues that are passed to it
have no line break, and there are so many of them. -/
def BuildsLined (q : Prototype) (count : Nat) : Prop :=
  ∀ name path upvalues (c : Context), OneLine name → upvalues.length = count →
    (∀ u ∈ upvalues, OneLine u.name) → c.scene.Registered →
    LinedResult (q.build name path upvalues c)

theorem buildChild_lines {q : Prototype} {upvalues : List Upvalue}
    (hq : BuildsLined q upvalues.length) (hname : OneLine name)
    (hupvalues : ∀ u ∈ upvalues, OneLine u.name) (reg : Int) (declares : Bool) :
    Lines p passed (buildChild q.asChild reg name upvalues declares) := by
  intro w hw
  have hbuilt := hq name (w.frame.path ++ "/" ++ name) upvalues w.context hname rfl hupvalues
    hw.scene
  have hgrows := q.build_grows name (w.frame.path ++ "/" ++ name) upvalues w.context
  have hcontext {c : Context} (hc : Later w.context c) :
      Walk.Lined p passed { w with context := c } :=
    { hw with scene := hw.scene.grows hc.grows }
  -- A function that fails leaves what was recovered of it in the body of the one outside.
  have hdefine {c : Context} {r : Routine} (hc : Later w.context c)
      (hr : Throughout RoutineOf.Lined r) :
      (bound { w with context := c } [reg] (.define name r declares none) w.frame.locals).Lined
        p passed :=
    { hcontext hc with frame := { hw.frame with
        body := hw.frame.body.append (allLined_one (Statement.lined_define hname hr declares)) } }
  refine buildChild_after (fun r c hrun => ?_) (fun failure r c hrun => ?_) fun stop c hrun _ => ?_
  all_goals
    change q.build _ _ _ _ = _ at hrun
    rw [hrun] at hbuilt hgrows
  · exact ⟨hdefine hgrows hbuilt, trivial⟩
  · exact ⟨hdefine hgrows (hbuilt.2 r rfl), hbuilt⟩
  · exact ⟨hcontext hgrows, hbuilt⟩

theorem missingChild_lines (count : Nat) (i : Instruction) (index : Nat) :
    Lines p passed (missingChild count i index) := by
  refine lines_seq (askHost_lines _) <| lines_seq (emit_lines (Statement.lined_remark ?_)) ?_
  · exact .append (.append (.append (.append (by decide) (oneLine_toString_int _)) (by decide))
      (oneLine_toString_nat _)) (by decide)
  refine lines_seq (report_lines _ _ _) ?_
  exact lines_seq (setRegister_lines (by decide) i.a) (lines_done _)

theorem closure_lines
    (hinside : ∀ q, p.childAt? i.b = some q → BuildsLined q (p.captures q index).length ∧
      ∀ c ∈ p.captures q index, c.opcode = .getUpvalue → OneLine (p.upvalueName passed c.b)) :
    Lines p passed (closure (Prototype.builders p.children) i index) := by
  have hchild := p.childAt?_builders i.b
  cases hfound : p.childAt? i.b with
  | none =>
    rw [hfound] at hchild
    unfold closure
    rw [hchild]
    exact missingChild_lines _ i index
  | some q =>
    rw [hfound] at hchild
    obtain ⟨hq, hcaptures⟩ := hinside q hfound
    rw [closure_eq hchild]
    refine lines_bind (prepare_lines i index hcaptures) ?_
    rintro ready ⟨hname, hlength, hupvalues⟩
    rw [← hlength] at hq
    refine lines_seq (buildChild_lines hq hname hupvalues i.a ready.declares) ?_
    exact lines_seq (setRegister_lines (Slot.oneLine_closure hname) i.a) (lines_done _)

/-! ### One instruction -/

theorem taking_lines {m : Walking Unit} (h : Lines p passed m) (taken : Nat) :
    Lines p passed (m >>= fun _ => pure taken) :=
  lines_seq h (lines_done _)

/-- The opcodes that refer to globals. -/
def globalOpcodes : List Opcode := [.getGlobal, .setGlobal]

/-- The step of an instruction of a function whose names are lined. -/
theorem step_lines (hp : p.NamesLined globalOpcodes passed.length)
    (hpassed : ∀ u ∈ passed, OneLine u.name) (hreads : p.Reads index)
    (hi : p.instructions[index]? = some i)
    (hinside : ∀ q, p.Closes index i q → BuildsLined q (p.captures q index).length) :
    Lines p passed (step (Prototype.builders p.children) i index) := by
  have hglobal (hop : i.opcode ∈ globalOpcodes) : OneLine (Lua.globalText (p.globalName i.b)) :=
    Lua.oneLine_globalText.mpr (hp.globals index i hreads hi hop)
  have hupvalue (hop : i.opcode = .getUpvalue ∨ i.opcode = .setUpvalue) :
      OneLine (p.upvalueName passed i.b) :=
    Prototype.oneLine_upvalueName hpassed fun k hk =>
      hp.upvalues k (.use hreads hi ⟨hop, hk⟩)
  unfold step
  cases hop : i.opcode with
  | move =>
    refine lines_bind (readRegister_lines i.b) fun _ hslot => ?_
    exact taking_lines (setRegister_lines hslot i.a) 1
  | loadConstant => exact taking_lines (loadConstant_lines i) 1
  | loadBool =>
    refine taking_lines (setRegister_lines ?_ i.a) 1
    show OneLine (if i.b = 0 then "false" else "true")
    split <;> decide
  | loadNil => exact taking_lines (setRegisters_lines (by decide) _) 1
  | getUpvalue => exact taking_lines (getUpvalue_lines (hupvalue (.inl hop))) 1
  | setUpvalue => exact taking_lines (setUpvalue_lines (hupvalue (.inr hop))) 1
  | getGlobal => exact taking_lines (getGlobal_lines (hglobal (by rw [hop]; decide))) 1
  | setGlobal => exact taking_lines (setGlobal_lines (hglobal (by rw [hop]; decide))) 1
  | getField => exact taking_lines (getField_lines i) 1
  | setField => exact taking_lines (setField_lines i) 1
  | newTable =>
    refine lines_bind (bindPlain_lines (by decide) i.a) ?_
    exact fun _ _ => lines_done _
  | selfIndex => exact taking_lines (selfIndex_lines i) 1
  | add | sub | mul | div | mod | pow => exact taking_lines (arith_lines _ i) 1
  | negate => exact taking_lines (negate_lines i) 1
  | invert | length => exact taking_lines (unary_lines (by decide) i) 1
  | concat => exact taking_lines (concat_lines i) 1
  | call => exact taking_lines (call_lines i index) 1
  | ret => exact taking_lines (ret_lines i index) 1
  | closure =>
    refine lines_seq (closure_lines fun q hchild => ?_) (lines_done _)
    have hcloses : p.Closes index i q := ⟨hreads, hi, hop, hchild⟩
    refine ⟨hinside q hcloses, fun c hc hget => ?_⟩
    exact Prototype.oneLine_upvalueName hpassed fun k hk =>
      hp.upvalues k (.capture hcloses hc hget hk)
  | compareEq | compareLt | compareLe => exact taking_lines (compare_lines _ i index) 2
  | jump =>
    refine taking_lines (lines_seq (askHost_lines _) ?_) 1
    exact emitBlocks_lines fun b => b.jump_lined index i.b
  | nop => exact lines_done _
  | unknown => exact taking_lines (unknown_lines i index) 1

/-! ### The walk -/

theorem pollCaller_lines (index : Nat) : Lines p passed (pollCaller index) := by
  refine lines_bind lines_get fun w _ => ?_
  refine lines_seq (lines_modify fun _ hw => { hw with frame := hw.frame }) ?_
  cases hfailure : w.context.limits.cancelFailure? index with
  | none => exact lines_done _
  | some failure => exact lines_throw ⟨Failure.lined_of_cancelFailure? hfailure, nofun⟩

theorem countInstruction_lines (index : Nat) : Lines p passed (countInstruction index) := by
  refine lines_bind lines_get fun w _ => ?_
  refine lines_seq (lines_modify fun _ hw => { hw with frame := hw.frame }) ?_
  refine lines_seq (askHost_lines _) ?_
  cases hfailure : w.context.limits.consume.budgetFailure? index with
  | none => exact lines_done _
  | some failure => exact lines_throw ⟨Failure.lined_of_budgetFailure? hfailure, nofun⟩

theorem emitDue_lines (index : Int) : Lines p passed (emitDue index) :=
  emitBlocks_lines fun b => b.due_lined index

theorem emitDueAll_lines (indexes : List Int) : Lines p passed (emitDueAll indexes) := by
  induction indexes with
  | nil => exact lines_done _
  | cons index rest ih => exact lines_seq (emitDue_lines index) ih

theorem reportConstants_lines (index : Int) {messages : List String}
    (h : ∀ t ∈ messages, OneLine t) :
    Lines p passed (reportConstants index messages) := by
  induction messages with
  | nil => exact lines_done _
  | cons message rest ih =>
    obtain ⟨hmessage, hrest⟩ := forall_mem_cons.mp h
    refine lines_seq (emit_lines (Statement.lined_remark hmessage)) ?_
    exact lines_seq (report_lines _ _ _) <| ih hrest

theorem reportBlocks_lines (notes : List (Int × String)) : Lines p passed (reportBlocks notes) := by
  induction notes with
  | nil => exact lines_done _
  | cons note rest ih => exact lines_seq (report_lines _ _ _) ih

theorem reportAnomalies_lines (index : Int) : Lines p passed (reportAnomalies index) := by
  refine lines_bind (P := fun messages : List String => ∀ t ∈ messages, OneLine t)
    (fun _ hw => ⟨?_, hw.frame.registers.anomalies⟩) fun constants hconstants => ?_
  · exact { hw with frame := { hw.frame with
      registers := ⟨hw.frame.registers.slots, forall_mem_nil _⟩ } }
  refine lines_seq (reportConstants_lines index hconstants) ?_
  refine lines_bind (P := fun _ => True) (fun _ hw => ⟨?_, trivial⟩) fun notes _ =>
    reportBlocks_lines notes
  exact { hw with frame := { hw.frame with } }

theorem log_lines (record : String) : Lines p passed (log record) :=
  lines_modify fun _ hw => { hw with frame := hw.frame }

theorem locating_lines {m : Walking Nat} (hm : Lines p passed m) (index : Int) :
    Lines p passed (locating index m) :=
  fun w hw => after_locating index (hm w hw) fun _ _ _ h => h

theorem advance_lines {children : List Child} (hstep : Lines p passed (step children i index)) :
    Lines p passed (advance children i index) := by
  refine lines_seq (pollCaller_lines index) ?_
  refine lines_seq (countInstruction_lines index) ?_
  refine lines_seq (emitDue_lines index) <| lines_seq lines_get ?_
  refine lines_seq (lines_ite (flushUnread_lines i.a) (lines_done _)) ?_
  refine lines_seq (locating_lines hstep index) ?_
  refine lines_seq (emitDueAll_lines _) ?_
  refine lines_seq (reportAnomalies_lines index) ?_
  exact lines_seq (lines_seq (askHost_lines _) <| lines_seq lines_get <| log_lines _) (lines_done _)

theorem windUp_lines : Lines p passed windUp := by
  refine lines_bind lines_get fun w _ => lines_seq (flushAll_lines _) ?_
  exact lines_seq (emitBlocks_lines fun b => b.finish_lined _) <| reportAnomalies_lines _

theorem observeStrings_lines (constants : List Constant) :
    Lines p passed (observeStrings constants) := by
  induction constants with
  | nil => exact lines_done _
  | cons c rest ih =>
    cases c with
    | string s =>
      refine lines_bind (P := fun _ => True) (fun _ hw => after_queryStrings
        (fun _ _ => ⟨hw, trivial⟩) fun _ _ => ⟨hw, trivial⟩) fun strings _ => ?_
      exact lines_seq (lines_modify fun _ hw => { hw with frame := hw.frame }) <| ih
    | _ => exact ih

theorem opening_lines (children : List Child) : Lines p passed (opening children) :=
  lines_seq lines_get <| lines_seq (log_lines _) <| observeStrings_lines _

end Walking

/-! ### Builders -/

/-- The parameters get made names. -/
theorem Frame.addParams_lined (count : Nat) : ∀ (f : Frame) (scene : Scene) (index : Nat),
    f.Lined → scene.Registered →
      (f.addParams scene index count).1.Lined ∧ (f.addParams scene index count).2.Registered := by
  induction count with
  | zero => exact fun _ _ _ hf hscene => ⟨hf, hscene⟩
  | succ count ih =>
    intro f scene index hf hscene
    have hparam : OneLine (scene.uniqueName s!"arg{index}").1 :=
      oneLine_of_isWord (NameSupply.isWord_candidate (NameSupply.isWord_sanitize _) _)
    exact ih _ _ _ { hf with
      params := forall_mem_append.mpr ⟨hf.params, forall_mem_singleton.mpr hparam⟩
      registers := hf.registers.set (Slot.oneLine_expression hparam) index
      locals := Table.forall_insert hparam hf.locals } (hscene.grows (scene.uniqueName_grows _))

theorem Frame.bare_lined (p : Prototype) {name : String} (hname : OneLine name) (path : String)
    (passed : List Upvalue) : (Frame.bare p name path passed).Lined where
  name := hname
  params := forall_mem_nil _
  captured := forall_mem_nil _
  registers := ⟨fun _ _ h => (Option.some_ne_none _ h.symm).elim, forall_mem_nil _⟩
  locals := fun _ _ h => (Option.some_ne_none _ h.symm).elim
  objects := forall_mem_nil _
  body := forall_mem_nil _

/-- What is kept of a walk that was cut short is lined. -/
theorem Frame.Lined.abandon {f : Frame} (h : f.Lined) {failure : Failure} (hfailure : failure.Lined)
    (recovered : Option Routine) : (f.abandon failure recovered).Lined := by
  have hclosed {shown : List Statement} (hshown : AllLined shown) :
      AllLined (f.body ++ shown ++ (f.blocks.finish f.code.length).1) :=
    (h.body.append hshown).append (f.blocks.finish_lined _)
  cases recovered with
  | none =>
    have hremark : Statement.Lined (.remark (failure.code.word ++ ": " ++ failure.message)) :=
      Statement.lined_remark (.append (.append failure.code.oneLine_word (by decide)) hfailure)
    exact { h with body := hclosed (allLined_one hremark) }
  | some _ => exact { h with body := hclosed (forall_mem_nil _) }

namespace Job

open Walking

variable {j : Job} {index : Nat} {w : Walk}

theorem At.reads (h : j.At index w) : j.source.Reads index := by
  induction h with
  | first => exact .first
  | next hbefore hi hadvanced ih =>
    rw [advance_taken hbefore.owns.code hadvanced]
    rw [hbefore.owns.code] at hi
    exact .next ih hi

theorem lined_entered (j : Job) (hname : OneLine j.name) (hscene : j.context.scene.Registered)
    (limits : Limits) : (j.entered limits).Lined j.source j.upvalues := by
  have howns := j.owns_entered limits
  obtain ⟨hframe, hscene⟩ := Frame.addParams_lined j.source.paramCount.toNat
    (Frame.bare j.source j.name j.path j.upvalues) j.context.scene 0
    (Frame.bare_lined j.source hname j.path j.upvalues) hscene
  exact ⟨howns.code, howns.constants, howns.upvalues, hframe, hscene⟩

/-- The walk of a function whose names are lined, if the functions inside are recovered with lined
texts. -/
theorem walk_lined (j : Job) (hp : j.source.NamesLined globalOpcodes j.upvalues.length)
    (hinside : ∀ index i q, j.source.Closes index i q →
      BuildsLined q (j.source.captures q index).length)
    (hname : OneLine j.name) (hupvalues : ∀ u ∈ j.upvalues, OneLine u.name)
    (hscene : j.context.scene.Registered) {limits : Limits}
    (henter : j.context.limits.enter = .ok limits) :
    After (fun _ w => w.Lined j.source j.upvalues)
      (fun stop w => w.Lined j.source j.upvalues ∧ stop.Lined)
      (walk j.children (j.entered limits)) := by
  have hforget {α : Type} {m : Walking α} (hm : Lines j.source j.upvalues m) {w : Walk}
      (hw : w.Lined j.source j.upvalues) : After (fun _ w => w.Lined j.source j.upvalues)
        (fun stop w => w.Lined j.source j.upvalues ∧ stop.Lined) (m w) :=
    after_imp (hm w hw) (fun _ _ h => h.1)
  refine walk_after (I := fun _ w => w.Lined j.source j.upvalues) henter
    (hforget (opening_lines _) (j.lined_entered hname hscene limits)) ?_
    fun _ _ _ hw => hforget windUp_lines hw
  intro index i w hreached hi hw
  rw [hreached.owns.code] at hi
  exact hforget (advance_lines (step_lines hp hupvalues hreached.reads hi
    fun q hq => hinside index i q hq)) hw

/-- What a job hands back is lined if its function is contained. -/
theorem lined_result (j : Job) (hp : j.source.NamesLined globalOpcodes j.upvalues.length)
    (hinside : ∀ index i q, j.source.Closes index i q →
      BuildsLined q (j.source.captures q index).length)
    (hname : OneLine j.name) (hupvalues : ∀ u ∈ j.upvalues, OneLine u.name)
    (hscene : j.context.scene.Registered) : LinedResult j.result := by
  cases henter : j.context.limits.enter with
  | error failure =>
    rw [Job.result, Prototype.build_eq, buildWith_refused henter]
    exact ⟨Failure.lined_of_enter henter, nofun⟩
  | ok limits =>
    have hwalk := j.walk_lined hp hinside hname hupvalues hscene henter
    rw [result_of_enter henter]
    generalize walk j.children (j.entered limits) = outcome at hwalk ⊢
    match outcome, hwalk with
    | .ok _ w, hw => exact hw.frame.routine
    | .error (.failed failure recovered) w, ⟨hw, hfailure, _⟩ =>
      refine ⟨hfailure, fun r hr => ?_⟩
      cases hr
      exact (hw.frame.abandon hfailure recovered).routine
    | .error (.scene _) _, _ => trivial
    | .error (.option _) _, _ => trivial
    | .error (.host _) _, _ => trivial

end Job

/-- A contained function is recovered with lined texts. -/
theorem Prototype.Contained.buildsLined {passed : Nat} {p : Prototype}
    (h : p.Contained Walking.globalOpcodes passed) : Walking.BuildsLined p passed := by
  induction h with
  | @intro passed p hp _ ih =>
    rintro name path upvalues c hname rfl hupvalues hscene
    exact Job.lined_result ⟨p, name, path, upvalues, c⟩ hp ih hname hupvalues hscene

end LuaRecovery

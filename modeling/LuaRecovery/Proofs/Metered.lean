/-
A walk under limits.

No action but three looks at the limits, and none but `askHost` at those of the host, so all
others are fair as they stand: they read and change the frame, and of the context only what the
two walks share.  The three, and the host, are where a walk can be stopped.  With the functions
inside, by induction on the tree of prototypes, a recovery under limits is the recovery without
them, or what is left of it.
-/
import LuaRecovery.Proofs.Metering

namespace LuaRecovery

open List

namespace Walking

/-! ### The frame -/

variable {α : Type}

/-- An action on the frame that leaves the routine as it is. -/
theorem fair_aside {m : Walking α} (f : Frame → α × Frame)
    (hm : ∀ w, m w = .ok (f w.frame).1 { w with frame := (f w.frame).2 })
    (hf : ∀ g, (f g).2.routine = g.routine) : Fair m := by
  refine fair_frame f hm fun g => ⟨?_, ?_, ?_, ?_, ?_⟩
  · exact congrArg RoutineOf.name (hf g)
  · exact congrArg RoutineOf.params (hf g)
  · exact congrArg RoutineOf.vararg (hf g)
  · have hsame : (f g).2.captured = g.captured := congrArg RoutineOf.captured (hf g)
    exact hsame ▸ prefix_rfl
  · have hsame : (f g).2.body = g.body := congrArg RoutineOf.body (hf g)
    exact hsame ▸ prefix_rfl

theorem emitAll_fair (ss : List Statement) : Fair (emitAll ss) :=
  fair_frame (fun g => ((), { g with body := g.body ++ ss })) (fun _ => rfl) fun _ =>
    ⟨rfl, rfl, rfl, prefix_rfl, prefix_append _ _⟩

theorem emit_fair (s : Statement) : Fair (emit s) := emitAll_fair [s]

theorem emitBinding_fair (registers : List Int) (s : Statement) : Fair (emitBinding registers s) :=
  fair_frame (fun g => ((), { g with
      bindings := g.bindings ++ [⟨g.body.length, registers⟩], body := g.body ++ [s] }))
    (fun _ => rfl) fun _ => ⟨rfl, rfl, rfl, prefix_rfl, prefix_append _ _⟩

theorem modifyRegisters_fair (f : Registers → Registers) : Fair (modifyRegisters f) :=
  fair_aside (fun g => ((), { g with registers := f g.registers })) (fun _ => rfl) fun _ => rfl

theorem readRegister_fair (index : Int) : Fair (readRegister index) :=
  fair_seq (spell_fair _) <| fair_aside (fun g => (g.registers.peek index,
    { g with registers := g.registers.touch index })) (fun _ => rfl) fun _ => rfl

theorem readOperand_fair (operand : Int) : Fair (readOperand operand) :=
  fair_seq (spell_fair _) <| fair_aside (fun g => (g.registers.peekOperand operand,
    { g with registers := g.registers.touchOperand operand })) (fun _ => rfl) fun _ => rfl

theorem readText_fair (index : Int) : Fair (readText index) :=
  fair_seq (readRegister_fair index) (fair_pure _)

theorem readTexts_fair (indexes : List Int) : Fair (readTexts indexes) := by
  induction indexes with
  | nil => exact fair_pure _
  | cons index rest ih =>
    exact fair_seq (readText_fair index) <| fair_seq ih (fair_pure _)

theorem setRegister_fair (index : Int) (slot : Slot) : Fair (setRegister index slot) :=
  modifyRegisters_fair _

theorem setRegisters_fair (slot : Slot) (indexes : List Int) :
    Fair (setRegisters slot indexes) := by
  induction indexes with
  | nil => exact fair_pure _
  | cons index rest ih => exact fair_seq (setRegister_fair index slot) ih

theorem emitBlocks_fair (f : Blocks → List Statement × Blocks) : Fair (emitBlocks f) := by
  refine fair_bind ?_ fun nodes => emitAll_fair nodes
  exact fair_aside (fun g => ((f g.blocks).1, { g with blocks := (f g.blocks).2 }))
    (fun _ => rfl) fun _ => rfl

/-! ### The context -/

theorem simulating_fair : Fair simulating :=
  fair_get (fun _ => fair_pure _) fun _ _ _ h => by rw [h.context.simulate]

theorem report_fair (code : Code) (message : String) (index : Int) :
    Fair (report code message index) := by
  refine fair_run (fun w => ((), { w with
    context := w.context.report ⟨code, message, w.frame.path, some index⟩ })) (fun _ => rfl) ?_ ?_
  · refine fun l w v h => ⟨rfl, h.frame, { h.context with diagnostics := ?_ }⟩
    show w.context.diagnostics ++ _ = v.context.diagnostics ++ _
    rw [h.context.diagnostics, h.frame]
  · exact fun v => ⟨.refl _, .refl _⟩

theorem query_fair (f : Scene → Except Scene.Fault α) : Fair (query f) := by
  refine fair_get (fun v => ?_) fun _ _ _ h => by rw [h.context.scene]
  cases f v.context.scene with
  | ok a => exact fair_pure a
  | error fault => exact fair_throw _

theorem modifyScene_fair (f : Scene → Except Scene.Fault (α × Scene)) : Fair (modifyScene f) := by
  refine fair_bind (query_fair f) fun answer => fair_seq ?_ (fair_pure _)
  refine fair_run (fun w => ((), { w with context.scene := answer.2 })) (fun _ => rfl) ?_ ?_
  · exact fun l w v h => ⟨rfl, h.frame, { h.context with scene := rfl }⟩
  · exact fun v => ⟨.refl _, .refl _⟩

theorem queryStrings_fair (f : Report.StringReport → Except OptionFault α) :
    Fair (queryStrings f) := by
  refine fair_get (fun v => ?_) fun _ _ _ h => by rw [h.context.strings]
  cases f v.context.strings with
  | ok a => exact fair_pure a
  | error fault => exact fair_throw _

theorem uniqueName_fair (hint : String) : Fair (uniqueName hint) := modifyScene_fair _

theorem log_fair (record : String) : Fair (log record) := by
  refine fair_run (fun w => ((), { w with context := w.context.log record })) (fun _ => rfl) ?_ ?_
  · exact fun l w v h => ⟨rfl, h.frame, { h.context with }⟩
  · exact fun v => ⟨.refl _, .refl _⟩

/-! ### Locals -/

theorem localOf?_fair (reg : Int) : Fair (localOf? reg) :=
  fair_get (fun _ => fair_pure _) fun _ _ _ h => by rw [h.frame]

theorem numberedName_fair (reg : Int) : Fair (numberedName reg) :=
  fair_seq (spell_fair _) <| uniqueName_fair _

theorem chooseName_fair (reg : Int) (value : Slot) : Fair (chooseName reg value) := by
  unfold chooseName
  refine fair_bind simulating_fair fun simulated => ?_
  split
  · refine fair_bind (query_fair _) fun display => ?_
    refine fair_get (fun v => fair_ite (uniqueName_fair _) (fair_pure _)) ?_
    exact fun _ _ _ h => by rw [h.frame]
  · exact numberedName_fair _

theorem forgetObjects_fair (name : String) : Fair (forgetObjects name) :=
  fair_aside (fun g => ((), { g with objectLocals := g.objectLocals.filterValues (· != name) }))
    (fun _ => rfl) fun _ => rfl

theorem takeLocal_fair (reg : Int) {choose : Walking String} (hchoose : Fair choose) :
    Fair (takeLocal reg choose) := by
  refine fair_bind (localOf?_fair reg) fun found => ?_
  cases found with
  | some name => exact fair_seq (forgetObjects_fair name) (fair_pure _)
  | none =>
    refine fair_bind hchoose fun name => fair_seq ?_ (fair_pure _)
    exact fair_aside (fun g => ((), { g with locals := g.locals.insert reg name }))
      (fun _ => rfl) fun _ => rfl

theorem bindLocal_fair (reg : Int) (value : Slot) (comment : Option String) :
    Fair (bindLocal reg value comment) := by
  unfold bindLocal
  refine fair_bind (takeLocal_fair reg (chooseName_fair reg value)) fun taken => ?_
  refine fair_seq (emitBinding_fair _ _) ?_
  refine fair_seq (setRegister_fair _ _) ?_
  split
  · refine fair_seq ?_ (fair_pure _)
    exact fair_aside (fun g => ((), { g with objectLocals := g.objectLocals.insert _ taken.1 }))
      (fun _ => rfl) fun _ => rfl
  · exact fair_pure _

theorem bindTargets_fair (registers : List Int) : Fair (bindTargets registers) := by
  induction registers with
  | nil => exact fair_pure _
  | cons reg rest ih =>
    refine fair_bind (takeLocal_fair reg (numberedName_fair _)) fun taken => ?_
    refine fair_seq (setRegister_fair _ _) ?_
    exact fair_seq ih (fair_pure _)

/-- The frame may be put back where no failure is handed on. -/
theorem keepingFrame_fair {m : Walking α} (hm : Fair m)
    (hfault : ∀ w, After (fun _ _ => True) (fun stop _ => stop.IsFault) (m w)) :
    Fair (keepingFrame m) := by
  intro l w v h a v' hrun
  have hfull : m v = .ok a v' := by
    unfold keepingFrame at hrun
    split at hrun
    · cases hrun
    · exact hrun
  obtain ⟨hgrows, hresult⟩ := hm l w v h a v' hfull
  refine ⟨hgrows, after_keepingFrame (after_mono (after_and hresult (hfault w))
    (fun _ _ h => h.1) fun stop w' h => ?_)⟩
  cases stop with
  | failed | option => exact h.2.elim
  | scene | host => exact h.1

theorem bindMany_fair (registers : List Int) (expression : String) (comment : Option String) :
    Fair (bindMany registers expression comment) := by
  refine fair_seq (keepingFrame_fair (bindTargets_fair registers) fun w => ?_) <|
    emitBinding_fair _ _
  exact after_mono (bindTargets_after registers w) (fun _ _ _ => trivial) fun _ _ h => h.1

theorem ensureNamed_fair (reg : Int) : Fair (ensureNamed reg) := by
  refine fair_bind (readRegister_fair reg) fun value => ?_
  refine fair_bind (localOf?_fair reg) fun found => ?_
  cases found with
  | some name => exact fair_ite (fair_pure _) (bindLocal_fair _ _ _)
  | none => exact bindLocal_fair _ _ _

theorem flushUnread_fair (reg : Int) : Fair (flushUnread reg) := by
  refine fair_get (fun v => fair_ite ?_ (fair_pure _)) fun _ _ _ h => by rw [h.frame]
  exact fair_seq (bindLocal_fair _ _ _) (fair_pure _)

theorem flushAll_fair (registers : List Int) : Fair (flushAll registers) := by
  induction registers with
  | nil => exact fair_pure _
  | cons reg rest ih => exact fair_seq (flushUnread_fair reg) ih

theorem upvalueAt_fair (index : Int) : Fair (upvalueAt index) := by
  refine fair_seq (spell_fair _) ?_
  refine fair_get (fun v => fair_ite (fair_seq ?_ <| fair_pure _) (fair_pure _))
    fun _ _ _ h => by rw [h.frame]
  exact fair_frame (fun g => ((), { g with captured := g.captured ++ [_] })) (fun _ => rfl)
    fun _ => ⟨rfl, rfl, rfl, prefix_append _ _, prefix_rfl⟩

theorem servesHandle_fair (handle : Option Nat) : Fair (servesHandle handle) :=
  fair_seq simulating_fair <| fair_ite (query_fair _) (fair_pure _)

theorem namesHandle_fair (text : String) (handle : Option Nat) :
    Fair (namesHandle text handle) := by
  unfold namesHandle
  refine fair_bind simulating_fair fun _ => ?_
  split
  · exact fair_seq (query_fair _) (fair_pure _)
  · exact fair_pure _

theorem holdObject_fair (reg : Int) (text : String) (handle : Option Nat) :
    Fair (holdObject reg text handle) := by
  refine fair_get (fun v => ?_) fun _ _ _ h => by rw [h.frame]
  dsimp only
  split
  · exact setRegister_fair _ _
  · refine fair_seq (servesHandle_fair handle) <| fair_ite ?_ (setRegister_fair _ _)
    refine fair_seq (namesHandle_fair _ _) <| fair_ite (setRegister_fair _ _) ?_
    exact fair_seq (bindLocal_fair _ _ _) (fair_pure _)

/-! ### Loading and storing -/

variable (i : Instruction)

theorem loadConstant_fair : Fair (loadConstant i) := by
  refine fair_seq (flushUnread_fair _) <| fair_seq (spell_fair _) ?_
  refine fair_get (fun v => ?_) fun _ _ _ h => by rw [h.frame]
  refine fair_seq (modifyRegisters_fair _) <| fair_bind ?_ fun long => fair_ite ?_ ?_
  · refine fair_get (fun v => ?_) fun _ _ _ h => by rw [h.frame]
    split
    · exact queryStrings_fair _
    · exact fair_pure _
  · exact fair_seq (bindLocal_fair _ _ _) (fair_pure _)
  · exact modifyRegisters_fair _

theorem getUpvalue_fair : Fair (getUpvalue i) := by
  refine fair_seq (upvalueAt_fair _) <| fair_seq (bindLocal_fair _ _ _) ?_
  exact fair_ite (setRegister_fair _ _) (fair_pure _)

theorem setUpvalue_fair : Fair (setUpvalue i) :=
  fair_seq (upvalueAt_fair _) <| fair_seq (readText_fair _) <| emit_fair _

theorem globalName_fair (index : Int) : Fair (globalName index) := by
  refine fair_seq (spell_fair _) ?_
  refine fair_get (fun v => ?_) fun _ _ _ h => by rw [h.frame]
  refine fair_seq (modifyRegisters_fair _) ?_
  split <;> exact fair_pure _

theorem getGlobal_fair : Fair (getGlobal i) := by
  refine fair_bind (globalName_fair _) fun name => fair_bind ?_ fun reading => ?_
  · exact fair_seq simulating_fair <| fair_ite (modifyScene_fair _) (fair_pure _)
  · cases reading with
    | none => exact setRegister_fair _ _
    | some reading =>
      refine fair_seq (query_fair _) ?_
      exact fair_ite (holdObject_fair _ _ _) (setRegister_fair _ _)

theorem setGlobal_fair : Fair (setGlobal i) :=
  fair_seq (globalName_fair _) <| fair_seq (readText_fair _) <| emit_fair _

theorem getField_fair : Fair (getField i) := by
  refine fair_bind (readRegister_fair _) fun base => fair_bind (readOperand_fair _) fun key => ?_
  unfold holdField
  refine fair_bind simulating_fair fun _ => ?_
  split
  · exact fair_seq (modifyScene_fair _) <| holdObject_fair _ _ _
  · exact holdObject_fair _ _ _

theorem setField_fair : Fair (setField i) :=
  fair_seq (readText_fair _) <| fair_seq (readOperand_fair _) <|
    fair_seq (readOperand_fair _) <| emit_fair _

theorem selfIndex_fair : Fair (selfIndex i) :=
  fair_seq (readRegister_fair _) <| fair_seq (readOperand_fair _) <|
    fair_seq (setRegister_fair _ _) <| setRegister_fair _ _

/-! ### Operators -/

theorem arith_fair (op : ArithOp) (i : Instruction) : Fair (arith op i) :=
  fair_seq (readOperand_fair _) <| fair_seq (readOperand_fair _) <|
    fair_seq simulating_fair <| setRegister_fair _ _

theorem negate_fair : Fair (negate i) :=
  fair_seq (readRegister_fair _) <| fair_seq simulating_fair <| setRegister_fair _ _

theorem unary_fair (sign : String) (i : Instruction) : Fair (unary sign i) :=
  fair_seq (readRegister_fair _) <| setRegister_fair _ _

theorem concat_fair : Fair (concat i) :=
  fair_seq (readTexts_fair _) <| setRegister_fair _ _

/-! ### Calls -/

theorem setTop_fair (top : Option Int) : Fair (modify fun w => { w with frame.top := top }) :=
  fair_aside (fun g => ((), { g with top })) (fun _ => rfl) fun _ => rfl

theorem argumentRegisters_fair (base count : Int) : Fair (argumentRegisters base count) := by
  have hlisted (last : Int) :
      Fair (listed (base + 1) last >>= fun registers => pure (registers, false)) :=
    fair_seq (listed_fair _ _) (fair_pure _)
  refine fair_ite (hlisted _) (fair_get (fun v => ?_) fun _ _ _ h => by rw [h.frame])
  dsimp only
  split
  · exact fair_ite (fair_seq (setTop_fair none) <| hlisted _) (fair_pure _)
  · exact fair_pure _

theorem reportGuess_fair (ambiguous : Bool) (message : String) (index : Nat) :
    Fair (reportGuess ambiguous message index) :=
  fair_ite (report_fair _ _ _) (fair_pure _)

variable (index : Nat)

theorem holdsOpen_fair : Fair (holdsOpen i index) := by
  refine fair_ite (fair_get (fun v => ?_) fun _ _ _ h => by rw [h.frame]) (fair_pure _)
  split <;> exact fair_pure _

theorem placeResults_fair (outcome : Scene.CallOutcome)
    (comment : Option String) : Fair (placeResults i index outcome comment) := by
  refine fair_ite ?_ (fair_ite (bindMany_fair _ _ _) (fair_seq (holdsOpen_fair i index) <|
    fair_ite ?_ ?_))
  · exact fair_seq (bindLocal_fair _ _ _) (fair_pure _)
  · exact fair_seq (setRegister_fair _ _) <| setTop_fair _
  · refine fair_seq (emit_fair _) <| fair_seq (localOf?_fair _) ?_
    exact fair_ite (modifyRegisters_fair _) (fair_pure _)

theorem call_fair : Fair (call i index) := by
  refine fair_bind (readRegister_fair _) fun callee => ?_
  refine fair_bind (argumentRegisters_fair _ _) fun list => ?_
  refine fair_bind (readTexts_fair _) fun args => fair_seq (reportGuess_fair _ _ _) ?_
  refine fair_bind ?_ fun outcome => ?_
  · exact fair_seq simulating_fair <| fair_ite (modifyScene_fair _) (fair_pure _)
  · exact fair_seq (modifyRegisters_fair _) <| placeResults_fair _ _ _ _

theorem ret_fair : Fair (ret i index) := by
  refine fair_ite (fair_get (fun v => ?_) fun _ _ _ h => by rw [h.frame]) (fair_ite ?_ ?_)
  · exact fair_ite (emit_fair _) (fair_pure _)
  · exact fair_seq (readTexts_fair _) <| emit_fair _
  · refine fair_bind (argumentRegisters_fair _ _) fun list => ?_
    refine fair_seq (readTexts_fair _) ?_
    exact fair_seq (reportGuess_fair _ _ _) <| emit_fair _

end Walking

/-! ### Closures -/

/-- What a builder hands back in a context with the bounds of `l`, where without limits it
hands back `full` in the context `d`. -/
def BuildResult (l : Limits) (full : Routine) (d : Context) :
    EStateM.Result Stop Context Routine → Prop
  | .ok r c => r = full ∧ c.Meters l d
  | .error (.failed failure none) c => l.Breaks failure.cause c.limits d.limits
  | .error (.failed failure (some r)) c =>
    l.Breaks failure.cause c.limits d.limits ∧ Truncates failure.cause r full
  | .error (.host fault) _ => l.host.Refuses fault
  | .error _ _ => False

/-- A builder that hands back under limits what it does without, or what is left of that. -/
def Builder.Fair (build : Builder) : Prop :=
  ∀ name path upvalues l c d, c.Meters l d → ∀ full d', build name path upvalues d = .ok full d' →
    d.limits.Grows d'.limits ∧ BuildResult l full d' (build name path upvalues c)

namespace Walking

theorem captures_fair (target : Int) (name : String) (instructions : List Instruction) :
    Fair (captures target name instructions) := by
  induction instructions with
  | nil => exact fair_pure _
  | cons i rest ih =>
    have hrest : ∀ u : Upvalue, Fair (captures target name rest >>= fun us => pure (u :: us)) :=
      fun _ => fair_seq ih (fair_pure _)
    unfold captures
    cases i.opcode with
    | move =>
      refine fair_bind (fair_ite (fair_pure _) ?_) hrest
      refine fair_seq (readRegister_fair _) ?_
      exact fair_seq (ensureNamed_fair _) (fair_pure _)
    | getUpvalue => exact fair_bind (upvalueAt_fair _) hrest
    | _ => exact fair_pure _

theorem buildChild_fair {child : Child} (hchild : child.build.Fair) (reg : Int) (name : String)
    (upvalues : List Upvalue) (declares : Bool) :
    Fair (buildChild child reg name upvalues declares) := by
  intro l w v h a v' hrun
  obtain ⟨full, d, hfull, rfl⟩ : ∃ full d,
      child.build name (v.frame.path ++ "/" ++ name) upvalues v.context = .ok full d ∧
        v' = bound { v with context := d } [reg] (.define name full declares none)
          v.frame.locals := by
    have hafter : Once (fun _ v' => ∃ full d,
        child.build name (v.frame.path ++ "/" ++ name) upvalues v.context = .ok full d ∧
          v' = bound { v with context := d } [reg] (.define name full declares none)
            v.frame.locals) (buildChild child reg name upvalues declares v) :=
      buildChild_after (fun full d hbuild => ⟨full, d, hbuild, rfl⟩) (fun _ _ _ _ => trivial)
        fun _ _ _ _ => trivial
    rw [hrun] at hafter
    exact hafter
  obtain ⟨hgrows, hresult⟩ := hchild _ _ _ l w.context v.context h.context full d hfull
  refine ⟨⟨⟨rfl, rfl, rfl, prefix_rfl, prefix_append _ _⟩, hgrows⟩, ?_⟩
  rw [← h.frame] at hresult
  refine buildChild_after ?_ ?_ ?_
  · intro r c hbuild
    rw [hbuild] at hresult
    obtain ⟨rfl, hc⟩ := hresult
    exact ⟨rfl, by rw [bound, bound, h.frame], hc⟩
  · intro failure r c hbuild
    rw [hbuild] at hresult
    exact ⟨.inside rfl (h.frame ▸ .refl _) hresult.2, hresult.1⟩
  · intro stop c hbuild hnone
    rw [hbuild] at hresult
    match stop, hnone, hresult with
    | .failed failure none, _, hbroken =>
      refine ⟨.here (h.frame ▸ ?_), hbroken⟩
      exact ⟨rfl, rfl, rfl, prefix_rfl, prefix_append _ _⟩
    | .host fault, _, hrefuses =>
      show l.host.Refuses fault
      exact hrefuses

theorem missingChild_fair (count : Nat) (i : Instruction) (index : Nat) :
    Fair (missingChild count i index) :=
  fair_seq (spell_fair _) <| fair_seq (emit_fair _) <|
    fair_seq (report_fair _ _ _) <| fair_seq (setRegister_fair _ _) (fair_pure _)

variable {children : List Child}

theorem closure_fair (hchildren : ∀ child ∈ children, child.build.Fair) (i : Instruction)
    (index : Nat) : Fair (closure children i index) := by
  unfold closure
  cases hfound : childAt? children i.b with
  | none => exact missingChild_fair _ i index
  | some child =>
    have hchild := hchildren child (mem_of_childAt? hfound)
    refine fair_bind (takeLocal_fair _ (uniqueName_fair _)) fun taken => ?_
    refine fair_get (fun v => ?_) fun _ _ _ h => by rw [h.frame]
    refine fair_bind (captures_fair _ _ _) fun upvalues => fair_seq ?_ ?_
    · exact askHost_fair fun _ _ _ h => (Host.refuses_of_unless h id).1
    refine fair_seq (buildChild_fair hchild _ _ _ _) ?_
    exact fair_seq (setRegister_fair _ _) (fair_pure _)

/-! ### One instruction -/

theorem compare_fair (rel : Relation) (i : Instruction) (index : Nat) :
    Fair (compare rel i index) := by
  refine fair_get (fun v => ?_) fun _ _ _ h => by rw [h.frame]
  cases pairedJump v.frame.code index with
  | error failure => exact fair_throw _
  | ok jump =>
    refine fair_seq (readOperand_fair _) <| fair_seq (readOperand_fair _) ?_
    exact fair_seq simulating_fair <| emitBlocks_fair _

theorem unknown_fair (i : Instruction) (index : Nat) : Fair (unknown i index) :=
  fair_seq (spell_fair _) <| fair_seq (emit_fair _) <| report_fair _ _ _

theorem taking_fair {m : Walking Unit} (h : Fair m) (taken : Nat) :
    Fair (m >>= fun _ => pure taken) :=
  fair_seq h (fair_pure taken)

theorem step_fair (hchildren : ∀ child ∈ children, child.build.Fair) (i : Instruction)
    (index : Nat) : Fair (step children i index) := by
  unfold step
  cases i.opcode with
  | move => exact fair_seq (readRegister_fair _) <| taking_fair (setRegister_fair _ _) 1
  | loadConstant => exact taking_fair (loadConstant_fair i) 1
  | loadBool => exact taking_fair (setRegister_fair _ _) 1
  | loadNil => exact taking_fair (setRegisters_fair _ _) 1
  | getUpvalue => exact taking_fair (getUpvalue_fair i) 1
  | setUpvalue => exact taking_fair (setUpvalue_fair i) 1
  | getGlobal => exact taking_fair (getGlobal_fair i) 1
  | setGlobal => exact taking_fair (setGlobal_fair i) 1
  | getField => exact taking_fair (getField_fair i) 1
  | setField => exact taking_fair (setField_fair i) 1
  | newTable => exact fair_seq (bindLocal_fair _ _ _) (fair_pure 1)
  | selfIndex => exact taking_fair (selfIndex_fair i) 1
  | add | sub | mul | div | mod | pow => exact taking_fair (arith_fair _ i) 1
  | negate => exact taking_fair (negate_fair i) 1
  | invert | length => exact taking_fair (unary_fair _ i) 1
  | concat => exact taking_fair (concat_fair i) 1
  | call => exact taking_fair (call_fair i index) 1
  | ret => exact taking_fair (ret_fair i index) 1
  | closure => exact fair_seq (closure_fair hchildren i index) (fair_pure _)
  | compareEq | compareLt | compareLe => exact taking_fair (compare_fair _ i index) 2
  | jump => exact taking_fair (fair_seq (spell_fair _) <| emitBlocks_fair _) 1
  | nop => exact fair_pure 1
  | unknown => exact taking_fair (unknown_fair i index) 1

/-! ### Where a walk is stopped -/

theorem pollCaller_eq (index : Nat) (w : Walk) : pollCaller index w =
      match w.context.limits.cancelFailure? index with
      | none => .ok () { w with context.limits := w.context.limits.poll }
      | some failure =>
        .error (.failed failure none) { w with context.limits := w.context.limits.poll } := by
  unfold pollCaller
  rw [run_get]
  simp only [run_modify]
  cases w.context.limits.cancelFailure? index <;> rfl

theorem countInstruction_after {Q : Unit → Walk → Prop} {E : Stop → Walk → Prop} {w w₁ : Walk}
    (hw₁ : w₁ = { w with context.limits := w.context.limits.consume }) (index : Nat)
    (hok : w₁.context.limits.budgetBreach? = none → Q () w₁)
    (hbreach : ∀ n, w₁.context.limits.budgetBreach? = some n →
      E (.failed ⟨.overBudget n, some index⟩ none) w₁)
    (hhost : ∀ fault, w.context.limits.host.Refuses fault → E (.host fault) w₁) :
    After Q E (countInstruction index w) := by
  subst hw₁
  refine after_state (after_bind (after_modify (after_bind (after_askHost ?_ ?_))))
  · unfold Limits.budgetFailure?
    cases hfound : w.context.limits.consume.budgetBreach? with
    | none => exact hok hfound
    | some n => exact hbreach n hfound
  · exact fun fault h => hhost fault (Host.refuses_of_writingFault? h).1

theorem pollCaller_fair (index : Nat) : Fair (pollCaller index) := by
  intro l w v h a v' hrun
  rw [pollCaller_run h.context.free.toUnlimited] at hrun
  cases hrun
  refine ⟨⟨.refl _, fun hfree => { hfree with }, Nat.le_refl _, Nat.le_refl _⟩, ?_⟩
  rw [pollCaller_eq, Limits.cancelFailure?]
  by_cases hstop : w.context.limits.cancel w.context.limits.polls = true
  · rw [if_pos hstop]
    refine ⟨.here (h.frame ▸ .refl _), w.context.limits.polls, ?_⟩
    rw [← h.context.bounds.cancel]
    exact hstop
  · rw [if_neg hstop]
    refine ⟨rfl, h.frame, { h.context with bounds := ?_, obeyed := ?_, free := ?_, use := ?_ }⟩
    · exact { h.context.bounds with }
    · exact { h.context.obeyed with }
    · exact { h.context.free with }
    · exact { h.context.use with }

theorem countInstruction_fair (index : Nat) : Fair (countInstruction index) := by
  intro l w v h a v' hrun
  rw [countInstruction_run h.context.free.toUnlimited] at hrun
  cases hrun
  refine ⟨⟨.refl _, fun hfree => { hfree with }, Nat.le_succ _, Nat.le_refl _⟩, ?_⟩
  have hused : w.context.limits.instructions = v.context.limits.instructions :=
    h.context.use.instructions
  refine countInstruction_after rfl index (fun hbreach => ?_) (fun n hbreach => ?_) ?_
  · refine ⟨rfl, h.frame, { h.context with bounds := ?_, obeyed := ?_, free := ?_, use := ?_ }⟩
    · exact { h.context.bounds with }
    · refine { h.context.obeyed with budget := fun n hn _ => ?_ }
      exact Limits.budgetBreach?_eq_none.mp hbreach n hn
    · exact { h.context.free with }
    · exact { h.context.use with instructions := congrArg (· + 1) hused }
  · obtain ⟨hbudget, hexceeds⟩ := Limits.budgetBreach?_eq_some.mp hbreach
    refine ⟨.here (h.frame ▸ .refl _), h.context.bounds.budget ▸ hbudget, fun hn => ?_, ?_⟩
    · -- Before this instruction the budget was still kept.
      have hkept := h.context.obeyed.budget n hbudget hn
      show ((w.context.limits.instructions + 1 : Nat) : Int) = n + 1
      change n < ((w.context.limits.instructions + 1 : Nat) : Int) at hexceeds
      omega
    · show n < ((v.context.limits.instructions + 1 : Nat) : Int)
      rw [← hused]
      exact hexceeds
  · intro fault hrefuses
    show l.host.Refuses fault
    rw [← h.context.bounds.host]
    exact hrefuses

/-! ### The walk -/

theorem emitDueAll_fair (indexes : List Int) : Fair (emitDueAll indexes) := by
  induction indexes with
  | nil => exact fair_pure _
  | cons index rest ih => exact fair_seq (emitBlocks_fair _) ih

theorem reportConstants_fair (index : Int) (messages : List String) :
    Fair (reportConstants index messages) := by
  induction messages with
  | nil => exact fair_pure _
  | cons message rest ih =>
    exact fair_seq (emit_fair _) <| fair_seq (report_fair _ _ _) ih

theorem reportBlocks_fair (notes : List (Int × String)) : Fair (reportBlocks notes) := by
  induction notes with
  | nil => exact fair_pure _
  | cons note rest ih => exact fair_seq (report_fair _ _ _) ih

theorem reportAnomalies_fair (index : Int) : Fair (reportAnomalies index) := by
  refine fair_bind ?_ fun constants => fair_seq (reportConstants_fair _ _) <|
    fair_bind ?_ fun notes => reportBlocks_fair notes
  · exact fair_aside (fun g => (g.registers.drain.1, { g with registers := g.registers.drain.2 }))
      (fun _ => rfl) fun _ => rfl
  · exact fair_aside (fun g => (g.blocks.drain.1, { g with blocks := g.blocks.drain.2 }))
      (fun _ => rfl) fun _ => rfl

theorem flushOverwritten_fair (i : Instruction) : Fair (flushOverwritten i) :=
  fair_ite (flushUnread_fair _) (fair_pure _)

theorem traceStep_fair (index : Nat) (i : Instruction) (mark : Nat) :
    Fair (traceStep index i mark) :=
  fair_seq (spell_fair _) <| fair_get (fun _ => log_fair _) fun _ _ _ h => by rw [h.frame]

theorem locating_fair {α : Type} {m : Walking α} (hm : Fair m) (index : Int) :
    Fair (locating index m) := by
  intro l w v h a v' hrun
  have hfull : m v = .ok a v' := by
    unfold locating at hrun
    split at hrun
    · cases hrun
    · exact hrun
  obtain ⟨hgrows, hresult⟩ := hm l w v h a v' hfull
  exact ⟨hgrows, after_locating index hresult fun _ _ _ hcut => hcut⟩

theorem advance_fair (hchildren : ∀ child ∈ children, child.build.Fair) (i : Instruction)
    (index : Nat) : Fair (advance children i index) := by
  refine fair_seq (pollCaller_fair index) <| fair_seq (countInstruction_fair index) <|
    fair_seq (emitBlocks_fair _) <| fair_get (fun v => ?_) fun _ _ _ h => by rw [h.frame]
  refine fair_seq (flushOverwritten_fair i) ?_
  refine fair_bind (locating_fair (step_fair hchildren i index) index) fun taken => ?_
  refine fair_seq (emitDueAll_fair _) <| fair_seq (reportAnomalies_fair _) ?_
  exact fair_seq (traceStep_fair _ _ _) (fair_pure _)

theorem walkFrom_fair (hchildren : ∀ child ∈ children, child.build.Fair) (fuel index : Nat) :
    Fair (walkFrom children fuel index) := by
  induction fuel generalizing index with
  | zero => exact fair_pure _
  | succ fuel ih =>
    refine fair_get (fun v => ?_) fun _ _ _ h => by rw [h.frame]
    cases v.frame.code[index]? with
    | none => exact fair_pure _
    | some i => exact fair_bind (advance_fair hchildren i index) fun taken => ih _

theorem windUp_fair : Fair windUp := by
  refine fair_get (fun v => ?_) fun _ _ _ h => by rw [h.frame]
  refine fair_seq (flushAll_fair _) <| fair_seq (emitBlocks_fair _) ?_
  exact reportAnomalies_fair _

theorem observeStrings_fair (constants : List Constant) : Fair (observeStrings constants) := by
  induction constants with
  | nil => exact fair_pure _
  | cons c rest ih =>
    cases c with
    | string s =>
      refine fair_bind (queryStrings_fair _) fun strings => fair_seq ?_ <| ih
      refine fair_run (fun w => ((), { w with context.strings := strings })) (fun _ => rfl) ?_ ?_
      · exact fun l w v h => ⟨rfl, h.frame, { h.context with strings := rfl }⟩
      · exact fun v => ⟨.refl _, .refl _⟩
    | _ => exact ih

theorem walk_fair (hchildren : ∀ child ∈ children, child.build.Fair) : Fair (walk children) := by
  refine fair_get (fun v => ?_) fun _ _ _ h => by rw [h.frame]
  refine fair_seq (log_fair _) <| fair_seq (observeStrings_fair _) ?_
  exact fair_seq (walkFrom_fair hchildren _ 0) windUp_fair

end Walking

/-! ### Builders -/

namespace Frame

theorem Grows.sameHead {f g : Frame} (h : f.Grows g) (failure : Failure)
    (recovered : Option Routine) : SameHead (f.abandon failure recovered).routine g.routine :=
  ⟨h.name.symm, h.params.symm, h.vararg.symm, h.captured⟩

/-- What is kept of a function that was stopped is what the function recovers, cut short. -/
theorem Cut.truncates {failure : Failure} {recovered : Option Routine} {f g : Frame}
    (h : Cut failure.cause recovered f g) :
    Truncates failure.cause (f.abandon failure recovered).routine g.routine := by
  have htail := f.blocks.finish_scaffold f.code.length
  cases h with
  | here hgrows =>
    obtain ⟨rest, hrest⟩ := hgrows.body
    refine .here (hgrows.sameHead failure none) hrest.symm ?_ htail
    exact append_assoc ..
  | @inside _ _ inner fullInner kept target declares hbody hgrows hcut =>
    obtain ⟨rest, hrest⟩ := hgrows.body
    have hfull : g.body = kept ++ .define target fullInner declares none :: rest := by
      rw [append_cons]
      exact hrest.symm
    refine .inside ⟨hgrows.name.symm, hgrows.params.symm, hgrows.vararg.symm, hgrows.captured⟩
      hfull ?_ htail hcut
    show f.body ++ [] ++ (f.blocks.finish f.code.length).1 = _
    rw [hbody, append_nil, ← append_cons]

end Frame

variable {l : Limits}

theorem Context.Meters.leave {c d : Context} (h : c.Meters l d) : c.leave.Meters l d.leave :=
  { h with
    bounds := { h.bounds with }
    obeyed := { h.obeyed with }
    free := { h.free with }
    use := { h.use with depth := congrArg (· - 1) h.use.depth } }

/-- The limits inside a function that was entered. -/
def Limits.inside (l : Limits) : Limits :=
  { l with depth := l.depth + 1, maxDepthSeen := max l.maxDepthSeen (l.depth + 1) }

theorem Limits.enter_of_breach {m : Int} (h : l.depthBreach? = some m) :
    l.enter = .error ⟨.tooDeep m, none⟩ := by
  rw [enter, h]

theorem Limits.enter_of_none (h : l.depthBreach? = none) : l.enter = .ok l.inside := by
  rw [enter, h, inside]

theorem Limits.Free.enter (h : l.Free) : l.enter = .ok l.inside :=
  enter_of_none (depthBreach?_eq_none.mpr fun m hm hpos =>
    absurd (h.depth m hm) (Int.not_lt.mpr hpos))

theorem Limits.Free.inside_grows (h : l.Free) : l.Grows l.inside :=
  ⟨fun _ => { h with }, Nat.le_refl _, Nat.le_max_left _ _⟩

/-- Functions that are entered on both sides. -/
theorem Context.Meters.inside {c d : Context} (h : c.Meters l d)
    (hnone : c.limits.depthBreach? = none) (scene : Scene) :
    Meters l { c with scene, limits := c.limits.inside }
      { d with scene, limits := d.limits.inside } where
  bounds := { h.bounds with }
  obeyed := by
    refine { h.obeyed with depth := fun m hm hpos => ?_ }
    have hdepth := Limits.depthBreach?_eq_none.mp hnone m hm hpos
    have hseen := h.obeyed.depth m hm hpos
    show ((max c.limits.maxDepthSeen (c.limits.depth + 1) : Nat) : Int) ≤ m
    omega
  free := h.free.inside_grows.free h.free
  use := by
    refine ⟨h.use.instructions, congrArg (· + 1) h.use.depth, ?_⟩
    show max _ _ = max _ _
    rw [h.use.maxDepthSeen, h.use.depth]
  simulate := h.simulate
  scene := rfl
  strings := h.strings
  diagnostics := h.diagnostics

theorem Limits.Grows.leave {l k : Limits} (h : l.Grows k) : l.Grows k.leave :=
  ⟨fun hl => { h.free hl with }, h.instructions, h.maxDepthSeen⟩

theorem buildWith_fair (p : Prototype) {children : List Child}
    (hchildren : ∀ child ∈ children, child.build.Fair) : (buildWith p children).Fair := by
  intro name path upvalues l c d h full d' hrun
  rw [buildWith_entered h.free.enter] at hrun
  obtain ⟨v, hfull, rfl, rfl⟩ := ok_of_handBack hrun
  have hwalk := Walking.walk_fair hchildren
  have hinside := h.free.inside_grows
  have hgrows := (hwalk _ _ _ (Walk.meters_self (hinside.free h.free)) _ v hfull).1.limits
  refine ⟨(hinside.trans hgrows).leave, ?_⟩
  cases hbreach : c.limits.depthBreach? with
  | some m =>
    rw [buildWith_refused (Limits.enter_of_breach hbreach)]
    obtain ⟨hmax, hpos, hdepth⟩ := Limits.depthBreach?_eq_some.mp hbreach
    refine ⟨h.bounds.maxDepth ▸ hmax, hpos, ?_⟩
    have hseen : max d.limits.maxDepthSeen (d.limits.depth + 1) ≤ v.context.limits.maxDepthSeen :=
      hgrows.maxDepthSeen
    rw [h.use.depth] at hdepth
    show m < (v.context.limits.maxDepthSeen : Int)
    omega
  | none =>
    rw [buildWith_entered (Limits.enter_of_none hbreach), h.scene]
    have hmeters := h.inside hbreach (Frame.start p name path upvalues d.scene).2
    have hresult := (hwalk l _ _ (hmeters.walks _) _ v hfull).2
    generalize Walking.walk children _ = result at hresult ⊢
    match result, hresult with
    | .ok _ w, h => exact ⟨by rw [h.2.frame], h.2.context.leave⟩
    | .error (.failed failure recovered) w, h =>
      have hcut : w.Cut l failure.cause recovered v := h
      exact ⟨(hcut.broken.grows (Limits.Grows.refl _).leave).congr rfl, hcut.frame.truncates⟩
    | .error (.scene _) _, h => exact h.elim
    | .error (.option _) _, h => exact h.elim
    | .error (.host _) _, h => exact h

theorem Prototype.build_fair (p : Prototype) : p.build.Fair :=
  Prototype.build_induction (fun p _ hchildren => buildWith_fair p hchildren) p

end LuaRecovery

/-
What one instruction can do.

Most opcodes only write values down and take notes.  `Quiet` adds the moves for the latter to
those of `Carried`; where no registers are given, all may be concerned.  A call, a return and an
unknown opcode also emit lines and report what they could not recover, and `Told` adds the moves
for that: a relation with all of them holds across every opcode but three.  The three are the
closure, which recovers a function on the way, and the compares and jumps, which open and close
blocks; for the closure the part before the function inside is recovered, `captures`, is treated
here.
-/
import LuaRecovery.Proofs.Moves

namespace LuaRecovery

open List Instruction

/-- A statement of one line that assigns nothing and opens or closes nothing. -/
def Statement.IsLine : Statement → Prop
  | .call _ _ _ => True
  | .ret _ _ => True
  | .verbatim _ => True
  | _ => False

/-- Whether an instruction behind a closure names an upvalue of its function. -/
def Instruction.isCapture (i : Instruction) : Bool :=
  i.opcode == .move || i.opcode == .getUpvalue

/-- Whether the step of an opcode recovers a function, or opens or closes blocks. -/
def Opcode.isStructural : Opcode → Bool
  | .closure | .compareEq | .compareLt | .compareLe | .jump => true
  | _ => false

/-- Whether the step of an opcode may emit a line or report something. -/
def Opcode.isTelling : Opcode → Bool
  | .call | .ret | .unknown => true
  | _ => false

namespace Walking

/-- How the limits are used up on the way: the caller is asked, and an instruction is counted. -/
inductive Spends (l : Limits) : Limits → Prop
  | poll : Spends l l.poll
  | consume : Spends l l.consume

/-- A relation that also holds across the moves that show neither in the body nor among the
diagnostics: notes are taken, and the limits and the trace are kept. -/
structure Quiet (R : Walk → Walk → Prop) (A : Int → Prop := fun _ => True) : Prop
    extends Carried R A where
  note : ∀ w index, R w { w with frame.registers := w.frame.registers.lookUp index }
  limits : ∀ w l, Spends w.context.limits l → R w { w with context.limits := l }
  trace : ∀ w records, R w { w with context.trace := records }

/-- A relation that also holds across the moves by which lines are emitted and something is
reported. -/
structure Told (R : Walk → Walk → Prop) (A : Int → Prop := fun _ => True) : Prop
    extends Quiet R A where
  report : ∀ w d, R w { w with context := w.context.report d }
  emit : ∀ w s, s.IsLine → R w { w with frame.body := w.frame.body ++ [s] }

/-- A relation that holds wherever an open list of results starts afterwards.  Only calls and
returns change that. -/
def Topped (R : Walk → Walk → Prop) : Prop := ∀ w top, R w { w with frame.top := top }

/-- A relation that holds whatever strings are reported.  Only what is done before the first
instruction changes that. -/
def Observed (R : Walk → Walk → Prop) : Prop := ∀ w s, R w { w with context.strings := s }

/-- A relation that holds whatever calls the scene has recorded.  Only calls change that. -/
def Logged (R : Walk → Walk → Prop) : Prop :=
  ∀ w records, R w { w with context.scene.calls := records }

variable {R : Walk → Walk → Prop} {T : Stop → Prop} [Stop.Covers T]

theorem readGlobal_offstage (name : String) : Keeps Offstage (readGlobal name) T := by
  intro w
  refine after_bind (after_simulating ?_)
  cases hsimulate : w.context.options.simulate.isOn with
  | false => exact Offstage.refl w
  | true =>
    refine after_fault (modifyScene_offstage (fun s a s' h => ?_) hsimulate)
      fun _ _ h => ⟨Stop.Covers.fault _ h.1, h.2⟩
    have hscene : (s.readGlobal name).2 = s' := congrArg Prod.snd (Except.ok.inj h)
    rw [← hscene]
    exact ⟨s.readGlobal_grows name, s.readGlobal_calls name⟩

/-- Only the scene differs, in what it has recorded too. -/
def Called (w w' : Walk) : Prop :=
  ∃ scene records, Stages w scene ∧ w' = { w with context.scene := { scene with calls := records } }

theorem makeCall_called (site : Scene.CallSite) : Keeps Called (makeCall site) T := by
  intro w
  have hrefl : Called w w := ⟨w.context.scene, w.context.scene.calls, stages_self w, rfl⟩
  refine after_bind (after_simulating ?_)
  cases hsimulate : w.context.options.simulate.isOn with
  | false => exact hrefl
  | true =>
    refine after_bind (after_query ?_ fun _ => ⟨Stop.Covers.fault _ trivial, hrefl⟩)
    rintro ⟨outcome, scene⟩ hok
    have hgrows := (Scene.call_grows hok).trans (scene.grows_logged w.context.scene.calls)
    refine ⟨_, scene.calls, ⟨hgrows, fun hoff => ?_, rfl⟩, rfl⟩
    rw [hsimulate] at hoff
    cases hoff

theorem makeCall_keeps {A : Int → Prop} (hR : Carried R A) (hlog : Logged R)
    (site : Scene.CallSite) : Keeps R (makeCall site) T := by
  refine keeps_mono (makeCall_called site) (fun _ h => h) ?_
  rintro w _ ⟨scene, records, hstages, rfl⟩
  exact hR.trans _ _ _ (hR.scene w scene hstages) (hlog _ records)

section

variable {A : Int → Prop} (hR : Carried R A)

include hR

/-! ### Globals and fields -/

theorem holdGlobal_keeps {reg : Int} (name : String) (hreg : A reg) :
    Keeps R (holdGlobal reg name) T := by
  refine hR.chain (hR.keeps (readGlobal_offstage name)) fun found => ?_
  cases found with
  | none => exact setRegister_keeps hR hreg _
  | some reading =>
    refine hR.chain (hR.keeps (query_offstage _)) fun isService => ?_
    exact keeps_ite (holdObject_keeps hR _ _ hreg) (setRegister_keeps hR hreg _)

theorem holdField_keeps {reg : Int} (base key : Slot) (hreg : A reg) :
    Keeps R (holdField reg base key) T := by
  intro w
  refine after_bind (after_simulating ?_)
  cases base.handle with
  | none => exact holdObject_keeps hR _ _ hreg w
  | some handle =>
    cases hsimulate : w.context.options.simulate.isOn with
    | false => exact holdObject_keeps hR _ _ hreg w
    | true =>
      have hread := modifyScene_offstage (f := fun s => s.read handle key.text base.text)
        (fun _ _ _ h => ⟨Scene.read_grows h, Scene.read_calls h⟩) hsimulate
      refine after_bind (after_mono hread ?_
        fun _ _ h => ⟨Stop.Covers.fault _ h.1, hR.offstage h.2⟩)
      intro reading w' hw'
      exact after_keeps hR.trans (hR.offstage hw') (holdObject_keeps hR _ _ hreg)

/-! ### The upvalues of a closure -/

theorem captureRegister_keeps {target reg : Int} (hreg : reg ≠ target → A reg) (name : String) :
    Keeps R (captureRegister target name reg) T := by
  unfold captureRegister
  by_cases heq : reg = target
  · rw [if_pos heq]
    exact hR.done _
  · rw [if_neg heq]
    refine hR.chain (readRegister_keeps hR (hreg heq)) fun slot => ?_
    exact hR.seq (ensureNamed_keeps hR (hreg heq)) (hR.done _)

theorem captures_keeps {target : Int} (name : String) {instructions : List Instruction}
    (h : ∀ c ∈ instructions.takeWhile isCapture, c.opcode = .move → c.b ≠ target →
      A c.b) : Keeps R (captures target name instructions) T := by
  induction instructions with
  | nil => exact hR.done []
  | cons i rest ih =>
    have hcons {m : Walking Upvalue} (hi : i.isCapture = true) (hm : Keeps R m T) :
        Keeps R (m >>= fun upvalue =>
          captures target name rest >>= fun more => pure (upvalue :: more)) T := by
      rw [takeWhile_cons_of_pos hi] at h
      refine hR.chain hm fun upvalue => ?_
      exact hR.chain (ih fun c hc => h c (mem_cons_of_mem _ hc)) fun more =>
        hR.done _
    unfold captures
    cases hop : i.opcode with
    | move =>
      have hi : i.isCapture = true := by rw [isCapture, hop]; rfl
      refine hcons hi (captureRegister_keeps hR (h i ?_ hop) name)
      rw [takeWhile_cons_of_pos hi]
      exact mem_cons_self
    | getUpvalue =>
      exact hcons (by rw [isCapture, hop]; rfl) (upvalueAt_keeps hR i.b)
    | _ => exact hR.done []

end

/-- What is known of the upvalues of a closure: what is known of each, if taking the others
leaves it. -/
theorem captures_each {target : Int} {name : String} {S : Walk → Walk → Prop} {I : Walk → Prop}
    {K : Instruction → Upvalue → Walk → Prop} (hrefl : ∀ w, R w w)
    (htrans : ∀ w₁ w₂ w₃, R w₁ w₂ → R w₂ w₃ → R w₁ w₃)
    (hS : ∀ {w₁ w₂ w₃}, R w₁ w₂ → S w₂ w₃ → S w₁ w₃) (hI : ∀ {w w'}, R w w' → I w → I w')
    (hK : ∀ {i u w w'}, R w w' → K i u w → K i u w')
    (hmove : ∀ {i w}, i.opcode = .move → I w →
      After (fun u w' => R w w' ∧ K i u w') (fun _ w' => S w w')
        (captureRegister target name i.b w))
    (hget : ∀ {i w}, i.opcode = .getUpvalue → I w →
      After (fun u w' => R w w' ∧ K i u w') (fun _ w' => S w w') (upvalueAt i.b w)) :
    ∀ (instructions : List Instruction) {w : Walk}, I w → After
        (fun us w' => R w w' ∧ us.length = (instructions.takeWhile isCapture).length ∧
          ∀ (k : Nat) i u, instructions[k]? = some i → us[k]? = some u → K i u w')
        (fun _ w' => S w w') (captures target name instructions w) := by
  intro instructions
  induction instructions with
  | nil => exact fun {w} _ => ⟨hrefl w, rfl, fun k i u hi => by cases hi⟩
  | cons i rest ih =>
    intro w hw
    -- One upvalue and then the others, which leave what is known of the first.
    have hcons : ∀ {m : Walking Upvalue}, i.isCapture = true →
        After (fun u w' => R w w' ∧ K i u w') (fun _ w' => S w w') (m w) →
        After
          (fun us w' => R w w' ∧ us.length = ((i :: rest).takeWhile isCapture).length ∧
            ∀ (k : Nat) i' u, (i :: rest)[k]? = some i' → us[k]? = some u → K i' u w')
          (fun _ w' => S w w') ((m >>= fun upvalue =>
            captures target name rest >>= fun more => pure (upvalue :: more)) w) := by
      intro m hi hm
      refine after_seq hm ?_
      rintro upvalue w₁ ⟨hw₁, hfirst⟩
      refine after_seq (after_fault (ih (hI hw₁ hw)) fun _ _ h => hS hw₁ h) ?_
      rintro more w₂ ⟨hw₂, hlength, hmore⟩
      refine ⟨htrans _ _ _ hw₁ hw₂, ?_, fun k i' u hi' hu => ?_⟩
      · rw [takeWhile_cons_of_pos hi, length_cons, length_cons, hlength]
      · cases k with
        | zero =>
          cases hi'
          cases hu
          exact hK hw₂ hfirst
        | succ k => exact hmore k i' u hi' hu
    unfold captures
    cases hop : i.opcode with
    | move => exact hcons (by rw [isCapture, hop]; rfl) (hmove hop hw)
    | getUpvalue => exact hcons (by rw [isCapture, hop]; rfl) (hget hop hw)
    | _ =>
      refine ⟨hrefl w, ?_, fun k i' u _ hu => by cases hu⟩
      rw [takeWhile_cons_of_neg]
      · rfl
      · rw [isCapture, hop]
        decide

/-! ### Opcodes that only write values down -/

section

variable {A : Int → Prop} (hR : Carried R A) {i : Instruction}

include hR

theorem bind_keeps {reg : Int} (hreg : A reg) (value : Slot) (comment : Option String) :
    Keeps R (bindLocal reg value comment >>= fun _ => pure ()) T :=
  hR.seq (bindLocal_keeps hR value comment hreg) (hR.done ())

omit [Stop.Covers T] in
theorem emitAssign_keeps (target value : String) (comment : Option String) :
    Keeps R (emit (.assign target value false comment)) T :=
  fun w => hR.assign w target value comment

theorem getUpvalue_keeps (ha : A i.a) : Keeps R (getUpvalue i) T := by
  refine hR.chain (upvalueAt_keeps hR i.b) fun upvalue => ?_
  refine hR.chain (bindLocal_keeps hR _ none ha) fun name => ?_
  exact keeps_ite (setRegister_keeps hR ha _) (hR.done ())

theorem setUpvalue_keeps (ha : A i.a) : Keeps R (setUpvalue i) T := by
  refine hR.chain (upvalueAt_keeps hR i.b) fun upvalue => ?_
  exact hR.chain (readText_keeps hR ha) fun text => emitAssign_keeps hR _ _ _

theorem negate_keeps (hb : A i.b) (ha : A i.a) : Keeps R (negate i) T := by
  refine hR.chain (readRegister_keeps hR hb) fun operand => ?_
  refine hR.chain (hR.keeps simulating_offstage) fun simulated => ?_
  exact setRegister_keeps hR ha _

theorem unary_keeps (sign : String) (hb : A i.b) (ha : A i.a) : Keeps R (unary sign i) T :=
  hR.seq (readRegister_keeps hR hb) <| setRegister_keeps hR ha _

theorem concat_keeps (hparts : ∀ reg ∈ range i.b (max i.b i.c), A reg) (ha : A i.a) :
    Keeps R (concat i) T :=
  hR.seq (readTexts_keeps hR hparts) <| setRegister_keeps hR ha _

end

variable {i : Instruction} {child : Child}

theorem mem_of_childAt? {children : List Child} {index : Int}
    (h : childAt? children index = some child) : child ∈ children := by
  unfold childAt? at h
  split at h
  · exact mem_of_getElem? h
  · cases h

/-- What recovering a function inside changes: the context is that of the function inside,
and what was recovered of it is emitted. -/
theorem buildChild_after {reg : Int} {name : String} {upvalues : List Upvalue} {declares : Bool}
    {w : Walk} {Q : Unit → Walk → Prop} {E : Stop → Walk → Prop}
    (hok : ∀ routine c,
      child.build name (w.frame.path ++ "/" ++ name) upvalues w.context = .ok routine c →
      Q () (bound { w with context := c } [reg] (.define name routine declares none)
        w.frame.locals))
    (hrecovered : ∀ failure routine c,
      child.build name (w.frame.path ++ "/" ++ name) upvalues w.context
        = .error (.failed failure (some routine)) c →
      E (.failed failure (some routine)) (bound { w with context := c } [reg]
        (.define name routine declares none) w.frame.locals))
    (hstop : ∀ stop c,
      child.build name (w.frame.path ++ "/" ++ name) upvalues w.context = .error stop c →
      stop.recovered? = none → E stop { w with context := c }) :
    After Q E (buildChild child reg name upvalues declares w) := by
  refine after_state ?_
  cases hbuild : child.build name (w.frame.path ++ "/" ++ name) upvalues w.context with
  | ok routine c => exact hok routine c hbuild
  | error stop c =>
    rcases stop with ⟨failure, _ | routine⟩ | fault | fault | fault
    · exact hstop _ c hbuild rfl
    · exact hrecovered failure routine c hbuild
    · exact hstop _ c hbuild rfl
    · exact hstop _ c hbuild rfl
    · exact hstop _ c hbuild rfl

/-! ### Closures -/

/-- What a closure has when its function is recovered. -/
structure Prepared where
  name : String
  declares : Bool
  upvalues : List Upvalue

/-- The part of a closure before its function is recovered: its register gets a local, and its
upvalues are named. -/
def prepare (child : Child) (i : Instruction) (index : Nat) : Walking Prepared := do
  let hint := if child.name = "" then "func" else child.name
  let (name, declares) ← takeLocal i.a (uniqueName hint)
  let following := ((← get).frame.code.drop (index + 1)).take child.upvalueCount.toNat
  let upvalues ← captures i.a name following
  descend
  return ⟨name, declares, upvalues⟩

theorem closure_eq {children : List Child} (h : childAt? children i.b = some child) (index : Nat) :
    closure children i index = prepare child i index >>= fun ready => do
      buildChild child i.a ready.name ready.upvalues ready.declares
      setRegister i.a (.closure ready.name)
      return ready.upvalues.length := by
  unfold closure prepare
  rw [h]
  simp only [bind_assoc, pure_bind]

/-- What preparing a closure changes: its register has a local first, and the other registers
are bound then. -/
theorem prepare_after (hR : Carried R (· ≠ i.a)) (child : Child) (index : Nat) (w : Walk) : After
      (fun ready w' => ∃ scene objects locals, Stages w scene ∧
        Binds w.frame.locals [i.a] locals ready.declares ∧
        locals.get? i.a = some ready.name ∧
        (∀ r x, locals.get? r = some x → w.frame.locals.get? r = some x ∨ x ∈ scene.names.used) ∧
        R { w with
          frame.locals := locals
          frame.objectLocals := objects
          context.scene := scene } w')
      (fun stop w' => T stop ∧ ∃ scene objects locals declares, Stages w scene ∧
        Binds w.frame.locals [i.a] locals declares ∧
        R { w with
          frame.locals := locals
          frame.objectLocals := objects
          context.scene := scene } w')
      (prepare child i index w) := by
  refine after_bind (after_mono (takeLocal_after i.a (uniqueName_after _ w)) ?_ fun _ _ h => h.elim)
  rintro ⟨name, declares⟩ _ ⟨scene, objects, locals, rfl, hstages, hbinds, hname, hnew⟩
  have hused : ∀ r x, locals.get? r = some x →
      w.frame.locals.get? r = some x ∨ x ∈ scene.names.used :=
    fun r x hx => (hnew r x hx).imp_right fun h => h.2.used
  refine after_state (after_bind ?_)
  refine after_mono (captures_keeps (T := T) hR name (fun _ _ _ h => h) _) (fun upvalues w' h => ?_)
    fun stop w' h => ?_
  · refine after_bind (after_askHost ?_ fun _ _ => ?_)
    · exact ⟨scene, objects, locals, hstages, hbinds, hname, hused, h⟩
    · exact ⟨Stop.Covers.fault _ trivial, scene, objects, locals, declares, hstages, hbinds, h⟩
  · exact ⟨h.1, scene, objects, locals, declares, hstages, hbinds, h.2⟩

/-- What the moves carry is kept while a closure is prepared, if taking a local keeps it. -/
theorem prepare_keeps (hR : Carried R) (htake : ∀ w scene objects locals declares, Stages w scene →
      Binds w.frame.locals [i.a] locals declares → R w { w with
        frame.locals := locals
        frame.objectLocals := objects
        context.scene := scene }) (child : Child) (index : Nat) :
    Keeps R (prepare child i index) T := by
  intro w
  refine after_mono (prepare_after (T := T) (hR.restrict fun _ _ => trivial) child index w) ?_ ?_
  · rintro ready w' ⟨scene, objects, locals, hstages, hbinds, -, -, h⟩
    exact hR.trans _ _ _ (htake w scene objects locals _ hstages hbinds) h
  · rintro stop w' ⟨hfault, scene, objects, locals, declares, hstages, hbinds, h⟩
    exact ⟨hfault, hR.trans _ _ _ (htake w scene objects locals declares hstages hbinds) h⟩

/-! ### Opcodes that take notes -/

/-- What loading a constant does once the register was looked at. -/
def storeConstant (i : Instruction) : Walking Unit := do
  spell (·.frame.registers.spelledConstant i.b)
  let value := (← get).frame.registers.constantSlot i.b
  modifyRegisters (·.lookUp i.b)
  if ← isLongConstant i.b then
    let _ ← bindLocal i.a value none
  else modifyRegisters (·.setUnread i.a value)

theorem loadConstant_eq (i : Instruction) :
    loadConstant i = flushUnread i.a >>= fun _ => storeConstant i := rfl

section

variable {A : Int → Prop} (hR : Quiet R A) {i : Instruction}

include hR

omit [Stop.Covers T] in
theorem lookUp_keeps (index : Int) : Keeps R (modifyRegisters (·.lookUp index)) T :=
  fun w => hR.note w index

theorem readOperand_keeps {operand : Int} (h : ∀ reg ∈ Registers.ofOperand operand, A reg) :
    Keeps R (readOperand operand) T := by
  refine hR.chain (askHost_keeps hR.refl _) fun _ w => ?_
  show R w { w with frame.registers := w.frame.registers.touchOperand operand }
  unfold Registers.ofOperand at h
  unfold Registers.touchOperand
  split
  · exact hR.note w _
  · rename_i hregister
    rw [if_neg hregister] at h
    exact hR.registers w _ (w.frame.registers.changesAt_touch (forall_mem_singleton.mp h))

theorem queryStrings_keeps {α : Type} (f : Report.StringReport → Except OptionFault α) :
    Keeps R (queryStrings f) Stop.IsMute := by
  intro w
  refine after_state ?_
  cases f w.context.strings with
  | ok a => exact hR.refl w
  | error fault => exact ⟨trivial, hR.refl w⟩

theorem isLongConstant_keeps (index : Int) : Keeps R (isLongConstant index) Stop.IsMute := by
  intro w
  refine after_state ?_
  cases w.frame.registers.constantString? index with
  | some s => exact queryStrings_keeps hR _ w
  | none => exact hR.refl w

theorem storeConstant_keeps (ha : A i.a) : Keeps R (storeConstant i) Stop.IsMute := by
  refine hR.seq (askHost_keeps hR.refl _) ?_
  refine hR.chain (fun w => hR.refl w) fun w => ?_
  refine hR.seq (lookUp_keeps hR i.b) ?_
  refine hR.chain (isLongConstant_keeps hR i.b) fun long => ?_
  refine keeps_ite (bind_keeps hR.toCarried ha _ none) ?_
  exact modifyRegisters_keeps hR.toCarried fun r => r.changesAt_setUnread ha _

theorem loadConstant_keeps (ha : A i.a) : Keeps R (loadConstant i) Stop.IsMute :=
  hR.seq (flushUnread_keeps hR.toCarried ha) <| storeConstant_keeps hR ha

theorem globalName_keeps (index : Int) : Keeps R (globalName index) T := by
  refine hR.seq (askHost_keeps hR.refl _) ?_
  refine hR.chain (fun w => hR.refl w) fun w => ?_
  refine hR.seq (lookUp_keeps hR index) ?_
  cases w.frame.registers.constant? index with
  | none => exact hR.done _
  | some c => cases c <;> exact hR.done _

theorem getGlobal_keeps (ha : A i.a) : Keeps R (getGlobal i) T := by
  refine hR.chain (globalName_keeps hR i.b) fun name => ?_
  exact holdGlobal_keeps hR.toCarried name ha

theorem setGlobal_keeps (ha : A i.a) : Keeps R (setGlobal i) T := by
  refine hR.chain (globalName_keeps hR i.b) fun name => ?_
  refine hR.chain (readText_keeps hR.toCarried ha) fun text => ?_
  exact emitAssign_keeps hR.toCarried _ _ _

theorem getField_keeps (hb : A i.b) (hc : ∀ reg ∈ Registers.ofOperand i.c, A reg) (ha : A i.a) :
    Keeps R (getField i) T := by
  refine hR.chain (readRegister_keeps hR.toCarried hb) fun base => ?_
  refine hR.chain (readOperand_keeps hR hc) fun key => ?_
  exact holdField_keeps hR.toCarried base key ha

theorem setField_keeps (ha : A i.a) (hb : ∀ reg ∈ Registers.ofOperand i.b, A reg)
    (hc : ∀ reg ∈ Registers.ofOperand i.c, A reg) : Keeps R (setField i) T := by
  refine hR.chain (readText_keeps hR.toCarried ha) fun target => ?_
  refine hR.chain (readOperand_keeps hR hb) fun key => ?_
  exact hR.chain (readOperand_keeps hR hc) fun value =>
    emitAssign_keeps hR.toCarried _ _ _

theorem selfIndex_keeps (hb : A i.b) (hc : ∀ reg ∈ Registers.ofOperand i.c, A reg) (ha : A i.a)
    (hself : A (i.a + 1)) : Keeps R (selfIndex i) T := by
  refine hR.chain (readRegister_keeps hR.toCarried hb) fun receiver => ?_
  refine hR.chain (readOperand_keeps hR hc) fun key => ?_
  exact hR.seq (setRegister_keeps hR.toCarried hself _) <| setRegister_keeps hR.toCarried ha _

theorem arith_keeps (op : ArithOp) (hb : ∀ reg ∈ Registers.ofOperand i.b, A reg)
    (hc : ∀ reg ∈ Registers.ofOperand i.c, A reg) (ha : A i.a) :
    Keeps R (arith op i) T := by
  refine hR.chain (readOperand_keeps hR hb) fun left => ?_
  refine hR.chain (readOperand_keeps hR hc) fun right => ?_
  refine hR.chain (hR.keeps simulating_offstage) fun simulated => ?_
  exact setRegister_keeps hR.toCarried ha _

theorem listed_keeps (first last : Int) : Keeps R (listed first last) T :=
  hR.seq (askHost_keeps hR.refl _) (hR.done _)

theorem argumentRegisters_keeps (htop : Topped R) (base count : Int) :
    Keeps R (argumentRegisters base count) T := by
  have hlisted (first last : Int) :
      Keeps R (listed first last >>= fun registers => pure (registers, false)) T :=
    hR.seq (listed_keeps hR first last) (hR.done _)
  refine keeps_ite (hlisted _ _) ?_
  refine hR.chain (fun w => hR.refl w) fun w => ?_
  dsimp only
  cases w.frame.top with
  | none => exact hR.done _
  | some top =>
    refine keeps_ite ?_ (hR.done _)
    exact hR.seq (fun w => htop w none) <| hlisted _ _

omit [Stop.Covers T] in
theorem feedsOpenList_keeps (index : Nat) : Keeps R (feedsOpenList index) T := by
  refine hR.chain (fun w => hR.refl w) fun w => ?_
  cases w.frame.code[index + 1]? with
  | none => exact hR.done _
  | some next => exact hR.done _

omit [Stop.Covers T] in
theorem holdsOpen_keeps (i : Instruction) (index : Nat) : Keeps R (holdsOpen i index) T :=
  keeps_ite (feedsOpenList_keeps hR index) (hR.done false)

/-- The results of a call are written down in registers or locals, or shown by one line. -/
theorem placeResults_keeps (htop : Topped R)
    (hemit : ∀ w s, s.IsLine → R w { w with frame.body := w.frame.body ++ [s] }) (ha : A i.a)
    (hresults : ∀ reg ∈ range i.a (i.a + (i.c - 1) - 1), A reg) (index : Nat)
    (outcome : Scene.CallOutcome) (comment : Option String) :
    Keeps R (placeResults i index outcome comment) T := by
  refine keeps_ite (bind_keeps hR.toCarried ha _ _) (keeps_ite ?_ ?_)
  · exact bindMany_keeps hR.toCarried _ _ hresults
  · refine hR.chain (holdsOpen_keeps hR i index) fun held => keeps_ite ?_ ?_
    · exact hR.seq (setRegister_keeps hR.toCarried ha _) <| fun w => htop w _
    · refine hR.seq (fun w => hemit w _ trivial) ?_
      refine hR.chain (fun w => hR.refl w) fun found => ?_
      exact keeps_ite (clearRegisters_keeps hR.toCarried (forall_mem_singleton.mpr ha)) (hR.done ())

omit [Stop.Covers T] in
/-- The step of an opcode and the number of instructions that it takes. -/
theorem taking_keeps {m : Walking Unit} (h : Keeps R m T) (taken : Nat) :
    Keeps R (m >>= fun _ => pure taken) T :=
  hR.seq h (hR.done taken)

end

/-- What the quiet moves carry holds across the step of every opcode that recovers no function,
touches no block, emits no line and reports nothing. -/
theorem quietStep_keeps (hR : Quiet R) (children : List Child) (i : Instruction) (index : Nat)
    (hi : i.opcode.isStructural = false) (htelling : i.opcode.isTelling = false) :
    Keeps R (step children i index) Stop.IsMute := by
  have hall {registers : List Int} : ∀ reg ∈ registers, True := fun _ _ => trivial
  unfold step
  cases hop : i.opcode with
  | move =>
    refine hR.chain (readRegister_keeps hR.toCarried trivial) fun slot => ?_
    exact taking_keeps hR (setRegister_keeps hR.toCarried trivial _) 1
  | loadConstant => exact taking_keeps hR (loadConstant_keeps hR trivial) 1
  | loadBool => exact taking_keeps hR (setRegister_keeps hR.toCarried trivial _) 1
  | loadNil => exact taking_keeps hR (setRegisters_keeps hR.toCarried hall _) 1
  | getUpvalue => exact taking_keeps hR (getUpvalue_keeps hR.toCarried trivial) 1
  | setUpvalue => exact taking_keeps hR (setUpvalue_keeps hR.toCarried trivial) 1
  | getGlobal => exact taking_keeps hR (getGlobal_keeps hR trivial) 1
  | setGlobal => exact taking_keeps hR (setGlobal_keeps hR trivial) 1
  | getField => exact taking_keeps hR (getField_keeps hR trivial hall trivial) 1
  | setField => exact taking_keeps hR (setField_keeps hR trivial hall hall) 1
  | newTable =>
    refine hR.chain (bindLocal_keeps hR.toCarried _ none trivial) ?_
    exact fun _ => hR.done 1
  | selfIndex => exact taking_keeps hR (selfIndex_keeps hR trivial hall trivial trivial) 1
  | add | sub | mul | div | mod | pow =>
    exact taking_keeps hR (arith_keeps hR _ hall hall trivial) 1
  | negate => exact taking_keeps hR (negate_keeps hR.toCarried trivial trivial) 1
  | invert | length =>
    exact taking_keeps hR (unary_keeps hR.toCarried _ trivial trivial) 1
  | concat => exact taking_keeps hR (concat_keeps hR.toCarried hall trivial) 1
  | nop => exact hR.done 1
  | closure | compareEq | compareLt | compareLe | jump =>
    rw [hop] at hi
    cases hi
  | call | ret | unknown =>
    rw [hop] at htelling
    cases htelling

/-! ### Opcodes that emit lines or report something -/

section

variable {A : Int → Prop} (hR : Told R A)

include hR

omit [Stop.Covers T] in
theorem emitLine_keeps {s : Statement} (hs : s.IsLine) : Keeps R (emit s) T :=
  fun w => hR.emit w s hs

omit [Stop.Covers T] in
theorem report_keeps (code : Code) (message : String) (index : Int) :
    Keeps R (report code message index) T :=
  fun w => hR.report w _

omit [Stop.Covers T] in
theorem reportGuess_keeps (ambiguous : Bool) (message : String) (index : Nat) :
    Keeps R (reportGuess ambiguous message index) T :=
  keeps_ite (report_keeps hR _ _ _) (hR.done ())

theorem unknown_keeps (i : Instruction) (index : Nat) : Keeps R (unknown i index) T := by
  refine hR.seq (askHost_keeps hR.refl _) ?_
  exact hR.seq (emitLine_keeps hR trivial) <| report_keeps hR _ _ _

end

section

variable (hR : Told R)

include hR

theorem missingChild_keeps (count : Nat) (i : Instruction) (index : Nat) :
    Keeps R (missingChild count i index) T := by
  refine hR.seq (askHost_keeps hR.refl _) ?_
  refine hR.seq (emitLine_keeps hR trivial) ?_
  refine hR.seq (report_keeps hR _ _ _) ?_
  exact hR.seq (setRegister_keeps hR.toCarried trivial _) (hR.done 0)

/-- What the moves carry holds across a closure, if preparing it and recovering its function keep
it. -/
theorem closure_keeps {children : List Child} {i : Instruction} {index : Nat}
    (hprepare : ∀ child, Keeps R (prepare child i index))
    (hbuild : ∀ child ∈ children, ∀ name upvalues declares,
      Keeps R (buildChild child i.a name upvalues declares)) :
    Keeps R (closure children i index) := by
  cases hfound : childAt? children i.b with
  | none =>
    unfold Walking.closure
    rw [hfound]
    exact missingChild_keeps hR _ i index
  | some child =>
    rw [closure_eq hfound]
    refine hR.chain (hprepare child) fun ready => ?_
    refine hR.seq (hbuild child (mem_of_childAt? hfound) _ _ _) ?_
    refine hR.seq (setRegister_keeps hR.toCarried trivial _) ?_
    exact hR.done _

/-- What the moves carry holds across the step of every opcode that recovers no function, touches
no block and takes no list of values. -/
theorem lineStep_keeps (children : List Child) (i : Instruction) (index : Nat)
    (hi : i.opcode.isStructural = false) (hcall : i.opcode ≠ .call) (hret : i.opcode ≠ .ret) :
    Keeps R (step children i index) Stop.IsMute := by
  by_cases htelling : i.opcode.isTelling = false
  · exact quietStep_keeps hR.toQuiet children i index hi htelling
  · unfold step
    cases hop : i.opcode with
    | call => exact absurd hop hcall
    | ret => exact absurd hop hret
    | unknown => exact taking_keeps hR.toQuiet (unknown_keeps hR i index) 1
    | _ =>
      rw [hop] at htelling
      exact absurd rfl htelling

theorem call_keeps (htop : Topped R) (hlog : Logged R) (i : Instruction) (index : Nat) :
    Keeps R (call i index) T := by
  refine hR.chain (readRegister_keeps hR.toCarried trivial) fun callee => ?_
  refine hR.chain (argumentRegisters_keeps hR.toQuiet htop i.a i.b) fun list => ?_
  refine hR.chain (readTexts_keeps hR.toCarried fun _ _ => trivial) fun args => ?_
  refine hR.seq (reportGuess_keeps hR _ _ _) ?_
  refine hR.chain (makeCall_keeps hR.toCarried hlog _) fun outcome => ?_
  refine hR.seq (clearRegisters_keeps hR.toCarried fun _ _ => trivial) ?_
  exact placeResults_keeps hR.toQuiet htop hR.emit trivial (fun _ _ => trivial) _ _ _

theorem ret_keeps (htop : Topped R) (i : Instruction) (index : Nat) : Keeps R (ret i index) T := by
  refine keeps_ite ?_ (keeps_ite ?_ ?_)
  · refine hR.chain (fun w => hR.refl w) fun w => ?_
    exact keeps_ite (emitLine_keeps hR trivial) (hR.done ())
  · exact hR.seq (readTexts_keeps hR.toCarried fun _ _ => trivial) <| emitLine_keeps hR trivial
  · refine hR.chain (argumentRegisters_keeps hR.toQuiet htop _ _) fun list => ?_
    refine hR.chain (readTexts_keeps hR.toCarried fun _ _ => trivial) fun values => ?_
    exact hR.seq (reportGuess_keeps hR _ _ _) <| emitLine_keeps hR trivial

/-- What the moves carry holds across the step of every opcode that recovers no function
and touches no block. -/
theorem step_keeps (htop : Topped R) (hlog : Logged R) (children : List Child) (i : Instruction)
    (index : Nat) (hi : i.opcode.isStructural = false) :
    Keeps R (step children i index) Stop.IsMute := by
  by_cases hcall : i.opcode = .call
  · unfold step
    rw [hcall]
    exact taking_keeps hR.toQuiet (call_keeps hR htop hlog i index) 1
  by_cases hret : i.opcode = .ret
  · unfold step
    rw [hret]
    exact taking_keeps hR.toQuiet (ret_keeps hR htop i index) 1
  exact lineStep_keeps hR children i index hi hcall hret

end

end Walking

end LuaRecovery

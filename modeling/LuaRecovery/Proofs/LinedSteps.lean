/-
Steps keep to their lines.

A walk is lined if no text that it holds has a line break: the texts in its registers, its
locals, its notes, the upvalues that it refers to, and all texts of the statements so far.  The
actions of a walk keep it so.  What they write comes from texts that are held, from literals and
from made names.  Two kinds of names are taken over from the function as they are, and of these
it has to be known: globals that pass for names, and upvalues.
-/
import LuaRecovery.Proofs.DeclaredNames
import LuaRecovery.Proofs.OneLineTexts
import LuaRecovery.Proofs.Safety
import LuaRecovery.Proofs.SceneCalls

namespace LuaRecovery

open List Statement

open Layout

/-! ### Lined routines -/

/-- No text of a routine has a line break, and its statements can be printed. -/
structure RoutineOf.Lined (r : Routine) : Prop extends RoutineOf.Printable r where
  name : OneLine r.name
  params : ∀ t ∈ r.params, OneLine t

/-- A statement that can be printed and without a line break in its texts.  The same holds of
the routine that it has, and of all routines inside that. -/
structure Statement.Lined (s : Statement) : Prop where
  printable : s.IsPrintable
  texts : ∀ t ∈ s.texts, OneLine t
  inner : ∀ r, s.routine? = some r → Throughout RoutineOf.Lined r

namespace Statement

variable {comment : Option String}

theorem lined_assign {target value : String} (htarget : OneLine target) (hvalue : OneLine value)
    (declares : Bool) (hcomment : ∀ t ∈ comment.toList, OneLine t) :
    (assign target value declares comment).Lined :=
  ⟨trivial, forall_mem_cons.mpr ⟨htarget, forall_mem_cons.mpr ⟨hvalue, hcomment⟩⟩, nofun⟩

theorem lined_call {callee : String} {args : List String} (hcallee : OneLine callee)
    (hargs : ∀ t ∈ args, OneLine t) (hcomment : ∀ t ∈ comment.toList, OneLine t) :
    (call callee args comment).Lined :=
  ⟨trivial, forall_mem_cons.mpr ⟨hcallee, forall_mem_append.mpr ⟨hargs, hcomment⟩⟩, nofun⟩

theorem lined_ret {values : List String} (hvalues : ∀ t ∈ values, OneLine t)
    (hcomment : ∀ t ∈ comment.toList, OneLine t) : (ret values comment).Lined :=
  ⟨trivial, forall_mem_append.mpr ⟨hvalues, hcomment⟩, nofun⟩

theorem lined_marker {text : String} (h : OneLine text) (role : MarkerRole) :
    (marker text role).Lined :=
  ⟨trivial, forall_mem_singleton.mpr h, nofun⟩

theorem lined_remark {text : String} (h : OneLine text) : (remark text).Lined :=
  ⟨trivial, forall_mem_singleton.mpr (.append (by decide) h), nofun⟩

theorem lined_closing : closing.Lined := lined_marker (by decide) _

theorem lined_define {target : String} {r : Routine} (htarget : OneLine target)
    (hr : Throughout RoutineOf.Lined r) (declares : Bool) :
    (define target r declares none).Lined := by
  refine ⟨trivial, ?_, fun inner hinner => Option.some.inj hinner ▸ hr⟩
  cases hr with
  | intro hr _ =>
    exact forall_mem_cons.mpr ⟨htarget, forall_mem_append.mpr ⟨hr.params, nofun⟩⟩

end Statement

/-- Statements that are lined. -/
def AllLined (nodes : List Statement) : Prop := ∀ s ∈ nodes, s.Lined

theorem AllLined.append {nodes more : List Statement} (h : AllLined nodes) (h' : AllLined more) :
    AllLined (nodes ++ more) :=
  forall_mem_append.mpr ⟨h, h'⟩

theorem allLined_one {s : Statement} (h : s.Lined) : AllLined [s] :=
  forall_mem_singleton.mpr h

/-! ### Blocks -/

namespace Blocks

theorem oneLine_describe (block : Block) : OneLine (describe block) := by
  have hkind : OneLine block.kind.word := by cases block.kind <;> decide
  exact .append (.append hkind (by decide)) (oneLine_toString_int _)

variable (b : Blocks) (index : Int)

theorem close_lined (id : Nat) (index : Int) : AllLined (b.close id index).1 := by
  refine .append (fun s hs => ?_) ?_
  · obtain ⟨block, -, hs⟩ := mem_flatMap.mp hs
    have hearly : AllLined (closedEarly block) := forall_mem_cons.mpr
      ⟨lined_remark (.append (oneLine_describe block) (by decide)), allLined_one lined_closing⟩
    exact hearly s hs
  · split
    · exact forall_mem_nil _
    · exact allLined_one lined_closing

theorem settle_lined (item : Nat × MarkerRole) : AllLined (b.settle index item).1 := by
  unfold settle
  split
  · split
    · exact allLined_one (lined_marker (by decide) _)
    · exact b.close_lined _ _
  · exact forall_mem_nil _

theorem settleAll_lined (items : List (Nat × MarkerRole)) (b : Blocks) :
    AllLined (b.settleAll index items).1 := by
  induction items generalizing b with
  | nil => exact forall_mem_nil _
  | cons item rest ih => exact .append (b.settle_lined index item) (ih _)

theorem openLoops_lined (count : Nat) (b : Blocks) : AllLined (b.openLoops index count).1 := by
  induction count generalizing b with
  | zero => exact forall_mem_nil _
  | succ count ih =>
    exact forall_mem_cons.mpr ⟨lined_marker (by decide) _, ih _⟩

theorem due_lined : AllLined (b.due index).1 :=
  .append (settleAll_lined index _ _) (openLoops_lined index _ _)

theorem dueAll_lined (indexes : List Int) (b : Blocks) : AllLined (b.dueAll indexes).1 := by
  induction indexes generalizing b with
  | nil => exact forall_mem_nil _
  | cons index rest ih => exact .append (b.due_lined index) (ih _)

theorem openConditional_lined (index offset : Int) {condition : String}
    (h : OneLine condition) : (b.openConditional index offset condition).1.Lined := by
  unfold openConditional
  split <;> exact lined_marker (.append (.append (by decide) h) (by decide)) _

theorem gotoRemark_lined (target : Int) : (gotoRemark target).Lined :=
  lined_remark (.append (by decide) (oneLine_toString_int target))

theorem jump_lined (index offset : Int) : AllLined (b.jump index offset).1 := by
  unfold jump
  dsimp only
  split
  · split
    · exact b.close_lined _ _
    · exact allLined_one (gotoRemark_lined _)
  · split
    · exact allLined_one (gotoRemark_lined _)
    · split <;> exact forall_mem_nil _

theorem finish_lined (endIndex : Int) : AllLined (b.finish endIndex).1 := by
  refine .append (dueAll_lined _ b) fun s hs => ?_
  obtain ⟨block, -, hs⟩ := mem_flatMap.mp hs
  have hopen : AllLined (unterminated block) := forall_mem_cons.mpr
    ⟨lined_remark (.append (by decide) (oneLine_describe block)), allLined_one lined_closing⟩
  exact hopen s hs

end Blocks

/-! ### The scene -/

namespace Scene

variable {s s' : Scene}

theorem Registered.oneLine_nameOf (h : s.Registered) {handle : Nat} {name : String}
    (hname : s.nameOf handle = .ok name) : OneLine name := by
  unfold nameOf object at hname
  split at hname <;> cases hname
  next o ho => exact oneLine_of_isWord (h.words _ (h.objects o (mem_of_getElem? ho)))

theorem oneLine_readGlobal (name : String) :
    ∀ reading ∈ (s.readGlobal name).1, OneLine reading.text := by
  unfold readGlobal
  split
  · rintro _ ⟨⟩
    decide
  · split
    · next key hkey =>
        rintro _ ⟨⟩
        unfold aliasedService? at hkey
        split at hkey
        · next hname =>
            rcases hname with rfl | rfl
            · exact (by decide : OneLine "workspace")
            · exact (by decide : OneLine "Workspace")
        · cases hkey
    · exact nofun

theorem oneLine_read {handle : Nat} {keyText baseText : String} {reading : Reading}
    (h : s.read handle keyText baseText = .ok (reading, s')) (hkey : OneLine keyText)
    (hbase : OneLine baseText) : OneLine reading.text := by
  have hfield := Lua.oneLine_fieldAccess hbase hkey
  unfold read at h
  dsimp only at h
  split at h
  · cases h
    exact hfield
  · next key hunquoted =>
      split at h
      · cases h
        exact .append (.append (.append hbase (by decide)) (Lua.oneLine_unquote? hkey hunquoted))
          (by decide)
      · cases hkind : s.kindUnder handle key with
        | error fault =>
          rw [hkind] at h
          cases h
        | ok kind =>
          rw [hkind] at h
          cases h
          exact hfield

/-- The texts of a call have no line break. -/
def CallOutcome.Lined (outcome : CallOutcome) : Prop :=
  OneLine outcome.callee ∧ ∀ t ∈ outcome.args, OneLine t

theorem CallSite.lined_written {site : CallSite} (hcallee : OneLine site.callee)
    (hargs : ∀ t ∈ site.args, OneLine t) :
    OneLine site.written.1 ∧ ∀ t ∈ site.written.2, OneLine t := by
  unfold CallSite.written
  have hword (hint : String) : OneLine (Lua.sanitize hint) :=
    oneLine_of_isWord (NameSupply.isWord_sanitize hint)
  split
  · exact ⟨.append (.append (hword _) (by decide)) (hword _),
      fun t ht => hargs t (mem_of_mem_tail ht)⟩
  · split
    · exact ⟨.append hcallee (by decide), hargs⟩
    · exact ⟨hcallee, hargs⟩

theorem lined_call {site : CallSite} {outcome : CallOutcome}
    (h : s.call site = .ok (outcome, s')) (hcallee : OneLine site.callee)
    (hargs : ∀ t ∈ site.args, OneLine t) : outcome.Lined := by
  have hwritten := CallSite.lined_written hcallee hargs
  rw [← (call_spec h).1] at hwritten
  exact hwritten

end Scene

/-! ### Lined walks -/

namespace Table

/-- What holds of all that a table has also holds with one more entry. -/
theorem forall_insert {κ α : Type} [DecidableEq κ] {t : Table κ α} {P : α → Prop} {key : κ}
    {value : α} (hvalue : P value) (h : ∀ k v, t.get? k = some v → P v) :
    ∀ k v, (t.insert key value).get? k = some v → P v := by
  intro k v hv
  rw [get?_insert] at hv
  split at hv
  · cases hv
    exact hvalue
  · exact h k v hv

theorem mem_values_insert {t : Table Nat String} {handle : Nat} {name other : String}
    (h : other ∈ (t.insert handle name).values) : other = name ∨ other ∈ t.values := by
  obtain ⟨e, he, rfl⟩ := mem_map.mp h
  exact (mem_put he).imp (congrArg Prod.snd) mem_map_of_mem

end Table

/-- No text that registers hold has a line break, and no note on them. -/
structure Registers.Lined (r : Registers) : Prop where
  slots : ∀ index slot, r.slots.get? index = some slot → OneLine slot.text
  anomalies : ∀ t ∈ r.anomalies, OneLine t

theorem Registers.oneLine_constantSlot (r : Registers) (index : Int) :
    OneLine (r.constantSlot index).text := by
  unfold Registers.constantSlot
  split
  · exact Slot.oneLine_ofConstant _
  · exact (by decide : OneLine "nil")

namespace Registers.Lined

variable {r : Registers}

variable (h : r.Lined)

include h

variable (operand : Int) (index : Int)

theorem peek : OneLine (r.peek index).text := by
  unfold Registers.peek
  cases hslot : r.slots.get? index with
  | none => exact .append (by decide) (oneLine_toString_int index)
  | some slot => exact h.slots index slot hslot

theorem set {slot : Slot} (hslot : OneLine slot.text) (index : Int) : (r.set index slot).Lined :=
  ⟨Table.forall_insert hslot h.slots, h.anomalies⟩

theorem clear : (r.clear index).Lined := by
  refine ⟨fun k held hk => ?_, h.anomalies⟩
  rw [show (r.clear index).slots.get? k = _ from Table.get?_erase _ _ _] at hk
  split at hk
  · cases hk
  · exact h.slots k held hk

theorem lookUp : (r.lookUp index).Lined := by
  unfold Registers.lookUp
  split
  · exact h
  · refine ⟨h.slots, forall_mem_append.mpr ⟨h.anomalies, forall_mem_singleton.mpr ?_⟩⟩
    exact .append (.append (.append (.append (by decide) (oneLine_toString_int _)) (by decide))
      (oneLine_toString_nat _)) (by decide)

theorem touchOperand : (r.touchOperand operand).Lined := by
  unfold Registers.touchOperand
  split
  · exact h.lookUp _
  · exact ⟨h.slots, h.anomalies⟩

theorem peekOperand : OneLine (r.peekOperand operand).text := by
  unfold Registers.peekOperand
  split
  · exact r.oneLine_constantSlot _
  · exact h.peek operand

end Registers.Lined

/-- No text that a frame holds has a line break. -/
structure Frame.Lined (f : Frame) : Prop where
  name : OneLine f.name
  params : ∀ t ∈ f.params, OneLine t
  captured : ∀ t ∈ f.captured, OneLine t
  registers : f.registers.Lined
  locals : ∀ reg name, f.locals.get? reg = some name → OneLine name
  objects : ∀ name ∈ f.objectLocals.values, OneLine name
  body : AllLined f.body

/-- What was recovered so far is lined. -/
theorem Frame.Lined.routine {f : Frame} (h : f.Lined) : Throughout RoutineOf.Lined f.routine :=
  .intro ⟨⟨fun s hs => (h.body s hs).printable, fun s hs => (h.body s hs).texts, h.captured⟩,
    h.name, h.params⟩ fun s hs => (h.body s hs).inner

/-- A state of the walk of a function with upvalues that were passed to it: it has the code, the
constants and the upvalues of the function, and no text that it holds has a line break. -/
structure Walk.Lined (p : Prototype) (passed : List Upvalue) (w : Walk) : Prop where
  code : w.frame.code = p.instructions
  constants : w.frame.registers.constants = p.constants
  upvalues : w.frame.upvalues = Frame.allUpvalues passed p.upvalueNames
  frame : w.frame.Lined
  scene : w.context.scene.Registered

/-- A stop whose message has no line break, with a routine that is lined, if it has one. -/
def Stop.Lined : Stop → Prop
  | .failed failure recovered =>
    failure.Lined ∧ ∀ r, recovered = some r → Throughout RoutineOf.Lined r
  | _ => True

instance : Stop.Covers Stop.Lined where
  fault stop h := by
    cases stop with
    | failed => exact h.elim
    | scene | option | host => trivial

namespace Walking

/-- An action keeps a walk lined, and its answer has `P`. -/
def Lines {α : Type} (p : Prototype) (passed : List Upvalue) (m : Walking α)
    (P : α → Prop := fun _ => True) : Prop :=
  ∀ w : Walk, w.Lined p passed →
    After (fun a w' => w'.Lined p passed ∧ P a) (fun stop w' => w'.Lined p passed ∧ stop.Lined)
      (m w)

variable {p : Prototype} {passed : List Upvalue}

section

variable {α β : Type} {P : α → Prop} {Q : β → Prop}

theorem lines_bind {m : Walking α} {f : α → Walking β} (hm : Lines p passed m P)
    (hf : ∀ a, P a → Lines p passed (f a) Q) : Lines p passed (m >>= f) Q :=
  fun w hw => after_seq (hm w hw) fun a w' h => hf a h.2 w' h.1

theorem lines_seq {m : Walking α} {f : α → Walking β} (hm : Lines p passed m P)
    (hf : ∀ {a}, Lines p passed (f a) Q) : Lines p passed (m >>= f) Q :=
  lines_bind hm fun _ _ => hf

theorem lines_pure {a : α} (h : P a) : Lines p passed (pure a : Walking α) P :=
  fun _ hw => ⟨hw, h⟩

theorem lines_done (a : α) : Lines p passed (pure a : Walking α) := lines_pure trivial

theorem lines_ite {c : Prop} [Decidable c] {m m' : Walking α} (h : Lines p passed m P)
    (h' : Lines p passed m' P) : Lines p passed (if c then m else m') P := by
  split
  · exact h
  · exact h'

theorem lines_get : Lines p passed (get : Walking Walk) (Walk.Lined p passed) :=
  fun _ hw => ⟨hw, hw⟩

theorem lines_modify {f : Walk → Walk} (hf : ∀ w : Walk, w.Lined p passed → (f w).Lined p passed) :
    Lines p passed (modify f : Walking Unit) :=
  fun w hw => ⟨hf w hw, trivial⟩

theorem lines_throw {stop : Stop} (h : stop.Lined) : Lines p passed (throw stop : Walking α) P :=
  fun _ hw => ⟨hw, h⟩

theorem askHost_lines (fault? : Host → Walk → Option HostFault) : Lines p passed (askHost fault?) :=
  fun _ hw => after_askHost ⟨hw, trivial⟩ fun _ _ => ⟨hw, trivial⟩

theorem keepingFrame_lines {m : Walking α} (hm : Lines p passed m P) :
    Lines p passed (keepingFrame m) P := by
  intro w hw
  have h := hm w hw
  unfold keepingFrame
  match m w, h with
  | .ok _ _, h => exact h
  | .error _ _, h => exact ⟨{ hw with scene := h.1.scene }, h.2⟩

end

/-! ### The scene -/

theorem simulating_lines : Lines p passed simulating := fun _ hw => ⟨hw, trivial⟩

variable {i : Instruction} {comment : Option String} {slot : Slot} {α : Type}

theorem query_lines {P : α → Prop} {f : Scene → Except Scene.Fault α}
    (hf : ∀ s : Scene, s.Registered → ∀ a, f s = .ok a → P a) : Lines p passed (query f) P :=
  fun _ hw => after_query (fun a ha => ⟨hw, hf _ hw.scene a ha⟩) fun _ => ⟨hw, trivial⟩

theorem ask_lines (f : Scene → Except Scene.Fault α) : Lines p passed (query f) :=
  query_lines fun _ _ _ _ => trivial

/-- A change of the scene by which it only grows. -/
theorem modifyScene_lines {P : α → Prop} {f : Scene → Except Scene.Fault (α × Scene)}
    (hf : ∀ (s : Scene) a s', f s = .ok (a, s') → s.Grows s' ∧ (s.Registered → P a)) :
    Lines p passed (modifyScene f) P := by
  intro w hw
  refine after_bind (after_query ?_ fun _ => ⟨hw, trivial⟩)
  rintro ⟨a, s'⟩ ha
  obtain ⟨hgrows, hP⟩ := hf _ a s' ha
  exact ⟨{ hw with scene := hw.scene.grows hgrows }, hP hw.scene⟩

theorem uniqueName_lines (hint : String) : Lines p passed (uniqueName hint) OneLine := by
  refine modifyScene_lines ?_
  rintro s _ _ ⟨⟩
  refine ⟨s.uniqueName_grows hint, fun _ => oneLine_of_isWord ?_⟩
  exact NameSupply.isWord_candidate (NameSupply.isWord_sanitize hint) _

/-! ### Registers -/

/-- The registers may change as long as they keep their constants and stay lined. -/
theorem modifyRegisters_lines {f : Registers → Registers}
    (hf : ∀ r : Registers, r.Lined → (f r).Lined ∧ (f r).constants = r.constants) :
    Lines p passed (modifyRegisters f) :=
  lines_modify fun _ hw =>
    { hw with
      constants := (hf _ hw.frame.registers).2.trans hw.constants
      frame := { hw.frame with registers := (hf _ hw.frame.registers).1 } }

theorem setRegister_lines (hslot : OneLine slot.text) (index : Int) :
    Lines p passed (setRegister index slot) :=
  modifyRegisters_lines fun _ hr => ⟨hr.set hslot index, rfl⟩

theorem setRegisters_lines (hslot : OneLine slot.text) (indexes : List Int) :
    Lines p passed (setRegisters slot indexes) := by
  induction indexes with
  | nil => exact lines_done _
  | cons index rest ih => exact lines_seq (setRegister_lines hslot index) ih

variable (ambiguous : Bool) (name : String) (indexes : List Int) (reg : Int) (registers : List Int)
  (index : Int)

theorem clearRegisters_lines : Lines p passed (clearRegisters indexes) := by
  refine modifyRegisters_lines fun r hr => ?_
  induction indexes generalizing r with
  | nil => exact ⟨hr, rfl⟩
  | cons index rest ih => exact ih (r.clear index) (hr.clear index)

theorem lookUp_lines : Lines p passed (modifyRegisters (·.lookUp index)) :=
  modifyRegisters_lines fun r hr => ⟨hr.lookUp index, r.lookUp_constants index⟩

/-- What a register holds is lined, and reading it leaves the walk lined. -/
theorem readRegister_lines : Lines p passed (readRegister index) fun slot => OneLine slot.text :=
  lines_bind (askHost_lines _) fun _ _ _ hw => ⟨{ hw with frame := { hw.frame with
    registers := ⟨hw.frame.registers.slots, hw.frame.registers.anomalies⟩ } },
    hw.frame.registers.peek index⟩

theorem readOperand_lines (operand : Int) :
    Lines p passed (readOperand operand) fun slot => OneLine slot.text := by
  refine lines_bind (askHost_lines _) fun _ _ w hw => ?_
  have hconstants : (w.frame.registers.touchOperand operand).constants =
      w.frame.registers.constants := by
    unfold Registers.touchOperand
    split
    · exact w.frame.registers.lookUp_constants _
    · rfl
  exact ⟨{ hw with
    constants := hconstants.trans hw.constants
    frame := { hw.frame with registers := hw.frame.registers.touchOperand operand } },
    hw.frame.registers.peekOperand operand⟩

theorem readText_lines : Lines p passed (readText index) OneLine :=
  lines_bind (readRegister_lines index) fun _ hslot => lines_pure hslot

theorem readTexts_lines :
    Lines p passed (readTexts indexes) fun texts => ∀ t ∈ texts, OneLine t := by
  induction indexes with
  | nil => exact lines_pure (forall_mem_nil _)
  | cons index rest ih =>
    refine lines_bind (readText_lines index) fun text htext => ?_
    exact lines_bind ih fun texts htexts =>
      lines_pure (forall_mem_cons.mpr ⟨htext, htexts⟩)

theorem emit_lines {s : Statement} (hs : s.Lined) : Lines p passed (emit s) :=
  lines_modify fun _ hw =>
    { hw with frame := { hw.frame with body := hw.frame.body.append (allLined_one hs) } }

theorem emitBinding_lines {s : Statement} (hs : s.Lined) (registers : List Int) :
    Lines p passed (emitBinding registers s) :=
  lines_modify fun _ hw =>
    { hw with frame := { hw.frame with body := hw.frame.body.append (allLined_one hs) } }

theorem emitBlocks_lines {f : Blocks → List Statement × Blocks} (hf : ∀ b, AllLined (f b).1) :
    Lines p passed (emitBlocks f) :=
  fun _ hw => ⟨{ hw with frame := { hw.frame with body := hw.frame.body.append (hf _) } }, trivial⟩

theorem report_lines (code : Code) (message : String) (index : Int) :
    Lines p passed (report code message index) :=
  lines_modify fun _ hw => { hw with frame := { hw.frame with } }

/-! ### Locals -/

theorem localOf?_lines : Lines p passed (localOf? reg)
      fun found => ∀ name, found = some name → OneLine name :=
  fun _ hw => ⟨hw, fun name hname => hw.frame.locals reg name hname⟩

theorem numberedName_lines : Lines p passed (numberedName reg) OneLine :=
  lines_seq (askHost_lines _) <| uniqueName_lines _

theorem chooseName_lines (value : Slot) : Lines p passed (chooseName reg value) OneLine := by
  refine lines_bind simulating_lines fun simulated _ => ?_
  cases value.handle with
  | none => exact numberedName_lines reg
  | some handle =>
    cases simulated with
    | false => exact numberedName_lines reg
    | true =>
      refine lines_bind (query_lines (f := (·.nameOf handle)) (P := OneLine)
        fun _ hs _ hname => hs.oneLine_nameOf hname) fun display hdisplay => ?_
      refine lines_seq lines_get ?_
      exact lines_ite (uniqueName_lines display) (lines_pure hdisplay)

/-- The locals that hold objects may change as long as they are lined. -/
theorem modifyObjects_lines {f : Table Nat String → Table Nat String}
    (hf : ∀ t : Table Nat String, (∀ name ∈ t.values, OneLine name) →
      ∀ name ∈ (f t).values, OneLine name) :
    Lines p passed (modify fun w : Walk =>
      { w with frame.objectLocals := f w.frame.objectLocals }) :=
  lines_modify fun _ hw =>
    { hw with frame := { hw.frame with objects := hf _ hw.frame.objects } }

theorem forgetObjects_lines : Lines p passed (forgetObjects name) := by
  refine modifyObjects_lines (f := (·.filterValues (· != name))) fun t ht other hother =>
    ht other ?_
  obtain ⟨e, he, rfl⟩ := mem_map.mp hother
  exact mem_map.mpr ⟨e, (mem_filter.mp he).1, rfl⟩

theorem takeLocal_lines {choose : Walking String} (hchoose : Lines p passed choose OneLine)
    (reg : Int) :
    Lines p passed (takeLocal reg choose) fun taken => OneLine taken.1 := by
  refine lines_bind (localOf?_lines reg) fun found hfound => ?_
  cases found with
  | some name =>
    exact lines_seq (forgetObjects_lines name) <| lines_pure (hfound name rfl)
  | none =>
    refine lines_bind hchoose fun name hname => ?_
    refine lines_bind (P := fun _ => True) (lines_modify fun w hw =>
      { hw with frame := { hw.frame with
        locals := Table.forall_insert hname hw.frame.locals } }) ?_
    exact fun _ _ => lines_pure hname

theorem bindLocal_lines {value : Slot} (hvalue : OneLine value.text) (reg : Int)
    (hcomment : ∀ t ∈ comment.toList, OneLine t) :
    Lines p passed (bindLocal reg value comment) OneLine := by
  refine lines_bind (takeLocal_lines (chooseName_lines reg value) reg) fun taken htaken => ?_
  have hassign := lined_assign htaken hvalue taken.2 hcomment
  refine lines_bind (emitBinding_lines hassign _) fun _ _ => ?_
  have hrenamed : OneLine (value.renamed taken.1).text := htaken
  refine lines_seq (setRegister_lines hrenamed reg) ?_
  cases value.handle with
  | none => exact lines_pure htaken
  | some handle =>
    refine lines_seq (modifyObjects_lines (f := (·.insert handle taken.1)) ?_) <| lines_pure htaken
    intro t ht other hother
    rcases Table.mem_values_insert hother with rfl | hother
    · exact htaken
    · exact ht other hother

theorem bindTargets_lines : Lines p passed (bindTargets registers)
      fun bound => ∀ t ∈ bound.1, OneLine t := by
  induction registers with
  | nil => exact lines_pure (forall_mem_nil _)
  | cons reg rest ih =>
    refine lines_bind (takeLocal_lines (numberedName_lines reg) reg) fun taken htaken => ?_
    refine lines_seq (setRegister_lines (Slot.oneLine_expression htaken) reg) ?_
    exact lines_bind ih fun more hmore => lines_pure (forall_mem_cons.mpr ⟨htaken, hmore⟩)

theorem bindMany_lines {expression : String} (h : OneLine expression)
    (hcomment : ∀ t ∈ comment.toList, OneLine t) :
    Lines p passed (bindMany registers expression comment) :=
  lines_bind (keepingFrame_lines (bindTargets_lines registers)) fun bound hbound =>
    emitBinding_lines (lined_assign (oneLine_commaList _ hbound) h bound.2 hcomment) _

theorem bindPlain_lines {value : Slot} (hvalue : OneLine value.text) (reg : Int) :
    Lines p passed (bindLocal reg value none) OneLine :=
  bindLocal_lines hvalue reg (forall_mem_nil _)

theorem ensureNamed_lines : Lines p passed (ensureNamed reg) OneLine := by
  refine lines_bind (readRegister_lines reg) fun value hvalue => ?_
  refine lines_bind (localOf?_lines reg) fun found hfound => ?_
  cases found with
  | none => exact bindPlain_lines hvalue reg
  | some name => exact lines_ite (lines_pure (hfound name rfl)) (bindPlain_lines hvalue reg)

theorem flushUnread_lines : Lines p passed (flushUnread reg) := by
  refine lines_bind lines_get fun w hw => lines_ite ?_ (lines_done _)
  exact lines_seq (bindPlain_lines (hw.frame.registers.peek reg) reg) (lines_done _)

theorem flushAll_lines : Lines p passed (flushAll registers) := by
  induction registers with
  | nil => exact lines_done _
  | cons reg rest ih => exact lines_seq (flushUnread_lines reg) ih

/-- The upvalue at an index is one of which it is known that its name has no line break. -/
theorem upvalueAt_lines {index : Int} (h : OneLine (p.upvalueName passed index)) :
    Lines p passed (upvalueAt index) fun u => OneLine u.name := by
  intro w hw
  have hname := upvalueAt_name hw.upvalues index
  -- The upvalue gets listed, so that the walk stays lined rests on its name.
  have hlined : After (fun u w' => OneLine u.name → w'.Lined p passed)
      (fun _ w' => w'.Lined p passed) (upvalueAt index w) := by
    refine after_bind (after_askHost (after_state ?_) fun _ _ => hw)
    dsimp only
    generalize (knownUpvalue? w.frame.upvalues index).getD _ = upvalue
    by_cases hnew : (!w.frame.captured.contains upvalue.name) = true
    · rw [if_pos hnew]
      exact after_bind (after_modify fun hone => { hw with frame := { hw.frame with
        captured := forall_mem_append.mpr ⟨hw.frame.captured, forall_mem_singleton.mpr hone⟩ } })
    · rw [if_neg hnew]
      exact fun _ => hw
  refine after_mono (after_and hname hlined) ?_ fun stop _ h => ⟨h.2, Stop.Covers.fault stop h.1⟩
  rintro u w' ⟨hu, hw'⟩
  rw [← hu] at h
  exact ⟨hw' h, h⟩

theorem servesHandle_lines (handle : Option Nat) : Lines p passed (servesHandle handle) :=
  lines_seq simulating_lines <| lines_ite (ask_lines _) (lines_done _)

theorem namesHandle_lines (text : String) (handle : Option Nat) :
    Lines p passed (namesHandle text handle) := by
  refine lines_bind simulating_lines fun simulated _ => ?_
  cases handle with
  | none => exact lines_done _
  | some handle =>
    cases simulated with
    | false => exact lines_done _
    | true => exact lines_seq (ask_lines _) (lines_done _)

theorem holdObject_lines {text : String} (h : OneLine text) (reg : Int) (handle : Option Nat) :
    Lines p passed (holdObject reg text handle) := by
  refine lines_bind lines_get fun w hw => ?_
  have hset : Lines p passed (setRegister reg (.object text handle)) :=
    setRegister_lines (Slot.oneLine_object h handle) reg
  dsimp only
  cases hfound : handle.bind w.frame.objectLocals.get? with
  | some name =>
    obtain ⟨key, -, hname⟩ := Option.bind_eq_some_iff.mp hfound
    -- The object is named by its local, and not by the text.
    have hheld := hw.frame.objects name (Table.mem_values hname)
    exact setRegister_lines (Slot.oneLine_object hheld handle) reg
  | none =>
    refine lines_seq (servesHandle_lines handle) <| lines_ite ?_ hset
    refine lines_seq (namesHandle_lines text handle) <| lines_ite hset ?_
    exact lines_seq (bindPlain_lines (Slot.oneLine_object h handle) reg) <| lines_done _

/-! ### Loading and storing -/

theorem isLongConstant_lines : Lines p passed (isLongConstant index) := by
  refine lines_bind lines_get fun w _ => ?_
  cases w.frame.registers.constantString? index with
  | some s =>
    exact fun _ hw => after_queryStrings (fun _ _ => ⟨hw, trivial⟩) fun _ _ => ⟨hw, trivial⟩
  | none => exact lines_done _

theorem loadConstant_lines (i : Instruction) : Lines p passed (loadConstant i) := by
  refine lines_seq (flushUnread_lines i.a) <| lines_seq (askHost_lines _) ?_
  refine lines_bind lines_get fun w _ => lines_seq (lookUp_lines i.b) ?_
  refine lines_bind (isLongConstant_lines i.b) fun _ _ => ?_
  have hslot := w.frame.registers.oneLine_constantSlot i.b
  refine lines_ite (lines_seq (bindPlain_lines hslot i.a) <| lines_done _) ?_
  exact modifyRegisters_lines fun _ hr =>
    ⟨⟨(hr.set hslot i.a).slots, (hr.set hslot i.a).anomalies⟩, rfl⟩

theorem getUpvalue_lines (h : OneLine (p.upvalueName passed i.b)) :
    Lines p passed (getUpvalue i) := by
  refine lines_bind (upvalueAt_lines h) fun u hu => ?_
  refine lines_bind (bindPlain_lines (Slot.oneLine_expression hu) i.a) fun name hname => ?_
  exact lines_ite (setRegister_lines (Slot.oneLine_object hname _) i.a) (lines_done _)

theorem setUpvalue_lines (h : OneLine (p.upvalueName passed i.b)) :
    Lines p passed (setUpvalue i) := by
  refine lines_bind (upvalueAt_lines h) fun u hu => ?_
  exact lines_bind (readText_lines i.a) fun value hvalue =>
    emit_lines (lined_assign hu hvalue false (forall_mem_nil _))

theorem globalName_lines :
    Lines p passed (globalName index) fun name => name = p.globalName index := by
  intro w hw
  have hname := globalName_after hw.constants index
  have hlined : Lines p passed (globalName index) := by
    refine lines_seq (askHost_lines _) <| lines_bind lines_get fun w _ => ?_
    refine lines_seq (lookUp_lines index) ?_
    cases w.frame.registers.constant? index with
    | none => exact lines_done _
    | some c => cases c <;> exact lines_done _
  exact after_mono (after_and (hlined w hw) hname) (fun _ _ h => ⟨h.1.1, h.2⟩) fun _ _ h => h.1

theorem readGlobal_lines : Lines p passed (readGlobal name) fun found =>
      ∀ reading, found = some reading → OneLine reading.text := by
  refine lines_seq simulating_lines <| lines_ite ?_ (lines_pure nofun)
  refine modifyScene_lines fun s found s' hread => ?_
  have hgrows := s.readGlobal_grows name
  have htext := Scene.oneLine_readGlobal (s := s) name
  rw [Except.ok.inj hread] at hgrows htext
  exact ⟨hgrows, fun _ => htext⟩

theorem holdGlobal_lines {name : String} (h : OneLine (Lua.globalText name)) (reg : Int) :
    Lines p passed (holdGlobal reg name) := by
  refine lines_bind (readGlobal_lines name) fun found hfound => ?_
  cases found with
  | none => exact setRegister_lines (Slot.oneLine_expression h) reg
  | some reading =>
    have htext := hfound reading rfl
    refine lines_seq (ask_lines _) <| lines_ite (holdObject_lines htext reg _) ?_
    exact setRegister_lines (Slot.oneLine_object htext _) reg

theorem getGlobal_lines (h : OneLine (Lua.globalText (p.globalName i.b))) :
    Lines p passed (getGlobal i) := by
  refine lines_bind (globalName_lines i.b) fun name hname => ?_
  rw [← hname] at h
  exact holdGlobal_lines h i.a

theorem setGlobal_lines (h : OneLine (Lua.globalText (p.globalName i.b))) :
    Lines p passed (setGlobal i) := by
  refine lines_bind (globalName_lines i.b) fun name hname => ?_
  rw [← hname] at h
  exact lines_bind (readText_lines i.a) fun value hvalue =>
    emit_lines (lined_assign h hvalue false (forall_mem_nil _))

theorem holdField_lines {base key : Slot} (hbase : OneLine base.text) (hkey : OneLine key.text)
    (reg : Int) : Lines p passed (holdField reg base key) := by
  refine lines_bind simulating_lines fun simulated _ => ?_
  have hplain : Lines p passed (holdObject reg (Lua.fieldAccess base.text key.text) none) :=
    holdObject_lines (Lua.oneLine_fieldAccess hbase hkey) reg none
  cases base.handle with
  | none => exact hplain
  | some handle =>
    cases simulated with
    | false => exact hplain
    | true =>
      refine lines_bind (P := fun reading : Scene.Reading => OneLine reading.text)
        (modifyScene_lines fun s reading s' hread => ⟨Scene.read_grows hread, fun _ =>
          Scene.oneLine_read hread hkey hbase⟩) fun reading hreading => ?_
      exact holdObject_lines hreading reg _

theorem getField_lines (i : Instruction) : Lines p passed (getField i) := by
  refine lines_bind (readRegister_lines i.b) fun _ hbase => ?_
  exact lines_bind (readOperand_lines i.c) fun _ hkey => holdField_lines hbase hkey i.a

theorem setField_lines (i : Instruction) : Lines p passed (setField i) := by
  refine lines_bind (readText_lines i.a) fun _ htarget => ?_
  refine lines_bind (readOperand_lines i.b) fun _ hkey => ?_
  exact lines_bind (readOperand_lines i.c) fun _ hvalue => emit_lines (lined_assign
    (Lua.oneLine_fieldAccess htarget hkey) hvalue false (forall_mem_nil _))

theorem oneLine_methodOf? {key : Slot} (hkey : OneLine key.text) {method : String}
    (h : methodOf? key = some method) : OneLine method := by
  unfold methodOf? at h
  dsimp only at h
  split at h
  · split at h
    · cases h
      refine oneLine_ofList.mpr fun hmem => hkey ?_
      exact mem_of_mem_drop ((dropLast_sublist _).mem hmem)
    · cases h
  · cases h

theorem selfIndex_lines (i : Instruction) : Lines p passed (selfIndex i) := by
  refine lines_bind (readRegister_lines i.b) fun receiver hreceiver => ?_
  refine lines_bind (readOperand_lines i.c) fun key hkey => ?_
  refine lines_seq (setRegister_lines hreceiver _) <| setRegister_lines ?_ i.a
  cases hmethod : methodOf? key with
  | none => exact Lua.oneLine_fieldAccess hreceiver hkey
  | some method =>
    exact .append (.append hreceiver (by decide)) (oneLine_methodOf? hkey hmethod)

/-! ### Operators -/

theorem holdTerm_lines {t : Term} (h : OneLine t.text) (reg : Int) :
    Lines p passed (holdTerm reg t) := by
  refine setRegister_lines ?_ reg
  cases t.value <;> exact h

theorem oneLine_termOf (h : OneLine slot.text) (simulated : Bool) :
    OneLine (termOf simulated slot).text := by
  cases simulated <;> exact h

theorem arith_lines (op : ArithOp) (i : Instruction) : Lines p passed (arith op i) := by
  refine lines_bind (readOperand_lines i.b) fun _ hleft => ?_
  refine lines_bind (readOperand_lines i.c) fun _ hright => ?_
  exact lines_bind simulating_lines fun simulated _ => holdTerm_lines
    (Term.oneLine_combine op (oneLine_termOf hleft simulated) (oneLine_termOf hright simulated)) i.a

theorem negate_lines (i : Instruction) : Lines p passed (negate i) := by
  refine lines_bind (readRegister_lines i.b) fun _ hoperand => ?_
  exact lines_bind simulating_lines fun simulated _ =>
    holdTerm_lines (Term.oneLine_negate (oneLine_termOf hoperand simulated)) i.a

theorem unary_lines {sign : String} (hsign : OneLine sign) (i : Instruction) :
    Lines p passed (unary sign i) :=
  lines_bind (readRegister_lines i.b) fun _ hoperand =>
    setRegister_lines (Slot.oneLine_expression (.append hsign (Lua.oneLine_wrap hoperand))) i.a

theorem concat_lines (i : Instruction) : Lines p passed (concat i) := by
  refine lines_bind (readTexts_lines _) fun parts hparts =>
    setRegister_lines (Slot.oneLine_expression ?_) i.a
  refine oneLine_join (by decide) fun t ht => ?_
  obtain ⟨part, hpart, rfl⟩ := mem_map.mp ht
  exact Lua.oneLine_wrap (hparts part hpart)

/-! ### Calls -/

theorem argumentRegisters_lines (base count : Int) :
    Lines p passed (argumentRegisters base count) := by
  have hlisted : ∀ first last, Lines p passed
      (do return (← listed first last, false) : Walking (List Int × Bool)) := fun _ _ =>
    lines_seq (lines_seq (askHost_lines _) <| lines_done _) (lines_done _)
  refine lines_ite (hlisted _ _) (lines_bind lines_get fun w _ => ?_)
  dsimp only
  cases w.frame.top with
  | none => exact lines_done _
  | some top =>
    refine lines_ite ?_ (lines_done _)
    refine lines_bind (lines_modify fun _ hw => { hw with frame := { hw.frame with } }) ?_
    exact fun _ _ => hlisted _ _

theorem reportGuess_lines (message : String) (index : Nat) :
    Lines p passed (reportGuess ambiguous message index) :=
  lines_ite (report_lines _ _ _) (lines_done _)

theorem oneLine_guessComment : ∀ t ∈ (guessComment ambiguous).toList, OneLine t := by
  cases ambiguous with
  | false => exact forall_mem_nil _
  | true => exact forall_mem_singleton.mpr (by decide)

theorem makeCall_lines {site : Scene.CallSite} (hcallee : OneLine site.callee)
    (hargs : ∀ t ∈ site.args, OneLine t) :
    Lines p passed (makeCall site) Scene.CallOutcome.Lined := by
  refine lines_seq simulating_lines <| lines_ite ?_ (lines_pure ⟨hcallee, hargs⟩)
  exact modifyScene_lines fun s outcome s' hcall =>
    ⟨Scene.call_grows hcall, fun _ => Scene.lined_call hcall hcallee hargs⟩

theorem holdsOpen_lines (i : Instruction) (index : Nat) : Lines p passed (holdsOpen i index) := by
  refine lines_ite (lines_bind lines_get fun w _ => ?_) (lines_done _)
  cases w.frame.code[index + 1]? <;> exact lines_done _

theorem placeResults_lines {outcome : Scene.CallOutcome} (houtcome : outcome.Lined)
    (i : Instruction) (index : Nat) (hcomment : ∀ t ∈ comment.toList, OneLine t) :
    Lines p passed (placeResults i index outcome comment) := by
  have hcall := Lua.oneLine_callText houtcome.1 houtcome.2
  have hslot := Slot.oneLine_object hcall outcome.handle
  refine lines_ite ?_ (lines_ite (bindMany_lines _ hcall hcomment) ?_)
  · refine lines_bind (bindLocal_lines hslot i.a hcomment) ?_
    exact fun _ _ => lines_done _
  · refine lines_seq (holdsOpen_lines i index) <| lines_ite ?_ ?_
    · refine lines_bind (setRegister_lines hslot i.a) ?_
      exact fun _ _ => lines_modify fun _ hw => { hw with frame := { hw.frame with } }
    · refine lines_bind (emit_lines (lined_call houtcome.1 houtcome.2 hcomment)) ?_
      refine fun _ _ => lines_seq (localOf?_lines i.a) ?_
      exact lines_ite (clearRegisters_lines _) (lines_done _)

theorem call_lines (i : Instruction) (index : Nat) : Lines p passed (call i index) := by
  refine lines_bind (readRegister_lines i.a) fun callee hcallee => ?_
  refine lines_seq (argumentRegisters_lines i.a i.b) ?_
  refine lines_bind (readTexts_lines _) fun args hargs => ?_
  refine lines_seq (reportGuess_lines _ _ _) ?_
  refine lines_bind (makeCall_lines hcallee hargs) fun outcome houtcome => ?_
  exact lines_seq (clearRegisters_lines _) <|
    placeResults_lines houtcome i index (oneLine_guessComment _)

theorem ret_lines (i : Instruction) (index : Nat) : Lines p passed (ret i index) := by
  refine lines_ite (lines_seq lines_get ?_) (lines_ite ?_ ?_)
  · exact lines_ite (emit_lines (lined_ret (forall_mem_nil _) (forall_mem_nil _))) (lines_done _)
  · exact lines_bind (readTexts_lines _) fun _ hvalues =>
      emit_lines (lined_ret hvalues (forall_mem_nil _))
  · refine lines_seq (argumentRegisters_lines _ _) ?_
    refine lines_bind (readTexts_lines _) fun _ hvalues => ?_
    exact lines_seq (reportGuess_lines _ _ _) <|
      emit_lines (lined_ret hvalues (oneLine_guessComment _))

/-! ### Control flow -/

theorem compare_lines (rel : Relation) (i : Instruction) (index : Nat) :
    Lines p passed (compare rel i index) := by
  refine lines_bind lines_get fun w _ => ?_
  cases hpair : pairedJump w.frame.code index with
  | error failure => exact lines_throw ⟨Failure.lined_of_pairedJump hpair, nofun⟩
  | ok jump =>
    refine lines_bind (readOperand_lines i.b) fun left hleft => ?_
    refine lines_bind (readOperand_lines i.c) fun right hright => ?_
    refine lines_bind simulating_lines fun simulated _ => emitBlocks_lines fun b => ?_
    refine allLined_one (b.openConditional_lined index jump.b ?_)
    split
    · exact oneLine_negatedIf i.a (Term.oneLine_compare rel hleft hright)
    · exact oneLine_conditionText i.a rel hleft hright

theorem unknown_lines (i : Instruction) (index : Nat) : Lines p passed (unknown i index) := by
  refine lines_seq (askHost_lines _) <|
    lines_seq (emit_lines (lined_remark ?_)) <| report_lines _ _ _
  exact .append (.append (.append (.append (.append (.append (.append (.append (by decide)
    i.oneLine_mnemonic) (by decide)) (oneLine_toString_int _)) (by decide))
    (oneLine_toString_int _)) (by decide)) (oneLine_toString_int _)) (by decide)

end Walking

end LuaRecovery

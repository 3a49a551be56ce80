/-
Pieces of a walk.

A walk of structured code is cut into pieces that each go from one index to another:
`Leads` has the statements that come out in between.  A piece is an instruction that is
walked, or a marker that is due.  The instructions are those of structured programs: an
assignment, a compare with its jump, and a jump.  None of them writes a register, so what a
piece changes is the body and the blocks.
-/
import LuaRecovery.Proofs.Shapes
import LuaRecovery.Proofs.TidyBlocks
import LuaRecovery.Proofs.WellNested

namespace LuaRecovery

/-- No limit stops a walk. -/
structure Limits.Unlimited (l : Limits) : Prop where
  budget : l.budget = none
  cancel : ∀ n, l.cancel n = false
  host : l.host.Boundless

/-- The walk with other blocks and more statements. -/
def Walk.grow (w : Walk) (b : Blocks) (nodes : List Statement) : Walk :=
  { w with frame.blocks := b, frame.body := w.frame.body ++ nodes }

theorem Walk.grow_grow (w : Walk) (b b' : Blocks) (xs ys : List Statement) :
    (w.grow b xs).grow b' ys = w.grow b' (xs ++ ys) := by
  simp only [grow, List.append_assoc]

theorem Walk.grow_nil (w : Walk) : w.grow w.frame.blocks [] = w := by
  simp only [grow, List.append_nil]

namespace Walking

/-! ### Running actions -/

variable {w : Walk}

theorem run_modify {β : Type} (g : Walk → Walk) (f : Unit → Walking β) :
    (modify g >>= f) w = f () (g w) := rfl

theorem pollCaller_run (h : w.context.limits.Unlimited) (index : Nat) :
    pollCaller index w = .ok () { w with context.limits := w.context.limits.poll } := by
  have hnone : w.context.limits.cancelFailure? index = none := by
    rw [Limits.cancelFailure?, h.cancel]
    rfl
  unfold pollCaller
  rw [run_get]
  simp only [run_modify, hnone]
  rfl

theorem countInstruction_run (h : w.context.limits.Unlimited) (index : Nat) :
    countInstruction index w = .ok () { w with context.limits := w.context.limits.consume } := by
  have hnone : w.context.limits.consume.budgetFailure? index = none := by
    rw [Limits.budgetFailure?, Limits.budgetBreach?, Limits.consume, h.budget]
    rfl
  unfold countInstruction
  rw [run_get]
  simp only [run_modify, hnone]
  exact run_bind ((barring_spell _ _).eq (by exact h.host)) _

theorem emitDue_run (index : Int) : emitDue index w =
      .ok () (w.grow (w.frame.blocks.due index).2 (w.frame.blocks.due index).1) := rfl

/-- Nothing was noted, so there is nothing to report. -/
theorem reportAnomalies_run (hregisters : w.frame.registers.anomalies = [])
    (hblocks : w.frame.blocks.anomalies = []) (index : Int) :
    reportAnomalies index w = .ok () w := by
  obtain ⟨frame, context⟩ := w
  obtain ⟨code, name, path, anonymous, vararg, params, upvalues, registers, blocks⟩ := frame
  obtain ⟨constants, slots, unread, anomalies⟩ := registers
  obtain ⟨headers, closers, stack, pending, notes, nextId⟩ := blocks
  cases hregisters
  cases hblocks
  rfl

/-- The walk at the instruction at an index, once what is due there has come out. -/
def atInstruction (index : Nat) (w : Walk) : Walk :=
  { w.grow (w.frame.blocks.due index).2 (w.frame.blocks.due index).1 with
    context.limits := w.context.limits.poll.consume }

variable {w' : Walk} {children : List Child} {i : Instruction} {index : Nat}

theorem run_atInstruction {β : Type} (h : w.context.limits.Unlimited) (f : Unit → Walking β) :
    (pollCaller index >>= fun _ => countInstruction index >>= fun _ => emitDue index >>= f) w =
      f () (atInstruction index w) := by
  refine (run_bind (pollCaller_run h _) _).trans ?_
  have hpolled : w.context.limits.poll.Unlimited := ⟨h.budget, h.cancel, h.host⟩
  refine (run_bind (countInstruction_run (by exact hpolled) _) _).trans ?_
  exact run_bind (emitDue_run _) _

/-- Walks that are the same at an instruction go on in the same way. -/
theorem advance_congr (h : w.context.limits.Unlimited) (h' : w'.context.limits.Unlimited)
    (hsame : atInstruction index w = atInstruction index w') :
    advance children i index w = advance children i index w' := by
  unfold advance
  rw [run_atInstruction h, run_atInstruction h', hsame]

variable {nodes : List Statement} {taken : Nat}

/-- An instruction is walked: nothing is written down before it, it is carried out, and the
instructions that it takes with it have their markers. -/
theorem advance_run {w₁ w₂ : Walk} (h : w.context.limits.Unlimited)
    (hflush : flushOverwritten i (atInstruction index w) = .ok () (atInstruction index w))
    (hstep : step children i index (atInstruction index w) = .ok taken w₁)
    (hdue : emitDueAll (range (index + 1) (index + taken - 1)) w₁ = .ok () w₂)
    (hregisters : w₂.frame.registers.anomalies = []) (hblocks : w₂.frame.blocks.anomalies = [])
    (hhost : w₂.context.limits.host.Boundless) :
    ∃ record, advance children i index w = .ok taken { w₂ with
      context := w₂.context.log record } := by
  have hlocating : locating index (step children i index) (atInstruction index w) =
      .ok taken w₁ := by
    unfold locating
    rw [hstep]
  unfold advance
  rw [run_atInstruction h, run_get, run_bind hflush, run_bind hlocating, run_bind hdue,
    run_bind (reportAnomalies_run hregisters hblocks _)]
  have htrace : traceStep index i (atInstruction index w).frame.body.length w₂ =
      .ok () { w₂ with context := _ } := run_bind ((barring_spell _ _).eq hhost) _
  exact ⟨_, run_bind htrace _⟩

theorem walkFrom_congr (hi : w.frame.code[index]? = some i) (hi' : w'.frame.code[index]? = some i)
    (h : advance children i index w = advance children i index w') (fuel : Nat) :
    walkFrom children (fuel + 1) index w = walkFrom children (fuel + 1) index w' := by
  rw [walkFrom, run_get, run_get, hi, hi']
  show EStateM.bind _ _ w = EStateM.bind _ _ w'
  unfold EStateM.bind
  rw [h]

/-! ### Pieces of a walk -/

/-- A later state of a walk in which only statements were added and the blocks changed. -/
structure Grown (w : Walk) (nodes : List Statement) (w' : Walk) : Prop where
  frame : w'.frame = { w.frame with
    blocks := w'.frame.blocks, body := w.frame.body ++ nodes }
  context : w'.context = { w.context with
    limits := w'.context.limits, trace := w'.context.trace }
  unlimited : w'.context.limits.Unlimited

theorem Grown.trans {w'' : Walk} {xs ys : List Statement} (h₁ : Grown w xs w')
    (h₂ : Grown w' ys w'') : Grown w (xs ++ ys) w'' := by
  refine ⟨?_, ?_, h₂.unlimited⟩
  · rw [h₂.frame, h₁.frame]
    simp
  · rw [h₂.context, h₁.context]

/-- The walk comes from one index to another, and statements come out in between. -/
structure Leads (children : List Child) (w : Walk) (index : Nat) (nodes : List Statement)
    (w' : Walk) (index' : Nat) : Prop extends Grown w nodes w' where
  steps : ∃ n, index + n ≤ index' ∧ ∀ fuel,
    walkFrom children (fuel + 1 + n) index w = walkFrom children (fuel + 1) index' w'

theorem Leads.refl (children : List Child) (index : Nat) (h : w.context.limits.Unlimited) :
    Leads children w index [] w index :=
  ⟨⟨by simp, rfl, h⟩, 0, by omega, fun _ => rfl⟩

theorem Leads.trans {w'' : Walk} {index' index'' : Nat} {xs ys : List Statement}
    (h₁ : Leads children w index xs w' index') (h₂ : Leads children w' index' ys w'' index'') :
    Leads children w index (xs ++ ys) w'' index'' := by
  obtain ⟨n₁, hn₁, hrun₁⟩ := h₁.steps
  obtain ⟨n₂, hn₂, hrun₂⟩ := h₂.steps
  refine ⟨h₁.toGrown.trans h₂.toGrown, n₂ + n₁, by omega, fun fuel => ?_⟩
  have hrun := hrun₁ (fuel + n₂)
  rw [show fuel + n₂ + 1 + n₁ = fuel + 1 + (n₂ + n₁) by omega,
    show fuel + n₂ + 1 = fuel + 1 + n₂ by omega] at hrun
  exact hrun.trans (hrun₂ fuel)

/-! ### The instructions of a program -/

/-- The registers once `x` is loaded. -/
def loaded : Registers :=
  { constants := [.string "x", .number 1, .string "y", .string "z"]
    slots := ⟨[(0, .expression "x")]⟩ }

/-- The walk of a code without limits, where `x` is loaded. -/
structure Steady (code : List Instruction) (w : Walk) : Prop where
  code : w.frame.code = code
  registers : w.frame.registers = loaded
  unlimited : w.context.limits.Unlimited

variable {code : List Instruction}

theorem Grown.steady (h : Grown w nodes w') (hw : Steady code w) : Steady code w' := by
  refine ⟨?_, ?_, h.unlimited⟩
  · rw [h.frame]
    exact hw.code
  · rw [h.frame]
    exact hw.registers

theorem readOperand_run (h : w.frame.registers = loaded) {operand : Int}
    (hspelled : loaded.spelledOperand operand = [])
    (hsame : loaded.touchOperand operand = loaded) :
    readOperand operand w = .ok (loaded.peekOperand operand) w := by
  refine (run_bind (spell_nothing (by rw [h, hspelled])) _).trans ?_
  show EStateM.Result.ok (w.frame.registers.peekOperand operand) { w with
    frame.registers := w.frame.registers.touchOperand operand } = _
  rw [h, hsame, ← h]

theorem readText_run (h : w.frame.registers = loaded) : readText 0 w = .ok "x" w := by
  have htext : (w.frame.registers.peek 0).text = "x" := by
    rw [h]
    rfl
  have htouch : w.frame.registers.touch 0 = w.frame.registers := by
    rw [h]
    rfl
  have hread : readRegister 0 w = .ok (w.frame.registers.peek 0) { w with
      frame.registers := w.frame.registers.touch 0 } :=
    run_bind (spell_nothing (by rw [h]; rfl)) _
  refine (run_bind hread _).trans ?_
  rw [htext, htouch]
  rfl

theorem globalName_run {index : Int} {s : String}
    (h : w.frame.registers.constant? index = some (.string s)) :
    globalName index w = .ok s w := by
  have hlookUp : w.frame.registers.lookUp index = w.frame.registers := by
    unfold Registers.lookUp
    rw [h]
  unfold globalName
  rw [run_bind (spell_nothing (by rw [Registers.spelledConstant, h]; rfl)), run_get]
  refine (run_modify _ _).trans ?_
  simp only [h, hlookUp]
  rfl

theorem step_storeY (h : w.frame.registers = loaded) : step children Shape.storeY index w =
      .ok 1 (w.grow w.frame.blocks [.assign "y" "x" false none]) := by
  have hset : setGlobal Shape.storeY w =
      .ok () (w.grow w.frame.blocks [.assign "y" "x" false none]) := by
    unfold setGlobal
    have hname : w.frame.registers.constant? 2 = some (.string "y") := by
      rw [h]
      rfl
    refine (run_bind (globalName_run hname) _).trans ((run_bind (readText_run h) _).trans ?_)
    rw [show Lua.globalText "y" = "y" by decide +kernel]
    rfl
  exact run_bind hset _

/-- A global that the scene does not know is not simulated. -/
theorem readGlobal_run {name : String} (h : ∀ s : Scene, s.readGlobal name = (none, s)) :
    readGlobal name w = .ok none w := by
  have hscene : modifyScene (fun s => .ok (s.readGlobal name)) w = .ok none w := by
    show EStateM.Result.ok (w.context.scene.readGlobal name).1 { w with
      context.scene := (w.context.scene.readGlobal name).2 } = _
    rw [h]
  refine (run_bind (show simulating w = .ok w.context.options.simulate.isOn w from rfl) _).trans ?_
  cases w.context.options.simulate.isOn with
  | false => rfl
  | true => exact hscene

theorem step_loadX (h : w.frame.registers = { constants := loaded.constants }) :
    step children Shape.loadX index w = .ok 1 { w with frame.registers := loaded } := by
  have hname : w.frame.registers.constant? 0 = some (.string "x") := by
    rw [h]
    rfl
  have hread : readGlobal "x" w = .ok none w := readGlobal_run fun s => by
    rw [Scene.readGlobal, if_neg (by decide), show Scene.aliasedService? "x" = none by decide]
  have hget : getGlobal Shape.loadX w = .ok () { w with frame.registers := loaded } := by
    unfold getGlobal
    refine (run_bind (globalName_run hname) _).trans ((run_bind hread _).trans ?_)
    show EStateM.Result.ok () { w with
      frame.registers := w.frame.registers.set 0 (.expression (Lua.globalText "x")) } = _
    rw [h, show Lua.globalText "x" = "x" by decide +kernel]
    rfl
  exact run_bind hget _

/-- The condition that a compare of a program gives. -/
def conditionOf (rel : Relation) : String := "x " ++ rel.sign ++ " 1"

theorem compare_run (h : w.frame.registers = loaded) {offset : Int} {i : Instruction}
    (rel : Relation) (hjump : w.frame.code[index + 1]? = some (Shape.jumpBy offset))
    (hi : i.a = 0 ∧ i.b = 0 ∧ i.c = 257) :
    compare rel i index w =
      .ok () (w.grow (w.frame.blocks.openConditional index offset (conditionOf rel)).2
        [(w.frame.blocks.openConditional index offset (conditionOf rel)).1]) := by
  have hpair : pairedJump w.frame.code index = .ok (Shape.jumpBy offset) := by
    rw [pairedJump, hjump]
    rfl
  unfold compare
  rw [run_get, hpair]
  simp only [hi]
  refine (run_bind (readOperand_run h rfl rfl) _).trans ?_
  refine (run_bind (readOperand_run h rfl rfl) _).trans ?_
  have hcondition : conditionText 0 rel (loaded.peekOperand 0).text
      (loaded.peekOperand 257).text = conditionOf rel := by
    cases rel <;> decide +kernel
  have hnumber : (loaded.peekOperand 0).number.isSome = false := rfl
  simp only [hnumber, hcondition, Bool.and_false, Bool.false_and]
  rfl

/-! ### Pieces of a program -/

theorem emitDueAll_run (indexes : List Int) :
    ∀ w : Walk, emitDueAll indexes w = .ok () (w.grow (w.frame.blocks.dueAll indexes).2
      (w.frame.blocks.dueAll indexes).1) := by
  induction indexes with
  | nil => exact fun w => congrArg (EStateM.Result.ok ()) w.grow_nil.symm
  | cons index rest ih =>
    intro w
    refine (run_bind (emitDue_run index) _).trans ((ih _).trans ?_)
    rw [Walk.grow_grow]
    rfl

/-- A marker that is due at an instruction may come out first. -/
theorem leads_due {b : Blocks} (children : List Child) (hw : Steady code w)
    (hi : code[index]? = some i) (h : w.frame.blocks.DueAfter index nodes b) :
    Leads children w index nodes (w.grow b nodes) index := by
  have hcode : w.frame.code[index]? = some i := by rw [hw.code, hi]
  have hsame : atInstruction index w = atInstruction index (w.grow b nodes) := by
    unfold atInstruction
    rw [h, Walk.grow_grow]
    rfl
  refine ⟨⟨rfl, rfl, hw.unlimited⟩, 0, by omega, fun fuel => ?_⟩
  exact walkFrom_congr hcode (by exact hcode)
    (advance_congr hw.unlimited (by exact hw.unlimited) hsame) fuel

/-- An instruction where nothing is due adds statements and changes the blocks. -/
theorem advance_grown {b b' : Blocks} (hw : Steady code w) (hover : overwrites i.opcode = false)
    (hidle : w.frame.blocks.due index = ([], w.frame.blocks.pass index))
    (hstep : ∀ v, Steady code v → v.frame.blocks = w.frame.blocks.pass index →
      step children i index v = .ok taken (v.grow b nodes))
    (hdue : b.dueAll (range (index + 1) (index + taken - 1)) = ([], b'))
    (hquiet : b'.anomalies = []) :
    ∃ w', advance children i index w = .ok taken w' ∧ Grown w nodes w' ∧ w'.frame.blocks = b' := by
  have hthere : atInstruction index w = { w.grow (w.frame.blocks.pass index) [] with
      context.limits := w.context.limits.poll.consume } := by
    rw [atInstruction, hidle]
  have hunlimited : w.context.limits.poll.consume.Unlimited :=
    ⟨hw.unlimited.budget, hw.unlimited.cancel, hw.unlimited.host⟩
  have hflush : flushOverwritten i (atInstruction index w) =
      .ok () (atInstruction index w) := by
    unfold flushOverwritten
    rw [hover]
    rfl
  have hrun := hstep (atInstruction index w)
    (by rw [hthere]; exact ⟨hw.code, hw.registers, hunlimited⟩) (by rw [hthere]; rfl)
  have hmarkers : emitDueAll (range (index + 1) (index + taken - 1))
      ((atInstruction index w).grow b nodes) = .ok () ((atInstruction index w).grow b' nodes) := by
    rw [emitDueAll_run, Walk.grow_grow]
    show EStateM.Result.ok () ((atInstruction index w).grow (b.dueAll _).2
      (nodes ++ (b.dueAll _).1)) = _
    rw [hdue, List.append_nil]
  obtain ⟨record, hadvance⟩ := advance_run hw.unlimited hflush hrun hmarkers
    (by rw [hthere]; exact congrArg Registers.anomalies hw.registers) hquiet hunlimited.host
  refine ⟨_, hadvance, ⟨?_, ?_, ?_⟩, rfl⟩
  · rw [hthere]
    simp only [Walk.grow, List.append_nil]
  · rw [hthere]
    rfl
  · rw [hthere]
    exact hunlimited

theorem leads_step {b b' : Blocks} (hw : Steady code w) (hi : code[index]? = some i)
    (hover : overwrites i.opcode = false) (htaken : 0 < taken)
    (hidle : w.frame.blocks.due index = ([], w.frame.blocks.pass index))
    (hstep : ∀ v, Steady code v → v.frame.blocks = w.frame.blocks.pass index →
      step children i index v = .ok taken (v.grow b nodes))
    (hdue : b.dueAll (range (index + 1) (index + taken - 1)) = ([], b'))
    (hquiet : b'.anomalies = []) :
    ∃ w', Leads children w index nodes w' (index + taken) ∧ w'.frame.blocks = b' := by
  have hcode : w.frame.code[index]? = some i := by rw [hw.code, hi]
  obtain ⟨w', hadvance, hgrown, hblocks⟩ := advance_grown hw hover hidle hstep hdue hquiet
  refine ⟨w', ⟨hgrown, 1, by omega, fun fuel => ?_⟩, hblocks⟩
  exact walkFrom_run hcode hadvance (fuel + 1)

section

variable (hw : Steady code w) (hpending : (w.frame.blocks.pending.get? index).getD [] = [])
  (hheaders : (w.frame.blocks.headers.get? index).getD 0 = 0)

include hw hpending hheaders

theorem leads_storeY (children : List Child) (hi : code[index]? = some Shape.storeY)
    (hquiet : w.frame.blocks.anomalies = []) :
    ∃ w', Leads children w index [.assign "y" "x" false none] w' (index + 1) ∧
      w'.frame.blocks = w.frame.blocks.pass index := by
  refine leads_step (b := w.frame.blocks.pass index) hw hi rfl Nat.one_pos
    (Blocks.due_nothing_eq hpending hheaders) (fun v hv hblocks => ?_) ?_ hquiet
  · rw [step_storeY hv.registers, hblocks]
  · rw [range_of_lt (by omega)]
    rfl

theorem leads_jump (children : List Child) {offset : Int} {nodes : List Statement} {b : Blocks}
    (hi : code[index]? = some (Shape.jumpBy offset))
    (hjump : (w.frame.blocks.pass index).jump index offset = (nodes, b))
    (hquiet : b.anomalies = []) :
    ∃ w', Leads children w index nodes w' (index + 1) ∧ w'.frame.blocks = b := by
  refine leads_step (b := b) hw hi rfl Nat.one_pos
    (Blocks.due_nothing_eq hpending hheaders) (fun v hv hblocks => ?_) ?_ hquiet
  · have hrun : jump (Shape.jumpBy offset) index v =
        .ok () (v.grow (v.frame.blocks.jump index offset).2 (v.frame.blocks.jump index offset).1) :=
      run_bind ((barring_spell _ _).eq hv.unlimited.host) _
    refine (run_bind hrun _).trans ?_
    rw [hblocks, hjump]
    rfl
  · rw [range_of_lt (by omega)]
    rfl

/-- The return at the end of the code adds nothing. -/
theorem advance_leave (children : List Child) (hlast : index + 1 = code.length)
    (hquiet : w.frame.blocks.anomalies = []) :
    ∃ w', advance children Shape.leave index w = .ok 1 w' ∧ Grown w [] w' ∧
      w'.frame.blocks = w.frame.blocks.pass index := by
  refine advance_grown (b := w.frame.blocks.pass index) hw rfl
    (Blocks.due_nothing_eq hpending hheaders) (fun v hv hblocks => ?_) ?_ hquiet
  · have hret : ret Shape.leave index v = .ok () v := by
      have hcount : ¬ index + 1 ≠ v.frame.code.length := by rw [hv.code]; omega
      unfold ret
      rw [if_pos (show Shape.leave.b = 1 from rfl), run_get, if_neg hcount]
      rfl
    rw [← hblocks, Walk.grow_nil]
    exact run_bind hret fun _ => pure 1
  · rw [range_of_lt (by omega)]
    rfl

/-- A compare and its jump open a block, and nothing is due between the two. -/
theorem leads_test (children : List Child) {opcode : Opcode} {rel : Relation} {offset : Int}
    {node : Statement} {b : Blocks} (hi : code[index]? = some (Shape.test opcode))
    (hj : code[index + 1]? = some (Shape.jumpBy offset)) (hopcode : opcode.relation? = some rel)
    (hopen : (w.frame.blocks.pass index).openConditional index offset (conditionOf rel) = (node, b))
    (hidle : b.due (index + 1) = ([], b.pass (index + 1))) (hquiet : b.anomalies = []) :
    ∃ w', Leads children w index [node] w' (index + 2) ∧ w'.frame.blocks = b.pass (index + 1) := by
  have hstep : ∀ v, Steady code v → v.frame.blocks = w.frame.blocks.pass index →
      step children (Shape.test opcode) index v = .ok 2 (v.grow b [node]) := by
    intro v hv hblocks
    have hcompare := compare_run hv.registers rel (i := Shape.test opcode)
      (by rw [hv.code, hj]) ⟨rfl, rfl, rfl⟩
    rw [hblocks, hopen] at hcompare
    have hrun := run_bind hcompare fun _ => pure 2
    cases opcode <;> cases hopcode <;> exact hrun
  refine leads_step hw hi (by cases opcode <;> cases hopcode <;> rfl) Nat.two_pos
    (Blocks.due_nothing_eq hpending hheaders) hstep ?_ hquiet
  rw [range_of_le (by omega), range_of_lt (by omega)]
  simp only [Blocks.dueAll, hidle, List.append_nil]

end

end Walking

end LuaRecovery

/-
Structured programs are recovered.

A structured program is compiled, and its code is recovered without limits.  Then the
recovery succeeds, nothing is reported, and the text is that of the program.
-/
import LuaRecovery.Proofs.ProgramText
import LuaRecovery.Proofs.ProgramWalk

namespace LuaRecovery

open Shape Blocks

/-! ### Strings -/

namespace Report.StringReport

variable {r : StringReport} {threshold : Int}

theorem threshold_add (s : String) (reference : Option StringReference) :
    (r.add s reference).threshold = r.threshold := by
  cases reference <;> rfl

/-- Every string can be reported once the length of long strings is given. -/
theorem observe_ok (h : r.threshold = some threshold) (s : String) :
    ∃ r', r.observe s = .ok r' ∧ r'.threshold = some threshold := by
  obtain ⟨hint, hhint⟩ : ∃ hint, r.hintFor s = .ok hint := by
    unfold hintFor isLong
    rw [h]
    cases hint? s with
    | some hint => exact ⟨_, rfl⟩
    | none => exact ⟨_, rfl⟩
  refine ⟨r.add s (r.newReference? s hint), ?_, (threshold_add s _).trans h⟩
  rw [observe, reference, hhint]
  rfl

end Report.StringReport

namespace Walking

variable {w : Walk}

variable {threshold : Int}

theorem observeStrings_run (constants : List Constant) :
    ∀ {w : Walk}, w.context.strings.threshold = some threshold →
      ∃ strings, observeStrings constants w = .ok () { w with context.strings := strings } := by
  induction constants with
  | nil => exact fun {w} _ => ⟨w.context.strings, rfl⟩
  | cons c rest ih =>
    intro w h
    cases c with
    | nil => exact ih h
    | bool b => exact ih h
    | number x => exact ih h
    | string s =>
      obtain ⟨r, hr, hthreshold⟩ := Report.StringReport.observe_ok h s
      have hquery : queryStrings (·.observe s) w = .ok r w := by
        unfold queryStrings
        rw [run_get]
        simp only [hr]
        rfl
      obtain ⟨strings, hrest⟩ := ih (w := { w with context.strings := r }) hthreshold
      refine ⟨strings, ?_⟩
      refine (run_bind hquery _).trans ?_
      exact hrest

/-! ### The whole walk -/

theorem walkFrom_done {children : List Child} {index : Nat} (h : w.frame.code[index]? = none)
    (fuel : Nat) : walkFrom children fuel index w = .ok () w := by
  cases fuel with
  | zero => rfl
  | succ fuel =>
    rw [walkFrom, run_get, h]
    rfl

/-- Where all values are read and no block is open there is nothing left to do. -/
theorem windUp_idle (hunread : w.frame.registers.unread = [])
    (hquiet : w.frame.registers.anomalies = []) (htidy : Tidy w.frame.blocks)
    (hstack : w.frame.blocks.stack = []) : windUp w = .ok () w := by
  have hflush : flushAll w.frame.registers.unreadList w = .ok () w := by
    rw [Registers.unreadList, hunread, List.mergeSort_nil]
    rfl
  have hfinish : emitBlocks (·.finish w.frame.code.length) w = .ok () w := by
    show EStateM.Result.ok () (w.grow (w.frame.blocks.finish w.frame.code.length).2
      (w.frame.blocks.finish w.frame.code.length).1) = _
    rw [htidy.finish_eq hstack, Walk.grow_nil]
  unfold windUp
  rw [run_get]
  refine (run_bind hflush _).trans ((run_bind hfinish _).trans ?_)
  exact reportAnomalies_run hquiet htidy.quiet _

/-- A whole walk, if the code is walked to a state with nothing left to do. -/
theorem walk_run {children : List Child} {P : Walk → Prop}
    (hthreshold : w.context.strings.threshold = some threshold)
    (hrun : ∀ record strings, ∃ w', walkFrom children w.frame.code.length 0
      { w with context := { w.context.log record with strings } } = .ok () w' ∧
        windUp w' = .ok () w' ∧ P w') : ∃ w', walk children w = .ok () w' ∧ P w' := by
  obtain ⟨record, hrecord⟩ : ∃ record, record = openingRecord w.frame.path w.frame.code.length
    w.frame.registers.constants.length children.length := ⟨_, rfl⟩
  obtain ⟨strings, hstrings⟩ := observeStrings_run w.frame.registers.constants
    (w := { w with context := w.context.log record }) hthreshold
  obtain ⟨w', hwalk, hdone, hw'⟩ := hrun record strings
  refine ⟨w', ?_, hw'⟩
  unfold walk
  rw [run_get]
  refine (run_modify _ _).trans ?_
  rw [← hrecord]
  exact (run_bind hstrings _).trans ((run_bind hwalk _).trans hdone)

/-- In the compiled form of a program its loops are known. -/
theorem marks_ofCode (shapes : List Shape) (last : Int) :
    Marks (Blocks.ofCode (Shape.prototype shapes).instructions) (loopsAll 1 shapes) 0 last := by
  obtain ⟨l, hfound, hscan⟩ := Loops.scans_codeAll shapes [] 1 (by omega) nofun {} [leave] (by simp)
  have hfind : Loops.find (Shape.prototype shapes).instructions = l := by
    show Loops.scan {} [] 0 (loadX :: (codeAll shapes ++ [leave])) = l
    rw [Loops.scan_plain rfl (by decide) (by simp)]
    exact hscan.trans rfl
  refine ⟨fun k _ _ => ?_, fun k _ _ => ?_⟩
  · rw [Blocks.ofCode, hfind]
    exact (hfound.headers k).trans (Nat.zero_add _)
  · rw [Blocks.ofCode, hfind]
    simpa using hfound.closers k

/-- Loading `x` is the first step of a program. -/
theorem advance_loadX {shapes : List Shape}
    (hregisters : w.frame.registers = { constants := loaded.constants })
    (hblocks : w.frame.blocks = Blocks.ofCode (Shape.prototype shapes).instructions)
    (hl : w.context.limits.Unlimited) :
    ∃ w', advance [] loadX 0 w = .ok 1 w' ∧ Grown { w with frame.registers := loaded } [] w' ∧
      w'.frame.blocks = w.frame.blocks.pass 0 := by
  have hheaders : (w.frame.blocks.headers.get? 0).getD 0 = 0 := by
    rw [hblocks, (marks_ofCode shapes 1).headers 0 (by omega) (by omega),
      countP_outside (within_loopsAll shapes 1) (by omega)]
  have hidle : w.frame.blocks.due 0 = ([], w.frame.blocks.pass 0) :=
    due_nothing_eq (by rw [hblocks]; rfl) hheaders
  have hthere : atInstruction 0 w = { w.grow (w.frame.blocks.pass 0) [] with
      context.limits := w.context.limits.poll.consume } := by
    unfold atInstruction
    rw [show ((0 : Nat) : Int) = 0 from rfl, hidle]
  have hflush : flushOverwritten loadX (atInstruction 0 w) = .ok () (atInstruction 0 w) := by
    have hunread : (atInstruction 0 w).frame.registers.isUnread 0 = false := by
      show w.frame.registers.isUnread 0 = false
      rw [hregisters]
      rfl
    show flushUnread 0 (atInstruction 0 w) = _
    unfold flushUnread
    rw [run_get, hunread]
    rfl
  have hstep : step [] loadX 0 (atInstruction 0 w) =
      .ok 1 { atInstruction 0 w with frame.registers := loaded } := step_loadX hregisters
  have hdue : emitDueAll (range ((0 : Nat) + 1) ((0 : Nat) + (1 : Nat) - 1))
      { atInstruction 0 w with frame.registers := loaded } =
      .ok () { atInstruction 0 w with frame.registers := loaded } := by
    rw [range_of_lt (by omega)]
    rfl
  obtain ⟨record, hadvance⟩ := advance_run hl hflush hstep hdue rfl (by rw [hthere, hblocks]; rfl)
    (by rw [hthere]; exact hl.host)
  refine ⟨_, hadvance, ⟨?_, ?_, ?_⟩, ?_⟩
  · rw [hthere]
    simp only [Walk.grow]
  · rw [hthere]
    rfl
  · rw [hthere]
    exact ⟨hl.budget, hl.cancel, hl.host⟩
  · rw [hthere]
    rfl

/-- The code of a program is walked to its end, and the statements of the program come out. -/
theorem walkFrom_program {shapes : List Shape}
    (hcode : w.frame.code = (Shape.prototype shapes).instructions)
    (hregisters : w.frame.registers = { constants := loaded.constants })
    (hblocks : w.frame.blocks = Blocks.ofCode (Shape.prototype shapes).instructions)
    (hl : w.context.limits.Unlimited) :
    ∃ w', walkFrom [] w.frame.code.length 0 w = .ok () w' ∧
      Grown { w with frame.registers := loaded } (nodesAll shapes) w' ∧
      Tidy w'.frame.blocks ∧ w'.frame.blocks.stack = [] := by
  obtain ⟨code, hcode'⟩ : ∃ code, code = loadX :: (codeAll shapes ++ [leave]) := ⟨_, rfl⟩
  have hlength : code.length = (codeAll shapes).length + 2 := by
    rw [hcode']
    simp
  have hwcode : w.frame.code = code := hcode.trans hcode'.symm
  have hmarks : Marks w.frame.blocks (loopsAll 1 shapes) 0 (2 + (codeAll shapes).length) := by
    rw [hblocks]
    exact marks_ofCode shapes _
  have hheaders : ∀ k : Int, 0 ≤ k → k < 1 ∨ k = 1 + (codeAll shapes).length →
      (w.frame.blocks.headers.get? k).getD 0 = 0 := by
    intro k h₀ hk
    rw [hmarks.headers k h₀ (by omega), countP_outside (within_loopsAll shapes 1) (by omega)]
  have hsame := sameAhead_pass (hheaders 0 (by omega) (by omega)) 1
  -- Before the program.
  obtain ⟨w₁, hadvance₁, hgrown₁, hblocks₁⟩ := advance_loadX hregisters hblocks hl
  rw [← hblocks₁] at hsame
  have hsteady₁ : Steady code w₁ := hgrown₁.steady ⟨hwcode, rfl, hl⟩
  have hb₁ : w₁.frame.blocks.Before (loopsAll 1 shapes) 1 (1 + (codeAll shapes).length) := by
    refine ⟨?_, (hmarks.mono (by omega) (by omega)).ahead hsame, ?_⟩
    · rw [hblocks₁, hblocks]
      exact Tidy.pass ⟨fun _ => rfl, .nil, .nil, nofun, rfl⟩ rfl
    · rw [hblocks₁, hblocks]
      nofun
  -- The program.
  obtain ⟨w₂, hleads, hpassed⟩ := recovers_all [] code shapes w₁ 1 1 [leave] rfl hsteady₁
    (by rw [hcode']; rfl) (by simp) hb₁
  have hstack₂ : w₂.frame.blocks.stack = [] := by
    rw [hpassed.stack, hblocks₁, hblocks]
    rfl
  have hpending₂ : (w₂.frame.blocks.pending.get?
      ((1 + (codeAll shapes).length : Nat) : Int)).getD [] = [] := by
    rw [hpassed.tidy.pending, hstack₂]
    rfl
  -- After the program.
  obtain ⟨w₃, hadvance₃, hgrown₃, hblocks₃⟩ := advance_leave (hleads.steady hsteady₁) hpending₂
    (by rw [hpassed.ahead.headers _ (Int.le_refl _), hsame.headers _ (by omega),
      hheaders _ (by omega) (by omega)]) [] (by omega) hpassed.tidy.quiet
  have hgrown := hgrown₁.trans (hleads.toGrown.trans hgrown₃)
  rw [List.nil_append, List.append_nil] at hgrown
  have hsteady₂ := hleads.steady hsteady₁
  refine ⟨w₃, ?_, hgrown, ?_, ?_⟩
  · obtain ⟨n, hn, hsteps⟩ := hleads.steps
    have hlast : w₂.frame.code[1 + (codeAll shapes).length]? = some leave := by
      rw [hsteady₂.code]
      exact getElem?_of_drop (drop_of_drop_append (by rw [hcode']; rfl))
    have hdone : w₃.frame.code[1 + (codeAll shapes).length + 1]? = none := by
      rw [(hgrown₃.steady hsteady₂).code, List.getElem?_eq_none_iff]
      omega
    calc walkFrom [] w.frame.code.length 0 w = walkFrom [] ((codeAll shapes).length + 1) 1 w₁ := by
          rw [hwcode, hlength]
          exact walkFrom_run (by rw [hwcode, hcode']; rfl) hadvance₁ _
      _ = walkFrom [] ((codeAll shapes).length - n + 1 + n) 1 w₁ := by
          congr 1
          omega
      _ = walkFrom [] ((codeAll shapes).length - n + 1) (1 + (codeAll shapes).length) w₂ :=
          hsteps _
      _ = walkFrom [] ((codeAll shapes).length - n) (1 + (codeAll shapes).length + 1) w₃ :=
          walkFrom_run hlast hadvance₃ _
      _ = .ok () w₃ := walkFrom_done hdone _
  · rw [hblocks₃]
    exact hpassed.tidy.pass hpending₂
  · rw [hblocks₃]
    exact hstack₂

/-- The whole walk of a program. -/
theorem walk_program (shapes : List Shape)
    (hcode : w.frame.code = (Shape.prototype shapes).instructions)
    (hregisters : w.frame.registers = { constants := loaded.constants })
    (hblocks : w.frame.blocks = Blocks.ofCode (Shape.prototype shapes).instructions)
    (hl : w.context.limits.Unlimited) (hthreshold : w.context.strings.threshold = some threshold) :
    ∃ w', walk [] w = .ok () w' ∧ w'.frame.body = w.frame.body ++ nodesAll shapes ∧
      w'.frame.captured = w.frame.captured ∧
      w'.context.diagnostics = w.context.diagnostics := by
  refine walk_run hthreshold fun record strings => ?_
  obtain ⟨w', hwalk, hgrown, htidy, hstack⟩ := walkFrom_program
    (w := { w with context := { w.context.log record with strings } }) hcode hregisters hblocks hl
  have hsteady := hgrown.steady ⟨rfl, rfl, by exact hl⟩
  refine ⟨w', hwalk, windUp_idle ?_ ?_ htidy hstack, by rw [hgrown.frame], by rw [hgrown.frame],
    by rw [hgrown.context]; rfl⟩
  · rw [hsteady.registers]
    rfl
  · rw [hsteady.registers]
    rfl

end Walking

/-- A program is built where no limit stops it. -/
theorem build_program (shapes : List Shape) {c : Context} {threshold : Int}
    (hl : c.limits.Unlimited) (hdepth : c.limits.depthBreach? = none)
    (hthreshold : c.strings.threshold = some threshold) (name path : String) :
    ∃ r c', (Shape.prototype shapes).build name path [] c = .ok r c' ∧
      r.body = nodesAll shapes ∧ r.captured = [] ∧ c'.diagnostics = c.diagnostics := by
  obtain ⟨limits, henter, hlimits⟩ : ∃ limits, c.limits.enter = .ok limits ∧ limits.Unlimited := by
    unfold Limits.enter
    rw [hdepth]
    exact ⟨_, rfl, hl.budget, hl.cancel, hl.host⟩
  obtain ⟨w', hwalk, hbody, hcaptured, hdiagnostics⟩ := Walking.walk_program shapes
    (w := ⟨Frame.bare (Shape.prototype shapes) name path [], { c with limits }⟩) rfl rfl rfl
    hlimits hthreshold
  refine ⟨w'.frame.routine, w'.context.leave, ?_, hbody, hcaptured, hdiagnostics⟩
  rw [Prototype.build_eq, Prototype.builders_eq]
  show buildWith (Shape.prototype shapes) [] name path [] c = _
  unfold buildWith
  rw [show Frame.start (Shape.prototype shapes) name path [] c.scene =
    (Frame.bare (Shape.prototype shapes) name path [], c.scene) from rfl]
  simp only [henter]
  rw [hwalk]

namespace Recovery

/-- The text around the body of a program, if only the body is wanted. -/
theorem assemble_program {o : Options} (hheader : o.header.isOn = false)
    (hcalls : o.includeCallGraph.isOn = false) (hstrings : o.includeStringRefs.isOn = false)
    (width : Nat) (shapes : List Shape) (calls : List Scene.CallRecord)
    (strings : List Report.StringReference) :
    assemble o none (Text.join "\n" (linesAll width 0 shapes)) calls strings =
      Text.join "\n" (linesAll width 0 shapes) ++ "\n" := by
  have habove : header o = [] := by rw [header, hheader]; rfl
  have hbelow : trailer o calls strings = [] := by rw [trailer, hcalls, hstrings]; rfl
  unfold assemble
  rw [habove, hbelow]
  by_cases hbody : Text.join "\n" (linesAll width 0 shapes) = ""
  · simp [hbody, Text.join, Text.trimEnd, Text.dropEndWhile]
  · simp [hbody, Text.join, trimEnd_linesAll]

/-- The code of a structured program is recovered without limits: nothing is reported, and
the text is that of the program.  If the text is to be checked, this is so for every parser
that accepts it. -/
theorem structured_program_round_trips (shapes : List Shape) (o : Options)
    (threshold width : Int) (accepts : String → Bool) (hbudget : o.budget = none)
    (hcancel : ∀ n, o.cancel n = false) (hdepth : o.maxDepth ≠ some 0)
    (hthreshold : o.longStringThreshold = some threshold) (hwidth : o.indentWidth = some width)
    (haccepts : o.validateSyntax.isOn = true →
      accepts (Text.join "\n" (linesAll width.toNat 0 shapes)) = true) :
    ∃ r routine, ofPrototype (Shape.prototype shapes) o none { accepts } = .ok r ∧
      r.failure = none ∧ r.diagnostics = [] ∧
      r.routine = some routine ∧ routine.body = nodesAll shapes ∧
      ({ width := width.toNat } : Layout).bodyText routine =
        .ok (Text.join "\n" (linesAll width.toNat 0 shapes)) ∧
      r.text = assemble o none (Text.join "\n" (linesAll width.toNat 0 shapes)) r.calls r.strings ∧
      (o.header.isOn = false → o.includeCallGraph.isOn = false → o.includeStringRefs.isOn = false →
        r.text = Text.join "\n" (linesAll width.toNat 0 shapes) ++ "\n") := by
  obtain ⟨text, htext'⟩ : ∃ text, text = Text.join "\n" (linesAll width.toNat 0 shapes) := ⟨_, rfl⟩
  have hboundless := Host.boundless_default accepts
  have hstart : (Context.start o { accepts }).limits.depthBreach? = none := by
    show (o.maxDepth.filter fun m => decide (0 ≤ m) && decide (m ≤ ((0 : Nat) : Int))) = none
    rw [Option.filter_eq_none_iff]
    intro m hm
    have : m ≠ 0 := fun h => hdepth (h ▸ hm)
    simp
    omega
  obtain ⟨routine, c, hbuild, hbody, hcaptured, hdiagnostics⟩ := build_program shapes
    (c := startContext (Shape.prototype shapes) o { accepts }) ⟨hbudget, hcancel, hboundless⟩ hstart
    hthreshold rootName rootName
  have hwalked : walked (Shape.prototype shapes) (startContext (Shape.prototype shapes) o
      { accepts }) = .ok (routine, none, c) := by
    unfold walked
    rw [EStateM.run, hbuild]
  have hlevel : o.levelWidth.mapError Fault.option = .ok width.toNat := by
    rw [Options.levelWidth, hwidth]
    rfl
  have htext := Layout.bodyText_nodesAll (l := { width := width.toNat }) hbody hcaptured
  rw [← htext'] at haccepts
  have hlay : layOut width.toNat routine c = .ok (text, c) := by
    rw [layOut, htext, htext']
  have hgrammar : checkGrammar o none text c { accepts } = c := by
    unfold checkGrammar
    cases hvalidate : o.validateSyntax.isOn with
    | false => rfl
    | true =>
      show (if true && !accepts text then _ else c) = c
      rw [haccepts hvalidate]
      rfl
  have hrun : ∃ r, ofPrototype (Shape.prototype shapes) o none { accepts } = .ok r ∧
      r.failure = none ∧ r.diagnostics = c.diagnostics ∧ r.routine = some routine ∧
      r.text = assemble o none text r.calls r.strings := by
    unfold ofPrototype
    rw [if_neg (by simp [Shape.prototype])]
    simp only [hwalked, hlevel, checkIndent_run hboundless, bind, Except.bind, hlay]
    refine ⟨_, rfl, rfl, ?_, rfl, rfl⟩
    show (checkGrammar o none text c { accepts }).diagnostics = _
    rw [hgrammar]
  obtain ⟨r, hr, hfailure, hreported, hroutine, hassembled⟩ := hrun
  rw [htext'] at hassembled
  refine ⟨r, routine, hr, hfailure, hreported.trans hdiagnostics, hroutine, hbody, htext,
    hassembled, fun hheader hcalls hstrings => ?_⟩
  rw [hassembled, assemble_program hheader hcalls hstrings]

/-- Nested blocks, one of them empty and one divided, with only the body wanted. -/
theorem nested_program_round_trips :
    ∃ r, ofPrototype (Shape.prototype [.endless [.either [] (.whileLoop [.assign]) [.assign]]])
        { header := some false, includeCallGraph := none, includeStringRefs := some false } none =
          .ok r ∧
      r.failure = none ∧ r.diagnostics = [] ∧
      r.text = "while true do\n    if x == 1 then\n    else\n        while x < 1 do\n" ++
        "            y = x\n        end\n        y = x\n    end\nend\n" := by
  obtain ⟨r, routine, hr, hfailure, hdiagnostics, _, _, _, _, htext⟩ :=
    structured_program_round_trips [.endless [.either [] (.whileLoop [.assign]) [.assign]]]
      { header := some false, includeCallGraph := none, includeStringRefs := some false } 40 4
      Lua.isChunk rfl (fun _ => rfl) (by decide) rfl rfl fun _ => by decide +kernel
  exact ⟨r, hr, hfailure, hdiagnostics, (htext rfl rfl rfl).trans (by decide +kernel)⟩

end Recovery

end LuaRecovery

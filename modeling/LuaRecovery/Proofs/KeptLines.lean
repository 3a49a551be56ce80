/-
Recovered texts keep to their lines.

A routine without line breaks in its texts is laid out with one line for each statement, two for
each function and one more for each list of upvalues that is not empty (`lineCount`).  What is
recovered of a contained function is such a routine.  The converse holds of a function that is
recovered to its end, but for the globals that it only reads, since what is read may be overwritten
before it is written down.
-/
import LuaRecovery.Proofs.Books
import LuaRecovery.Proofs.LinedRoutines

namespace LuaRecovery

open List

open Layout

/-! ### Counting lines -/

mutual

/-- The number of lines inside a routine. -/
def RoutineOf.lineCount : Routine → Nat
  | ⟨_, body, _, captured, _, _, _⟩ => (if captured.isEmpty then 0 else 1) + lineCountAll body

/-- The number of lines of a body. -/
def lineCountAll : List Statement → Nat
  | [] => 0
  | s :: rest => s.lineCount + lineCountAll rest

/-- The number of lines of a statement: one, and for a function also those inside and its end. -/
def Statement.lineCount : Statement → Nat
  | .define _ r _ _ => 2 + RoutineOf.lineCount r
  | .function r => 2 + RoutineOf.lineCount r
  | _ => 1

end

theorem RoutineOf.lineCount_eq (r : Routine) :
    r.lineCount = (if r.captured.isEmpty then 0 else 1) + lineCountAll r.body := by
  obtain ⟨name, body, anonymous, captured, params, vararg, bindings⟩ := r
  rw [RoutineOf.lineCount]

theorem Statement.lineCount_of_none {s : Statement} (h : s.routine? = none) : s.lineCount = 1 := by
  cases s with
  | define | function => cases h
  | _ => rfl

theorem Statement.lineCount_of_some {s : Statement} {r : Routine} (h : s.routine? = some r) :
    s.lineCount = 2 + r.lineCount := by
  cases s with
  | define | function =>
    cases h
    rw [Statement.lineCount]
  | _ => cases h

namespace Layout

theorem length_bodyLines {body : List Statement} (hinner : ∀ s ∈ body, ∀ r, s.routine? = some r →
      ∀ level, (routineLines level r).length = r.lineCount) (floor : Nat) :
    ∀ depth, (bodyLines floor depth body).length = lineCountAll body := by
  induction body with
  | nil =>
    intro depth
    rw [bodyLines, lineCountAll]
    rfl
  | cons s rest ih =>
    obtain ⟨hs, hrest⟩ := forall_mem_cons.mp hinner
    intro depth
    rw [bodyLines_cons, length_append, ih hrest, lineCountAll]
    cases hroutine : s.routine? with
    | none => rw [statementLines_of_none hroutine, Statement.lineCount_of_none hroutine]; rfl
    | some r =>
      rw [statementLines_of_some hroutine, Statement.lineCount_of_some hroutine,
        length_cons, length_append, hs r hroutine]
      simp only [length_singleton]
      omega

theorem length_routineLines {r : Routine} (h : Throughout RoutineOf.Printable r) :
    ∀ level, (routineLines level r).length = r.lineCount := by
  induction h with
  | @intro r _ _ ih =>
    intro level
    rw [routineLines_eq, length_append, length_bodyLines ih, RoutineOf.lineCount_eq,
      length_map, upvalueLines]
    split <;> rfl

end Layout

/-- A routine without a line break in its texts, and laid out so that every line is one that is
counted. -/
structure RoutineOf.KeepsToLines (r : Routine) : Prop where
  lined : Throughout RoutineOf.Lined r
  layout : ∀ width, ∃ lines, ({ width } : Layout).bodyText r = .ok (Text.join "\n" lines) ∧
    lines.length = r.lineCount ∧ ∀ line ∈ lines, OneLine line

/-- A routine that is lined and whose markers nest keeps to its lines. -/
theorem RoutineOf.keepsToLines {r : Routine} (hlined : Throughout RoutineOf.Lined r)
    (hnested : Nested r.body) : r.KeepsToLines := by
  have hprintable := hlined.mono fun _ h => h.toPrintable
  refine ⟨hlined, fun width => ⟨(routineLines 0 r).map (Line.render width), ?_, ?_, ?_⟩⟩
  · have hbalanced : ∀ q, r.Encloses q → ¬ Unbalanced q.body := by
      intro q hq hunbalanced
      have hrefuses := refuses_of_unbalanced (l := { width }) rfl hprintable ⟨q, hq, hunbalanced⟩
      obtain ⟨fault, hfault, -⟩ := hrefuses.bodyText
      obtain ⟨text, htext⟩ := ({ width } : Layout).bodyText_nested hnested
      cases htext.symm.trans hfault
    exact (draws_of_balanced (l := { width }) hprintable (.inr hbalanced)).bodyText
  · rw [length_map, length_routineLines hprintable]
  · intro line hline
    obtain ⟨l, hl, rfl⟩ := mem_map.mp hline
    refine .append (oneLine_ofList.mpr fun hmem => ?_) (lines_of_printable hprintable l hl).2
    exact absurd (eq_of_mem_replicate hmem) (by decide)

/-! ### Names that break a line -/

namespace Walking

/-- The assignment of a global has its text for target. -/
theorem setGlobal_writes {p : Prototype} {w : Walk}
    (hconstants : w.frame.registers.constants = p.constants) (i : Instruction) :
    After (fun _ w' => ∃ value,
        .assign (Lua.globalText (p.globalName i.b)) value false none ∈ w'.frame.body)
      (fun stop _ => stop.IsMute) (setGlobal i w) := by
  refine after_seq (after_fault (globalName_after hconstants i.b) fun _ _ h => h.mute) ?_
  rintro _ w₁ rfl
  refine after_bind (after_bind (after_bind (after_askHost ?_ fun _ _ => trivial)))
  exact ⟨_, mem_append_right _ mem_cons_self⟩

end Walking

namespace Job

open Walking

variable {j : Job} {r : Routine} {d : Context} {index : Nat} {i : Instruction} {q : Prototype}
  {ready : Prepared} {w : Walk}

/-- A global that a job assigns is the target of an assignment of what it is recovered as. -/
theorem assigned_of_reads (hok : j.result = .ok r d) (hreads : j.source.Reads index)
    (hi : j.source.instructions[index]? = some i) (hop : i.opcode = .setGlobal) :
    ∃ value, .assign (Lua.globalText (j.source.globalName i.b)) value false none ∈ r.body := by
  obtain ⟨w, -, -, hdue, -⟩ := due_of_reads hok hreads hi
  have hstep : After (fun _ w' => ∃ value,
      .assign (Lua.globalText (j.source.globalName i.b)) value false none ∈ w'.frame.body)
      (fun stop _ => stop.IsMute) (step j.children i index w) := by
    unfold step
    rw [hop]
    exact after_seq (setGlobal_writes hdue.owns.constants i) fun _ _ h => h
  have hreturned := hdue.begins
    (after_mono hstep (fun _ w' h => ⟨w', h, onward_blocked.refl w'⟩) fun _ _ h => .inl h)
  rw [hok] at hreturned
  obtain ⟨w₁, ⟨value, hmem⟩, hbegins⟩ := hreturned
  exact ⟨value, hbegins.body.subset hmem⟩

/-- The upvalue at an index past those that were passed has its name of the debug information. -/
theorem Owns.debugName {f : Frame} (h : j.Owns f) {k : Nat} (hk : j.upvalues.length ≤ k)
    {x : String} (hx : j.source.upvalueNames[k]? = some x) : f.upvalues[k]? = some ⟨x, none⟩ := by
  rw [h.upvalues, Frame.allUpvalues, getElem?_append_right hk, getElem?_map,
    getElem?_drop, Nat.add_sub_cancel' hk, hx]
  rfl

/-- An upvalue that a job refers to and that was not passed is listed by its name. -/
theorem captured_of_refers (hok : j.result = .ok r d) {k : Nat} (h : j.source.Refers k)
    (hk : j.upvalues.length ≤ k) {x : String} (hx : j.source.upvalueNames[k]? = some x) :
    x ∈ r.captured := by
  cases h with
  | @use index use hreads hi huses =>
    obtain ⟨w, -, -, hdue, -⟩ := due_of_reads hok hreads hi
    have hstep := step_uses j.children index huses (hdue.owns.debugName hk hx) hdue.owns.nodup
    have hreturned := hdue.begins (P := HasUse x use.opcode w.frame.body.length)
      (after_mono hstep (fun _ w' h => ⟨w', h, onward_blocked.refl w'⟩) fun _ _ h => .inl h)
    rw [hok] at hreturned
    obtain ⟨w₁, ⟨⟨hmem, -⟩, -⟩, hbegins⟩ := hreturned
    exact hbegins.captured.subset hmem
  | @capture index i c q hcloses hcaptured hop hsame =>
    obtain ⟨ready, w, inner, d', hopens, hinner⟩ :=
      opens_of_reads hok hcloses.reads hcloses.instruction hcloses.opcode hcloses.child
    obtain ⟨n, hn⟩ := mem_iff_getElem?.mp hcaptured
    obtain ⟨u, -, hhands⟩ := hopens.upvalue hn
    cases hhands with
    | register hmove => cases hop.symm.trans hmove
    | upvalue _ hknown hmem =>
      obtain rfl := hknown k _ hsame (hopens.hands.1.debugName hk hx)
      have hreturned := hopens.begins (Q := fun _ => True) (by rw [hinner]; trivial)
      rw [hok] at hreturned
      obtain ⟨_, -, hbegins⟩ := hreturned
      exact hbegins.captured.subset hmem

/-- The function of a closure that a job reads is in the body of what it is recovered as. -/
theorem defined_of_opens (hok : j.result = .ok r d) (hopens : j.Opens index i q ready w)
    {inner : Routine} {d' : Context} (hinner : (inside q ready w).result = .ok inner d') :
    .define ready.name inner ready.declares none ∈ r.body := by
  have hreturned := hopens.begins (Q := (· = inner)) (by rw [hinner]; rfl)
  rw [hok] at hreturned
  obtain ⟨_, rfl, hbegins⟩ := hreturned
  exact hbegins.body.subset (mem_append_right _ mem_cons_self)

end Job

/-- A function that is recovered to its end without a line break in its texts takes over no name
with a line break, but for the globals that it only reads. -/
theorem Prototype.contained_of_lined (p : Prototype) : ∀ {j : Job} {r : Routine} {d : Context},
    j.source = p → j.result = .ok r d → Throughout RoutineOf.Lined r →
    p.Contained [.setGlobal] j.upvalues.length := by
  induction p using Prototype.induct_children with
  | h p ih =>
    rintro j r d rfl hok ⟨hlined, hinner⟩
    refine .intro ⟨fun index i hreads hi hop => ?_, fun k hrefers hk x hx => ?_⟩
      fun index i q hcloses => ?_
    · obtain ⟨value, hmem⟩ := Job.assigned_of_reads hok hreads hi (mem_singleton.mp hop)
      exact Lua.oneLine_globalText.mp (hlined.texts _ hmem _ mem_cons_self)
    · exact hlined.captured x (Job.captured_of_refers hok hrefers hk hx)
    · obtain ⟨ready, w, inner, d', hopens, hrecovered⟩ :=
        Job.opens_of_reads hok hcloses.reads hcloses.instruction hcloses.opcode hcloses.child
      have hmem := Job.defined_of_opens hok hopens hrecovered
      rw [← hopens.hands.2.2.1]
      exact ih q (mem_of_childAt? hcloses.child) (j := .inside q ready w) rfl hrecovered
        (hinner _ hmem inner rfl)

/-- What a contained function hands back keeps to its lines. -/
theorem Prototype.Contained.handsBack {p : Prototype} {name : String} {upvalues : List Upvalue}
    (h : p.Contained Walking.globalOpcodes upvalues.length) (hname : OneLine name)
    (hupvalues : ∀ u ∈ upvalues, OneLine u.name) {c : Context} (hscene : c.scene.Registered)
    (path : String) : HandsBack RoutineOf.KeepsToLines (p.build name path upvalues c) := by
  have hlined := h.buildsLined name path upvalues c hname rfl hupvalues hscene
  have hnested := p.build_nests name path upvalues c
  generalize p.build name path upvalues c = result at hlined hnested
  match result, hlined, hnested with
  | .ok _ _, hlined, hnested => exact RoutineOf.keepsToLines hlined hnested
  | .error (.failed _ (some r)) _, hlined, hnested =>
    exact RoutineOf.keepsToLines (hlined.2 r rfl) hnested
  | .error (.failed _ none) _, _, _ => trivial
  | .error (.scene _) _, _, _ => trivial
  | .error (.option _) _, _, _ => trivial
  | .error (.host _) _, _, _ => trivial

namespace Recovery

open Walking

/-- What a walk leaves to be laid out is what the function hands back, or an empty routine. -/
theorem leaves_of_handsBack {P : Routine → Prop} {p : Prototype} {c : Context}
    (h : HandsBack P (p.build rootName rootName [] c)) (hempty : P { name := rootName }) :
    Leaves (fun r _ => P r) (walked p c) := by
  unfold walked EStateM.run
  generalize p.build rootName rootName [] c = result at h ⊢
  match result, h with
  | .ok _ _, h => exact h
  | .error (.failed _ (some _)) _, h => exact h
  | .error (.failed _ none) _, _ => exact hempty
  | .error (.scene _) _, _ => trivial
  | .error (.option _) _, _ => trivial
  | .error (.host _) _, _ => trivial

theorem keepsToLines_empty : RoutineOf.KeepsToLines { name := rootName } :=
  RoutineOf.keepsToLines (.intro ⟨⟨forall_mem_nil _, forall_mem_nil _,
    forall_mem_nil _⟩, by decide, forall_mem_nil _⟩ (forall_mem_nil _)) .nil

/-- **Recovered texts keep to their lines.**  What is recovered of a contained function, wholly or
up to a failure, has no line break in any text, at any depth, and is laid out with one line for each
statement, two for each function, and one more for each list of upvalues that is not empty.  If a
function that is recovered to its end has no line break in any text, then it assigns no global whose
name has a line break behind it, it refers to no upvalue with a line break in its name of the debug
information, and the same holds of the functions inside. -/
theorem texts_keep_to_their_lines (p : Prototype) (o : Options) :
    (∀ c name path upvalues, Context.Reached o c → OneLine name →
        (∀ u ∈ upvalues, OneLine u.name) → p.Contained globalOpcodes upvalues.length →
        HandsBack RoutineOf.KeepsToLines (p.build name path upvalues c)) ∧
      (p.Contained globalOpcodes 0 →
        Leaves (fun r _ => r.KeepsToLines) (walked p (startContext p o))) ∧
      ∀ c name path upvalues r d, p.build name path upvalues c = .ok r d →
        Throughout RoutineOf.Lined r → p.Contained [.setGlobal] upvalues.length := by
  refine ⟨fun c name path upvalues hc hname hupvalues hp => ?_, fun hp => ?_,
    fun c name path upvalues r d hok hlined => ?_⟩
  · have hscene := (Context.start_registered o).grows hc.later.grows
    exact hp.handsBack hname hupvalues hscene path
  · have hroot : p.Contained globalOpcodes ([] : List Upvalue).length := hp
    have hscene : (startContext p o).scene.Registered := Context.start_registered o
    have hbuilt := hroot.handsBack (by decide : OneLine rootName) (forall_mem_nil _) hscene rootName
    exact leaves_of_handsBack hbuilt keepsToLines_empty
  · exact p.contained_of_lined (j := ⟨p, name, path, upvalues, c⟩) rfl hok hlined

/-- A function whose first upvalue is passed to it, whatever the debug information calls that. -/
def stateReader : Prototype where
  name := "read\nstate"
  instructions := [{ opcode := .getUpvalue }, { opcode := .getUpvalue, a := 1, b := 1 },
    { opcode := .ret, b := 3 }]
  upvalueCount := 1
  upvalueNames := ["a\nb", "state"]

/-- A function that makes a table and assigns a function that reads it to a global whose name has a
line break inside. -/
def readerMaker : Prototype where
  instructions := [{ opcode := .newTable }, { opcode := .closure, a := 1 }, { opcode := .move },
    { opcode := .setGlobal, a := 1 }]
  constants := [.string "two\nlines"]
  children := [stateReader]

/-- The name of the global is not one that passes for a name, and the upvalue whose name has a line
break is the one that is passed. -/
theorem readerMaker_contained : readerMaker.Contained globalOpcodes 0 := by
  have hname : ¬ Lua.TrailsBreak "two\nlines" := fun h =>
    absurd (Lua.isName_and_not_oneLine.mpr h).1 (by decide)
  have hglobals : ∀ i ∈ readerMaker.instructions, i.opcode ∈ globalOpcodes →
      readerMaker.globalName i.b = "two\nlines" := by
    decide
  refine .intro (Prototype.namesLined_of_all (fun i hi hop => ?_) (forall_mem_nil _))
    fun index i q hcloses => ?_
  · rw [hglobals i hi hop]
    exact hname
  · have hq : q = stateReader := mem_singleton.mp (Prototype.mem_of_childAt? hcloses.child)
    have hindex : index = 1 := by
      match index, hcloses.instruction, hcloses.opcode with
      | 0, hi, hop => cases hi; cases hop
      | 1, _, _ => rfl
      | 2, hi, hop => cases hi; cases hop
      | 3, hi, hop => cases hi; cases hop
      | _ + 4, hi, _ => cases hi
    subst hq hindex
    refine .intro (Prototype.namesLined_of_all (fun i hi hop => ?_) (by decide))
      fun index i q hinner => ?_
    · exact absurd hop ((by decide : ∀ i ∈ stateReader.instructions, i.opcode ∉ globalOpcodes) i hi)
    · cases Prototype.mem_of_childAt? hinner.child

/-- Both functions are recovered, on eight lines. -/
theorem readerMaker_keeps_to_lines : readerMaker.Contained globalOpcodes 0 ∧
      Context.Reached { simulate := some false } (Context.start { simulate := some false }) ∧
      ∃ r d, readerMaker.build rootName rootName [] (Context.start { simulate := some false })
          = .ok r d ∧
        r.KeepsToLines ∧ r.lineCount = 8 ∧ readerMaker.Contained [.setGlobal] 0 := by
  have hrun : (EStateM.run' (readerMaker.build rootName rootName [])
      (Context.start { simulate := some false })).map RoutineOf.lineCount = some 8 := by
    decide +kernel
  obtain ⟨r, d, hbuild, hlines⟩ := ok_of_run hrun
  have hkeeps := texts_keep_to_their_lines readerMaker { simulate := some false }
  -- The result is known from here on, and not to be computed again.
  generalize readerMaker.build = build at hkeeps hbuild ⊢
  obtain ⟨hforward, -, hback⟩ := hkeeps
  have hkept := hforward _ rootName rootName [] .start (by decide) (forall_mem_nil _)
    readerMaker_contained
  rw [hbuild] at hkept
  exact ⟨readerMaker_contained, .start, r, d, hbuild, hkept, hlines,
    hback _ _ _ _ r d hbuild hkept.lined⟩

/-- A function that assigns a global whose name has a line break behind it. -/
def brokenGlobal : Prototype where
  instructions := [{ opcode := .setGlobal }]
  constants := [.string "abc\n"]

/-- A function that reads an upvalue with a line break in its name of the debug information. -/
def brokenUpvalue : Prototype where
  instructions := [{ opcode := .getUpvalue }]
  upvalueNames := ["a\nb"]

/-- The texts of the statements of a routine, its text, and the number of lines counted in it. -/
def drawn (r : Routine) : List (List String) × Option String × Nat :=
  (r.body.map Statement.texts, (({ width := 2 } : Layout).bodyText r).toOption, r.lineCount)

/-- Each name goes into a statement with its line break, and there is a line for each part of it. -/
theorem names_break_their_lines :
    (∃ r d, brokenGlobal.build rootName rootName [] (Context.start { simulate := some false })
        = .ok r d ∧ drawn r = ([["abc\n", "reg0"]], some "abc\n = reg0", 1)) ∧
      ∃ r d, brokenUpvalue.build rootName rootName [] (Context.start { simulate := some false })
        = .ok r d ∧ drawn r = ([["v0", "a\nb"]], some "-- upvalues: a\nb\nlocal v0 = a\nb", 2) := by
  constructor
  all_goals
    refine ok_of_run ?_
    decide +kernel

end Recovery

end LuaRecovery

/-
The books of a walk.

The report of what cannot be recovered and what shows it in the body come about at different
moments.  `Books` is what holds of a job between two moves: the body has a ledger, and the reports
are those of the ledger, but for what is still to be shown and for the notes on blocks that are
still to be reported.  One lemma for each step says that it keeps the books.  From this follows, by
induction on the prototypes, that every job squares: the ledger of what it hands back has the
reports that were made, whether it gets to the end of its code or is ended by a failure.
-/
import LuaRecovery.Proofs.Ledgers
import LuaRecovery.Proofs.OpenBlocks

namespace LuaRecovery

open List Prototype

/-! ### Places in the code -/

namespace Prototype

variable {index : Nat}

/-- A step takes no instructions past the end, but for a compare without a jump. -/
theorem width_fits (p : Prototype) {i : Instruction} (hindex : index < p.instructions.length)
    (hop : i.opcode.isCompare = false) : index + p.width i index ≤ p.instructions.length := by
  unfold width
  split
  · split
    · rename_i q _
      have hlength : (p.captures q index).length ≤ (p.instructions.drop (index + 1)).length :=
        ((takeWhile_sublist _).trans (take_sublist _ _)).length_le
      rw [length_drop] at hlength
      omega
    · omega
  case h_5 => omega
  all_goals
    rename_i hcompare
    rw [hcompare] at hop
    cases hop

theorem lands_natCast {p : Prototype} (h : index ≤ p.instructions.length) : p.Lands index :=
  .inl ⟨Int.natCast_nonneg index, Int.ofNat_le.mpr h⟩

theorem lands_jump {p : Prototype} {i : Instruction} (hi : p.instructions[index]? = some i)
    (hop : i.opcode = .jump) (h : 0 ≤ i.b) : p.Lands (jumpTarget index i.b) :=
  .inr ⟨index, i, hi, hop, h, rfl⟩

end Prototype

variable {f : Failure} {l : Limits}

theorem Limits.enter_error_index (h : l.enter = .error f) : f.index = none := by
  unfold enter at h
  split at h <;> cases h
  rfl

theorem Limits.cancelFailure?_index {index : Int} (h : l.cancelFailure? index = some f) :
    f.index = some index := by
  unfold cancelFailure? at h
  split at h <;> cases h
  rfl

theorem Limits.budgetFailure?_index {index : Int} (h : l.budgetFailure? index = some f) :
    f.index = some index := by
  obtain ⟨n, -, rfl⟩ := Option.map_eq_some_iff.mp h
  rfl

/-- A compare is followed by a jump, or fails at its place. -/
theorem pairedJump_cases (code : List Instruction) (index : Nat) :
    (∃ jump, pairedJump code index = .ok jump ∧ code[index + 1]? = some jump ∧
      jump.opcode = .jump) ∨ ∃ cause, pairedJump code index = .error ⟨cause, some index⟩ := by
  unfold pairedJump checkPair
  split
  · exact .inr ⟨_, rfl⟩
  · rename_i next hnext
    split
    · exact .inl ⟨next, rfl, hnext, by assumption⟩
    · exact .inr ⟨_, rfl⟩

theorem Failure.locate_of_isSome (h : f.index.isSome = true) (index : Int) :
    f.locate index = f := by
  unfold locate
  obtain ⟨place, hplace⟩ := Option.isSome_iff_exists.mp h
  rw [hplace]
  cases f
  cases hplace
  rfl

theorem Registers.lookUp_anomalies (r : Registers) (index : Int)
    (h : ∀ message ∈ r.anomalies, Anomaly .constantIndexOutOfRange message) :
    ∀ message ∈ (r.lookUp index).anomalies, Anomaly .constantIndexOutOfRange message := by
  unfold lookUp
  split
  · exact h
  · intro message hmessage
    rcases mem_append.mp hmessage with hold | hnew
    · exact h message hold
    · rw [mem_singleton.mp hnew]
      exact .constant index _

namespace Job

open Walking

variable {j : Job} {w w' : Walk} {ds owed owed' : List Diagnostic} {nodes : List Statement}
  {index : Nat} {i : Instruction}

/-- What the blocks emit goes with their notes. -/
theorem ledger_of_utters {notes : List (Int × String)} (h : Utters j.source.Lands notes nodes) :
    j.Ledger (j.blockDiagnostics notes) nodes := by
  induction h with
  | nil => exact .nil
  | marker text role _ ih => exact .silent trivial ih
  | goto target _ ih => exact .goto target ih
  | noted hplace hnote _ ih => exact .block hplace hnote ih

theorem ledger_constants (hindex : index ≤ j.source.instructions.length) {messages : List String}
    (h : ∀ message ∈ messages, Anomaly .constantIndexOutOfRange message) :
    j.Ledger (j.constantDiagnostics index messages) (messages.map .remark) := by
  induction messages with
  | nil => exact .nil
  | cons message rest ih =>
    obtain ⟨hmessage, hrest⟩ := forall_mem_cons.mp h
    exact .anomaly hindex hmessage (ih hrest)

/-! ### The books of a job -/

/-- The body of a job has a ledger, whose reports have been made or are noted with the blocks.
Those that are `owed` have been made and are not in the ledger yet. -/
structure Books (j : Job) (owed : List Diagnostic) (w : Walk) : Prop where
  code : w.frame.code = j.source.instructions
  path : w.frame.path = j.path
  constants : ∀ message ∈ w.frame.registers.anomalies, Anomaly .constantIndexOutOfRange message
  pending : w.frame.blocks.PendsAt j.source.Lands
  balance : ∃ new ds, w.context.diagnostics = j.context.diagnostics ++ new ∧
    j.Ledger ds w.frame.body ∧
    (new ++ j.blockDiagnostics w.frame.blocks.anomalies).Perm (ds ++ owed)

namespace Books

section

variable (h : j.Books owed w)

include h

/-- Reports are made, notes are taken and statements are added; what is owed afterwards is what
the statements do not show. -/
theorem extend {more : List Diagnostic} {notes : List (Int × String)}
    (hcode : w'.frame.code = w.frame.code) (hpath : w'.frame.path = w.frame.path)
    (hconstants : ∀ message ∈ w'.frame.registers.anomalies,
      Anomaly .constantIndexOutOfRange message)
    (hpending : w'.frame.blocks.PendsAt j.source.Lands)
    (hmore : w'.context.diagnostics = w.context.diagnostics ++ more)
    (hnotes : w'.frame.blocks.anomalies = w.frame.blocks.anomalies ++ notes)
    (hbody : w'.frame.body = w.frame.body ++ nodes) (hnodes : j.Ledger ds nodes)
    (hperm : ((more ++ j.blockDiagnostics notes) ++ owed).Perm (ds ++ owed')) :
    j.Books owed' w' := by
  obtain ⟨new, before, hnew, hledger, hbalance⟩ := h.balance
  refine ⟨hcode.trans h.code, hpath.trans h.path, hconstants, hpending, new ++ more, before ++ ds,
    ?_, ?_, ?_⟩
  · rw [hmore, hnew, append_assoc]
  · rw [hbody]
    exact hledger.append hnodes
  · generalize hkept : j.blockDiagnostics w.frame.blocks.anomalies = kept at hbalance
    generalize hadded : j.blockDiagnostics notes = added at hperm
    have hall : j.blockDiagnostics w'.frame.blocks.anomalies = kept ++ added := by
      rw [hnotes, ← hkept, ← hadded]
      exact map_append
    rw [hall, append_assoc, append_assoc before]
    calc
      List.Perm (new ++ (more ++ (kept ++ added))) (new ++ (kept ++ (more ++ added))) :=
        (perm_append_comm_assoc more kept added).append_left new
      List.Perm _ ((new ++ kept) ++ (more ++ added)) := by rw [append_assoc]
      List.Perm _ ((before ++ owed) ++ (more ++ added)) := hbalance.append_right _
      List.Perm _ (before ++ ((more ++ added) ++ owed)) := by
        rw [append_assoc]
        exact perm_append_comm.append_left before
      List.Perm _ (before ++ (ds ++ owed')) := hperm.append_left before

/-- Statements are added that show what was owed. -/
theorem write (hcode : w'.frame.code = w.frame.code) (hpath : w'.frame.path = w.frame.path)
    (hconstants : w'.frame.registers.anomalies = w.frame.registers.anomalies)
    (hblocks : w'.frame.blocks = w.frame.blocks)
    (hdiagnostics : w'.context.diagnostics = w.context.diagnostics)
    (hbody : w'.frame.body = w.frame.body ++ nodes) (hnodes : j.Ledger ds nodes)
    (hperm : owed.Perm (ds ++ owed')) : j.Books owed' w' :=
  h.extend hcode hpath (hconstants ▸ h.constants) (hblocks ▸ h.pending)
    (hdiagnostics.trans (append_nil _).symm)
    ((congrArg Blocks.anomalies hblocks).trans (append_nil _).symm) hbody hnodes hperm

/-- A statement is added that shows nothing. -/
theorem add {s : Statement} (hs : s.IsSilent)
    (hcode : w'.frame.code = w.frame.code) (hpath : w'.frame.path = w.frame.path)
    (hconstants : w'.frame.registers.anomalies = w.frame.registers.anomalies)
    (hblocks : w'.frame.blocks = w.frame.blocks)
    (hdiagnostics : w'.context.diagnostics = w.context.diagnostics)
    (hbody : w'.frame.body = w.frame.body ++ [s]) : j.Books owed w' :=
  h.write hcode hpath hconstants hblocks hdiagnostics hbody (.silent hs .nil) (.refl _)

/-- Nothing has changed that the books are about. -/
theorem same (hcode : w'.frame.code = w.frame.code) (hpath : w'.frame.path = w.frame.path)
    (hconstants : w'.frame.registers.anomalies = w.frame.registers.anomalies)
    (hblocks : w'.frame.blocks = w.frame.blocks)
    (hdiagnostics : w'.context.diagnostics = w.context.diagnostics)
    (hbody : w'.frame.body = w.frame.body) : j.Books owed w' :=
  h.write hcode hpath hconstants hblocks hdiagnostics (hbody.trans (append_nil _).symm) .nil
    (.refl _)

/-- A report as the walk of a job makes it. -/
theorem reported (code : Code) (message : String) (index : Int) :
    w.context.diagnostics ++ [⟨code, message, w.frame.path, some index⟩]
      = w.context.diagnostics ++ [j.diagnostic code message index] := by
  rw [h.path]
  rfl

/-- A remark and a report at once. -/
theorem tell {code : Code} {message : String}
    (hindex : index ≤ j.source.instructions.length) (hanomaly : Anomaly code message) :
    j.Books owed { w with
      frame.body := w.frame.body ++ [.remark message]
      context := w.context.report ⟨code, message, w.frame.path, some (index : Int)⟩ } :=
  h.extend rfl rfl h.constants h.pending (h.reported _ _ _) (append_nil _).symm rfl
    (.anomaly hindex hanomaly .nil) (.refl _)

end

/-- A report of which nothing shows yet. -/
theorem owe (h : j.Books [] w) (code : Code) (message : String) (index : Int) :
    j.Books [j.diagnostic code message index]
      { w with context := w.context.report ⟨code, message, w.frame.path, some index⟩ } :=
  h.extend rfl rfl h.constants h.pending (h.reported _ _ _) (append_nil _).symm
    (append_nil _).symm .nil (.refl _)

variable {E : Stop → Walk → Prop}

/-- The blocks emit something. -/
theorem emitBlocks (h : j.Books owed w) {f : Blocks → List Statement × Blocks}
    (hspeaks : w.frame.blocks.Speaks j.source.Lands (f w.frame.blocks))
    (hpending : (f w.frame.blocks).2.PendsAt j.source.Lands) :
    After (fun _ w' => j.Books owed w') E (Walking.emitBlocks f w) := by
  obtain ⟨notes, hnotes, hutters⟩ := hspeaks
  show j.Books owed { w with
    frame.blocks := (f w.frame.blocks).2
    frame.body := w.frame.body ++ (f w.frame.blocks).1 }
  exact h.extend rfl rfl h.constants hpending (append_nil _).symm hnotes rfl
    (ledger_of_utters hutters) (.refl _)

theorem emitDue (h : j.Books owed w) {index : Int} (hindex : j.source.Lands index) :
    After (fun _ w' => j.Books owed w') E (Walking.emitDue index w) :=
  h.emitBlocks (Blocks.due_speaks _ hindex) (h.pending.due index)

theorem emitDueAll {indexes : List Int} (hindexes : ∀ index ∈ indexes, j.source.Lands index) :
    ∀ {w : Walk}, j.Books owed w →
      After (fun _ w' => j.Books owed w') E (Walking.emitDueAll indexes w) := by
  induction indexes with
  | nil => exact fun h => h
  | cons index rest ih =>
    obtain ⟨hindex, hrest⟩ := forall_mem_cons.mp hindexes
    exact fun h => after_seq (h.emitDue hindex) fun _ _ h' => ih hrest h'

end Books

/-- What holds where the walk of a job stops: the books are right, but for what was recovered of
a function inside. -/
inductive Halts (j : Job) : Stop → Walk → Prop
  | mute {stop : Stop} {w : Walk} (mute : stop.IsMute) : j.Halts stop w
  | here {failure : Failure} {w : Walk} (books : j.Books [] w)
      (place : failure.LiesIn j.source) : j.Halts (.failed failure none) w
  | inside {index : Nat} {i : Instruction} {q : Prototype} {ready : Prepared} {w : Walk}
      {failure : Failure} {inner : Routine} {c : Context} {more : List Diagnostic}
      (opens : j.Opens index i q ready w) (books : j.Books [] w)
      (failed : (Job.inside q ready w).result = .error (.failed failure (some inner)) c)
      (reports : c.diagnostics = w.context.diagnostics ++ more)
      (broken : Broken failure (Job.inside q ready w) more inner) :
      j.Halts (.failed failure (some inner)) (bound { w with context := c } [i.a]
        (.define ready.name inner ready.declares none) w.frame.locals)

theorem halts_of_mute {stop : Stop} (h : stop.IsMute) (index : Int) :
    j.Halts (stop.locate index) w := by
  cases stop with
  | failed failure recovered => exact h.elim
  | scene | option | host => exact .mute trivial

/-- The books stay right across whatever is neither shown nor reported. -/
theorem books_quiet (j : Job) (owed : List Diagnostic) :
    Quiet fun w w' => j.Books owed w → j.Books owed w' where
  refl _ h := h
  trans _ _ _ h₁ h₂ h := h₂ (h₁ h)
  registers _ _ hsame h := h.same rfl rfl hsame.anomalies rfl rfl rfl
  scene _ _ _ h := h.same rfl rfl rfl rfl rfl rfl
  objects _ _ h := h.same rfl rfl rfl rfl rfl rfl
  captured _ _ _ _ h := h.same rfl rfl rfl rfl rfl rfl
  assign _ _ _ _ h := h.add (s := .assign _ _ _ _) trivial rfl rfl rfl rfl rfl rfl
  bind _ _ _ _ _ _ _ _ _ _ _ _ h := h.add (s := .assign _ _ _ _) trivial rfl rfl rfl rfl rfl rfl
  note w index h := h.extend rfl rfl (w.frame.registers.lookUp_anomalies index h.constants)
    h.pending (append_nil _).symm (append_nil _).symm (append_nil _).symm .nil
    (.refl _)
  limits _ _ _ h := h.same rfl rfl rfl rfl rfl rfl
  trace _ _ h := h.same rfl rfl rfl rfl rfl rfl

theorem books_observed (j : Job) (owed : List Diagnostic) :
    Observed fun w w' => j.Books owed w → j.Books owed w' :=
  fun _ _ h => h.same rfl rfl rfl rfl rfl rfl

theorem books_topped (j : Job) (owed : List Diagnostic) :
    Topped fun w w' => j.Books owed w → j.Books owed w' :=
  fun _ _ h => h.same rfl rfl rfl rfl rfl rfl

variable {failure : Failure} {E : Stop → Walk → Prop} {r : Routine} {c : Context} {α : Type}

/-- What is run ends with the books right and nothing owed, or stops with `E`. -/
abbrev Settles (j : Job) (E : Stop → Walk → Prop) : EStateM.Result Stop Walk α → Prop :=
  After (fun _ w' => j.Books [] w') E

/-- What is run at an instruction ends with the books right, or stops with them right. -/
abbrev SettlesAt (j : Job) (index : Nat) : EStateM.Result Stop Walk α → Prop :=
  j.Settles fun stop w' => j.Halts (stop.locate index) w'

/-- What is quiet keeps the books. -/
theorem Books.after {m : Walking α} (h : j.Books owed w)
    (hm : Keeps (fun w w' => j.Books owed w → j.Books owed w') m Stop.IsMute) :
    After (fun _ w' => j.Books owed w') (fun stop _ => stop.IsMute) (m w) :=
  after_mono (hm w) (fun _ _ hw => hw h) fun _ _ hw => hw.1

theorem Books.kept {m : Walking α} (h : j.Books owed w)
    (hm : Keeps (fun w w' => j.Books owed w → j.Books owed w') m Stop.IsMute) :
    After (fun _ w' => j.Books owed w') j.Halts (m w) :=
  after_fault (h.after hm) fun _ _ h => .mute h

theorem Books.quiet {m : Walking α} (h : j.Books owed w)
    (hm : Keeps (fun w w' => j.Books owed w → j.Books owed w') m Stop.IsMute) :
    After (fun _ w' => j.Books owed w') (fun stop w' => j.Halts (stop.locate index) w') (m w) :=
  after_fault (h.after hm) fun _ _ h => halts_of_mute h index

/-! ### Reports are made -/

theorem reportConstants_run (index : Int) (messages : List String) (w : Walk) :
    reportConstants index messages w = .ok () { w with
      frame.body := w.frame.body ++ messages.map .remark
      context.diagnostics := w.context.diagnostics ++ messages.map fun message =>
        ⟨.constantIndexOutOfRange, message, w.frame.path, some index⟩ } := by
  induction messages generalizing w with
  | nil => simp only [map_nil, append_nil]; rfl
  | cons message rest ih =>
    refine (ih _).trans ?_
    simp only [map_cons, append_assoc, singleton_append, Context.report]

theorem reportBlocks_run (notes : List (Int × String)) (w : Walk) :
    reportBlocks notes w = .ok () { w with
      context.diagnostics := w.context.diagnostics ++ notes.map fun note =>
        ⟨.unbalancedBlock, note.2, w.frame.path, some note.1⟩ } := by
  induction notes generalizing w with
  | nil => simp only [map_nil, append_nil]; rfl
  | cons note rest ih =>
    refine (ih _).trans ?_
    simp only [map_cons, append_assoc, singleton_append, Context.report]

/-- What was noted is reported, and the notes on constants are shown. -/
theorem reportAnomalies_run (index : Int) (w : Walk) : reportAnomalies index w = .ok () { w with
      frame.registers := w.frame.registers.drain.2
      frame.blocks := w.frame.blocks.drain.2
      frame.body := w.frame.body ++ w.frame.registers.anomalies.map .remark
      context.diagnostics := w.context.diagnostics
        ++ (w.frame.registers.anomalies.map fun message =>
          ⟨.constantIndexOutOfRange, message, w.frame.path, some index⟩)
        ++ w.frame.blocks.anomalies.map fun note =>
          ⟨.unbalancedBlock, note.2, w.frame.path, some note.1⟩ } := by
  have hconstants := reportConstants_run index w.frame.registers.anomalies
    { w with frame.registers := w.frame.registers.drain.2 }
  exact (run_bind hconstants _).trans (reportBlocks_run w.frame.blocks.anomalies _)

theorem Books.reportAnomalies (h : j.Books [] w) (hindex : index ≤ j.source.instructions.length) :
    After (fun _ w' => j.Books [] w' ∧ w'.frame.blocks.anomalies = []) E
      (Walking.reportAnomalies index w) := by
  obtain ⟨new, ds, hnew, hledger, hbalance⟩ := h.balance
  have hshown := hledger.append (ledger_constants hindex h.constants)
  rw [reportAnomalies_run, hnew, h.path]
  generalize hconstants : j.constantDiagnostics index w.frame.registers.anomalies = constants
    at hshown
  generalize hblocks : j.blockDiagnostics w.frame.blocks.anomalies = blocks at hbalance
  refine ⟨⟨h.code, h.path, nofun, h.pending, new ++ (constants ++ blocks), ds ++ constants, ?_,
    hshown, ?_⟩, rfl⟩
  · rw [← hconstants, ← hblocks]
    exact (append_assoc _ _ _).trans (append_assoc _ _ _)
  · show List.Perm ((new ++ (constants ++ blocks)) ++ []) ((ds ++ constants) ++ [])
    rw [append_nil] at hbalance ⊢
    calc
      List.Perm (new ++ (constants ++ blocks)) (new ++ (blocks ++ constants)) :=
        perm_append_comm.append_left new
      List.Perm _ ((new ++ blocks) ++ constants) := by rw [append_assoc]
      List.Perm _ ((ds ++ constants) ++ []) := by
        rw [append_nil]
        exact hbalance.append_right constants

/-! ### Calls and returns -/

/-- The number of values is a guess only if the list is open. -/
theorem argumentRegisters_guesses (base count : Int) (w : Walk) :
    Once (fun list _ => list.2 = true → count = 0) (argumentRegisters base count w) := by
  unfold argumentRegisters
  by_cases hcount : count = 0
  · exact after_mono (after_any _) (fun _ _ _ _ => hcount) fun _ _ _ => trivial
  · rw [if_pos hcount]
    exact after_seq (after_any _) fun _ _ _ => nofun

/-- The results of a call are held open exactly for an instruction that takes an open list. -/
theorem holdsOpen_next (i : Instruction) (index : Nat) (w : Walk) : After
      (fun held w' => w' = w ∧ (held = true ↔ i.c = 0 ∧ ∃ next,
        w.frame.code[index + 1]? = some next ∧ (next.opcode = .call ∨ next.opcode = .ret) ∧
        next.b = 0))
      (fun stop _ => stop.IsMute) (holdsOpen i index w) := by
  unfold holdsOpen
  by_cases hc : i.c = 0
  · rw [if_pos hc]
    refine after_state ?_
    cases hnext : w.frame.code[index + 1]? with
    | none => exact ⟨rfl, by simp⟩
    | some next => exact ⟨rfl, by simp [hc]⟩
  · rw [if_neg hc]
    exact ⟨rfl, by simp [hc]⟩

/-- The results of a call are written down: a statement shows what was owed, or they are held
open. -/
theorem Books.placeResults {comment : Option String} {outcome : Scene.CallOutcome}
    (h : j.Books owed w)
    (hshown : ∀ s : Statement, s.IsSilent → s.comment? = comment → j.Ledger owed [s])
    (hheld : i.c = 0 → (∃ next, j.source.instructions[index + 1]? = some next ∧
      (next.opcode = .call ∨ next.opcode = .ret) ∧ next.b = 0) → j.Ledger owed []) :
    j.Settles (fun stop _ => stop.IsMute) (placeResults i index outcome comment w) := by
  have hperm : owed.Perm (owed ++ []) := by rw [append_nil]
  unfold Walking.placeResults
  dsimp only
  split
  · refine after_bind (after_mono (bindLocal_writes _ _ _ w) ?_ fun _ _ h => h.1.mute)
    rintro name _ ⟨scene, objects, locals, declares, rfl, -⟩
    exact h.write rfl rfl rfl rfl rfl rfl (hshown (.assign _ _ _ _) trivial rfl) hperm
  split
  · refine after_mono (bindMany_writes _ _ _ w) ?_ fun _ _ h => h.1.mute
    rintro _ _ ⟨scene, objects, locals, registers, targets, declares, rfl, -, -, -, hchanges⟩
    exact h.write rfl rfl hchanges.anomalies rfl rfl rfl (hshown (.assign _ _ _ _) trivial rfl)
      hperm
  · refine after_seq (holdsOpen_next i index w) ?_
    rintro held w₁ ⟨rfl, hnext⟩
    cases held with
    | true =>
      obtain ⟨hc, hnext⟩ := hnext.mp rfl
      rw [h.code] at hnext
      exact after_bind (after_modify (after_modify (h.write rfl rfl rfl rfl rfl
        (append_nil _).symm (hheld hc hnext) hperm)))
    | false =>
      have hquiet := books_quiet j []
      have hemitted : j.Books [] { w₁ with
          frame.body := w₁.frame.body ++ [.call outcome.callee outcome.args comment] } :=
        h.write rfl rfl rfl rfl rfl rfl (hshown (.call _ _ _) trivial rfl) hperm
      refine after_bind (after_modify (hemitted.after ?_))
      refine keeps_bind hquiet.trans (fun w => hquiet.refl w) fun found => ?_
      exact keeps_ite (clearRegisters_keeps hquiet.toCarried fun _ _ => trivial)
        (keeps_pure hquiet.refl ())

/-- A guess is reported and shown by the statement that comes of it. -/
theorem Books.guess (h : j.Books [] w) (ambiguous : Bool) {message : String}
    {m : Walking Unit} (hindex : index < j.source.instructions.length)
    (hm : ∀ (owed : List Diagnostic) (w' : Walk), j.Books owed w' →
      (∀ s : Statement, s.IsSilent → s.comment? = guessComment ambiguous → j.Ledger owed [s]) →
      ((ambiguous = true → j.source.HoldsOpen index) → j.Ledger owed []) →
      j.Settles (fun stop _ => stop.IsMute) (m w')) :
    j.Settles (fun stop _ => stop.IsMute)
      ((reportGuess ambiguous message index >>= fun _ => m) w) := by
  cases ambiguous with
  | false => exact hm [] w h (fun _ hs _ => .silent hs .nil) fun _ => .nil
  | true =>
    refine hm _ _ (h.owe .ambiguousArgCount message index) (fun _ hs hcomment => ?_) ?_
    · exact .guess hindex hs hcomment .nil
    · exact fun hheld => .held (hheld rfl) .nil

theorem Books.call (h : j.Books [] w) (hi : j.source.instructions[index]? = some i)
    (hop : i.opcode = .call) :
    j.Settles (fun stop _ => stop.IsMute) (call i index w) := by
  have hquiet := books_quiet j
  refine after_seq (h.after (readRegister_keeps (hquiet []).toCarried trivial))
    fun callee w₁ h₁ => ?_
  have hkept := argumentRegisters_keeps (T := Stop.IsMute) (hquiet []) (books_topped j []) i.a i.b
  have hlist := after_and (h₁.after hkept) (argumentRegisters_guesses i.a i.b w₁)
  refine after_seq (after_fault hlist fun _ _ h => h.1) ?_
  rintro ⟨registers, ambiguous⟩ w₂ ⟨h₂, hguess⟩
  refine after_seq (h₂.after (readTexts_keeps (hquiet []).toCarried fun _ _ => trivial))
    fun args w₃ h₃ => ?_
  refine h₃.guess ambiguous (List.getElem?_eq_some_iff.mp hi).1 fun owed w₄ h₄ hshown hheld => ?_
  have hlog : Logged fun w w' => j.Books owed w → j.Books owed w' :=
    fun _ _ h => h.same rfl rfl rfl rfl rfl rfl
  refine after_seq (h₄.after (makeCall_keeps (hquiet owed).toCarried hlog _))
    fun outcome w₅ h₅ => ?_
  refine after_seq (h₅.after (clearRegisters_keeps (hquiet owed).toCarried fun _ _ => trivial))
    fun _ w₆ h₆ => ?_
  refine h₆.placeResults hshown ?_
  rintro hc ⟨next, hnext, hopens⟩
  exact hheld fun hambiguous => ⟨i, next, hi, hop, hguess hambiguous, hc, hnext, hopens⟩

theorem Books.ret (h : j.Books [] w) (hindex : index < j.source.instructions.length) :
    j.Settles (fun stop _ => stop.IsMute) (ret i index w) := by
  have hquiet := books_quiet j
  have hemit : ∀ {owed : List Diagnostic} {w : Walk} {s : Statement}, j.Books owed w →
      j.Ledger owed [s] → j.Settles (fun stop _ => stop.IsMute) (emit s w) := by
    intro owed w s h hs
    show j.Books [] { w with frame.body := w.frame.body ++ [s] }
    exact h.write rfl rfl rfl rfl rfl rfl hs (by rw [append_nil])
  unfold Walking.ret
  split
  · refine after_state ?_
    split
    · exact hemit h (.silent trivial .nil)
    · exact h
  split
  · refine after_seq (h.after (readTexts_keeps (hquiet []).toCarried fun _ _ => trivial))
      fun values w₁ h₁ => ?_
    exact hemit h₁ (.silent trivial .nil)
  · refine after_seq (h.after (argumentRegisters_keeps (hquiet []) (books_topped j []) _ _))
      fun list w₁ h₁ => ?_
    refine after_seq (h₁.after (readTexts_keeps (hquiet []).toCarried fun _ _ => trivial))
      fun values w₂ h₂ => ?_
    exact h₂.guess list.2 hindex fun owed w₃ h₃ hshown _ => hemit h₃ (hshown _ trivial rfl)

/-! ### The other opcodes -/

theorem Books.unknown (h : j.Books [] w) (hindex : index < j.source.instructions.length) :
    j.SettlesAt index (unknown i index w) :=
  after_bind (after_askHost (after_bind (after_modify (after_modify
    (h.tell (Nat.le_of_lt hindex) (.opcode i))))) fun _ _ => .mute trivial)

theorem Books.missingChild (h : j.Books [] w) (hindex : index < j.source.instructions.length)
    (count : Nat) :
    j.SettlesAt index (missingChild count i index w) := by
  refine after_bind (after_askHost ?_ fun _ _ => .mute trivial)
  refine after_bind (after_modify (after_bind (after_modify (after_bind (after_modify ?_)))))
  exact (h.tell (Nat.le_of_lt hindex) (.closure i.b count)).same rfl rfl rfl rfl rfl rfl

theorem Books.jump (h : j.Books [] w) (hi : j.source.instructions[index]? = some i)
    (hop : i.opcode = .jump) :
    j.SettlesAt index (Walking.jump i index w) := by
  have hindex := (List.getElem?_eq_some_iff.mp hi).1
  refine after_bind (after_askHost ?_ fun _ _ => .mute trivial)
  refine h.emitBlocks (Blocks.jump_speaks _ (lands_natCast (Nat.le_of_lt hindex)) _) ?_
  have hnext : j.source.Lands (index + 1 : Nat) := lands_natCast hindex
  exact h.pending.jump hnext fun hforward => lands_jump hi hop hforward

/-- A compare opens a block, or fails at its place for want of a jump. -/
theorem Books.compare (h : j.Books [] w) (hindex : index < j.source.instructions.length)
    (rel : Relation) :
    j.SettlesAt index (compare rel i index w) := by
  have hquiet := books_quiet j []
  refine after_state ?_
  rcases pairedJump_cases w.frame.code index with ⟨jump, hpaired, hjump, hop⟩ | ⟨cause, hpaired⟩
  · rw [hpaired]
    rw [h.code] at hjump
    refine after_seq (h.quiet (readOperand_keeps hquiet fun _ _ => trivial)) fun left w₁ h₁ => ?_
    refine after_seq (h₁.quiet (readOperand_keeps hquiet fun _ _ => trivial)) fun right w₂ h₂ => ?_
    refine after_seq (h₂.quiet (hquiet.keeps simulating_offstage)) fun simulated w₃ h₃ => ?_
    refine h₃.emitBlocks (Blocks.openConditional_speaks _ _ _ _) (h₃.pending.openConditional ?_ _)
    exact fun hforward => lands_jump hjump hop hforward
  · rw [hpaired]
    exact .here h ⟨index, rfl, hindex⟩

/-! ### Functions inside -/

theorem Due.instruction (h : j.Due index i w) : j.source.instructions[index]? = some i := by
  obtain ⟨hreached, hi, -⟩ := h
  rwa [hreached.owns.code] at hi

/-- The function of a closure is recovered: what it reports comes with its own ledger. -/
theorem Books.define {q : Prototype} {ready : Prepared} (h : j.Books [] w)
    (hopens : j.Opens index i q ready w) (hrecovered : (Job.inside q ready w).result = .ok r c)
    (hsquares : (Job.inside q ready w).Squares (.ok r c)) :
    j.Books [] (bound { w with context := c } [i.a] (.define ready.name r ready.declares none)
      w.frame.locals) := by
  obtain ⟨new, ds, hnew, hledger, hperm⟩ := hsquares
  refine h.extend rfl rfl h.constants h.pending hnew (append_nil _).symm rfl
    (.inside hopens hrecovered hledger .nil) ?_
  show List.Perm ((new ++ []) ++ []) ((ds ++ []) ++ [])
  simpa using hperm

theorem Books.closure (h : j.Books [] w) (hdue : j.Due index i w) (hop : i.opcode = .closure)
    (hinside : ∀ k : Job, k.source ∈ j.source.children → k.Squares k.result) :
    j.SettlesAt index (closure j.children i index w) := by
  have hindex := (List.getElem?_eq_some_iff.mp hdue.instruction).1
  have hquiet := books_quiet j []
  have hbuilders := j.childAt?_children i.b
  cases hchild : j.source.childAt? i.b with
  | none =>
    rw [hchild] at hbuilders
    unfold Walking.closure
    rw [hbuilders]
    exact h.missingChild hindex _
  | some q =>
    rw [hchild] at hbuilders
    rw [closure_eq hbuilders]
    have hprepare : j.SettlesAt index (prepare q.asChild i index w) := by
      refine after_mono (prepare_after (T := Stop.IsMute) (hquiet.restrict fun _ _ => trivial) _
        index w) ?_ fun stop _ hstop => halts_of_mute hstop.1 index
      rintro ready w' ⟨scene, objects, locals, -, -, -, -, hkept⟩
      exact hkept (h.same rfl rfl rfl rfl rfl rfl)
    refine after_seq_run hprepare fun ready w₁ hprepared h₁ => ?_
    have hopens : j.Opens index i q ready w₁ := ⟨hdue, hop, hchild, hprepared⟩
    have hsquares := hinside (Job.inside q ready w₁) (mem_of_childAt? hchild)
    refine after_bind (buildChild_after (fun r c hrun => ?_) (fun failure r c hrun => ?_)
      fun stop c hrun hnone => ?_)
    all_goals
      change (Job.inside q ready w₁).result = _ at hrun
      rw [hrun] at hsquares
    · have h₂ := h₁.define hopens hrun hsquares
      exact after_seq (h₂.quiet (setRegister_keeps hquiet.toCarried trivial _)) fun _ _ h => h
    · obtain ⟨new, hnew, hbroken⟩ := hsquares
      rw [Stop.locate, Failure.locate_of_isSome hbroken.index_isSome]
      exact .inside hopens h₁ hrun hnew hbroken
    · match stop, hnone with
      | .failed failure none, _ =>
        -- The function inside could not be entered: the closure is the place of the failure.
        obtain ⟨hsame, hnowhere⟩ := hsquares
        refine .here (h₁.same rfl rfl rfl rfl hsame rfl) ⟨index, ?_, hindex⟩
        rw [Failure.locate, hnowhere]
        rfl
      | .scene _, _ => exact .mute trivial
      | .option _, _ => exact .mute trivial
      | .host _, _ => exact .mute trivial

/-! ### Instructions -/

/-- A step takes no more instructions than there are. -/
theorem step_fits (hcode : w.frame.code = j.source.instructions)
    (hi : j.source.instructions[index]? = some i) :
    Once (fun taken _ => index + taken ≤ j.source.instructions.length)
      (step j.children i index w) := by
  have hindex := (List.getElem?_eq_some_iff.mp hi).1
  have htaken : Once (fun taken _ => taken = j.source.width i index)
      (step j.children i index w) := step_taken hcode i index
  have hcompare : ∀ rel, Once (fun taken _ => index + taken ≤ j.source.instructions.length)
    ((compare rel i index >>= fun _ => pure 2) w) := by
    intro rel
    refine after_seq (Q := fun _ _ => index + 1 < j.source.instructions.length) ?_
      fun _ _ hnext => hnext
    refine after_state ?_
    rcases pairedJump_cases w.frame.code index with ⟨jump, hpaired, hjump, -⟩ | ⟨cause, hpaired⟩
    · rw [hcode] at hjump
      rw [hpaired]
      refine after_imp (after_any _) (fun _ _ _ => ?_)
      exact (List.getElem?_eq_some_iff.mp hjump).1
    · rw [hpaired]
      exact trivial
  have hwidth : i.opcode.isCompare = false →
      Once (fun taken _ => index + taken ≤ j.source.instructions.length)
        (step j.children i index w) := by
    intro hop
    refine after_imp htaken (fun taken _ heq => ?_)
    rw [heq]
    exact j.source.width_fits hindex hop
  cases hop : i.opcode with
  | compareEq =>
    unfold step
    rw [hop]
    exact hcompare .eq
  | compareLt =>
    unfold step
    rw [hop]
    exact hcompare .lt
  | compareLe =>
    unfold step
    rw [hop]
    exact hcompare .le
  | _ => exact hwidth (by rw [hop]; rfl)

theorem Books.step (h : j.Books [] w) (hdue : j.Due index i w)
    (hinside : ∀ k : Job, k.source ∈ j.source.children → k.Squares k.result) :
    j.SettlesAt index (step j.children i index w) := by
  have hi := hdue.instruction
  have hindex := (List.getElem?_eq_some_iff.mp hi).1
  have htaking : ∀ {m : Walking Unit} {taken : Nat}, j.Settles (fun stop _ => stop.IsMute) (m w) →
      j.SettlesAt index ((m >>= fun _ => pure taken) w) := by
    intro m taken hm
    refine after_seq (after_fault hm fun _ _ hmute => ?_) fun _ _ h => h
    exact halts_of_mute hmute index
  have hcompare : ∀ rel, j.SettlesAt index ((Walking.compare rel i index >>= fun _ => pure 2) w) :=
    fun rel => after_seq (h.compare hindex rel) fun _ _ h => h
  by_cases hquiet : i.opcode.isStructural = false ∧ i.opcode.isTelling = false
  · exact h.quiet (quietStep_keeps (books_quiet j []) j.children i index hquiet.1 hquiet.2)
  unfold Walking.step
  cases hop : i.opcode with
  | call => exact htaking (h.call hi hop)
  | ret => exact htaking (h.ret hindex)
  | unknown => exact after_seq (h.unknown hindex) fun _ _ h => h
  | closure => exact after_seq (h.closure hdue hop hinside) fun _ _ h => h
  | compareEq => exact hcompare .eq
  | compareLt => exact hcompare .lt
  | compareLe => exact hcompare .le
  | jump => exact after_seq (h.jump hi hop) fun _ _ h => h
  | _ =>
    rw [hop] at hquiet
    exact absurd ⟨rfl, rfl⟩ hquiet

/-- What is done before a step keeps the books, and a limit that is reached is so at its place. -/
theorem Books.approach (h : j.Books [] w) (hindex : index < j.source.instructions.length) :
    j.Settles j.Halts (approach i index w) := by
  refine after_seq (Q := fun _ w' => j.Books [] w') ?_ fun _ w₁ h₁ => ?_
  · refine after_state (after_bind (after_modify ?_))
    cases hfailure : w.context.limits.cancelFailure? index with
    | none => exact h.same rfl rfl rfl rfl rfl rfl
    | some failure =>
      exact .here (h.same rfl rfl rfl rfl rfl rfl) ⟨index, Limits.cancelFailure?_index hfailure,
        hindex⟩
  refine after_seq (Q := fun _ w' => j.Books [] w') ?_ fun _ w₂ h₂ => ?_
  · refine after_state (after_bind (after_modify ?_))
    refine after_bind (after_askHost ?_ fun _ _ => .mute trivial)
    cases hfailure : w₁.context.limits.consume.budgetFailure? index with
    | none => exact h₁.same rfl rfl rfl rfl rfl rfl
    | some failure =>
      exact .here (h₁.same rfl rfl rfl rfl rfl rfl) ⟨index, Limits.budgetFailure?_index hfailure,
        hindex⟩
  refine after_seq (h₂.emitDue (lands_natCast (Nat.le_of_lt hindex))) fun _ w₃ h₃ => ?_
  exact h₃.kept (flushOverwritten_keeps (books_quiet j []).toCarried fun _ => trivial)

theorem Books.conclude (h : j.Books [] w) {mark taken : Nat}
    (hindex : index < j.source.instructions.length)
    (hfits : index + taken ≤ j.source.instructions.length) :
    j.Settles j.Halts (conclude i index mark taken w) := by
  have hrange : ∀ k ∈ range (index + 1) (index + taken - 1), j.source.Lands k := by
    intro k hk
    obtain ⟨n, hn, rfl⟩ := mem_map.mp hk
    rw [List.mem_range] at hn
    exact .inl (by omega)
  refine after_seq (Books.emitDueAll hrange h) fun _ w₁ h₁ => ?_
  refine after_seq (h₁.reportAnomalies (Nat.le_of_lt hindex)) fun _ w₂ h₂ => ?_
  exact after_seq (h₂.1.kept (traceStep_keeps (books_quiet j []) index i mark)) fun _ _ h => h

theorem Books.advance (h : j.Books [] w) (hreached : j.At index w)
    (hi : w.frame.code[index]? = some i)
    (hinside : ∀ k : Job, k.source ∈ j.source.children → k.Squares k.result) :
    j.Settles j.Halts (advance j.children i index w) := by
  have hindex : index < j.source.instructions.length :=
    h.code ▸ (List.getElem?_eq_some_iff.mp hi).1
  refine advance_after_approach (h.approach hindex) fun mark w₁ happroached h₁ => ?_
  have hdue : j.Due index i w₁ := ⟨hreached, hi, happroached⟩
  have hstep := after_and (h₁.step hdue hinside) (step_fits h₁.code hdue.instruction)
  refine after_seq (after_locating_at (after_fault hstep fun _ _ h => h.1)) ?_
  rintro taken w₂ ⟨h₂, hfits⟩
  exact h₂.conclude hindex hfits

/-! ### Whole jobs -/

theorem Books.opening (h : j.Books [] w) (children : List Child) :
    j.Settles j.Halts (opening children w) := by
  have hquiet := books_quiet j []
  refine after_state ?_
  refine after_seq (h.kept (log_keeps hquiet _)) fun _ w₁ h₁ => ?_
  exact h₁.kept (observeStrings_keeps hquiet (books_observed j []) _)

/-- At the end no note is left. -/
theorem Books.windUp (h : j.Books [] w) :
    After (fun _ w' => j.Books [] w' ∧ w'.frame.blocks.anomalies = []) j.Halts (windUp w) := by
  have hquiet := books_quiet j []
  refine after_state ?_
  refine after_seq (h.kept (flushAll_keeps hquiet.toCarried (fun _ => trivial) _)) fun _ w₁ h₁ => ?_
  rw [h.code]
  have hend : j.source.Lands j.source.instructions.length := lands_natCast (Nat.le_refl _)
  refine after_seq (h₁.emitBlocks (Blocks.finish_speaks _ hend h₁.pending.pendingIndexes)
    (h₁.pending.finish _)) fun _ w₂ h₂ => ?_
  exact h₂.reportAnomalies (Nat.le_refl _)

theorem Books.addParams (count : Nat) : ∀ {f : Frame} {c : Context} (scene : Scene) (index : Nat),
    j.Books [] ⟨f, c⟩ → j.Books [] ⟨(f.addParams scene index count).1, c⟩ := by
  induction count with
  | zero => exact fun _ _ h => h
  | succ count ih => exact fun _ _ h => ih _ _ (h.same rfl rfl rfl rfl rfl rfl)

theorem books_entered (j : Job) (limits : Limits) : j.Books [] (j.entered limits) :=
  Books.addParams _ _ _ ⟨rfl, rfl, nofun, nofun, [], [], (append_nil _).symm, .nil, .refl _⟩

theorem result_of_refused (h : j.context.limits.enter = .error failure) :
    j.result = .error (.failed failure none) { j.context with
      scene := (Frame.start j.source j.name j.path j.upvalues j.context.scene).2 } := by
  unfold result
  rw [build_eq, buildWith_refused h]

/-- A function that was entered hands something back, even if a failure ends its walk. -/
theorem IsEntered.recovers (h : j.IsEntered) : j.result ≠ .error (.failed failure none) c := by
  obtain ⟨limits, henter⟩ := h
  intro hresult
  cases henter.symm.trans (enter_of_nothing_recovered hresult)

/-- A function from which something came back was entered. -/
theorem entered_of_result (h : ∀ failure c, j.result ≠ .error (.failed failure none) c) :
    j.IsEntered := by
  cases henter : j.context.limits.enter with
  | error failure => exact absurd (result_of_refused henter) (h failure _)
  | ok limits => exact ⟨limits, henter⟩

theorem entered_of_ok (h : j.result = .ok r c) : j.IsEntered :=
  entered_of_result fun _ _ hresult => by cases h.symm.trans hresult

theorem entered_of_recovered (h : j.result = .error (.failed failure (some r)) c) : j.IsEntered :=
  entered_of_result fun _ _ hresult => by cases h.symm.trans hresult

/-- If a failure arose in the walk of a job itself then all functions inside that it had entered
were recovered whole. -/
theorem whole_of_walk {limits : Limits} (henter : j.context.limits.enter = .ok limits)
    (hrun : walk j.children (j.entered limits) = .error (.failed failure none) w) : j.Whole := by
  intro index i q ready v hopens hentered
  obtain ⟨before, hdue, hstep⟩ := hopens.step
  obtain ⟨limits', mark, fuel, henter', hwalk⟩ := hdue.walk
  cases henter.symm.trans henter'
  cases hinner : (Job.inside q ready v).result with
  | ok r c => exact ⟨r, c, rfl⟩
  | error stop c =>
    -- Otherwise the walk would have stopped as that of the function inside.
    have hbuilt : After (fun _ _ => False) (fun stop' _ => stop' = stop)
        (buildChild q.asChild i.a ready.name ready.upvalues ready.declares v) := by
      refine buildChild_after (fun r c hbuild => ?_) (fun failure r c hbuild => ?_)
        fun stop' c hbuild _ => ?_
      all_goals cases hinner.symm.trans hbuild
      · rfl
      · rfl
    have hstops : After (fun _ _ => False) (fun stop' _ => stop' = stop.locate index)
        (walk j.children (j.entered limits)) := by
      rw [hwalk]
      refine after_seq (Q := fun _ _ => False) (after_locating_at ?_) fun _ _ h => h.elim
      rw [hstep]
      exact after_seq (after_fault hbuilt fun _ _ h => by rw [h]) fun _ _ h => h.elim
    rw [hrun] at hstops
    match stop, hstops with
    | .failed _ none, _ => exact absurd hinner hentered.recovers

theorem Halts.broken {recovered : Option Routine} (h : j.Halts (.failed failure recovered) w)
    (hwhole : recovered = none → j.Whole) :
    ∃ new, w.context.diagnostics = j.context.diagnostics ++ new ∧
      Broken failure j new (w.frame.abandon failure recovered).routine := by
  have hspeaks : w.frame.blocks.Speaks (fun _ => True)
      (w.frame.blocks.finish w.frame.code.length) :=
    w.frame.blocks.finish_speaks trivial fun _ _ => trivial
  obtain ⟨notes, -, hrest⟩ := hspeaks
  cases h with
  | mute hmute => exact hmute.elim
  | here hbooks hplace =>
    obtain ⟨new, ds, hnew, hledger, hbalance⟩ := hbooks.balance
    rw [append_nil] at hbalance
    refine ⟨new, hnew, .here (hwhole rfl) hplace hledger hbalance hrest ?_⟩
    exact append_assoc _ [failure.remark] _
  | @inside index i q ready v failure inner c more hopens hbooks hfailed hreports hbroken =>
    obtain ⟨new, ds, hnew, hledger, hbalance⟩ := hbooks.balance
    rw [append_nil] at hbalance
    refine ⟨new ++ more, ?_, .inside hopens hfailed hbroken hledger hbalance hrest ?_⟩
    · rw [← append_assoc, ← hnew]
      exact hreports
    · exact (append_assoc _ [] _).trans (append_assoc _ [_] _)

/-- **Every job squares.** -/
theorem squares (j : Job) : j.Squares j.result := by
  refine induct_inside (P := fun j => j.Squares j.result) j fun j ih => ?_
  cases henter : j.context.limits.enter with
  | error failure =>
    rw [result_of_refused henter]
    exact ⟨rfl, Limits.enter_error_index henter⟩
  | ok limits =>
    have hwalk := j.walk_after (I := fun _ w => j.Books [] w) henter
      ((j.books_entered limits).opening j.children)
      (fun index i w hreached hi h => h.advance hreached hi ih)
      fun _ _ _ h => h.windUp
    rw [result_of_enter henter]
    cases hrun : walk j.children (j.entered limits) with
    | ok _ w =>
      rw [hrun] at hwalk
      obtain ⟨hbooks, hnone⟩ := hwalk
      obtain ⟨new, ds, hnew, hledger, hbalance⟩ := hbooks.balance
      rw [hnone] at hbalance
      refine ⟨new, ds, hnew, hledger, ?_⟩
      simpa [blockDiagnostics] using hbalance
    | error stop w =>
      rw [hrun] at hwalk
      cases stop with
      | failed failure recovered =>
        refine Halts.broken hwalk ?_
        rintro rfl
        exact whole_of_walk henter hrun
      | scene fault => trivial
      | option fault => trivial
      | host fault => trivial

/-- A failure that ended a job arose in it or in a function inside, at a place in its code. -/
theorem Broken.arises {new : List Diagnostic} (h : Broken failure j new r) : ∀ {c : Context},
    j.result = .error (.failed failure (some r)) c →
      ∃ k, j.Runs k ∧ k.Arises failure ∧ failure.LiesIn k.source := by
  induction h with
  | here hwhole hplace =>
    intro _ hresult
    exact ⟨_, .self, ⟨entered_of_recovered hresult, ⟨_, _, hresult⟩, hwhole⟩, hplace⟩
  | inside hopens hfailed _ _ _ _ _ ih =>
    intro _ _
    obtain ⟨k, hruns, hk⟩ := ih hfailed
    exact ⟨k, .inside hopens (entered_of_recovered hfailed) hruns, hk⟩

end Job

end LuaRecovery

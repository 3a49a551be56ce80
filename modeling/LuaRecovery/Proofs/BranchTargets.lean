/-
Branches end where their jumps go.

A compare whose jump goes forward opens a branch, and the branch is closed where the jump goes,
whatever the code between does: behind all that belongs to the instructions before that index, and
before all that belongs to the rest.  If the jump right before that index gives the branch an else
part, then the branch is divided there instead, and closed where that other jump goes.

This holds wherever no note on the blocks is taken.  `Follows` is what a walk without notes keeps:
the blocks, the body and the passages so far go together, and the passages cover the body.  An
instruction keeps this, and so does the end of the walk, which leaves no block open.
-/
import LuaRecovery.Proofs.BlockPlaces
import LuaRecovery.Proofs.ShownReports
import LuaRecovery.Proofs.WalkPassages

namespace LuaRecovery

open List Blocks

theorem nested_remarks (texts : List String) : Nested (texts.map .remark) := by
  induction texts with
  | nil => exact .nil
  | cons text rest ih => exact (nested_remark text).append ih

/-- The offset of the instruction at an index. -/
def offsetAt (code : List Instruction) (index : Int) : Int :=
  (code[index.toNat]?.map (·.b)).getD 0

namespace Walking

/-- A step takes no note back. -/
theorem Effect.quiet {index taken : Nat} {i : Instruction} {w w' : Walk}
    (h : Effect index i w taken w') (hquiet : w'.frame.blocks.anomalies = []) :
    w.frame.blocks.anomalies = [] := by
  cases h with
  | adds _ _ hblocks => rw [← hblocks, hquiet]
  | compares _ _ _ hblocks =>
    rw [hblocks] at hquiet
    exact Aims.Placed.quiet_of_speaks (openConditional_speaks (P := fun _ => True) _ _ _ _) hquiet
  | jumps _ hblocks =>
    rw [hblocks] at hquiet
    exact Aims.Placed.quiet_of_speaks (jump_speaks (P := fun _ => True) _ trivial _) hquiet

end Walking

namespace Job

open Walking Passage

variable {j : Job} {index taken : Nat} {i : Instruction} {w w₁ v w' : Walk} {r : Routine}
  {d : Context} {passages : List Passage} {past : List Block}

/-- No note on the blocks of the function was reported. -/
def Untroubled (j : Job) (d : Context) : Prop :=
  ∀ x ∈ d.diagnostics.drop j.context.diagnostics.length, x.code = .unbalancedBlock →
    x.function ≠ j.path

/-- The jump at the index `k` gives the branch that was opened at an index an else part. -/
def Divides (j : Job) (index : Int) (k : Nat) (jump : Instruction) : Prop :=
  ∃ w inner, j.Due k jump w ∧ jump.opcode = .jump ∧
    w.frame.blocks.closers.contains (k : Int) = false ∧ 0 ≤ jump.b ∧
    w.frame.blocks.elseBranch? k (jumpTarget k jump.b) = some inner ∧ inner.openedAt = index

/-- Where the branches of a function are to end. -/
def aims (j : Job) : Aims where
  target index := jumpTarget (index + 1) (offsetAt j.source.instructions (index + 1))
  moved index last := ∃ k jump, j.Divides index k jump ∧ last = jumpTarget k jump.b

theorem aims_target {jump : Instruction} (h : j.source.instructions[index + 1]? = some jump) :
    j.aims.target index = jumpTarget (index + 1) jump.b := by
  have hnext : ((index : Int) + 1).toNat = index + 1 := by omega
  show jumpTarget _ (offsetAt _ _) = _
  rw [offsetAt, hnext, h]
  rfl

theorem nests_children (j : Job) : ∀ child ∈ j.children, child.build.Nests :=
  j.forall_children (X := Builder.Nests) Prototype.build_nests

/-- The walk of a job is ready for every instruction to which it gets. -/
theorem At.orderly (h : j.At index w) : Orderly index w := by
  induction h with
  | @first limits w _ hopened =>
    have hstart : Orderly 0 (j.entered limits) := Frame.start_orderly _ _ _ _ _ _
    have hframe := opening_frame j.children (j.entered limits)
    rw [hopened] at hframe
    unfold Orderly at hstart ⊢
    rwa [hframe]
  | @next index taken i w w' _ _ hadvanced ih =>
    have hadvance := advance_after j.nests_children i index w ih
    rwa [hadvanced] at hadvance

/-! ### The parts of an instruction -/

/-- An instruction that a job walks from `w` to `w'`: its step is carried out in `w₁` and ends in
`v`. -/
structure Passes (j : Job) (index : Nat) (i : Instruction) (taken : Nat) (w w₁ v w' : Walk) :
    Prop where
  reached : j.At index w
  instruction : w.frame.code[index]? = some i
  approached : approach i index w = .ok () w₁
  stepped : step j.children i index w₁ = .ok taken v
  concluded : ∃ mark, conclude i index mark taken v = .ok taken w'
  advanced : advance j.children i index w = .ok taken w'

theorem At.passes (h : j.At index w) (hi : w.frame.code[index]? = some i)
    (hadvance : advance j.children i index w = .ok taken w') :
    ∃ w₁ v, j.Passes index i taken w w₁ v w' := by
  obtain ⟨w₁, v, mark, happroach, hstep, hconclude⟩ := ok_of_advance hadvance
  exact ⟨w₁, v, h, hi, happroach, hstep, ⟨mark, hconclude⟩, hadvance⟩

theorem At.goes_on (h : j.At index w) (hi : w.frame.code[index]? = some i)
    (hok : j.result = .ok r d) : ∃ taken w₁ v w', j.Passes index i taken w w₁ v w' := by
  obtain ⟨w', hadvance⟩ := h.advances hok hi
  obtain ⟨w₁, v, hpasses⟩ := h.passes hi hadvance
  exact ⟨_, w₁, v, w', hpasses⟩

namespace Passes

variable (h : j.Passes index i taken w w₁ v w')

include h

theorem next : j.At (index + taken) w' := .next h.reached h.instruction h.advanced

theorem due : j.Due index i w₁ := ⟨h.reached, h.instruction, h.approached⟩

theorem effect : Effect index i w₁ taken v := by
  have heffect := step_effect j.nests_children i index w₁
  rwa [h.stepped] at heffect

theorem taken_pos : 0 < taken := by
  rw [h.due.taken_eq h.stepped]
  exact j.source.width_pos i index

theorem index_lt : index < j.source.instructions.length := by
  rw [← h.reached.owns.code]
  exact (List.getElem?_eq_some_iff.mp h.instruction).1

/-- Before the step the blocks have been brought up to the instruction. -/
theorem still : Still (index + 1) w₁ := by
  obtain ⟨more, hmore, hblocks, hbody, -⟩ := approach_effect h.approached
  obtain ⟨hcalm, hnothing⟩ := Blocks.Ready.due h.reached.orderly
  refine ⟨?_, ?_⟩
  · rw [hblocks, hbody]
    exact hcalm.append hmore
  · rw [hblocks]
    exact hnothing

/-- After the step they still are, unless the instruction takes no other along. -/
theorem still_or : Still (index + 1) v ∨ taken = 1 := by
  have hafter := step_after j.nests_children i h.still
  rw [h.stepped] at hafter
  exact hafter.imp_right And.left

end Passes

/-! ### Notes -/

/-- Notes that are reported trouble a job. -/
theorem Untroubled.notes_eq_nil (h : j.Untroubled d) {before : List Diagnostic}
    {notes : List (Int × String)} (hbefore : j.context.diagnostics <+: before)
    (hafter : before ++ blockReports j.path notes <+: d.diagnostics) : notes = [] := by
  obtain ⟨xs, rfl⟩ := hbefore
  obtain ⟨ys, hys⟩ := hafter
  cases notes with
  | nil => rfl
  | cons note rest =>
    have hmem : ⟨.unbalancedBlock, note.2, j.path, some note.1⟩ ∈
        d.diagnostics.drop j.context.diagnostics.length := by
      rw [← hys, append_assoc, append_assoc, drop_left]
      simp [blockReports]
    exact absurd rfl (h _ hmem rfl)

section

variable (h : j.Passes index i taken w w₁ v w') (hok : j.result = .ok r d) (hquiet : j.Untroubled d)

include h hok hquiet

/-- Nothing was noted by the time that what is due along has come out. -/
theorem Passes.along_quiet : (v.frame.blocks.dueAll (along index taken)).2.anomalies = [] := by
  obtain ⟨mark, hconclude⟩ := h.concluded
  obtain ⟨-, -, -, more, hreports⟩ := conclude_effect hconclude
  have hend := h.next.reported hok
  rw [hreports, h.next.owns.path] at hend
  have hbefore := h.reached.reported_before.trans (reported_step h.approached h.stepped)
  exact hquiet.notes_eq_nil (hbefore.trans (prefix_append _ _)) hend

theorem Passes.step_quiet : v.frame.blocks.anomalies = [] :=
  Aims.Placed.quiet_of_speaks (dueAll_speaks (P := fun _ => True) _ (fun _ _ => trivial) _)
    (h.along_quiet hok hquiet)

theorem Passes.approach_quiet : w₁.frame.blocks.anomalies = [] :=
  h.effect.quiet (h.step_quiet hok hquiet)

end

/-! ### One instruction -/

section

variable (h : j.Passes index i taken w w₁ v w')

include h

/-- Before a step what is due comes out. -/
theorem Passes.approach_leads (hplaced : j.aims.Placed passages past w.frame.blocks w.frame.body)
    (hquiet : w₁.frame.blocks.anomalies = [])
    (hpassages : w.frame.blocks.duePassages w.frame.body.length [(index : Int)] ⊆ passages) :
    j.aims.Leads passages past w.frame.blocks w₁.frame.blocks w₁.frame.body := by
  obtain ⟨more, hmore, hblocks, hbody, -⟩ := approach_effect h.approached
  rw [hblocks] at hquiet
  rw [hblocks, hbody]
  obtain ⟨past', hplaced', hkept⟩ := hplaced.leads_due h.reached.orderly.tied hquiet hpassages
  exact ⟨past', hplaced'.say hmore, hkept⟩

/-- A step puts what it adds where its instruction is. -/
theorem Passes.step_leads (hplaced : j.aims.Placed passages past w₁.frame.blocks w₁.frame.body)
    (hquiet : v.frame.blocks.anomalies = [])
    (hplace : w₁.frame.body.length < v.frame.body.length →
      Holds passages false index w₁.frame.body.length) :
    j.aims.Leads passages past w₁.frame.blocks v.frame.blocks v.frame.body := by
  cases h.effect with
  | adds _ _ hblocks hbody hmore =>
    rw [hblocks, hbody]
    exact (hplaced.say hmore).leads_self
  | @compares _ jump condition _ hpaired hblocks hbody =>
    rw [h.due.owns.code] at hpaired
    rw [hblocks, hbody]
    exact hplaced.leads_openConditional (fun _ => aims_target hpaired)
      (hplace (by simp [hbody])) condition
  | jumps hop hblocks hbody =>
    rw [hblocks] at hquiet
    rw [hblocks, hbody]
    refine hplaced.leads_jump h.still.calm hquiet fun inner hcloser hoffset helse => ?_
    exact ⟨index, i, ⟨w₁, inner, h.due, hop, hcloser, hoffset, helse, rfl⟩, rfl⟩

/-- After a step what is due along comes out, and then the remarks on constants. -/
theorem Passes.conclude_leads (hplaced : j.aims.Placed passages past v.frame.blocks v.frame.body)
    (hquiet : (v.frame.blocks.dueAll (along index taken)).2.anomalies = [])
    (hpassages : v.frame.blocks.duePassages v.frame.body.length (along index taken) ⊆ passages) :
    j.aims.Leads passages past v.frame.blocks w'.frame.blocks w'.frame.body := by
  obtain ⟨mark, hconclude⟩ := h.concluded
  obtain ⟨hblocks, hbody, -, -⟩ := conclude_effect hconclude
  have hdue : j.aims.Leads passages past v.frame.blocks
      (v.frame.blocks.dueAll (along index taken)).2
      (v.frame.body ++ (v.frame.blocks.dueAll (along index taken)).1) := by
    rcases h.still_or with hstill | rfl
    · exact hplaced.leads_dueAll hstill.calm hquiet hpassages
    · simpa [dueAll] using hplaced.leads_self
  obtain ⟨past', hplaced', hkept⟩ := hdue
  refine ⟨past', ?_, ?_⟩
  · rw [hblocks, hbody]
    exact (hplaced'.say (nested_remarks _)).congr rfl rfl rfl
  · rw [hblocks]
    exact hkept

/-- No marker comes out between a step and its remarks, or there are no remarks. -/
theorem Passes.silent (hplaced : j.aims.Placed passages past v.frame.blocks v.frame.body)
    (hunnoted : w₁.frame.registers.anomalies = [])
    (hquiet : (v.frame.blocks.dueAll (along index taken)).2.anomalies = []) :
    v.frame.registers.anomalies = [] ∨ ∀ place k other,
      ¬Holds (v.frame.blocks.duePassages place (along index taken)) true k other := by
  have hnone : taken = 1 → ∀ place k other,
      ¬Holds (v.frame.blocks.duePassages place (along index taken)) true k other := by
    rintro rfl place k other ⟨passage, hmem, -⟩
    simp [duePassages] at hmem
  cases h.effect with
  | adds _ _ _ _ _ hnotes =>
    rcases hnotes with htaken | hnotes
    · exact .inr (hnone htaken)
    · exact .inl (hnotes.trans hunnoted)
  | jumps => exact .inr (hnone rfl)
  | @compares _ jump condition _ _ hblocks _ =>
    -- The block that was just opened is the innermost one, and it does not end here.
    have hcalm := (h.still_or.resolve_right (by omega)).calm
    rw [along_two] at hquiet ⊢
    have hdue : (v.frame.blocks.settleDue (index + 1)).2.anomalies = [] :=
      Aims.Placed.settleDue_quiet hquiet
    have hsettled : (v.frame.blocks.settleDue (index + 1)).1 = [] := by
      by_cases hoffset : jump.b < 0
      · rw [openConditional, if_pos hoffset] at hblocks
        exact hplaced.settleDue_silent hcalm (by rw [hblocks]; rfl) (by simp) hdue
      · rw [openConditional, if_neg hoffset] at hblocks
        refine hplaced.settleDue_silent hcalm (by rw [hblocks]; rfl) ?_ hdue
        simp only [jumpTarget, ne_eq, Option.some.injEq]
        omega
    refine .inr fun place k other hholds => ?_
    obtain ⟨passage, hmem, hpending, -, hge, hlt⟩ := hholds
    rw [duePassages_singleton, hsettled] at hmem
    rcases mem_append.mp hmem with hfirst | hsecond
    · rw [mem_singleton.mp hfirst] at hge hlt
      exact absurd hge (Nat.not_le_of_lt hlt)
    · rw [mem_singleton.mp hsecond] at hpending
      cases hpending

/-- The passages of an instruction cover what it adds to the body. -/
theorem Passes.tiles (htiles : Tiles passages index w.frame.body.length)
    (hsilent : v.frame.registers.anomalies = [] ∨ ∀ place k other,
      ¬Holds (v.frame.blocks.duePassages place (along index taken)) true k other) :
    Tiles (passages ++ passagesAt index taken w v w') (index + taken : Nat)
      w'.frame.body.length := by
  obtain ⟨more, -, -, hbody₁, -⟩ := approach_effect h.approached
  obtain ⟨mark, hconclude⟩ := h.concluded
  obtain ⟨-, hbody', -, -⟩ := conclude_effect hconclude
  have hpos := h.taken_pos
  have hgrows : w.frame.body.length + (w.frame.blocks.due index).1.length ≤
      v.frame.body.length := by
    have hgrows := h.effect.grows
    rw [hbody₁, length_append, length_append] at hgrows
    omega
  have hdue := duePassages_tiles htiles w.frame.blocks
  have hstep := hdue.emit index hgrows (by omega) fun k place hplace => by
    have := (hdue.within true k place hplace).1
    omega
  have halong := dueAllPassages_tiles (index + taken : Nat) v.frame.blocks hstep
    (along_increasing index taken)
    (fun k hk => by
      have := mem_along.mp hk
      omega)
    (by omega)
  simp only [passagesAt, ← append_assoc]
  rcases hsilent with hunnoted | hsilent
  · have hsame : w'.frame.body.length = v.frame.body.length +
        (v.frame.blocks.dueAll (along index taken)).1.length := by
      rw [hbody', hunnoted, map_nil, append_nil, length_append]
    rw [hsame]
    exact halong.empty index false
  · refine halong.emit index ?_ (by omega) fun k place hplace => ?_
    · rw [hbody', length_append, length_append]
      omega
    · obtain ⟨passage, hmem, hpassage⟩ := hplace
      rcases mem_append.mp hmem with hold | hnew
      · have := (hstep.within true k place ⟨passage, hold, hpassage⟩).1
        omega
      · exact absurd ⟨passage, hnew, hpassage⟩ (hsilent _ k place)

end

/-- The blocks of a walk, its body and the passages so far go together. -/
structure Follows (j : Job) (passages : List Passage) (past : List Block) (index : Nat) (w : Walk) :
    Prop where
  placed : j.aims.Placed passages past w.frame.blocks w.frame.body
  tiles : Tiles passages index w.frame.body.length
  unnoted : w.frame.registers.anomalies = []

/-- **An instruction keeps what a walk without notes keeps.**  No block is lost, whether it was
there before or is there after the step. -/
theorem Follows.advance (hfollows : j.Follows passages past index w)
    (h : j.Passes index i taken w w₁ v w') (hok : j.result = .ok r d) (hquiet : j.Untroubled d) :
    ∃ past', j.Follows (passages ++ passagesAt index taken w v w') past' (index + taken) w' ∧
      Aims.Kept (w.frame.blocks.stack ++ past) (w'.frame.blocks.stack ++ past') ∧
      Aims.Kept v.frame.blocks.stack (w'.frame.blocks.stack ++ past') := by
  obtain ⟨more, -, -, hbody₁, hnotes₁⟩ := approach_effect h.approached
  obtain ⟨mark, hconclude⟩ := h.concluded
  obtain ⟨-, -, hunnoted, -⟩ := conclude_effect hconclude
  have hin : ∀ passage ∈ passagesAt index taken w v w',
      passage ∈ passages ++ passagesAt index taken w v w' :=
    fun _ hmem => mem_append_right _ hmem
  have hplaced := hfollows.placed.append (passagesAt index taken w v w')
  obtain ⟨past₁, hplaced₁, hkept₁⟩ := h.approach_leads hplaced (h.approach_quiet hok hquiet)
    fun _ hmem => hin _ (by simp [passagesAt, hmem])
  obtain ⟨past₂, hplaced₂, hkept₂⟩ := h.step_leads hplaced₁ (h.step_quiet hok hquiet) fun hlt => by
    refine ⟨⟨index, false, w.frame.body.length + (w.frame.blocks.due index).1.length,
      v.frame.body.length⟩, hin _ (by simp [passagesAt]), rfl, rfl, ?_, hlt⟩
    rw [hbody₁, length_append, length_append]
    exact Nat.le_add_right _ _
  have halong := h.along_quiet hok hquiet
  obtain ⟨past₃, hplaced₃, hkept₃⟩ := h.conclude_leads hplaced₂ halong
    fun _ hmem => hin _ (by simp [passagesAt, hmem])
  have htiles := h.tiles hfollows.tiles (h.silent hplaced₂ (hnotes₁.trans hfollows.unnoted) halong)
  refine ⟨past₃, ⟨hplaced₃, htiles, hunnoted⟩, (hkept₁.trans hkept₂).trans hkept₃, ?_⟩
  exact (Aims.Kept.of_subset (subset_append_left _ _)).trans hkept₃

/-! ### The start and the end of a walk -/

theorem addParams_anomalies (count : Nat) : ∀ (f : Frame) (scene : Scene) (index : Nat),
    (f.addParams scene index count).1.registers.anomalies = f.registers.anomalies := by
  induction count with
  | zero => exact fun _ _ _ => rfl
  | succ count ih => exact fun _ _ _ => ih _ _ _

/-- Before the first instruction there is nothing in the body, and no block is open. -/
theorem follows_opened {limits : Limits} (h : opening j.children (j.entered limits) = .ok () w) :
    j.Follows [] [] 0 w := by
  have hframe := opening_frame j.children (j.entered limits)
  rw [h] at hframe
  obtain ⟨hblocks, hbody⟩ := Frame.addParams_blocks j.source.paramCount.toNat
    (Frame.bare j.source j.name j.path j.upvalues) j.context.scene 0
  have hblocks' : w.frame.blocks = ofCode j.source.instructions := by
    rw [hframe]
    exact hblocks
  have hbody' : w.frame.body = [] := by
    rw [hframe]
    exact hbody
  refine ⟨?_, ?_, ?_⟩
  · rw [hblocks', hbody']
    refine ⟨.nil, ?_, ?_, ?_, nodup_nil, .nil, ?_⟩
    · simp [ofCode]
    · intro k item hitem
      exact absurd hitem not_mem_nil
    · intro k item hitem
      exact absurd hitem not_mem_nil
    · simp
  · rw [hbody']
    exact .nil 0
  · rw [hframe]
    exact addParams_anomalies _ _ _ _

/-- The passages of a job cover its body, and every branch that was closed ended where it should. -/
structure Settled (j : Job) (body : List Statement) (past : List Block) : Prop where
  tiles : ∃ last, Tiles j.passages last body.length
  ended : ∀ block ∈ past, block.kind = .branch → j.aims.Ended j.passages body block

/-- Whatever is noted at the end of a walk is reported. -/
theorem At.end_quiet (h : j.At index w) (hquiet : j.Untroubled d) (hwound : windUp w = .ok () w')
    (hd : d = w'.context.leave) (hflush : flushAll w.frame.registers.unreadList w = .ok () v)
    {reports : List Diagnostic} {notes : List (Int × String)}
    (hreports : w'.context.diagnostics =
      v.context.diagnostics ++ reports ++ blockReports w'.frame.path notes) : notes = [] := by
  have hflushed := flushAll_keeps reported_enclosed.fenced.toCarried (fun _ => trivial)
    w.frame.registers.unreadList w
  rw [hflush] at hflushed
  have hbefore := (h.reported_before.trans hflushed).trans (prefix_append _ reports)
  have honward := (onward_preserved w).windUp (onward_blocked.refl w)
  rw [hwound] at honward
  refine hquiet.notes_eq_nil hbefore ?_
  rw [← h.owns.path, ← honward.path, ← hreports, hd]
  exact prefix_rfl

/-- The end of a walk without notes leaves no block open. -/
theorem Follows.windUp (hfollows : j.Follows passages past index w) (hreached : j.At index w)
    (hindex : index = j.source.instructions.length) (hquiet : j.Untroubled d)
    (hwound : windUp w = .ok () w') (hd : d = w'.context.leave)
    (hpassages : j.passages = passages ++ passagesAtEnd w) :
    ∃ past', j.Settled w'.frame.body past' ∧ Aims.Kept (w.frame.blocks.stack ++ past) past' := by
  obtain ⟨v, more, hflush, hmore, hbody, ⟨hblocks, hnotes⟩, hbody', reports, hreports⟩ :=
    windUp_effect hwound
  obtain ⟨hdue, hstack, hnodes⟩ :=
    finish_of_quiet (hreached.end_quiet hquiet hwound hd hflush hreports)
  rw [hnodes, hnotes, hfollows.unnoted, map_nil, append_nil] at hbody'
  have hend : j.passages = passages ++
      [⟨(index : Int) - 1, false, w.frame.body.length, v.frame.body.length⟩] ++
        v.frame.blocks.duePassages v.frame.body.length v.frame.blocks.pendingIndexes := by
    rw [hpassages, passagesAtEnd, hflush, hreached.owns.code, ← hindex, append_assoc]
    rfl
  have hready : v.frame.blocks.Ready v.frame.body index := by
    rw [hblocks, hbody]
    exact Blocks.Ready.append hreached.orderly hmore
  have hplaced : j.aims.Placed j.passages past v.frame.blocks v.frame.body := by
    rw [hpassages, hblocks, hbody]
    exact (hfollows.placed.append _).say hmore
  obtain ⟨past', hplaced', hkept⟩ := hplaced.leads_dueAll_ready hready hdue fun _ hmem => by
    rw [hend]
    exact mem_append_right _ hmem
  refine ⟨past', ⟨?_, ?_⟩, ?_⟩
  · have hgrows : w.frame.body.length ≤ v.frame.body.length := by
      rw [hbody, length_append]
      omega
    have hflushed := hfollows.tiles.emit (index - 1) hgrows (by omega) fun k place hplace => by
      have := (hfollows.tiles.within true k place hplace).1
      omega
    rw [hend, hbody', length_append]
    exact pendingPassages_tiles hflushed hplaced.keyed hready.nothing
  · rw [hbody']
    exact hplaced'.ended
  · rw [hstack, nil_append, hblocks] at hkept
    exact hkept

/-! ### Whole walks -/

/-- At an index to which it gets, the walk of a job follows, and the rest of it gives the rest of
the passages. -/
def OnCourse (j : Job) (past : List Block) (index : Nat) (w : Walk) : Prop :=
  ∃ fuel passages, j.source.instructions.length ≤ index + fuel ∧
    j.passages = passages ++ passagesFrom j.children fuel index w ∧
    j.Follows passages past index w

theorem OnCourse.advance (hcourse : j.OnCourse past index w)
    (h : j.Passes index i taken w w₁ v w') (hok : j.result = .ok r d) (hquiet : j.Untroubled d) :
    ∃ past', j.OnCourse past' (index + taken) w' ∧
      Aims.Kept (w.frame.blocks.stack ++ past) (w'.frame.blocks.stack ++ past') ∧
      Aims.Kept v.frame.blocks.stack (w'.frame.blocks.stack ++ past') := by
  obtain ⟨fuel, passages, hfuel, hpassages, hfollows⟩ := hcourse
  obtain ⟨past', hfollows', hkept⟩ := hfollows.advance h hok hquiet
  have hlt := h.index_lt
  have hpos := h.taken_pos
  obtain ⟨fuel, rfl⟩ := Nat.exists_eq_succ_of_ne_zero (n := fuel) (by omega)
  rw [passagesFrom_advance h.instruction h.approached h.stepped h.advanced,
    ← append_assoc] at hpassages
  exact ⟨past', ⟨fuel, _, by omega, hpassages, hfollows'⟩, hkept⟩

/-- The walk of a job without notes stays on course. -/
theorem At.onCourse (h : j.At index w) (hok : j.result = .ok r d) (hquiet : j.Untroubled d) :
    ∃ past, j.OnCourse past index w := by
  induction h with
  | @first limits w henter hopened =>
    refine ⟨[], j.source.instructions.length, [], by omega, ?_, follows_opened hopened⟩
    simp only [Job.passages, henter, hopened, nil_append]
  | @next index taken i w w' hreached hi hadvance ih =>
    obtain ⟨past, hcourse⟩ := ih
    obtain ⟨w₁, v, hpasses⟩ := hreached.passes hi hadvance
    obtain ⟨past', hcourse', -⟩ := hcourse.advance hpasses hok hquiet
    exact ⟨past', hcourse'⟩

/-- A walk that is on course gets to the end with all blocks that it has. -/
theorem OnCourse.finishes (hok : j.result = .ok r d) (hquiet : j.Untroubled d) :
    ∀ (left : Nat) {index : Nat} {w : Walk} {past : List Block},
      j.OnCourse past index w → j.At index w → j.source.instructions.length ≤ index + left →
      ∃ past', j.Settled r.body past' ∧ Aims.Kept (w.frame.blocks.stack ++ past) past' := by
  intro left
  induction left with
  | zero =>
    intro index w past hcourse hreached hleft
    obtain rfl : index = j.source.instructions.length :=
      Nat.le_antisymm hreached.le_length hleft
    obtain ⟨fuel, passages, -, hpassages, hfollows⟩ := hcourse
    have hend : w.frame.code[j.source.instructions.length]? = none := by
      rw [hreached.owns.code]
      exact getElem?_eq_none (Nat.le_refl _)
    rw [passagesFrom_end hend] at hpassages
    obtain ⟨v, hwound, rfl, hd⟩ := hreached.winds_up hok
    exact hfollows.windUp hreached rfl hquiet hwound hd hpassages
  | succ left ih =>
    intro index w past hcourse hreached hleft
    by_cases hlt : index < j.source.instructions.length
    · obtain ⟨i, hi⟩ : ∃ i, w.frame.code[index]? = some i := by
        rw [hreached.owns.code]
        exact ⟨_, getElem?_eq_getElem hlt⟩
      obtain ⟨taken, w₁, v, w', hpasses⟩ := hreached.goes_on hi hok
      obtain ⟨past', hcourse', hkept, -⟩ := hcourse.advance hpasses hok hquiet
      have hpos := hpasses.taken_pos
      obtain ⟨past'', hsettled, hkept'⟩ := ih hcourse' hpasses.next (by omega)
      exact ⟨past'', hsettled, hkept.trans hkept'⟩
    · exact ih hcourse hreached (by omega)

/-- A block that is open after a step is among those that are closed in the end. -/
theorem Passes.settles (h : j.Passes index i taken w w₁ v w') (hok : j.result = .ok r d)
    (hquiet : j.Untroubled d) :
    ∃ past, j.Settled r.body past ∧ Aims.Kept v.frame.blocks.stack past := by
  obtain ⟨past, hcourse⟩ := h.reached.onCourse hok hquiet
  obtain ⟨past', hcourse', -, hkept⟩ := hcourse.advance h hok hquiet
  obtain ⟨past'', hsettled, hkept'⟩ := OnCourse.finishes hok hquiet j.source.instructions.length
    hcourse' h.next (by omega)
  exact ⟨past'', hsettled, hkept.trans hkept'⟩

/-! ### Branches -/

/-- An instruction to whose step a job gets is passed. -/
theorem Due.passes (h : j.Due index i w₁) (hok : j.result = .ok r d) :
    ∃ taken w v w', j.Passes index i taken w w₁ v w' := by
  obtain @⟨w, hreached, hi, happroach⟩ := h
  obtain ⟨taken, w₂, v, w', hpasses⟩ := hreached.goes_on hi hok
  obtain ⟨-, rfl⟩ := EStateM.Result.ok.inj (hpasses.approached.symm.trans happroach)
  exact ⟨taken, w, v, w', hpasses⟩

variable {jump : Instruction} {k : Nat}

theorem Divides.isJump {index : Int} (h : j.Divides index k jump) : jump.opcode = .jump := by
  obtain ⟨_, _, _, hop, -⟩ := h
  exact hop

theorem Divides.instruction {index : Int} (h : j.Divides index k jump) :
    j.source.instructions[k]? = some jump := by
  obtain ⟨_, _, ⟨hreached, hi, -⟩, -⟩ := h
  rwa [hreached.owns.code] at hi

/-- A jump that gives a branch an else part stands right before the end of the branch. -/
theorem Divides.succ_eq {index : Int} (h : j.Divides index k jump) (hok : j.result = .ok r d)
    (hquiet : j.Untroubled d) : (k : Int) + 1 = j.aims.target index := by
  obtain ⟨w₁, inner, hdue, -, -, -, helse, rfl⟩ := h
  obtain ⟨taken, w, v, w', hpasses⟩ := hdue.passes hok
  obtain ⟨past, fuel, passages, -, -, hfollows⟩ := hpasses.reached.onCourse hok hquiet
  obtain ⟨past₁, hplaced, -⟩ := hpasses.approach_leads
    (hfollows.placed.append (w.frame.blocks.duePassages w.frame.body.length [(k : Int)]))
    (hpasses.approach_quiet hok hquiet) (subset_append_right _ _)
  exact (hplaced.target_of_elseBranch? helse).symm

/-- A compare whose jump goes forward opens a branch that is closed in the end. -/
theorem compare_settles (hok : j.result = .ok r d) (hquiet : j.Untroubled d)
    (hi : j.source.instructions[index]? = some i) (hcompare : i.opcode.isCompare = true)
    (hjump : j.source.instructions[index + 1]? = some jump) (hoffset : 0 ≤ jump.b) :
    ∃ past, j.Settled r.body past ∧ ∃ block ∈ past, block.openedAt = index ∧
      block.kind = .branch := by
  obtain ⟨w, hreached⟩ := at_of_compare hok hi hcompare
  rw [← hreached.owns.code] at hi
  obtain ⟨taken, w₁, v, w', hpasses⟩ := hreached.goes_on hi hok
  obtain ⟨past, hsettled, hkept⟩ := hpasses.settles hok hquiet
  refine ⟨past, hsettled, ?_⟩
  cases hpasses.effect with
  | adds hno =>
    rw [hcompare] at hno
    cases hno
  | jumps hop =>
    rw [hop] at hcompare
    cases hcompare
  | compares condition _ hpaired hblocks _ =>
    rw [hpasses.due.owns.code, hjump] at hpaired
    cases hpaired
    rw [openConditional, if_neg (by omega)] at hblocks
    rw [hblocks] at hkept
    obtain ⟨block, hmem, hopened, hkind, -⟩ := hkept _ mem_cons_self
    exact ⟨block, hmem, hopened, hkind⟩

/-- A branch that gets an else part has it when it is closed in the end. -/
theorem Divides.settles {index : Int} (h : j.Divides index k jump) (hok : j.result = .ok r d)
    (hquiet : j.Untroubled d) :
    ∃ past, j.Settled r.body past ∧ ∃ block ∈ past, block.openedAt = index ∧
      block.kind = .branch ∧ block.hasElse = true := by
  obtain ⟨w₁, inner, hdue, hop, hcloser, hoffset, helse, rfl⟩ := h
  obtain ⟨taken, w, v, w', hpasses⟩ := hdue.passes hok
  obtain ⟨past, hsettled, hkept⟩ := hpasses.settles hok hquiet
  refine ⟨past, hsettled, ?_⟩
  cases hpasses.effect with
  | adds _ hno => exact absurd hop hno
  | compares _ hcompare =>
    rw [hop] at hcompare
    cases hcompare
  | jumps _ hblocks _ =>
    have hjump : w₁.frame.blocks.jump k jump.b =
        ([], w₁.frame.blocks.addElse inner k (jumpTarget k jump.b)) := by
      unfold Blocks.jump
      rw [if_neg (by simpa using hcloser), if_neg (by omega), helse]
    rw [hblocks, hjump] at hkept
    obtain ⟨block, hmem, hopened, hkind, hsame⟩ := hkept _ mem_cons_self
    obtain ⟨outer, -, hbranch, -⟩ := elseBranch?_stack helse
    exact ⟨block, hmem, hopened, hkind.trans hbranch, by rw [hsame rfl]⟩

/-! ### Else parts by evaluation -/

/-- The state in which the walk of a job gets to an index, from one where it has got to. -/
def stateFrom? (j : Job) (goal : Nat) : Nat → Nat → Walk → Option Walk
  | 0, index, w => if index = goal then some w else none
  | fuel + 1, index, w =>
    if index = goal then some w
    else
      match w.frame.code[index]? with
      | none => none
      | some i =>
        match advance j.children i index w with
        | .error _ _ => none
        | .ok taken w' => j.stateFrom? goal fuel (index + taken) w'

/-- The state in which the walk of a job gets to an index. -/
def stateAt? (j : Job) (goal : Nat) : Option Walk :=
  match j.context.limits.enter with
  | .error _ => none
  | .ok limits =>
    match opening j.children (j.entered limits) with
    | .error _ _ => none
    | .ok _ w => j.stateFrom? goal j.source.instructions.length 0 w

/-- Where the branch was opened to which the jump at an index gives an else part. -/
def divided? (j : Job) (k : Nat) : Option Int :=
  match j.stateAt? k with
  | none => none
  | some w =>
    match w.frame.code[k]? with
    | none => none
    | some jump =>
      match approach jump k w with
      | .error _ _ => none
      | .ok _ v =>
        if jump.opcode = .jump ∧ v.frame.blocks.closers.contains (k : Int) = false ∧ 0 ≤ jump.b then
          (v.frame.blocks.elseBranch? k (jumpTarget k jump.b)).map Block.openedAt
        else none

theorem At.of_stateFrom? {goal : Nat} : ∀ {fuel index : Nat} {w : Walk}, j.At index w →
    j.stateFrom? goal fuel index w = some w' → j.At goal w' := by
  intro fuel
  induction fuel with
  | zero =>
    intro index w h hstate
    simp only [stateFrom?, Option.ite_none_right_eq_some, Option.some.injEq] at hstate
    obtain ⟨rfl, rfl⟩ := hstate
    exact h
  | succ fuel ih =>
    intro index w h hstate
    unfold stateFrom? at hstate
    by_cases hgoal : index = goal
    · rw [if_pos hgoal] at hstate
      cases hstate
      exact hgoal ▸ h
    · rw [if_neg hgoal] at hstate
      cases hi : w.frame.code[index]? with
      | none => simp [hi] at hstate
      | some i =>
        cases hadvance : advance j.children i index w with
        | error stop v => simp [hi, hadvance] at hstate
        | ok taken v =>
          simp only [hi, hadvance] at hstate
          exact ih (h.next hi hadvance) hstate

theorem at_of_stateAt? (h : j.stateAt? index = some w) : j.At index w := by
  unfold stateAt? at h
  cases hentered : j.context.limits.enter with
  | error message => simp [hentered] at h
  | ok limits =>
    cases hopened : opening j.children (j.entered limits) with
    | error stop v => simp [hentered, hopened] at h
    | ok done v =>
      simp only [hentered, hopened] at h
      exact At.of_stateFrom? (.first hentered hopened) h

theorem divides_of_divided? {index : Int} (h : j.divided? k = some index) :
    ∃ jump, j.Divides index k jump := by
  unfold divided? at h
  cases hstate : j.stateAt? k with
  | none => simp [hstate] at h
  | some w =>
    cases hi : w.frame.code[k]? with
    | none => simp [hstate, hi] at h
    | some jump =>
      cases happroach : approach jump k w with
      | error stop v => simp [hstate, hi, happroach] at h
      | ok done v =>
        simp only [hstate, hi, happroach, Option.ite_none_right_eq_some,
          Option.map_eq_some_iff] at h
        obtain ⟨⟨hop, hcloser, hoffset⟩, inner, helse, hopened⟩ := h
        exact ⟨jump, v, inner, ⟨at_of_stateAt? hstate, hi, happroach⟩, hop, hcloser, hoffset,
          helse, hopened⟩

/-! ### Every branch -/

/-- **Branches end at their targets.**  Every statement of a body without notes comes out for one
index.  A compare whose jump goes forward opens a branch, and the branch is closed where the index
that the jump names begins.  If a jump gives the branch an else part, then it stands right before
that index; the branch is divided where the index begins and closed where the other jump goes. -/
theorem branches_end_at_targets (hok : j.result = .ok r d) (hquiet : j.Untroubled d)
    (hi : j.source.instructions[index]? = some i) (hcompare : i.opcode.isCompare = true)
    {jump : Instruction} (hjump : j.source.instructions[index + 1]? = some jump)
    (hoffset : 0 ≤ jump.b) :
    (∀ place < r.body.length, ∃! source : Bool × Int, Holds j.passages source.1 source.2 place) ∧
    ((∀ k other, ¬j.Divides index k other) →
      ∃ opened closed, Holds j.passages false index opened ∧ BranchAt r.body opened closed ∧
        Lands j.passages (index + 2 + jump.b) closed) ∧
    ∀ k other, j.Divides index k other →
      (k : Int) + 1 = index + 2 + jump.b ∧ j.source.instructions[k]? = some other ∧
      ∃ opened divided closed, Holds j.passages false index opened ∧
        DividedAt r.body opened divided closed ∧
        Lands j.passages (index + 2 + jump.b) divided ∧
        Lands j.passages (index + 2 + jump.b + other.b) closed := by
  have htarget : j.aims.target index = index + 2 + jump.b := by
    rw [aims_target hjump, jumpTarget]
    omega
  obtain ⟨past, hsettled, block, hblock, hopened, hkind⟩ :=
    compare_settles hok hquiet hi hcompare hjump hoffset
  obtain ⟨last, htiles⟩ := hsettled.tiles
  have hended := hsettled.ended block hblock hkind
  refine ⟨fun place hplace => ?_, fun hwhole => ?_, fun k other hdivides => ?_⟩
  · obtain ⟨pending, k, hholds⟩ := htiles.covers place hplace
    refine ⟨(pending, k), hholds, fun source hsource => ?_⟩
    obtain ⟨hpending, hk⟩ := htiles.once hsource hholds
    exact Prod.ext hpending hk
  · have helse : block.hasElse = false := by
      by_contra hyes
      obtain ⟨_, _, _, _, ⟨k, other, hdivides, -⟩, -⟩ := hended.parted (by simpa using hyes)
      rw [hopened] at hdivides
      exact hwhole k other hdivides
    obtain ⟨opened, closed, hopens, hbranch, hcloses⟩ := hended.whole helse
    rw [hopened] at hopens hcloses
    rw [htarget] at hcloses
    exact ⟨opened, closed, hopens, hbranch, htiles.lands _ _ hcloses⟩
  · have hbefore := hdivides.succ_eq hok hquiet
    have hother := hdivides.instruction
    obtain ⟨past', hsettled', block', hblock', hopened', hkind', helse⟩ :=
      hdivides.settles hok hquiet
    obtain ⟨_, opened, divided, closed, ⟨k', other', hdivides', rfl⟩, hopens, hbranch, hdivided,
      hcloses⟩ := (hsettled'.ended block' hblock' hkind').parted helse
    rw [hopened'] at hdivides' hopens hdivided
    -- Both jumps stand right before the target, so they are the same.
    obtain rfl : k' = k := by
      have hbefore' := hdivides'.succ_eq hok hquiet
      omega
    obtain rfl : other' = other := Option.some.inj (hdivides'.instruction.symm.trans hother)
    rw [htarget] at hbefore hdivided
    have hlast : jumpTarget k' other'.b = index + 2 + jump.b + other'.b := by
      rw [← hbefore, jumpTarget]
    rw [hlast] at hcloses
    exact ⟨hbefore, hother, opened, divided, closed, hopens, hbranch, htiles.lands _ _ hdivided,
      htiles.lands _ _ hcloses⟩

/-- A branch with an else part, inside another branch.  They end at two instructions that a closure
takes along, and a third branch ends behind the code. -/
def crowdedEnds : Job :=
  .root {
    instructions := [{ opcode := .compareEq }, { opcode := .jump, b := 5 },
      { opcode := .compareLt, b := 1 }, { opcode := .jump, b := 1 }, { opcode := .jump, b := 1 },
      { opcode := .closure }, { opcode := .move }, { opcode := .move },
      { opcode := .compareLe, c := 1 }, { opcode := .jump, b := 9 }, { opcode := .newTable }]
    children := [{ instructions := [{ opcode := .ret, b := 1 }], upvalueCount := 2 }] } {}

/-- The outer branch of `crowdedEnds` ends at 7, and the third one at 19.  The inner one is divided
at 5 and ends at 6. -/
theorem crowdedEnds_end_at_targets : ∃ r d, crowdedEnds.result = .ok r d ∧
      r.body.map Statement.summary =
        ["if reg0 == reg0 then", "if reg1 < reg0 then", "else", "local func = func", "end", "end",
          "if func <= reg1 then", "func = {}", "end"] ∧
      (∃ opened closed, Holds crowdedEnds.passages false 0 opened ∧
        BranchAt r.body opened closed ∧ Lands crowdedEnds.passages 7 closed) ∧
      (∃ opened divided closed, Holds crowdedEnds.passages false 2 opened ∧
        DividedAt r.body opened divided closed ∧ Lands crowdedEnds.passages 5 divided ∧
        Lands crowdedEnds.passages 6 closed) ∧
      ∃ opened closed, Holds crowdedEnds.passages false 8 opened ∧
        BranchAt r.body opened closed ∧ Lands crowdedEnds.passages 19 closed := by
  obtain ⟨r, d, hok, hbody, hnone⟩ := result_of_eval (p := crowdedEnds.source) (o := {})
    (fun r d => r.body.map Statement.summary =
      ["if reg0 == reg0 then", "if reg1 < reg0 then", "else", "local func = func", "end", "end",
        "if func <= reg1 then", "func = {}", "end"] ∧ d.diagnostics.map Diagnostic.code = [])
    (by decide +kernel)
  have hquiet : crowdedEnds.Untroubled d := by
    simp [Untroubled, map_eq_nil_iff.mp hnone]
  have hends (index : Nat) {i jump : Instruction}
      (hi : crowdedEnds.source.instructions[index]? = some i) (hcompare : i.opcode.isCompare = true)
      (hjump : crowdedEnds.source.instructions[index + 1]? = some jump) (hoffset : 0 ≤ jump.b) :=
    branches_end_at_targets hok hquiet hi hcompare hjump hoffset
  obtain ⟨-, hfirst, hfirst'⟩ := hends 0 rfl rfl rfl (by decide)
  obtain ⟨-, -, hsecond⟩ := hends 2 rfl rfl rfl (by decide)
  obtain ⟨-, hthird, hthird'⟩ := hends 8 rfl rfl rfl (by decide)
  refine ⟨r, d, hok, hbody, hfirst fun k other hdivides => ?_, ?_,
    hthird fun k other hdivides => ?_⟩
  · -- Before the index 7 there is no jump.
    obtain ⟨hk, hother, -⟩ := hfirst' k other hdivides
    obtain rfl : k = 6 := by
      change (k : Int) + 1 = 7 at hk
      omega
    obtain rfl := Option.some.inj hother
    cases hdivides.isJump
  · have hdivided : crowdedEnds.divided? 4 = some 2 := by decide +kernel
    obtain ⟨other, hdivides⟩ := divides_of_divided? hdivided
    obtain ⟨-, hother, hparted⟩ := hsecond 4 other hdivides
    obtain rfl := Option.some.inj hother
    exact hparted
  · -- Before the index 19 there is nothing.
    obtain ⟨hk, hother, -⟩ := hthird' k other hdivides
    obtain rfl : k = 18 := by
      change (k : Int) + 1 = 19 at hk
      omega
    cases hother

end Job

end LuaRecovery

/-
What a walk has its blocks do.

A walk asks its blocks for the markers that are due at an index, has them open the block of a
compare, hands them the jumps that no compare precedes, and has them finish at the end of the code.
Here is the walk once more with a record of this: all that its blocks do goes through `ask`, which
writes it down, with the blocks as they were before.  Without the record it is the walk itself
(`walkAsking_forgets`).

The record of a whole walk is put together from what one instruction adds to it.  `Asks` says
what that is, from an index on to the end of the code.
-/
import LuaRecovery.Proofs.BranchTargets
import LuaRecovery.Proofs.Stretches

namespace LuaRecovery

/-- What the blocks of a walk are made to do. -/
inductive BlockCall where
  | due (index : Int)
  | opens (index offset : Int) (condition : String)
  | jump (index offset : Int)
  | finish (endIndex : Int)

/-- Carry it out. -/
def BlockCall.run : BlockCall → Blocks → List Statement × Blocks
  | due index, b => b.due index
  | opens index offset condition, b =>
    let (node, b) := b.openConditional index offset condition
    ([node], b)
  | jump index offset, b => b.jump index offset
  | finish endIndex, b => b.finish endIndex

/-- An entry of the record: what was done, and the blocks before it. -/
structure Asked where
  call : BlockCall
  blocks : Blocks

/-- The entries for the markers that are due at indexes one after the other. -/
def Blocks.asksDue (b : Blocks) : List Int → List Asked
  | [] => []
  | index :: rest => ⟨.due index, b⟩ :: (b.due index).2.asksDue rest

namespace Walking

/-- A walk with a record. -/
abbrev Asking := StateT (List Asked) Walking

/-- Have the blocks do something, write it down, and emit what they give. -/
def ask (call : BlockCall) : Asking Unit := do
  let blocks := (← (get : Walking Walk)).frame.blocks
  modify (· ++ [⟨call, blocks⟩])
  emitBlocks call.run

/-! ### The walk with a record -/

@[inherit_doc emitDueAll]
def askDueAll : List Int → Asking Unit
  | [] => pure ()
  | index :: rest => do
    ask (.due index)
    askDueAll rest

@[inherit_doc compare]
def compareAsking (rel : Relation) (i : Instruction) (index : Nat) : Asking Unit := do
  match pairedJump (← (get : Walking Walk)).frame.code index with
  | .error failure => throw (.failed failure none)
  | .ok jump =>
    let left ← readOperand i.b
    let right ← readOperand i.c
    let condition :=
      if (← simulating) && left.number.isSome && right.number.isSome then
        negatedIf i.a (Term.compare rel left.term right.term).text
      else conditionText i.a rel left.text right.text
    ask (.opens index jump.b condition)

/-- Carry out one instruction.  Only compares and jumps have the blocks do something. -/
def stepAsking (children : List Child) (i : Instruction) (index : Nat) : Asking Nat := do
  match i.opcode with
  | .compareEq => compareAsking .eq i index; return 2
  | .compareLt => compareAsking .lt i index; return 2
  | .compareLe => compareAsking .le i index; return 2
  | .jump =>
    (spell (·.frame.blocks.spelledJump index i.b) : Walking Unit)
    ask (.jump index i.b)
    return 1
  | _ => step children i index

@[inherit_doc advance]
def advanceAsking (children : List Child) (i : Instruction) (index : Nat) : Asking Nat := do
  pollCaller index
  countInstruction index
  ask (.due index)
  let mark := (← (get : Walking Walk)).frame.body.length
  flushOverwritten i
  let taken ← fun asked => locating index (stepAsking children i index asked)
  askDueAll (range (index + 1) (index + taken - 1))
  reportAnomalies index
  traceStep index i mark
  return taken

@[inherit_doc walkFrom]
def walkFromAsking (children : List Child) : Nat → Nat → Asking Unit
  | 0, _ => pure ()
  | fuel + 1, index => do
    match (← (get : Walking Walk)).frame.code[index]? with
    | none => pure ()
    | some i =>
      let taken ← advanceAsking children i index
      walkFromAsking children fuel (index + taken)

@[inherit_doc windUp]
def windUpAsking : Asking Unit := do
  let frame := (← (get : Walking Walk)).frame
  flushAll frame.registers.unreadList
  ask (.finish frame.code.length)
  reportAnomalies frame.code.length

@[inherit_doc walk]
def walkAsking (children : List Child) : Asking Unit := do
  let frame := (← (get : Walking Walk)).frame
  let constants := frame.registers.constants
  log (openingRecord frame.path frame.code.length constants.length children.length)
  observeStrings constants
  walkFromAsking children frame.code.length 0
  windUpAsking

/-! ### Forgetting the record -/

/-- An action with a record is an action without, if the record is forgotten. -/
def Forgets {α : Type} (m : Asking α) (m' : Walking α) : Prop :=
  ∀ asked, Prod.fst <$> m.run asked = m'

section Forgets

variable {α β : Type}

theorem forgets_pure (a : α) : Forgets (pure a) (pure a) := fun _ => rfl

theorem forgets_lift (m : Walking α) : Forgets (liftM m) m := by
  intro asked
  simp

theorem forgets_bind {m : Asking α} {m' : Walking α} {f : α → Asking β} {f' : α → Walking β}
    (hm : Forgets m m') (hf : ∀ a, Forgets (f a) (f' a)) : Forgets (m >>= f) (m' >>= f') := by
  intro asked
  calc Prod.fst <$> (m >>= f).run asked
      = m.run asked >>= fun p => Prod.fst <$> (f p.1).run p.2 := by rw [StateT.run_bind, map_bind]
    _ = m.run asked >>= fun p => f' p.1 := bind_congr fun p => hf p.1 p.2
    _ = (Prod.fst <$> m.run asked) >>= f' := (bind_map_left _ _ _).symm
    _ = m' >>= f' := by rw [hm asked]

theorem forgets_ask (call : BlockCall) : Forgets (ask call) (emitBlocks call.run) := fun _ => rfl

theorem forgets_locating {m : Asking α} {m' : Walking α} (h : Forgets m m') (index : Int) :
    Forgets (fun asked => locating index (m asked)) (locating index m') := by
  intro asked
  rw [← h asked]
  funext w
  show EStateM.map _ (locating index (m asked)) w = locating index (EStateM.map _ (m asked)) w
  cases hm : m asked w with
  | ok p w' => simp only [locating, EStateM.map, hm]
  | error stop w' => cases stop <;> simp only [locating, EStateM.map, hm]

end Forgets

theorem askDueAll_forgets (indexes : List Int) :
    Forgets (askDueAll indexes) (emitDueAll indexes) := by
  induction indexes with
  | nil => exact forgets_pure ()
  | cons index rest ih => exact forgets_bind (forgets_ask (.due index)) fun _ => ih

theorem compareAsking_forgets (rel : Relation) (i : Instruction) (index : Nat) :
    Forgets (compareAsking rel i index) (compare rel i index) := by
  refine forgets_bind (forgets_lift get) fun w => ?_
  cases pairedJump w.frame.code index with
  | error failure => exact fun _ => rfl
  | ok jump =>
    refine forgets_bind (forgets_lift _) fun left => ?_
    refine forgets_bind (forgets_lift _) fun right => ?_
    exact forgets_bind (forgets_lift _) fun _ => forgets_ask _

variable (children : List Child) (i : Instruction) (index : Nat)

theorem stepAsking_forgets : Forgets (stepAsking children i index) (step children i index) := by
  have hcompare : ∀ rel, Forgets (compareAsking rel i index >>= fun _ => pure 2)
      (compare rel i index >>= fun _ => pure 2) :=
    fun rel => forgets_bind (compareAsking_forgets rel i index) fun _ => forgets_pure 2
  have hother := forgets_lift (step children i index)
  unfold stepAsking
  cases hop : i.opcode with
  | compareEq =>
    simp only [step, hop]
    exact hcompare .eq
  | compareLt =>
    simp only [step, hop]
    exact hcompare .lt
  | compareLe =>
    simp only [step, hop]
    exact hcompare .le
  | jump =>
    simp only [step, hop]
    rw [jump, bind_assoc]
    refine forgets_bind (forgets_lift _) fun _ => ?_
    exact forgets_bind (forgets_ask _) fun _ => forgets_pure 1
  | _ => exact hother

theorem advanceAsking_forgets :
    Forgets (advanceAsking children i index) (advance children i index) := by
  refine forgets_bind (forgets_lift _) fun _ => forgets_bind (forgets_lift _) fun _ => ?_
  refine forgets_bind (forgets_ask (.due index)) fun _ => forgets_bind (forgets_lift _) fun w => ?_
  refine forgets_bind (forgets_lift _) fun _ => ?_
  refine forgets_bind (forgets_locating (stepAsking_forgets children i index) index) fun taken => ?_
  refine forgets_bind (askDueAll_forgets _) fun _ => forgets_bind (forgets_lift _) fun _ => ?_
  exact forgets_bind (forgets_lift _) fun _ => forgets_pure taken

theorem walkFromAsking_forgets (fuel : Nat) :
    ∀ index, Forgets (walkFromAsking children fuel index) (walkFrom children fuel index) := by
  induction fuel with
  | zero => exact fun _ => forgets_pure ()
  | succ fuel ih =>
    intro index
    refine forgets_bind (forgets_lift get) fun w => ?_
    cases w.frame.code[index]? with
    | none => exact forgets_pure ()
    | some i =>
      exact forgets_bind (advanceAsking_forgets children i index) fun taken =>
        ih (index + taken)

theorem windUpAsking_forgets : Forgets windUpAsking windUp := by
  refine forgets_bind (forgets_lift get) fun w => forgets_bind (forgets_lift _) fun _ => ?_
  exact forgets_bind (forgets_ask _) fun _ => forgets_lift _

/-- Without the record, the walk with a record is the walk of a function. -/
theorem walkAsking_forgets : Forgets (walkAsking children) (walk children) := by
  refine forgets_bind (forgets_lift get) fun w => forgets_bind (forgets_lift _) fun _ => ?_
  refine forgets_bind (forgets_lift _) fun _ => ?_
  exact forgets_bind (walkFromAsking_forgets children _ 0) fun _ => windUpAsking_forgets

/-- An action gets to an answer with the record if and only if it does without. -/
theorem ok_iff_of_forgets {α : Type} {m : Asking α} {m' : Walking α} (h : Forgets m m')
    (asked : List Asked) (w : Walk) {a : α} {w' : Walk} :
    m' w = .ok a w' ↔ ∃ asked', m.run asked w = .ok (a, asked') w' := by
  have hmap : EStateM.map Prod.fst (m.run asked) w = m' w := congrFun (h asked) w
  rw [← hmap]
  unfold EStateM.map
  cases m.run asked w with
  | ok p w₁ => simp [Prod.ext_iff]
  | error stop w₁ => simp

/-! ### The record of one instruction -/

section Record

variable {children : List Child} {i : Instruction} {index taken : Nat} {asked asked' : List Asked}
  {w w' : Walk}

theorem ok_of_bind_asking {α β : Type} {m : Asking α} {f : α → Asking β} {b : β}
    (h : (m >>= f).run asked w = .ok (b, asked') w') :
    ∃ a asked₁ w₁, m.run asked w = .ok (a, asked₁) w₁ ∧
      (f a).run asked₁ w₁ = .ok (b, asked') w' := by
  rw [StateT.run_bind] at h
  obtain ⟨⟨a, asked₁⟩, w₁, hm, hf⟩ := ok_of_bind h
  exact ⟨a, asked₁, w₁, hm, hf⟩

/-- What the walk does without its blocks adds nothing to the record. -/
theorem ok_of_lift_bind {α β : Type} {m : Walking α} {f : α → Asking β} {b : β}
    (h : (liftM m >>= f).run asked w = .ok (b, asked') w') :
    ∃ a w₁, m w = .ok a w₁ ∧ (f a).run asked w₁ = .ok (b, asked') w' := by
  obtain ⟨a, asked₁, w₁, hm, hf⟩ := ok_of_bind_asking h
  obtain ⟨_, _, hm, hpure⟩ := ok_of_bind (f := fun a => pure (a, asked)) hm
  cases hpure
  exact ⟨a, w₁, hm, hf⟩

theorem ask_bind_run {β : Type} (call : BlockCall) (f : Unit → Asking β) (asked : List Asked)
    (w : Walk) :
    (ask call >>= f).run asked w = (f ()).run (asked ++ [⟨call, w.frame.blocks⟩])
      (w.grow (call.run w.frame.blocks).2 (call.run w.frame.blocks).1) := rfl

theorem askDueAll_bind_run {β : Type} (indexes : List Int) (f : Unit → Asking β) :
    ∀ (asked : List Asked) (w : Walk),
      (askDueAll indexes >>= f).run asked w = (f ()).run (asked ++ w.frame.blocks.asksDue indexes)
        (w.grow (w.frame.blocks.dueAll indexes).2 (w.frame.blocks.dueAll indexes).1) := by
  induction indexes with
  | nil =>
    intro asked w
    simp [askDueAll, Blocks.asksDue, Blocks.dueAll, Walk.grow_nil]
  | cons index rest ih =>
    intro asked w
    rw [askDueAll, bind_assoc, ask_bind_run, ih, Walk.grow_grow, List.append_assoc]
    rfl

/-- What the step of an instruction adds to the record.  A compare has the block opened for its
jump, and a jump is handed on. -/
inductive StepAsks (index : Nat) (i : Instruction) (w : Walk) : List Asked → Prop
  | nothing (noCompare : i.opcode.isCompare = false) (noJump : i.opcode ≠ .jump) :
      StepAsks index i w []
  | compares {jump : Instruction} (condition : String) (isCompare : i.opcode.isCompare = true)
      (paired : w.frame.code[index + 1]? = some jump) (isJump : jump.opcode = .jump) :
      StepAsks index i w [⟨.opens index jump.b condition, w.frame.blocks⟩]
  | jumps (isJump : i.opcode = .jump) : StepAsks index i w [⟨.jump index i.b, w.frame.blocks⟩]

theorem compareAsking_asks {rel : Relation} (hi : i.opcode.isCompare = true)
    (h : (compareAsking rel i index >>= fun _ => pure 2).run asked w = .ok (taken, asked') w') :
    ∃ made, StepAsks index i w made ∧ asked' = asked ++ made := by
  unfold compareAsking at h
  rw [bind_assoc] at h
  obtain ⟨_, _, hget, h⟩ := ok_of_lift_bind h
  cases hget
  rcases pairedJump_cases w.frame.code index with ⟨jump, hpaired, hjump, hop⟩ | ⟨cause, hpaired⟩
  · rw [hpaired] at h
    simp only [bind_assoc] at h
    obtain ⟨_, w₁, hleft, h⟩ := ok_of_lift_bind h
    obtain ⟨_, w₂, hright, h⟩ := ok_of_lift_bind h
    have hsame := readOperand_blocks i.b w
    have hsame' := readOperand_blocks i.c w₁
    rw [hleft] at hsame
    rw [hright] at hsame'
    cases h
    exact ⟨_, .compares _ hi hjump hop, by rw [← hsame.1, ← hsame'.1]⟩
  · rw [hpaired] at h
    cases h

theorem stepAsking_asks (h : (stepAsking children i index).run asked w = .ok (taken, asked') w') :
    ∃ made, StepAsks index i w made ∧ asked' = asked ++ made := by
  unfold stepAsking at h
  cases hop : i.opcode with
  | compareEq | compareLt | compareLe =>
    rw [hop] at h
    exact compareAsking_asks (by rw [hop]; rfl) h
  | jump =>
    rw [hop] at h
    obtain ⟨_, w₁, hspelled, h⟩ := ok_of_lift_bind h
    obtain rfl := eq_of_askHost hspelled
    cases h
    exact ⟨_, .jumps hop, rfl⟩
  | _ =>
    rw [hop] at h
    obtain ⟨_, _, -, hpure⟩ := ok_of_bind (f := fun a => pure (a, asked)) h
    cases hpure
    exact ⟨[], .nothing (by rw [hop]; rfl) (by simp [hop]), (List.append_nil _).symm⟩

/-- The parts of an instruction that was walked, and what it adds to the record: what is due at its
index, what its step asks, and what is due at the indexes that it takes along. -/
theorem ok_of_advanceAsking
    (h : (advanceAsking children i index).run asked w = .ok (taken, asked') w') :
    ∃ w₁ v mark made, approach i index w = .ok () w₁ ∧ step children i index w₁ = .ok taken v ∧
      conclude i index mark taken v = .ok taken w' ∧ StepAsks index i w₁ made ∧
      asked' = asked ++ (⟨.due index, w.frame.blocks⟩ :: made
        ++ v.frame.blocks.asksDue (along index taken)) := by
  obtain ⟨_, w₁, hpoll, h⟩ := ok_of_lift_bind h
  obtain ⟨_, w₂, hcount, h⟩ := ok_of_lift_bind h
  have hframe : w₂.frame = w.frame :=
    (frame_of_countInstruction hcount).trans (frame_of_pollCaller hpoll)
  rw [ask_bind_run] at h
  generalize hgrown : w₂.grow _ _ = w₃ at h
  have hdue : emitDue index w₂ = .ok () w₃ := congrArg (EStateM.Result.ok ()) hgrown
  obtain ⟨_, _, hget, h⟩ := ok_of_lift_bind h
  cases hget
  obtain ⟨_, w₄, hflush, h⟩ := ok_of_lift_bind h
  have happroach : approach i index w = .ok () w₄ := by
    unfold approach
    rw [run_bind hpoll, run_bind hcount, run_bind hdue, hflush]
  obtain ⟨taken', _, v, hlocated, h⟩ := ok_of_bind_asking h
  have hasking : (stepAsking children i index).run _ w₄ = _ := ok_of_locating hlocated
  have hstep := (ok_iff_of_forgets (stepAsking_forgets children i index) _ w₄).mpr ⟨_, hasking⟩
  obtain ⟨made, hmade, rfl⟩ := stepAsking_asks hasking
  rw [askDueAll_bind_run] at h
  obtain ⟨_, w₇, hreport, h⟩ := ok_of_lift_bind h
  obtain ⟨_, w₈, htrace, h⟩ := ok_of_lift_bind h
  cases h
  refine ⟨w₄, v, w₃.frame.body.length, made, happroach, hstep, ?_, hmade, ?_⟩
  · unfold conclude
    rw [run_bind (emitDueAll_run _ v), run_bind hreport, run_bind htrace]
    rfl
  · rw [hframe]
    simp [along]

/-- At the end unread constants are written down, and then the blocks finish. -/
theorem ok_of_windUpAsking (h : windUpAsking.run asked w = .ok ((), asked') w') :
    asked' = asked ++ [⟨.finish w.frame.code.length, w.frame.blocks⟩] := by
  obtain ⟨_, _, hget, h⟩ := ok_of_lift_bind h
  cases hget
  obtain ⟨_, v, hflush, h⟩ := ok_of_lift_bind h
  obtain ⟨_, -, -, hunnoted⟩ :=
    unread_effect (fun hR => flushAll_keeps hR (fun _ => trivial) _) hflush
  rw [ask_bind_run, hunnoted.blocks] at h
  obtain ⟨_, _, -, hpure⟩ := ok_of_bind (f := fun a => pure (a, _)) h
  cases hpure
  rfl

end Record

end Walking

/-! ### The record of a job -/

namespace Job

open Walking

variable {j : Job} {index fuel : Nat} {w w' v : Walk} {asked asked' asked'' : List Asked}
  {r : Routine} {d : Context}

/-- What the walk of a job that succeeds has its blocks do, from the first instruction to the
end. -/
def record (j : Job) : List Asked :=
  match j.context.limits.enter with
  | .error _ => []
  | .ok limits =>
    match (walkAsking j.children).run [] (j.entered limits) with
    | .ok (_, asked) _ => asked
    | .error _ _ => []

/-- What a walk has its blocks do from an index on: one instruction after the other, and then the
end of the code. -/
inductive Asks (j : Job) : Nat → Walk → List Asked → Prop
  | done {w : Walk} (reached : j.At j.source.instructions.length w) :
      j.Asks j.source.instructions.length w [⟨.finish j.source.instructions.length, w.frame.blocks⟩]
  | turn {index taken mark : Nat} {i : Instruction} {w w₁ v w' : Walk} {made rest : List Asked}
      (reached : j.At index w) (instruction : w.frame.code[index]? = some i)
      (approached : approach i index w = .ok () w₁)
      (stepped : step j.children i index w₁ = .ok taken v)
      (concluded : conclude i index mark taken v = .ok taken w')
      (asks : StepAsks index i w₁ made) (after : j.Asks (index + taken) w' rest) :
      j.Asks index w (⟨.due index, w.frame.blocks⟩ :: made
        ++ v.frame.blocks.asksDue (along index taken) ++ rest)

/-- At the end of the code only the last entry is left. -/
theorem At.asks_end (h : j.At index w) (hend : j.source.instructions.length ≤ index)
    (hwound : windUpAsking.run asked w = .ok ((), asked') v) :
    ∃ rest, asked' = asked ++ rest ∧ j.Asks index w rest := by
  obtain rfl := Nat.le_antisymm h.le_length hend
  refine ⟨_, ?_, .done h⟩
  rw [ok_of_windUpAsking hwound, h.owns.code]

theorem At.asks (h : j.At index w) (hfuel : j.source.instructions.length ≤ index + fuel)
    (hrun : (walkFromAsking j.children fuel index).run asked w = .ok ((), asked') w')
    (hwound : windUpAsking.run asked' w' = .ok ((), asked'') v) :
    ∃ rest, asked'' = asked ++ rest ∧ j.Asks index w rest := by
  induction fuel generalizing index w asked with
  | zero =>
    cases hrun
    exact h.asks_end hfuel hwound
  | succ fuel ih =>
    obtain ⟨_, _, hget, hrun⟩ := ok_of_lift_bind hrun
    cases hget
    cases hi : w.frame.code[index]? with
    | none =>
      rw [hi] at hrun
      cases hrun
      refine h.asks_end ?_ hwound
      rw [← h.owns.code]
      exact List.getElem?_eq_none_iff.mp hi
    | some i =>
      rw [hi] at hrun
      obtain ⟨taken, _, w₁, hadvanced, hrun⟩ := ok_of_bind_asking hrun
      have hadvance :=
        (ok_iff_of_forgets (advanceAsking_forgets j.children i index) _ w).mpr ⟨_, hadvanced⟩
      have hpos := h.advances_pos hadvance
      obtain ⟨v₁, v₂, mark, made, happroach, hstep, hconclude, hasks, rfl⟩ :=
        ok_of_advanceAsking hadvanced
      obtain ⟨rest, rfl, hrest⟩ := ih (.next h hi hadvance) (by omega) hrun
      refine ⟨_, ?_, .turn h hi happroach hstep hconclude hasks hrest⟩
      rw [List.append_assoc]

/-- The record of a job that succeeds. -/
theorem asks_of_ok (hok : j.result = .ok r d) : ∃ w, j.At 0 w ∧ j.Asks 0 w j.record := by
  obtain ⟨wend, v, hend, hwound, -, -⟩ := end_of_ok hok
  obtain ⟨limits, henter, hwalk⟩ := hend.walk_end
  obtain ⟨asked, hrun⟩ := (ok_iff_of_forgets (walkAsking_forgets j.children) [] _).mp
    (hwalk.trans hwound)
  have hasked : j.record = asked := by simp only [record, henter, hrun]
  obtain ⟨_, _, hget, hrun⟩ := ok_of_lift_bind hrun
  cases hget
  obtain ⟨_, w₁, hlog, hrun⟩ := ok_of_lift_bind hrun
  obtain ⟨_, w₂, hobserve, hrun⟩ := ok_of_lift_bind hrun
  have hopened : opening j.children (j.entered limits) = .ok () w₂ := by
    unfold opening
    rw [run_get, run_bind hlog, hobserve]
  obtain ⟨_, asked₃, w₃, hrun, hwound⟩ := ok_of_bind_asking hrun
  have hzero := At.first henter hopened
  obtain ⟨rest, hrest, hasks⟩ := hzero.asks (by rw [(j.owns_entered limits).code]; omega)
    hrun hwound
  rw [List.nil_append] at hrest
  exact ⟨w₂, hzero, hasked.trans hrest ▸ hasks⟩

end Job

end LuaRecovery

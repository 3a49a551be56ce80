/-
Open lists of values.

The number of values of a call or a return may be open.  Then its list ends with the results of an
earlier call, which left them open from its own register on, or it is a guess, which is reported.
Results that were left open are taken by the first open list that starts below their register.  A
list that starts above takes a guess and leaves them, so that a list far behind may still take
them: the call that left them need not be the instruction right before.

`Prototype.Pending` says this of the code alone.  The register that a walk keeps in mind is the one
of the call whose results are pending, so what every open list is follows from the code.
-/
import LuaRecovery.Proofs.ShownReports
import LuaRecovery.Proofs.Stretches
import LuaRecovery.Proofs.WalkPassages

namespace LuaRecovery

/-! ### Results that are left open -/

/-- The list of an instruction is open. -/
def Instruction.TakesOpen (i : Instruction) : Prop :=
  i.opcode = .call ∧ i.b = 0 ∨ i.opcode = .ret ∧ i.b ≤ 0

instance (i : Instruction) : Decidable i.TakesOpen :=
  inferInstanceAs (Decidable (_ ∨ _))

/-- The register right before the list of an instruction. -/
def Instruction.listBase (i : Instruction) : Int := if i.opcode = .ret then i.a - 1 else i.a

namespace Prototype

variable {p : Prototype} {k index : Nat} {top : Int}

/-- The call at an index leaves its results open from the register `top` on, for an instruction
right behind whose list is open. -/
def LeavesOpen (p : Prototype) (index : Nat) (top : Int) : Prop :=
  ∃ i next, p.instructions[index]? = some i ∧ i.opcode = .call ∧ i.c = 0 ∧ i.a = top ∧
    p.instructions[index + 1]? = some next ∧ (next.opcode = .call ∨ next.opcode = .ret) ∧
    next.b = 0

/-- The results that the call at `k` left open are the last ones before an index, and all open lists
in between start at their register or above. -/
structure Pending (p : Prototype) (k : Nat) (top : Int) (index : Nat) : Prop where
  left : p.LeavesOpen k top
  before : k < index
  last : ∀ m top', k < m → m < index → ¬p.LeavesOpen m top'
  above : ∀ m i, k < m → m < index → p.instructions[m]? = some i → i.TakesOpen → top ≤ i.listBase

/-- What an instruction does to pending results. -/
theorem pending_succ : p.Pending k top (index + 1) ↔ k = index ∧ p.LeavesOpen index top ∨
      p.Pending k top index ∧ (∀ top', ¬p.LeavesOpen index top') ∧
        ∀ i, p.instructions[index]? = some i → i.TakesOpen → top ≤ i.listBase := by
  constructor
  · intro h
    by_cases hk : k = index
    · exact .inl ⟨hk, hk ▸ h.left⟩
    · have hlt : k < index := by have := h.before; omega
      refine .inr ⟨⟨h.left, hlt, fun m top' hm hmi => ?_, fun m i hm hmi => ?_⟩,
        fun top' => h.last index top' hlt (by omega), fun i => h.above index i hlt (by omega)⟩
      · exact h.last m top' hm (by omega)
      · exact h.above m i hm (by omega)
  · rintro (⟨rfl, hleft⟩ | ⟨h, hlast, habove⟩)
    · exact ⟨hleft, by omega, fun m _ hm hmi => by omega, fun m _ hm hmi => by omega⟩
    · refine ⟨h.left, by have := h.before; omega, fun m top' hm hmi => ?_, fun m i hm hmi => ?_⟩
      · by_cases hm' : m = index
        · exact hm' ▸ hlast top'
        · exact h.last m top' hm (by omega)
      · by_cases hm' : m = index
        · exact hm' ▸ habove i
        · exact h.above m i hm (by omega)

theorem not_pending_zero : ¬p.Pending k top 0 := by
  intro h
  exact absurd h.before (Nat.not_lt_zero k)

end Prototype

theorem Registers.boundFrom_touch (r : Registers) (reg : Int) (fuel : Nat) :
    ∀ index, (r.touch reg).boundFrom index fuel = r.boundFrom index fuel := by
  induction fuel with
  | zero => exact fun _ => rfl
  | succ fuel ih =>
    intro index
    show (if r.isBound index then index :: (r.touch reg).boundFrom (index + 1) fuel else []) = _
    rw [ih]
    rfl

theorem Registers.boundAbove_touch (r : Registers) (reg base : Int) :
    (r.touch reg).boundAbove base = r.boundAbove base :=
  r.boundFrom_touch reg r.slots.size (base + 1)

namespace Walking

/-! ### Steps that keep the register in mind -/

/-- The same register of the same code is kept in mind. -/
def KeepsTop (w w' : Walk) : Prop := w'.frame.top = w.frame.top ∧ w'.frame.code = w.frame.code

theorem keepsTop_fenced : Fenced KeepsTop where
  refl _ := ⟨rfl, rfl⟩
  trans _ _ _ h₁ h₂ := ⟨h₂.1.trans h₁.1, h₂.2.trans h₁.2⟩
  registers _ _ _ := ⟨rfl, rfl⟩
  scene _ _ _ := ⟨rfl, rfl⟩
  objects _ _ := ⟨rfl, rfl⟩
  captured _ _ _ _ := ⟨rfl, rfl⟩
  assign _ _ _ _ := ⟨rfl, rfl⟩
  bind _ _ _ _ _ _ _ _ _ _ _ _ := ⟨rfl, rfl⟩
  note _ _ := ⟨rfl, rfl⟩
  limits _ _ _ := ⟨rfl, rfl⟩
  trace _ _ := ⟨rfl, rfl⟩
  report _ _ := ⟨rfl, rfl⟩
  emit _ _ _ := ⟨rfl, rfl⟩
  drainRegisters _ := ⟨rfl, rfl⟩
  drainBlocks _ := ⟨rfl, rfl⟩
  blocks _ _ _ _ := ⟨rfl, rfl⟩

variable (children : List Child)

theorem closure_keepsTop (i : Instruction) (index : Nat) :
    Keeps KeepsTop (closure children i index) := by
  have hR := keepsTop_fenced
  refine closure_keeps hR.toTold (fun child => ?_) fun child _ name upvalues declares w => ?_
  · exact prepare_keeps hR.toCarried (fun _ _ _ _ _ _ _ => ⟨rfl, rfl⟩) child index
  · exact buildChild_after (fun _ _ _ => ⟨rfl, rfl⟩) (fun _ _ _ _ => ⟨trivial, rfl, rfl⟩)
      fun _ _ _ _ => ⟨trivial, rfl, rfl⟩

/-- Only calls and returns change the register. -/
theorem step_keepsTop {i : Instruction} (index : Nat)
    (hcall : i.opcode ≠ .call) (hret : i.opcode ≠ .ret) :
    Keeps KeepsTop (step children i index) := by
  have hR := keepsTop_fenced
  by_cases hclosure : i.opcode = .closure
  · unfold step
    rw [hclosure]
    exact hR.seq (closure_keepsTop children i index) (hR.done _)
  · exact idleStep_keeps hR children i index hclosure hcall hret

/-! ### Lists of values -/

/-- What a return does once the registers of its list are known. -/
def finishReturn (index : Nat) (registers : List Int) (ambiguous : Bool) : Walking Unit := do
  let values ← readTexts registers
  reportGuess ambiguous "return with open value list" index
  emit (.ret values (guessComment ambiguous))

/-- What a call does once the registers of its list are known. -/
def finishCall (i : Instruction) (index : Nat) (registers : List Int) (ambiguous : Bool) :
    Walking Unit := do
  let callee ← readRegister i.a
  let registers := withoutReceiver callee.method i.a registers
  let args ← readTexts registers
  reportGuess ambiguous ("call to " ++ callee.text ++ " with open argument list") index
  let outcome ← makeCall
    { callee := callee.text, args, calleeHandle := callee.handle, receiver := callee.receiver
      method := callee.method }
  clearRegisters (range (i.a + 1) (i.a + max (registers.length : Int) (i.b - 1)))
  placeResults i index outcome (guessComment ambiguous)

/-- What a call or a return does once the registers of its list are known. -/
def takeList (i : Instruction) (index : Nat) (registers : List Int) (ambiguous : Bool) :
    Walking Unit :=
  if i.opcode = .ret then finishReturn index registers ambiguous
  else finishCall i index registers ambiguous

variable {i : Instruction} {index : Nat} {w : Walk} {top base : Int}

theorem readRegister_barring (reg : Int) (w : Walk) :
    Barring w.context.limits.host (readRegister reg w) (.ok (w.frame.registers.peek reg)
      { w with frame.registers := w.frame.registers.touch reg }) :=
  barring_bind (barring_spell _ w) (.inl rfl)

/-- Reading registers gives the texts that they hold. -/
theorem readTexts_barring (registers : List Int) : ∀ w : Walk,
    Barring w.context.limits.host (readTexts registers w)
      (.ok (registers.map fun reg => (w.frame.registers.peek reg).text)
        { w with frame.registers := registers.foldl Registers.touch w.frame.registers }) := by
  induction registers with
  | nil => exact fun _ => .inl rfl
  | cons reg rest ih =>
    intro w
    refine barring_bind (barring_bind (readRegister_barring reg w) (.inl rfl)) ?_
    exact barring_bind (ih _) (.inl rfl)

theorem argumentRegisters_known {count : Int} (hcount : count ≠ 0) (base : Int) (w : Walk) :
    Barring w.context.limits.host (argumentRegisters base count w)
      (.ok (range (base + 1) (base + max 0 (count - 1)), false) w) := by
  unfold argumentRegisters
  rw [if_pos hcount]
  exact barring_bind (barring_listed _ _ w) (.inl rfl)

theorem argumentRegisters_taken (htop : w.frame.top = some top) (hlt : base < top) :
    Barring w.context.limits.host (argumentRegisters base 0 w)
      (.ok (range (base + 1) top, false) { w with frame.top := none }) := by
  unfold argumentRegisters
  rw [if_neg (by simp), run_get, htop]
  show Barring _ ((if base < top then _ else _ : Walking _) w) _
  rw [if_pos hlt]
  refine barring_bind (.inl rfl) ?_
  exact barring_bind (barring_listed _ _ { w with frame.top := none }) (.inl rfl)

theorem argumentRegisters_guessed (htop : ∀ top, w.frame.top = some top → top ≤ base) :
    argumentRegisters base 0 w = .ok (w.frame.registers.boundAbove base, true) w := by
  unfold argumentRegisters
  rw [if_neg (by simp), run_get]
  cases hfound : w.frame.top with
  | none => rfl
  | some top =>
    show (if base < top then _ else _ : Walking _) w = _
    rw [if_neg (Int.not_lt.mpr (htop top hfound))]
    rfl

theorem call_barring {registers : List Int} {ambiguous : Bool} {t : Option Int}
    (hlist : Barring w.context.limits.host
      (argumentRegisters i.a i.b { w with frame.registers := w.frame.registers.touch i.a })
      (.ok (registers, ambiguous)
        { w with frame.registers := w.frame.registers.touch i.a, frame.top := t })) :
    Barring w.context.limits.host (call i index w)
      (finishCall i index registers ambiguous { w with frame.top := t }) := by
  unfold call finishCall
  -- The register of what is called can be read with and without results that are left open.
  cases hspelled : w.context.limits.host.writingFault? (w.frame.registers.spelled i.a) with
  | some fault =>
    have hrefused : Refused w.context.limits.host (spell (·.frame.registers.spelled i.a) w) :=
      ⟨fault, w, (Host.refuses_of_writingFault? hspelled).1, askHost_error hspelled⟩
    exact .inr ((hrefused.bind _).bind _)
  | none =>
    have hread (top : Option Int) : readRegister i.a { w with frame.top := top } =
        .ok (w.frame.registers.peek i.a)
          { w with frame.registers := w.frame.registers.touch i.a, frame.top := top } :=
      run_bind (askHost_run hspelled) _
    rw [run_bind (hread t)]
    exact barring_bind (.inl (hread w.frame.top)) (barring_bind hlist (.inl rfl))

theorem ret_barring {registers : List Int} {ambiguous : Bool} {w' : Walk} (hb : i.b ≤ 0)
    (hlist : Barring w.context.limits.host (argumentRegisters (i.a - 1) 0 w)
      (.ok (registers, ambiguous) w')) :
    Barring w.context.limits.host (ret i index w) (finishReturn index registers ambiguous w') := by
  unfold ret finishReturn
  rw [if_neg (by omega), if_neg (by omega)]
  exact barring_bind hlist (.inl rfl)

/-- A list that starts below results that are left open takes them. -/
theorem step_takes (index : Nat) (hopen : i.TakesOpen)
    (htop : w.frame.top = some top) (hlt : i.listBase < top) :
    Barring w.context.limits.host (step children i index w)
      ((takeList i index (range (i.listBase + 1) top) false >>= fun _ => pure 1)
        { w with frame.top := none }) := by
  unfold Instruction.listBase at *
  unfold step takeList
  rcases hopen with ⟨hop, hb⟩ | ⟨hop, hb⟩
  · rw [hop] at hlt ⊢
    exact barring_congr (call_barring (hb ▸ argumentRegisters_taken htop hlt)) _
  · rw [hop] at hlt ⊢
    exact barring_congr (ret_barring hb (argumentRegisters_taken htop hlt)) _

/-- Any other list is a guess. -/
theorem step_guesses (index : Nat) (hopen : i.TakesOpen)
    (htop : ∀ top, w.frame.top = some top → top ≤ i.listBase) :
    Barring w.context.limits.host (step children i index w)
      ((takeList i index (w.frame.registers.boundAbove i.listBase) true >>= fun _ => pure 1)
        w) := by
  unfold Instruction.listBase at *
  unfold step takeList
  rcases hopen with ⟨hop, hb⟩ | ⟨hop, hb⟩
  · rw [hop] at htop ⊢
    have hlist : argumentRegisters i.a 0
        { w with frame.registers := w.frame.registers.touch i.a } = _ :=
      argumentRegisters_guessed htop
    rw [Registers.boundAbove_touch] at hlist
    exact barring_congr (call_barring (.inl (hb ▸ hlist))) _
  · rw [hop] at htop ⊢
    exact barring_congr (ret_barring hb (.inl (argumentRegisters_guessed htop))) _

/-! ### The register after a step -/

/-- Whether the results of a call are left open. -/
def Leaves (code : List Instruction) (i : Instruction) (index : Nat) : Prop :=
  i.c = 0 ∧ ∃ next, code[index + 1]? = some next ∧ (next.opcode = .call ∨ next.opcode = .ret) ∧
    next.b = 0

/-- The register after a call: its own if it leaves its results open. -/
def TopAfterCall (w : Walk) (i : Instruction) (index : Nat) (w' : Walk) : Prop :=
  (Leaves w.frame.code i index → w'.frame.top = some i.a) ∧
    (¬Leaves w.frame.code i index → w'.frame.top = w.frame.top)

theorem TopAfterCall.of_keeps {w₁ w' : Walk} (h : KeepsTop w w₁) (h' : TopAfterCall w₁ i index w') :
    TopAfterCall w i index w' := by
  unfold TopAfterCall at *
  rwa [h.1, h.2] at h'

theorem placeResults_top (i : Instruction) (index : Nat) (outcome : Scene.CallOutcome)
    (comment : Option String) (w : Walk) :
    Once (fun _ w' => TopAfterCall w i index w') (placeResults i index outcome comment w) := by
  have hR := keepsTop_fenced
  have hkept {α : Type} {T : Stop → Prop} {m : Walking α} (hm : Keeps KeepsTop m T) (w : Walk)
      (hno : ¬Leaves w.frame.code i index) :
      Once (fun _ w' => TopAfterCall w i index w') (m w) :=
    after_mono (hm w) (fun _ _ h => ⟨fun h' => absurd h' hno, fun _ => h.1⟩) fun _ _ _ => trivial
  unfold placeResults
  dsimp only
  by_cases hone : i.c - 1 = 1
  · have hno : ¬Leaves w.frame.code i index := fun h => by have := h.1; omega
    rw [if_pos hone]
    exact after_bind (hkept (bindLocal_keeps hR.toCarried _ _ trivial) w hno)
  rw [if_neg hone]
  by_cases hmany : 1 < i.c - 1
  · have hno : ¬Leaves w.frame.code i index := fun h => by have := h.1; omega
    rw [if_pos hmany]
    exact hkept (bindMany_keeps hR.toCarried _ _ fun _ _ => trivial) w hno
  rw [if_neg hmany]
  refine after_seq (after_loose (Job.holdsOpen_next i index w)) ?_
  rintro held w₁ ⟨rfl, hheld⟩
  cases held with
  | true => exact ⟨fun _ => rfl, fun hno => absurd (hheld.mp rfl) hno⟩
  | false =>
    have hno : ¬Leaves w₁.frame.code i index := fun h => nomatch hheld.mpr h
    refine hkept (T := fun _ => True) ?_ w₁ hno
    refine hR.seq (emitLine_keeps hR.toTold trivial) ?_
    refine hR.chain (fun w => hR.refl w) fun found => ?_
    exact keeps_ite (clearRegisters_keeps hR.toCarried fun _ _ => trivial) (hR.done ())

theorem finishCall_top (i : Instruction) (index : Nat) (registers : List Int) (ambiguous : Bool)
    (w : Walk) :
    Once (fun _ w' => TopAfterCall w i index w') (finishCall i index registers ambiguous w) := by
  have hR := keepsTop_fenced
  have hkept {α : Type} {m : Walking α} (hm : Keeps KeepsTop m Stop.IsMute) (w : Walk) :
      Once (fun _ w' => KeepsTop w w') (m w) :=
    after_loose (hm w)
  refine after_seq (hkept (readRegister_keeps hR.toCarried trivial) w) fun callee w₁ h₁ => ?_
  refine after_seq (hkept (readTexts_keeps hR.toCarried fun _ _ => trivial) w₁) fun args w₂ h₂ => ?_
  refine after_seq (hkept (reportGuess_keeps hR.toTold _ _ _) w₂) fun _ w₃ h₃ => ?_
  refine after_seq (hkept (makeCall_keeps hR.toCarried (fun _ _ => ⟨rfl, rfl⟩) _) w₃)
    fun outcome w₄ h₄ => ?_
  refine after_seq (hkept (clearRegisters_keeps hR.toCarried fun _ _ => trivial) w₄)
    fun _ w₅ h₅ => ?_
  have hbefore : KeepsTop w w₅ := hR.trans _ _ _ h₁ (hR.trans _ _ _ h₂ (hR.trans _ _ _ h₃
    (hR.trans _ _ _ h₄ h₅)))
  exact after_imp (placeResults_top _ _ _ _ w₅) (fun _ _ h => h.of_keeps hbefore)

/-- A return with a known number of values keeps the register. -/
theorem ret_keepsTop (hb : 0 < i.b) (index : Nat) : Keeps KeepsTop (ret i index) Stop.IsMute := by
  have hR := keepsTop_fenced
  unfold ret
  by_cases hnone : i.b = 1
  · rw [if_pos hnone]
    refine hR.chain (fun w => hR.refl w) fun w => ?_
    exact keeps_ite (emitLine_keeps hR.toTold trivial) (hR.done ())
  · rw [if_neg hnone, if_pos (by omega)]
    refine hR.seq (readTexts_keeps hR.toCarried fun _ _ => trivial) ?_
    exact emitLine_keeps hR.toTold trivial

theorem finishReturn_keepsTop (index : Nat) (registers : List Int) (ambiguous : Bool) :
    Keeps KeepsTop (finishReturn index registers ambiguous) Stop.IsMute := by
  have hR := keepsTop_fenced
  refine hR.chain (readTexts_keeps hR.toCarried fun _ _ => trivial) fun values => ?_
  refine hR.seq (reportGuess_keeps hR.toTold _ _ _) ?_
  exact emitLine_keeps hR.toTold trivial

/-- The register that an instruction leaves to others: an open list takes one above its start. -/
def Left (i : Instruction) (before after : Option Int) : Prop :=
  ∀ top, after = some top ↔ before = some top ∧ (i.TakesOpen → top ≤ i.listBase)

theorem left_self (h : i.TakesOpen → ∀ top, w.frame.top = some top → top ≤ i.listBase) :
    Left i w.frame.top w.frame.top :=
  fun top => ⟨fun htop => ⟨htop, fun hopen => h hopen top htop⟩, fun htop => htop.1⟩

theorem left_none (htop : w.frame.top = some top) (hopen : i.TakesOpen) (hlt : i.listBase < top) :
    Left i w.frame.top none := by
  intro top'
  constructor
  · intro h
    cases h
  · rintro ⟨h, habove⟩
    rw [htop] at h
    cases h
    exact absurd hlt (Int.not_lt.mpr (habove hopen))

/-- Every open list takes the register above its start or leaves the one that there is. -/
theorem takes_or_guesses (index : Nat) (hopen : i.TakesOpen) (w : Walk) :
    ∃ t registers ambiguous, Left i w.frame.top t ∧ Barring w.context.limits.host
      (step children i index w)
      ((takeList i index registers ambiguous >>= fun _ => pure 1) { w with frame.top := t }) := by
  by_cases htaken : ∃ top, w.frame.top = some top ∧ i.listBase < top
  · obtain ⟨top, htop, hlt⟩ := htaken
    exact ⟨none, _, false, left_none htop hopen hlt, step_takes children index hopen htop hlt⟩
  · have habove : ∀ top, w.frame.top = some top → top ≤ i.listBase := by
      intro top htop
      exact Int.not_lt.mp fun hlt => htaken ⟨top, htop, hlt⟩
    have hstep := step_guesses children index hopen habove
    exact ⟨w.frame.top, _, true, left_self fun _ => habove, hstep⟩

/-- The register that is kept in mind after an instruction: that of a call that leaves its results
open, or else the one before, unless an open list takes it. -/
def TopAfter (p : Prototype) (i : Instruction) (index : Nat) (w w' : Walk) : Prop :=
  ∀ top, w'.frame.top = some top ↔ p.LeavesOpen index top ∨
    w.frame.top = some top ∧ (∀ top', ¬p.LeavesOpen index top') ∧ (i.TakesOpen → top ≤ i.listBase)

/-- Where nothing is left open, what was open before may still be. -/
theorem topAfter_of_left {p : Prototype} {w' : Walk} {t : Option Int}
    (hno : ∀ top, ¬p.LeavesOpen index top) (hleft : Left i w.frame.top t)
    (htop : w'.frame.top = t) : TopAfter p i index w w' := by
  intro top
  rw [htop, hleft top]
  constructor
  · rintro ⟨hbefore, habove⟩
    exact .inr ⟨hbefore, hno, habove⟩
  · rintro (hopen | ⟨hbefore, -, habove⟩)
    · exact absurd hopen (hno top)
    · exact ⟨hbefore, habove⟩

section

variable {p : Prototype} {w' : Walk} (hi : p.instructions[index]? = some i)

include hi

theorem leavesOpen_iff : p.LeavesOpen index top ↔
    i.opcode = .call ∧ i.a = top ∧ Leaves p.instructions i index := by
  constructor
  · rintro ⟨i', next, hi', hop, hc, htop, hnext⟩
    rw [hi] at hi'
    cases hi'
    exact ⟨hop, htop, hc, next, hnext⟩
  · rintro ⟨hop, htop, hc, next, hnext⟩
    exact ⟨i, next, hi, hop, hc, htop, hnext⟩

/-- An instruction that is no call leaves nothing open. -/
theorem not_leavesOpen (hop : i.opcode ≠ .call) (top : Int) : ¬p.LeavesOpen index top :=
  fun h => hop ((leavesOpen_iff hi).mp h).1

theorem topAfter_of_call (hop : i.opcode = .call) {v : Walk} (hcode : v.frame.code = p.instructions)
    (hleft : Left i w.frame.top v.frame.top) (h : TopAfterCall v i index w') :
    TopAfter p i index w w' := by
  intro top
  unfold TopAfterCall at h
  rw [hcode] at h
  by_cases hleaves : Leaves p.instructions i index
  · rw [h.1 hleaves]
    constructor
    · intro htop
      exact .inl ((leavesOpen_iff hi).mpr ⟨hop, Option.some.inj htop, hleaves⟩)
    · rintro (hopen | ⟨-, hno, -⟩)
      · exact congrArg some ((leavesOpen_iff hi).mp hopen).2.1
      · exact absurd ((leavesOpen_iff hi).mpr ⟨hop, rfl, hleaves⟩) (hno i.a)
  · exact topAfter_of_left (fun _ h => hleaves ((leavesOpen_iff hi).mp h).2.2) hleft
      (h.2 hleaves) top

theorem step_top (children : List Child) (hcode : w.frame.code = p.instructions) :
    Once (fun _ w' => TopAfter p i index w w') (step children i index w) := by
  by_cases hcall : i.opcode = .call
  · by_cases hb : i.b = 0
    · obtain ⟨t, registers, ambiguous, hleft, hstep⟩ :=
        takes_or_guesses children index (.inl ⟨hcall, hb⟩) w
      refine hstep.after ?_
      rw [takeList, if_neg (by simp [hcall])]
      refine after_seq (finishCall_top i index registers ambiguous _) fun _ w' h => ?_
      exact topAfter_of_call (v := { w with frame.top := t }) hi hcall hcode hleft h
    · have hlist := argumentRegisters_known hb i.a
        { w with frame.registers := w.frame.registers.touch i.a }
      have hclosed : ¬i.TakesOpen := by
        rintro (⟨-, hzero⟩ | ⟨hret, -⟩)
        · exact hb hzero
        · rw [hcall] at hret
          cases hret
      unfold step
      rw [hcall]
      refine (barring_congr (call_barring (t := w.frame.top) hlist) _).after ?_
      refine after_seq (finishCall_top i index _ false _) fun _ w' h => ?_
      exact topAfter_of_call hi hcall hcode (left_self fun hopen => absurd hopen hclosed) h
  by_cases hret : i.opcode = .ret
  · by_cases hb : i.b ≤ 0
    · obtain ⟨t, registers, ambiguous, hleft, hstep⟩ :=
        takes_or_guesses children index (.inr ⟨hret, hb⟩) w
      have hkept := finishReturn_keepsTop index registers ambiguous { w with frame.top := t }
      refine hstep.after ?_
      rw [takeList, if_pos hret]
      refine after_seq (after_loose hkept) fun _ w' h => ?_
      exact topAfter_of_left (not_leavesOpen hi hcall) hleft h.1
    · have hclosed : ¬i.TakesOpen := by
        rintro (⟨h, -⟩ | ⟨-, h⟩)
        · exact hcall h
        · exact hb h
      have hkept := ret_keepsTop (Int.not_le.mp hb) index w
      unfold step
      rw [hret]
      refine after_seq (after_loose hkept) fun _ w' h => ?_
      exact topAfter_of_left (not_leavesOpen hi hcall)
        (left_self fun hopen => absurd hopen hclosed) h.1
  · have hclosed : ¬i.TakesOpen := by
      rintro (⟨h, -⟩ | ⟨h, -⟩)
      · exact hcall h
      · exact hret h
    refine after_mono (step_keepsTop children index hcall hret w) (fun _ w' h => ?_)
      fun _ _ _ => trivial
    exact topAfter_of_left (not_leavesOpen hi hcall)
      (left_self fun hopen => absurd hopen hclosed) h.1

end

end Walking

namespace Walking

/-! ### Reports on lists -/

/-- Nothing was reported. -/
def Unreported (w w' : Walk) : Prop :=
  w'.context.diagnostics = w.context.diagnostics ∧ w'.frame.path = w.frame.path

theorem unreported_quiet : Quiet Unreported where
  refl _ := ⟨rfl, rfl⟩
  trans _ _ _ h₁ h₂ := ⟨h₂.1.trans h₁.1, h₂.2.trans h₁.2⟩
  registers _ _ _ := ⟨rfl, rfl⟩
  scene _ _ _ := ⟨rfl, rfl⟩
  objects _ _ := ⟨rfl, rfl⟩
  captured _ _ _ _ := ⟨rfl, rfl⟩
  assign _ _ _ _ := ⟨rfl, rfl⟩
  bind _ _ _ _ _ _ _ _ _ _ _ _ := ⟨rfl, rfl⟩
  note _ _ := ⟨rfl, rfl⟩
  limits _ _ _ := ⟨rfl, rfl⟩
  trace _ _ := ⟨rfl, rfl⟩

/-- The message on an open list that is a guess. -/
def guessMessage (i : Instruction) (f : Frame) : String :=
  if i.opcode = .ret then "return with open value list"
  else "call to " ++ (f.registers.peek i.a).text ++ " with open argument list"

/-- What is reported of a list. -/
def guessReports (i : Instruction) (index : Nat) (ambiguous : Bool) (f : Frame) :
    List Diagnostic :=
  if ambiguous then [⟨.ambiguousArgCount, guessMessage i f, f.path, some index⟩] else []

variable {i : Instruction} {index : Nat} {w : Walk}

theorem reportGuess_unreported {α : Type} {m : Walking α} (hm : Keeps Unreported m Stop.IsMute)
    (ambiguous : Bool) (message : String) (index : Nat) {v : Walk} (hv : Unreported w v) :
    After
      (fun _ w' => w'.context.diagnostics = w.context.diagnostics ++
        if ambiguous then [⟨.ambiguousArgCount, message, w.frame.path, some (index : Int)⟩] else [])
      (fun _ w' => w'.context.diagnostics = w.context.diagnostics ++
        if ambiguous then [⟨.ambiguousArgCount, message, w.frame.path, some (index : Int)⟩] else [])
      ((reportGuess ambiguous message index >>= fun _ => m) v) := by
  cases ambiguous with
  | false =>
    refine after_mono (hm v) (fun _ w' h => ?_) fun _ w' h => ?_
    · rw [h.1, hv.1]
      exact (List.append_nil _).symm
    · rw [h.2.1, hv.1]
      exact (List.append_nil _).symm
  | true =>
    have hafter := hm { v with
      context := v.context.report ⟨.ambiguousArgCount, message, v.frame.path, some index⟩ }
    refine after_mono hafter (fun _ w' h => ?_) fun _ w' h => ?_
    · rw [h.1, ← hv.1, ← hv.2]
      rfl
    · rw [h.2.1, ← hv.1, ← hv.2]
      rfl

/-- A list is reported exactly if it is a guess, barring a limit of the host. -/
theorem takeList_reports (i : Instruction) (index : Nat) (registers : List Int) (ambiguous : Bool)
    (w : Walk) :
    After
        (fun _ w' => w'.context.diagnostics =
          w.context.diagnostics ++ guessReports i index ambiguous w.frame)
        (fun _ w' => w'.context.diagnostics =
          w.context.diagnostics ++ guessReports i index ambiguous w.frame)
        (takeList i index registers ambiguous w) ∨
      Refused w.context.limits.host (takeList i index registers ambiguous w) := by
  have hR := unreported_quiet
  unfold takeList guessReports guessMessage
  by_cases hret : i.opcode = .ret
  · rw [if_pos hret, if_pos hret, finishReturn]
    refine (readTexts_barring registers w).bind_after (.inl ?_)
    have hemit : Keeps Unreported
        (emit (.ret (registers.map fun reg => (w.frame.registers.peek reg).text)
          (guessComment ambiguous))) Stop.IsMute := by
      intro v
      show Unreported v _
      exact ⟨rfl, rfl⟩
    exact reportGuess_unreported hemit ambiguous _ index ⟨rfl, rfl⟩
  · rw [if_neg hret, if_neg hret, finishCall]
    refine (readRegister_barring i.a w).bind_after ?_
    refine (readTexts_barring _ _).bind_after (.inl ?_)
    refine reportGuess_unreported ?_ ambiguous _ index ⟨rfl, rfl⟩
    have hlog : Logged Unreported := fun _ _ => ⟨rfl, rfl⟩
    refine hR.chain (makeCall_keeps hR.toCarried hlog _) fun outcome => ?_
    refine hR.seq (clearRegisters_keeps hR.toCarried fun _ _ => trivial) ?_
    exact placeResults_keeps hR (fun _ _ => ⟨rfl, rfl⟩) (fun _ _ _ => ⟨rfl, rfl⟩) trivial
      (fun _ _ => trivial) _ _ _

end Walking

namespace Job

open Walking

variable {j : Job} {index taken : Nat} {i : Instruction} {w w' : Walk} {top : Int}

/-- Instructions that a step takes along have no lists. -/
theorem Due.taken_along_closed (h : j.Due index i w)
    (hstep : step j.children i index w = .ok taken w') {m : Nat} (hm : index < m)
    (hlt : m < index + taken) :
    (∀ top, ¬j.source.LeavesOpen m top) ∧
      ∀ i', j.source.instructions[m]? = some i' → ¬i'.TakesOpen := by
  have hplain : ∀ i', j.source.instructions[m]? = some i' →
      i'.opcode ≠ .call ∧ i'.opcode ≠ .ret := by
    intro i' hi'
    rcases h.taken_along hstep hm hlt hi' with ⟨-, hop⟩ | ⟨-, hcapture⟩
    · simp [hop]
    · unfold Instruction.isCapture at hcapture
      constructor
      all_goals
        intro hop
        rw [hop] at hcapture
        cases hcapture
  refine ⟨?_, fun i' hi' => ?_⟩
  · rintro top ⟨i', next, hi', hop, -⟩
    exact (hplain i' hi').1 hop
  · rintro (⟨hop, -⟩ | ⟨hop, -⟩)
    · exact (hplain i' hi').1 hop
    · exact (hplain i' hi').2 hop

/-- The register that is kept in mind is that of the call whose results are pending. -/
def Keeping (p : Prototype) (index : Nat) (w : Walk) : Prop :=
  ∀ top, w.frame.top = some top ↔ ∃ k, p.Pending k top index

variable {p : Prototype}

theorem keeping_of_keepsTop (h : KeepsTop w w') (hw : Keeping p index w) : Keeping p index w' := by
  intro top
  rw [h.1]
  exact hw top

/-- Instructions without lists keep what is pending. -/
theorem Keeping.skip {last : Nat} (hw : Keeping p index w) (hle : index ≤ last)
    (hclosed : ∀ m, index ≤ m → m < last → (∀ top, ¬p.LeavesOpen m top) ∧
      ∀ i', p.instructions[m]? = some i' → ¬i'.TakesOpen) : Keeping p last w := by
  induction hle with
  | refl => exact hw
  | @step last hle ih =>
    intro top
    rw [ih (fun m hm hlt => hclosed m hm (Nat.lt_succ_of_lt hlt)) top]
    obtain ⟨hno, htakes⟩ := hclosed last hle (Nat.lt_succ_self last)
    simp only [Prototype.pending_succ]
    constructor
    · rintro ⟨k, hk⟩
      exact ⟨k, .inr ⟨hk, hno, fun i' hi' hopen => absurd hopen (htakes i' hi')⟩⟩
    · rintro ⟨k, ⟨-, hleft⟩ | ⟨hk, -⟩⟩
      · exact absurd hleft (hno top)
      · exact ⟨k, hk⟩

theorem keeping_succ (hi : p.instructions[index]? = some i) (hw : Keeping p index w)
    (h : TopAfter p i index w w') : Keeping p (index + 1) w' := by
  intro top
  rw [h top]
  simp only [Prototype.pending_succ]
  constructor
  · rintro (hleft | ⟨htop, hno, habove⟩)
    · exact ⟨index, .inl ⟨rfl, hleft⟩⟩
    · obtain ⟨k, hk⟩ := (hw top).mp htop
      refine ⟨k, .inr ⟨hk, hno, fun i' hi' hopen => ?_⟩⟩
      rw [hi] at hi'
      cases hi'
      exact habove hopen
  · rintro ⟨k, ⟨-, hleft⟩ | ⟨hk, hno, habove⟩⟩
    · exact .inl hleft
    · exact .inr ⟨(hw top).mpr ⟨k, hk⟩, hno, habove i hi⟩

theorem addParams_top (count : Nat) : ∀ (f : Frame) (scene : Scene) (index : Nat),
    (f.addParams scene index count).1.top = f.top := by
  induction count with
  | zero => exact fun _ _ _ => rfl
  | succ count ih => exact fun _ _ _ => ih _ _ _

theorem At.keeping (h : j.At index w) : Keeping j.source index w := by
  have hR := keepsTop_fenced
  induction h with
  | @first limits w henter hopened =>
    have hkept := opening_keeps hR.toQuiet (fun _ _ => ⟨rfl, rfl⟩) j.children (j.entered limits)
    rw [hopened] at hkept
    have hnone : w.frame.top = none := hkept.1.trans (addParams_top _ _ _ _)
    intro top
    rw [hnone]
    constructor
    · intro h
      cases h
    · rintro ⟨k, hk⟩
      exact absurd hk Prototype.not_pending_zero
  | @next index taken i w w' hbefore hi hadvanced ih =>
    obtain ⟨w₁, w₂, mark, happroach, hstep, hconclude⟩ := ok_of_advance hadvanced
    have hdue : j.Due index i w₁ := ⟨hbefore, hi, happroach⟩
    have hi' : j.source.instructions[index]? = some i := hbefore.owns.code ▸ hi
    have happroached := approach_keeps (i := i) hR (fun _ => trivial) index w
    rw [happroach] at happroached
    have hstepped := step_top hi' j.children hdue.owns.code
    rw [hstep] at hstepped
    have hconcluded := conclude_keeps hR i index mark taken w₂
    rw [hconclude] at hconcluded
    have hpos := hbefore.advances_pos hadvanced
    have hnext := keeping_succ hi' (keeping_of_keepsTop happroached ih) hstepped
    refine keeping_of_keepsTop hconcluded (hnext.skip (by omega) fun m hm hlt => ?_)
    exact hdue.taken_along_closed hstep (by omega) hlt

theorem Due.keeping (h : j.Due index i w) : Keeping j.source index w := by
  obtain @⟨before, hreached, -, happroach⟩ := h
  have hkept := approach_keeps (i := i) keepsTop_fenced (fun _ => trivial) index before
  rw [happroach] at hkept
  exact keeping_of_keepsTop hkept hreached.keeping

/-- The step of an open list that is a guess reports it, barring a limit of the host. -/
theorem Due.guess_reported (h : j.Due index i w) (hstep : step j.children i index w =
      (takeList i index (w.frame.registers.boundAbove i.listBase) true >>= fun _ => pure 1) w) :
    j.diagnostic .ambiguousArgCount (guessMessage i w.frame) index ∈
        (lastContext j.result).diagnostics ∨
      Refused w.context.limits.host (step j.children i index w) := by
  have hadded : ∀ {w' : Walk}, w'.context.diagnostics =
      w.context.diagnostics ++ guessReports i index true w.frame →
      j.diagnostic .ambiguousArgCount (guessMessage i w.frame) index ∈ w'.context.diagnostics := by
    intro w' hw'
    rw [hw', guessReports, h.owns.path]
    exact List.mem_append_right _ List.mem_cons_self
  rcases takeList_reports i index (w.frame.registers.boundAbove i.listBase) true w with
    hreports | hrefused
  · refine .inl (h.reported ?_)
    rw [hstep]
    exact after_seq (after_mono hreports (fun _ _ hw' => hadded hw') fun _ _ hw' => hadded hw')
      fun _ w' hw' => hw'
  · rw [hstep]
    exact .inr (hrefused.bind _)

/-- If a call stands right before an open list and leaves its results open, they are the pending
ones. -/
theorem pending_before_iff {k : Nat} (hpending : p.Pending k top index)
    (hi : p.instructions[index]? = some i) (hop : i.opcode = .call ∨ i.opcode = .ret)
    (hb : i.b = 0) :
    k + 1 = index ↔ ∃ m call, m + 1 = index ∧ p.instructions[m]? = some call ∧
      call.opcode = .call ∧ call.c = 0 := by
  constructor
  · intro hk
    obtain ⟨call, next, hcall, hopcode, hc, -⟩ := hpending.left
    exact ⟨k, call, hk, hcall, hopcode, hc⟩
  · rintro ⟨m, call, rfl, hcall, hopcode, hc⟩
    by_cases hlt : k < m
    · have hleft : p.LeavesOpen m call.a := ⟨call, i, hcall, hopcode, hc, rfl, hi, hop, hb⟩
      exact absurd hleft (hpending.last m call.a hlt (Nat.lt_succ_self m))
    · have hbefore := hpending.before
      omega

end Job

/-- **Open lists are guesses or end with results that were left open.**  A call or return whose
number of values is open either finds no pending results above its start: then its list is a guess,
which is reported at its index.  Or it takes the pending results, without a report: its list ends at
the register of the call that left them.  That call is the instruction right before exactly if a
call with an open number of results stands there.  Or else the host refuses what the step asks for,
which a host without limits never does. -/
theorem open_lists_are_guesses_or_end_with_pending_results {j : Job} {index : Nat}
    {i : Instruction} {w : Walk} (hdue : j.Due index i w)
    (hop : i.opcode = .call ∨ i.opcode = .ret) (hb : i.b = 0) :
    ((∀ k top, j.source.Pending k top index → top ≤ i.listBase) ∧
      Walking.step j.children i index w = (Walking.takeList i index
        (w.frame.registers.boundAbove i.listBase) true >>= fun _ => pure 1) w ∧
      j.diagnostic .ambiguousArgCount (Walking.guessMessage i w.frame) index ∈
        (lastContext j.result).diagnostics) ∨
    (∃ k top, j.source.Pending k top index ∧ i.listBase < top ∧
      Walking.step j.children i index w = (Walking.takeList i index
        (Walking.range (i.listBase + 1) top) false >>= fun _ => pure 1)
          { w with frame.top := none } ∧
      Walking.After (fun _ w' => w'.context.diagnostics = w.context.diagnostics)
        (fun _ w' => w'.context.diagnostics = w.context.diagnostics)
        (Walking.step j.children i index w) ∧
      (k + 1 = index ↔ ∃ m call, m + 1 = index ∧ j.source.instructions[m]? = some call ∧
        call.opcode = .call ∧ call.c = 0)) ∨
    Walking.Refused j.context.limits.host (Walking.step j.children i index w) := by
  have hopen : i.TakesOpen := hop.imp (fun h => ⟨h, hb⟩) fun h => ⟨h, Int.le_of_eq hb⟩
  have hi : j.source.instructions[index]? = some i := hdue.instruction
  have hhost : w.context.limits.host = j.context.limits.host := hdue.later.host
  by_cases htaken : ∃ top, w.frame.top = some top ∧ i.listBase < top
  · obtain ⟨top, htop, hlt⟩ := htaken
    obtain ⟨k, hpending⟩ := (hdue.keeping top).mp htop
    rcases Walking.step_takes j.children index hopen htop hlt with hstep | hrefused
    · have hreports := Walking.takeList_reports i index (Walking.range (i.listBase + 1) top) false
        { w with frame.top := none }
      simp only [Walking.guessReports, Bool.false_eq_true, if_false, List.append_nil] at hreports
      rcases hreports with hreports | hrefused
      · refine .inr (.inl ⟨k, top, hpending, hlt, hstep, ?_, ?_⟩)
        · rw [hstep]
          exact Walking.after_seq hreports fun _ _ h => h
        · exact Job.pending_before_iff hpending hi hop hb
      · refine .inr (.inr ?_)
        rw [hstep, ← hhost]
        exact hrefused.bind _
    · exact .inr (.inr (hhost ▸ hrefused))
  · have habove : ∀ top, w.frame.top = some top → top ≤ i.listBase := by
      intro top htop
      exact Int.not_lt.mp fun hlt => htaken ⟨top, htop, hlt⟩
    rcases Walking.step_guesses j.children index hopen habove with hstep | hrefused
    · rcases hdue.guess_reported hstep with hreported | hrefused
      · refine .inl ⟨fun k top hpending => ?_, hstep, hreported⟩
        exact habove top ((hdue.keeping top).mpr ⟨k, hpending⟩)
      · exact .inr (.inr (hhost ▸ hrefused))
    · exact .inr (.inr (hhost ▸ hrefused))

/-- A call that leaves its results open, a return above them, and one below. -/
def lateReturn : Job :=
  .root { instructions := [{ opcode := .call, a := 5, b := 1 }, { opcode := .ret, a := 7 },
    { opcode := .ret, a := 2 }] } { simulate := some false }

theorem lateReturn_pending : lateReturn.source.Pending 0 5 2 where
  left := ⟨_, _, rfl, rfl, rfl, rfl, rfl, .inr rfl, rfl⟩
  before := by decide
  last m top hm hlt := by
    obtain rfl : m = 1 := by omega
    rintro ⟨i, next, hi, hop, -⟩
    cases hi
    cases hop
  above m i hm hlt hi _ := by
    obtain rfl : m = 1 := by omega
    cases hi
    decide

theorem lateReturn_recovered : ∃ r d, lateReturn.result = .ok r d ∧
    r.body.map Statement.summary = ["return", "return reg2, reg3, reg4, reg5()"] ∧
    d.diagnostics.map (fun x => (x.code, x.index)) = [(.ambiguousArgCount, some 1)] :=
  Job.result_of_eval (fun r d =>
    r.body.map Statement.summary = ["return", "return reg2, reg3, reg4, reg5()"] ∧
      d.diagnostics.map (fun x => (x.code, x.index)) = [(.ambiguousArgCount, some 1)])
    (by decide +kernel)

theorem lateReturn_due : ∃ w, lateReturn.Due 2 { opcode := .ret, a := 2 } w := by
  obtain ⟨r, d, hok, -⟩ := lateReturn_recovered
  have hsecond : lateReturn.source.Reads 1 :=
    .next (i := { opcode := .call, a := 5, b := 1 }) .first rfl
  have hthird : lateReturn.source.Reads 2 := .next (i := { opcode := .ret, a := 7 }) hsecond rfl
  obtain ⟨w, -, -, hdue, -⟩ := Job.due_of_reads hok hthird rfl
  exact ⟨w, hdue⟩

/-- The second return of `lateReturn` takes what the call left open, two instructions before. -/
theorem lateReturn_takes_pending_results :
    ∃ w k, lateReturn.Due 2 { opcode := .ret, a := 2 } w ∧ lateReturn.source.Pending k 5 2 ∧
      Walking.step lateReturn.children { opcode := .ret, a := 2 } 2 w =
        (Walking.takeList { opcode := .ret, a := 2 } 2 [2, 3, 4, 5] false >>= fun _ => pure 1)
          { w with frame.top := none } ∧ k + 1 ≠ 2 := by
  obtain ⟨w, hdue⟩ := lateReturn_due
  rcases open_lists_are_guesses_or_end_with_pending_results hdue (.inr rfl) rfl with
    ⟨habove, -⟩ | ⟨k, top, hpending, -, hstep, -, hbefore⟩ | ⟨fault, -, hrefuses, -⟩
  · exact absurd (habove 0 5 lateReturn_pending) (by decide)
  · have htop : top = 5 := by
      have hfirst := (hdue.keeping 5).mpr ⟨0, lateReturn_pending⟩
      have hlast := (hdue.keeping top).mpr ⟨k, hpending⟩
      exact Option.some.inj (hlast.symm.trans hfirst)
    subst htop
    refine ⟨w, k, hdue, hpending, hstep, fun hk => ?_⟩
    obtain ⟨m, call, hm, hcall, hop, -⟩ := hbefore.mp hk
    obtain rfl : m = 1 := by omega
    cases hcall
    cases hop
  · exact absurd hrefuses (Host.boundless_default _ fault)

/-- The last list of `lateReturn` is open, nothing is reported at its index, and no call stands
right before it. -/
theorem lateReturn_unflagged :
    ∃ w r d, lateReturn.Due 2 { opcode := .ret, a := 2 } w ∧ lateReturn.result = .ok r d ∧
      (∀ x ∈ d.diagnostics, x.index ≠ some 2) ∧
      (lateReturn.source.instructions[1]?).all (fun i => i.opcode ≠ .call) = true := by
  obtain ⟨w, hdue⟩ := lateReturn_due
  obtain ⟨r, d, hok, -, hreports⟩ := lateReturn_recovered
  refine ⟨w, r, d, hdue, hok, fun x hx hindex => ?_, by decide⟩
  have hmem := List.mem_map_of_mem (f := fun x : Diagnostic => (x.code, x.index)) hx
  rw [hreports, List.mem_singleton] at hmem
  rw [hindex] at hmem
  simp at hmem

end LuaRecovery

/-
Histories of a table of registers.

What a table knows of a register after any operations can be told from the operations alone: from
the last one that set, read or cleared the register, and from the last one that set or cleared it.
Both are cases of one lemma, about a view of the table that some operations decide and all others
leave alone.
-/
import LuaRecovery.Proofs.RegisterTables

namespace LuaRecovery

namespace Registers

/-! ### Operations -/

/-- What is asked of a table.  A constant may be looked up in any form. -/
inductive Operation where
  | set (index : Int) (slot : Slot) (unread : Bool)
  | get (index : Int)
  | peek (index : Int)
  | resolve (index : Int)
  | resolveOperand (operand : Int)
  | clear (index : Int)
  | constant (index : Int)

namespace Operation

/-- A register is set, read or cleared.  An operand reads one if it is below the constants. -/
def uses (reg : Int) : Operation → Bool
  | set index _ _ | get index | resolve index | clear index => index == reg
  | resolveOperand operand => decide (operand < 256) && operand == reg
  | peek _ | constant _ => false

/-- A register is set or cleared. -/
def stores (reg : Int) : Operation → Bool
  | set index _ _ | clear index => index == reg
  | _ => false

/-- The value that is set. -/
def slot? : Operation → Option Slot
  | set _ slot _ => some slot
  | _ => none

/-- A value is set that nothing has read. -/
def marks : Operation → Bool
  | set _ _ unread => unread
  | _ => false

variable {reg : Int} {op : Operation}

theorem uses_of_stores (h : op.stores reg = true) : op.uses reg = true := by
  cases op with
  | set index slot unread => exact h
  | clear index => exact h
  | _ => cases h

theorem eq_set_of_marks (huses : op.uses reg = true) (hmarks : op.marks = true) :
    ∃ slot, op = set reg slot true := by
  cases op with
  | set index slot unread =>
    obtain rfl : index = reg := beq_iff_eq.mp huses
    obtain rfl : unread = true := hmarks
    exact ⟨slot, rfl⟩
  | _ => cases hmarks

end Operation

/-- The table after an operation. -/
def perform (r : Registers) : Operation → Registers
  | .set index slot unread => if unread then r.setUnread index slot else r.set index slot
  | .get index | .resolve index => (r.read index).2
  | .peek _ => r
  | .resolveOperand operand => r.touchOperand operand
  | .clear index => r.clear index
  | .constant index => r.lookUp index

/-- The table after operations. -/
def afterAll (r : Registers) (history : List Operation) : Registers := history.foldl perform r

/-- The last of the operations that set, read or cleared a register. -/
def lastUse (history : List Operation) (reg : Int) : Option Operation :=
  (history.filter (·.uses reg)).getLast?

/-- The value that was last set in a register, unless the register was cleared since. -/
def held (history : List Operation) (reg : Int) : Option Slot :=
  (history.filter (·.stores reg)).getLast?.bind Operation.slot?

/-! ### What an operation does -/

section

variable {reg : Int} (r : Registers)

/-- An operand is read as a register or looked up as a constant. -/
theorem perform_resolveOperand (operand : Int) :
    operand < 256 ∧ r.perform (.resolveOperand operand) = r.touch operand ∨
      ¬operand < 256 ∧ r.perform (.resolveOperand operand) = r.lookUp (operand - constantBase) := by
  by_cases hlt : operand < 256
  · exact .inl ⟨hlt, if_neg (Int.not_le.mpr hlt)⟩
  · exact .inr ⟨hlt, if_pos (Int.not_lt.mp hlt)⟩

theorem isUnread_perform (op : Operation) :
    (r.perform op).isUnread reg = if op.uses reg then op.marks else r.isUnread reg := by
  have htouch (index : Int) :
      (r.touch index).isUnread reg = if index == reg then false else r.isUnread reg := by
    simp only [isUnread_touch, beq_iff_eq]
  cases op with
  | get index => exact htouch index
  | peek index => rfl
  | resolve index => exact htouch index
  | clear index => exact htouch index
  | constant index => exact (r.lookUp_sameAt index).unread
  | resolveOperand operand =>
    rcases r.perform_resolveOperand operand with ⟨hlt, htable⟩ | ⟨hge, htable⟩
    · rw [htable, htouch, Operation.uses, decide_eq_true hlt, Bool.true_and]
      rfl
    · rw [htable, Operation.uses, decide_eq_false hge, Bool.false_and]
      exact (r.lookUp_sameAt _).unread
  | set index slot unread =>
    cases unread with
    | false => exact htouch index
    | true =>
      have hmark : (r.setUnread index slot).isUnread reg =
          if index == reg then true else r.isUnread reg := by
        simp only [isUnread_setUnread, beq_iff_eq]
      exact hmark

theorem get?_perform (op : Operation) :
    (r.perform op).slots.get? reg = if op.stores reg then op.slot? else r.slots.get? reg := by
  cases op with
  | get index => rfl
  | peek index => rfl
  | resolve index => rfl
  | clear index =>
    have hclear : (r.slots.erase index).get? reg =
        if index == reg then none else r.slots.get? reg := by
      simp only [Table.get?_erase, beq_iff_eq]
    exact hclear
  | constant index => exact (r.lookUp_sameAt index).slot
  | resolveOperand operand =>
    rcases r.perform_resolveOperand operand with ⟨-, htable⟩ | ⟨-, htable⟩
    · rw [htable]
      rfl
    · rw [htable]
      exact (r.lookUp_sameAt _).slot
  | set index slot unread =>
    have hset : (r.slots.insert index slot).get? reg =
        if index == reg then some slot else r.slots.get? reg := by
      simp only [Table.get?_insert, beq_iff_eq]
    cases unread <;> exact hset

theorem bound_perform (op : Operation) (h : r.isUnread reg = true → r.isBound reg = true)
    (hunread : (r.perform op).isUnread reg = true) : (r.perform op).isBound reg = true := by
  unfold isBound Table.contains at *
  rw [isUnread_perform] at hunread
  rw [get?_perform]
  by_cases huses : op.uses reg = true
  · -- The only use that leaves a register unread is one that sets it.
    rw [if_pos huses] at hunread
    obtain ⟨slot, rfl⟩ := Operation.eq_set_of_marks huses hunread
    have hstores : (Operation.set reg slot true).stores reg = true := huses
    rw [if_pos hstores]
    rfl
  · rw [if_neg huses] at hunread
    rw [if_neg fun hstores => huses (Operation.uses_of_stores hstores)]
    exact h hunread

end

/-! ### Histories -/

/-- A view of the table that some operations decide, and all others leave alone, shows what the
last of them decided. -/
theorem view_afterAll {α : Type} (view : Registers → α) {p : Operation → Bool}
    {value : Operation → α}
    (hstep : ∀ r op, view (perform r op) = if p op then value op else view r)
    (history : List Operation) (r : Registers) :
    view (r.afterAll history) = ((history.filter p).getLast?.map value).getD (view r) := by
  induction history generalizing r with
  | nil => rfl
  | cons op rest ih =>
    show view ((r.perform op).afterAll rest) = _
    rw [ih, hstep, List.filter_cons]
    -- What the first operation decides is seen only if no later one decides.
    split
    · rw [List.getLast?_cons]
      cases (rest.filter p).getLast? <;> rfl
    · rfl

variable (history : List Operation) {r : Registers} {reg : Int}

theorem get?_afterAll (hr : r.slots.get? reg = none) :
    (r.afterAll history).slots.get? reg = held history reg := by
  have hview := view_afterAll (·.slots.get? reg) (fun r op => r.get?_perform op) history r
  rw [hview, hr, held]
  cases (history.filter (·.stores reg)).getLast? <;> rfl

theorem isUnread_afterAll (hr : r.isUnread reg = false) : (r.afterAll history).isUnread reg = true ↔
      ∃ slot, lastUse history reg = some (.set reg slot true) := by
  have hview := view_afterAll (·.isUnread reg) (fun r op => r.isUnread_perform op) history r
  rw [hview, hr, ← lastUse]
  constructor
  · intro hmarks
    cases hlast : lastUse history reg with
    | none =>
      rw [hlast] at hmarks
      cases hmarks
    | some op =>
      rw [hlast] at hmarks
      have huses := (List.mem_filter.mp (List.mem_of_getLast? hlast)).2
      obtain ⟨slot, rfl⟩ := Operation.eq_set_of_marks huses hmarks
      exact ⟨slot, rfl⟩
  · rintro ⟨slot, hlast⟩
    rw [hlast]
    rfl

theorem bound_afterAll (h : r.isUnread reg = true → r.isBound reg = true) :
    (r.afterAll history).isUnread reg = true → (r.afterAll history).isBound reg = true := by
  induction history generalizing r with
  | nil => exact h
  | cons op rest ih => exact ih (r.bound_perform op h)

/-! ### The accounts of a table -/

/-- A table knows what a history tells. -/
structure Reflects (history : List Operation) (r : Registers) : Prop where
  /-- A register is unread if its last use was to set it to a value that nothing has read. -/
  unread : ∀ reg, r.isUnread reg = true ↔ ∃ slot, lastUse history reg = some (.set reg slot true)
  unread_bound : ∀ reg, r.isUnread reg = true → r.isBound reg = true
  bound : ∀ reg, r.isBound reg = (held history reg).isSome
  peek : ∀ reg, r.peek reg = (held history reg).getD (.unset reg)
  /-- The search after a base ends, with the longest run of bound registers that starts there. -/
  above : ∀ base, ∃ k : Nat, r.Scan (base + 1) (r.boundAbove base) ∧
    r.boundAbove base = Walking.range (base + 1) (base + k) ∧
    ∀ n : Nat, n ≤ k ↔ ∀ reg, base < reg → reg ≤ base + n → r.isBound reg = true

/-- **A table's accounts are exact.**  Whatever is asked of a new table, a register is unread
exactly if the last operation that set, read or cleared it set it to a value that nothing had read;
then it is bound.  A register holds the value that was last set and not cleared since, and shows its
placeholder if there is none.  The bound registers after a base are found by a search that ends, and
they are the longest run that starts there. -/
theorem afterAll_reflects (constants : List Constant) (history : List Operation) :
    Reflects history (afterAll { constants } history) := by
  have hget (reg : Int) : (afterAll { constants } history).slots.get? reg = held history reg :=
    get?_afterAll history rfl
  refine ⟨fun reg => isUnread_afterAll history rfl,
    fun reg => bound_afterAll history fun h => (Bool.false_ne_true h).elim,
    fun reg => congrArg Option.isSome (hget reg),
    fun reg => congrArg (Option.getD · (Slot.unset reg)) (hget reg), fun base => ?_⟩
  have hscan := scan_boundAbove (afterAll { constants } history) base
  refine ⟨_, hscan, boundAbove_eq _ base, fun n => ?_⟩
  rw [hscan.le_length_iff]
  exact ⟨fun h reg hlt hle => h reg (by omega) (by omega),
    fun h reg hle hlt => h reg (by omega) (by omega)⟩

-- The first constant has the operand 256, and the operand 255 is a register.
example : ([255, 256].map fun operand => (afterAll { constants := [.nil] }
    [.set 255 (.literal "1") true, .peek 255, .resolveOperand operand]).isUnread 255) =
    [false, true] := by
  decide

end Registers

end LuaRecovery

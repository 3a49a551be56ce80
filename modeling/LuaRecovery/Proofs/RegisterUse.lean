/-
What an instruction reads and writes.

Which registers an instruction reads and which it writes can be told before it is carried out: from
its operands, for a call or a return whose list is open also from the frame, and for a closure from
the instructions behind it, which name registers as upvalues.  A call reads all registers of its
list, and these are the ones that it clears.
-/
import LuaRecovery.Proofs.OpenLists

namespace LuaRecovery

/-! ### What an instruction reads and writes -/

/-- The registers of a list of values after `base`.  A count of zero means an open list. -/
def Frame.listAbove (f : Frame) (base count : Int) : List Int :=
  if count ≠ 0 then Walking.range (base + 1) (base + max 0 (count - 1))
  else match f.top with
    | some top =>
      if base < top then Walking.range (base + 1) top else f.registers.boundAbove base
    | none => f.registers.boundAbove base

/-- The registers that an instruction of a function reads if it is carried out in a frame. -/
def Prototype.registersRead (p : Prototype) (f : Frame) (i : Instruction) (index : Nat) :
    List Int :=
  match i.opcode with
  | .move | .negate | .invert | .length => [i.b]
  | .setUpvalue | .setGlobal => [i.a]
  | .getField | .selfIndex => i.b :: Registers.ofOperand i.c
  | .setField => i.a :: (Registers.ofOperand i.b ++ Registers.ofOperand i.c)
  | .add | .sub | .mul | .div | .mod | .pow | .compareEq | .compareLt | .compareLe =>
    Registers.ofOperand i.b ++ Registers.ofOperand i.c
  | .concat => Walking.range i.b (max i.b i.c)
  | .call => i.a :: f.listAbove i.a i.b
  | .ret => f.listAbove (i.a - 1) (max 0 i.b)
  | .closure =>
    match p.childAt? i.b with
    | some q => ((p.captures q index).filter fun c => c.opcode = .move ∧ c.b ≠ i.a).map (·.b)
    | none => []
  | _ => []

/-- The registers that an instruction writes. -/
def Instruction.registersWritten (i : Instruction) : List Int :=
  match i.opcode with
  | .setUpvalue | .setGlobal | .setField | .ret | .compareEq | .compareLt | .compareLe | .jump
  | .nop | .unknown => []
  | .loadNil => Walking.range i.a (max i.a i.b)
  | .selfIndex => [i.a, i.a + 1]
  | .call => i.a :: Walking.range i.a (i.a + i.c - 2)
  | _ => [i.a]

namespace Walking

/-! ### Lists of registers -/

section

variable {f : Frame} {base count top : Int}

theorem listAbove_known (hcount : count ≠ 0) :
    f.listAbove base count = range (base + 1) (base + max 0 (count - 1)) :=
  if_pos hcount

theorem listAbove_taken (htop : f.top = some top) (hlt : base < top) :
    f.listAbove base 0 = range (base + 1) top := by
  unfold Frame.listAbove
  rw [if_neg (by simp), htop]
  exact if_pos hlt

theorem listAbove_guessed (htop : ∀ top, f.top = some top → top ≤ base) :
    f.listAbove base 0 = f.registers.boundAbove base := by
  unfold Frame.listAbove
  rw [if_neg (by simp)]
  cases hfound : f.top with
  | none => rfl
  | some top => exact if_neg (Int.not_lt.mpr (htop top hfound))

/-- An open list ends with results that were left open above its start, or it is a guess. -/
theorem taken_or_guessed (f : Frame) (base : Int) :
    (∃ top, f.top = some top ∧ base < top) ∨ ∀ top, f.top = some top → top ≤ base := by
  by_cases htaken : ∃ top, f.top = some top ∧ base < top
  · exact .inl htaken
  · exact .inr fun top htop => Int.not_lt.mp fun hlt => htaken ⟨top, htop, hlt⟩

/-- The list of a call has all registers that the call clears. -/
theorem mem_listAbove {reg : Int} (hbase : base < reg)
    (hreg : reg ≤ base + max ((f.listAbove base count).length : Int) (count - 1)) :
    reg ∈ f.listAbove base count := by
  by_cases hcount : count ≠ 0
  · rw [listAbove_known hcount, length_range] at hreg
    rw [listAbove_known hcount, mem_range]
    omega
  · obtain rfl : count = 0 := Decidable.not_not.mp hcount
    rcases taken_or_guessed f base with ⟨top, htop, hlt⟩ | hguessed
    · rw [listAbove_taken htop hlt, length_range] at hreg
      rw [listAbove_taken htop hlt, mem_range]
      omega
    · rw [listAbove_guessed hguessed] at hreg ⊢
      rw [Registers.boundAbove_eq, mem_range]
      omega

/-- The list that is found is the one that can be told before. -/
theorem argumentRegisters_barring (base count : Int) (w : Walk) : ∃ ambiguous top,
    Barring w.context.limits.host (argumentRegisters base count w)
      (.ok (w.frame.listAbove base count, ambiguous) { w with frame.top := top }) := by
  by_cases hcount : count ≠ 0
  · rw [listAbove_known hcount]
    exact ⟨false, w.frame.top, argumentRegisters_known hcount base w⟩
  · obtain rfl : count = 0 := Decidable.not_not.mp hcount
    rcases taken_or_guessed w.frame base with ⟨top, htop, hlt⟩ | hguessed
    · rw [listAbove_taken htop hlt]
      exact ⟨false, none, argumentRegisters_taken htop hlt⟩
    · rw [listAbove_guessed hguessed]
      exact ⟨true, w.frame.top, .inl (argumentRegisters_guessed hguessed)⟩

end

theorem withoutReceiver_sublist (method : Option String) (base : Int) (registers : List Int) :
    (withoutReceiver method base registers).Sublist registers := by
  cases registers with
  | nil => exact .slnil
  | cons reg rest =>
    show (if method.isSome ∧ reg = base + 1 then rest else reg :: rest).Sublist (reg :: rest)
    split
    · exact List.sublist_cons_self _ _
    · exact .refl _

theorem listAbove_touch (f : Frame) (reg base count : Int) :
    { f with registers := f.registers.touch reg }.listAbove base count =
      f.listAbove base count := by
  unfold Frame.listAbove
  rw [Registers.boundAbove_touch]

end Walking

end LuaRecovery

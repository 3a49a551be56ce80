/-
Walks that get to the end of the code.

A job that succeeds walks its code from the first instruction to the end and winds up there.  On
the way every instruction is read or taken along by the one before it, and only two kinds are
taken along: the jump behind a compare, and the instructions behind a closure that name its
upvalues.
-/
import LuaRecovery.Proofs.Books

namespace LuaRecovery

namespace Walking

variable {w : Walk}

/-- A compare that succeeds has its jump behind it. -/
theorem compare_paired (rel : Relation) (i : Instruction) (index : Nat) :
    Once (fun _ _ => ∃ jump, w.frame.code[index + 1]? = some jump ∧ jump.opcode = .jump)
      (compare rel i index w) := by
  refine after_state ?_
  rcases pairedJump_cases w.frame.code index with ⟨jump, hpaired, hjump⟩ | ⟨cause, hpaired⟩
  · rw [hpaired]
    exact after_imp (after_any _) (fun _ _ _ => ⟨jump, hjump⟩)
  · rw [hpaired]
    trivial

theorem step_paired (children : List Child) {i : Instruction} (hi : i.opcode.isCompare = true)
    (index : Nat) (w : Walk) :
    Once (fun _ _ => ∃ jump, w.frame.code[index + 1]? = some jump ∧ jump.opcode = .jump)
      (step children i index w) := by
  unfold step
  cases hop : i.opcode with
  | compareEq => exact after_seq (compare_paired .eq i index) fun _ _ h => h
  | compareLt => exact after_seq (compare_paired .lt i index) fun _ _ h => h
  | compareLe => exact after_seq (compare_paired .le i index) fun _ _ h => h
  | _ =>
    rw [hop] at hi
    cases hi

end Walking

namespace Job

open Walking

variable {j : Job} {index taken : Nat} {i : Instruction} {w w' : Walk} {r : Routine} {d : Context}

/-- A step whose answer is known takes the width of its instruction. -/
theorem Due.taken_eq (h : j.Due index i w) (hstep : step j.children i index w = .ok taken w') :
    taken = j.source.width i index := by
  have htaken := step_taken (p := j.source) h.owns.code i index
  change After _ _ (step j.children i index w) at htaken
  rwa [hstep] at htaken

/-- The instructions that a step takes along are the jump of a compare, and those behind a closure
that name its upvalues. -/
theorem Due.taken_along (h : j.Due index i w) (hstep : step j.children i index w = .ok taken w')
    {k : Nat} {i' : Instruction} (hk : index < k) (hlt : k < index + taken)
    (hi' : j.source.instructions[k]? = some i') :
    i.opcode.isCompare = true ∧ i'.opcode = .jump ∨ i.opcode = .closure ∧ i'.isCapture = true := by
  by_cases hcompare : i.opcode.isCompare = true
  · have hpaired := step_paired j.children hcompare index w
    rw [hstep] at hpaired
    obtain ⟨jump, hjump, hop⟩ := hpaired
    have hwidth : j.source.width i index = 2 := by
      unfold Prototype.width
      cases hop : i.opcode with
      | compareEq | compareLt | compareLe => rfl
      | _ =>
        rw [hop] at hcompare
        cases hcompare
    rw [h.taken_eq hstep, hwidth] at hlt
    obtain rfl : k = index + 1 := by omega
    rw [h.owns.code, hi'] at hjump
    cases hjump
    exact .inl ⟨hcompare, hop⟩
  · rw [h.taken_eq hstep] at hlt
    unfold Prototype.width at hlt
    cases hop : i.opcode with
    | closure =>
      rw [hop] at hlt
      cases hchild : j.source.childAt? i.b with
      | none =>
        rw [hchild] at hlt
        dsimp only at hlt
        omega
      | some q =>
        rw [hchild] at hlt
        dsimp only at hlt
        obtain ⟨n, rfl⟩ : ∃ n, k = index + 1 + n := ⟨k - index - 1, by omega⟩
        have hn : n < (j.source.captures q index).length := by omega
        have hcapture := List.getElem?_eq_getElem hn
        have hsame : (j.source.instructions.drop (index + 1))[n]? = _ :=
          getElem?_prefix_mono ((List.takeWhile_prefix _).trans (List.take_prefix _ _)) hcapture
        rw [List.getElem?_drop, hi'] at hsame
        refine .inr ⟨rfl, ?_⟩
        rw [Option.some.inj hsame]
        exact List.all_eq_true.mp List.all_takeWhile _ (List.getElem_mem hn)
    | compareEq | compareLt | compareLe =>
      rw [hop] at hcompare
      exact absurd rfl hcompare
    | _ =>
      rw [hop] at hlt
      dsimp only at hlt
      omega

/-- The walk of a job does not get past the end of the code. -/
theorem At.le_length (h : j.At index w) : index ≤ j.source.instructions.length := by
  cases h with
  | first => exact Nat.zero_le _
  | @next before taken i w _ hreached hi hadvanced =>
    obtain ⟨w₁, w₂, mark, happroach, hstep, -⟩ := ok_of_advance hadvanced
    have hdue : j.Due before i w₁ := ⟨hreached, hi, happroach⟩
    have hfits := step_fits hdue.owns.code hdue.instruction
    rwa [hstep] at hfits

/-- At the end of the code what is left of a walk is to wind up. -/
theorem At.walk_end (h : j.At j.source.instructions.length w) :
    ∃ limits, j.context.limits.enter = .ok limits ∧
      Walking.walk j.children (j.entered limits) = windUp w := by
  obtain ⟨limits, fuel, henter, -, hwalk⟩ := h.walk
  have hnone : w.frame.code[j.source.instructions.length]? = none := by
    rw [h.owns.code]
    exact List.getElem?_eq_none (Nat.le_refl _)
  refine ⟨limits, henter, hwalk.trans ?_⟩
  cases fuel with
  | zero => rfl
  | succ fuel =>
    rw [walkFrom, bind_assoc, run_get, hnone]
    rfl

/-- A job that succeeds winds up where it gets to the end of its code, and hands back what it has
then. -/
theorem At.winds_up (h : j.At j.source.instructions.length w) (hok : j.result = .ok r d) :
    ∃ v, windUp w = .ok () v ∧ r = v.frame.routine ∧ d = v.context.leave := by
  obtain ⟨limits, henter, hwalk⟩ := h.walk_end
  rw [result_of_enter henter, hwalk] at hok
  exact ok_of_handBack hok

/-- A job that succeeds gets to the end of its code, and what it hands back is what it has when it
is wound up there. -/
theorem end_of_ok (hok : j.result = .ok r d) :
    ∃ w v, j.At j.source.instructions.length w ∧ windUp w = .ok () v ∧ r = v.frame.routine ∧
      d = v.context.leave := by
  obtain ⟨index, w, hreached, hend⟩ := at_end hok
  obtain rfl : index = j.source.instructions.length := Nat.le_antisymm hreached.le_length hend
  obtain ⟨v, hwound, hr, hd⟩ := hreached.winds_up hok
  exact ⟨w, v, hreached, hwound, hr, hd⟩

end Job

end LuaRecovery

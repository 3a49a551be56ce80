/-
What a function asks of its host.

The integers that a walk writes are registers, operands and places in the code, and the lists
that it makes are lists of registers.  All of them come from the operands of instructions, so
the operands bound what the host is asked for: `Prototype.reach` is such a bound for a function
and all functions inside it.  How deep the host has to go is bounded by the levels of functions
that there are.
-/
import LuaRecovery.Proofs.Outcome

namespace LuaRecovery

open List

/-- The host has the limit that a fault is about. -/
def Host.Refuses (h : Host) : HostFault → Prop
  | .digits n => h.writes n = false
  | .length count | .indent count => h.allots count = false
  | .nesting depth => h.walks depth = false

/-- A fault of a run that works with integers up to `size` in functions on `height` levels. -/
def HostFault.Within (size height : Nat) : HostFault → Prop
  | .digits n => n.natAbs ≤ size
  | .length count => count ≤ 2 * size
  | .indent _ => False
  | .nesting depth => depth < height

namespace Host

variable {h : Host} {fault : HostFault}

/-- A host without limits, whatever its parser is. -/
def Boundless (h : Host) : Prop := ∀ fault, ¬h.Refuses fault

theorem boundless_default (accepts : String → Bool) : ({ accepts } : Host).Boundless := by
  intro fault
  cases fault <;> exact Bool.noConfusion

theorem refuses_of_writingFault? {ns : List Int} (hf : h.writingFault? ns = some fault) :
    h.Refuses fault ∧ ∃ n ∈ ns, fault = .digits n := by
  obtain ⟨n, hn, rfl⟩ := Option.map_eq_some_iff.mp hf
  have hwrites := find?_some hn
  rw [Bool.not_eq_true'] at hwrites
  exact ⟨hwrites, n, mem_of_find?_eq_some hn, rfl⟩

/-- A fault about a list, an indentation or a level is met unless the host serves. -/
theorem refuses_of_unless {serves : Bool} {met : HostFault}
    (hf : (if serves then none else some met) = some fault)
    (hmet : serves = false → h.Refuses met) : h.Refuses fault ∧ fault = met := by
  split at hf
  · cases hf
  · cases hf
    exact ⟨hmet (Bool.eq_false_iff.mpr ‹_›), rfl⟩

end Host

theorem Limits.eq_of_enter {l l' : Limits} (h : l.enter = .ok l') :
    l' = { l with depth := l.depth + 1, maxDepthSeen := max l.maxDepthSeen (l.depth + 1) } := by
  unfold enter at h
  split at h <;> cases h
  rfl

namespace Walking

/-! ### Refusals -/

section

variable {α β : Type} {h : Host} {r r' : EStateM.Result Stop Walk α} {w w' : Walk}

/-- An action ended because the host refuses what it was asked for. -/
def Refused (h : Host) (r : EStateM.Result Stop Walk α) : Prop :=
  ∃ fault w, h.Refuses fault ∧ r = .error (.host fault) w

/-- An action ends as said, barring a limit of the host. -/
def Barring (h : Host) (r r' : EStateM.Result Stop Walk α) : Prop := r = r' ∨ Refused h r

theorem Refused.bind {m : Walking α} (hm : Refused h (m w)) (f : α → Walking β) :
    Refused h ((m >>= f) w) := by
  obtain ⟨fault, w', hrefuses, hrun⟩ := hm
  exact ⟨fault, w', hrefuses, run_bind_error hrun f⟩

theorem barring_bind {m : Walking α} {f : α → Walking β} {a : α} {r : EStateM.Result Stop Walk β}
    (hm : Barring h (m w) (.ok a w')) (hf : Barring h (f a w') r) :
    Barring h ((m >>= f) w) r := by
  rcases hm with hm | hm
  · rwa [run_bind hm]
  · exact .inr (hm.bind f)

/-- What comes after actions that end in the same. -/
theorem barring_congr {m m' : Walking α} (hm : Barring h (m w) (m' w')) (f : α → Walking β) :
    Barring h ((m >>= f) w) ((m' >>= f) w') :=
  hm.imp (fun hm => run_congr hm f) fun hm => hm.bind f

theorem Barring.after {Q : α → Walk → Prop} (hr : Barring h r r')
    (hafter : Once Q r') : Once Q r := by
  rcases hr with rfl | ⟨fault, w, -, rfl⟩
  · exact hafter
  · trivial

/-- What holds after two actions, unless the host refuses what one of them asks for. -/
theorem Barring.bind_after {m : Walking α} {f : α → Walking β} {a : α} {Q : β → Walk → Prop}
    {E : Stop → Walk → Prop} (hm : Barring h (m w) (.ok a w'))
    (hf : After Q E (f a w') ∨ Refused h (f a w')) :
    After Q E ((m >>= f) w) ∨ Refused h ((m >>= f) w) := by
  rcases hm with hm | hm
  · rwa [run_bind hm]
  · exact .inr (hm.bind f)

theorem Barring.eq (hr : Barring h r r') (hh : h.Boundless) : r = r' :=
  hr.resolve_right fun ⟨fault, _, hrefuses, _⟩ => hh fault hrefuses

end

variable {w : Walk}

section

variable {fault? : Host → Walk → Option HostFault}

theorem askHost_run (h : fault? w.context.limits.host w = none) : askHost fault? w = .ok () w := by
  unfold askHost
  rw [run_get, h]
  rfl

theorem askHost_error {fault : HostFault} (h : fault? w.context.limits.host w = some fault) :
    askHost fault? w = .error (.host fault) w := by
  unfold askHost
  rw [run_get, h]
  rfl

theorem barring_askHost (h : ∀ fault, fault? w.context.limits.host w = some fault →
      w.context.limits.host.Refuses fault) :
    Barring w.context.limits.host (askHost fault? w) (.ok () w) := by
  cases hfault : fault? w.context.limits.host w with
  | none => exact .inl (askHost_run hfault)
  | some fault => exact .inr ⟨fault, w, h fault hfault, askHost_error hfault⟩

end

theorem barring_spell (numbers : Walk → List Int) (w : Walk) :
    Barring w.context.limits.host (spell numbers w) (.ok () w) :=
  barring_askHost fun _ hfault => (Host.refuses_of_writingFault? hfault).1

theorem barring_listed (first last : Int) (w : Walk) :
    Barring w.context.limits.host (listed first last w) (.ok (range first last) w) :=
  barring_bind (barring_askHost fun _ hfault => (Host.refuses_of_unless hfault id).1) (.inl rfl)

theorem spell_nothing {numbers : Walk → List Int} (h : numbers w = []) :
    spell numbers w = .ok () w :=
  askHost_run (by rw [h]; rfl)

end Walking

/-! ### The integers of a function -/

theorem Registers.eq_of_mem_spelled {r : Registers} {n index : Int} (h : n ∈ r.spelled index) :
    n = index := by
  unfold spelled at h
  split at h
  · cases h
  · exact mem_singleton.mp h

theorem Registers.eq_of_mem_spelledConstant {r : Registers} {n index : Int}
    (h : n ∈ r.spelledConstant index) : n = index := by
  unfold spelledConstant at h
  split at h
  · cases h
  · exact mem_singleton.mp h

/-- The integers that an instruction makes of its operands are at most this. -/
def Instruction.reach (i : Instruction) : Nat := i.a.natAbs + i.b.natAbs + i.c.natAbs

namespace Prototype

/-- The integers that the code of a function makes, its places included, are at most this. -/
def ownReach (p : Prototype) : Nat :=
  max p.paramCount.toNat
    ((p.instructions.map Instruction.reach).max?.getD 0 + p.instructions.length)

mutual

/-- What comes of a function, given what comes of those inside it. -/
def gather {α : Type} (f : Prototype → List α → α) : Prototype → α
  | ⟨instructions, constants, children, name, paramCount, vararg, upvalueCount, upvalueNames⟩ =>
    f ⟨instructions, constants, children, name, paramCount, vararg, upvalueCount, upvalueNames⟩
      (gatherAll f children)

/-- What comes of some functions. -/
def gatherAll {α : Type} (f : Prototype → List α → α) : List Prototype → List α
  | [] => []
  | p :: rest => p.gather f :: gatherAll f rest

end

variable {p q : Prototype}

theorem gatherAll_eq {α : Type} (f : Prototype → List α → α) (ps : List Prototype) :
    gatherAll f ps = ps.map (gather f) := by
  induction ps with
  | nil => rw [gatherAll, map_nil]
  | cons p rest ih => rw [gatherAll, ih, map_cons]

theorem gather_eq {α : Type} (f : Prototype → List α → α) (p : Prototype) :
    p.gather f = f p (p.children.map (gather f)) := by
  cases p
  rw [gather, gatherAll_eq]

/-- The integers that the code of a function and of those inside it makes are at most this. -/
def reach : Prototype → Nat := gather fun p inside => max p.ownReach (inside.max?.getD 0)

/-- The number of levels of functions, the function itself being one. -/
def height : Prototype → Nat := gather fun _ inside => inside.max?.getD 0 + 1

theorem ownReach_le (p : Prototype) : p.ownReach ≤ p.reach := by
  rw [reach, gather_eq]
  exact Nat.le_max_left _ _

theorem reach_le_of_mem (hq : q ∈ p.children) : q.reach ≤ p.reach := by
  rw [reach, gather_eq _ p]
  exact Nat.le_trans (le_max?_getD_of_mem (mem_map_of_mem hq)) (Nat.le_max_right _ _)

theorem height_lt_of_mem (hq : q ∈ p.children) : q.height < p.height := by
  rw [height, gather_eq _ p]
  exact Nat.lt_succ_of_le (le_max?_getD_of_mem (mem_map_of_mem hq))

theorem height_pos (p : Prototype) : 0 < p.height := by
  rw [height, gather_eq]
  exact Nat.succ_pos _

theorem paramCount_le_reach (p : Prototype) : p.paramCount.toNat ≤ p.reach :=
  Nat.le_trans (Nat.le_max_left _ _) p.ownReach_le

theorem instruction_le_reach {i : Instruction} (hi : i ∈ p.instructions) :
    i.reach + p.instructions.length ≤ p.reach := by
  have hmax : i.reach ≤ _ := le_max?_getD_of_mem (k := 0) (mem_map_of_mem hi)
  have hown := p.ownReach_le
  unfold ownReach at hown
  omega

end Prototype

/-- What a walk may ask of its host. -/
structure Bounds where
  host : Host
  /-- The integers that may be written; lists may be twice as long. -/
  size : Nat
  /-- The level of the function that is walked. -/
  level : Nat
  /-- The number of levels of functions. -/
  height : Nat

namespace Bounds

variable {limit : Bounds} {i : Instruction}

/-- The bounds for a function inside. -/
def inner (limit : Bounds) : Bounds := { limit with level := limit.level + 1 }

/-- An integer that may be written. -/
def Covers (limit : Bounds) (n : Int) : Prop := n.natAbs ≤ limit.size

/-- An instruction whose operands make only integers that may be written, with room for the
next register. -/
def Admits (limit : Bounds) (i : Instruction) : Prop := i.reach < limit.size

variable (hi : limit.Admits i)

include hi

theorem Admits.a : limit.Covers i.a := by
  unfold Admits Instruction.reach Covers at *
  omega

theorem Admits.b : limit.Covers i.b := by
  unfold Admits Instruction.reach Covers at *
  omega

theorem Admits.c : limit.Covers i.c := by
  unfold Admits Instruction.reach Covers at *
  omega

/-- The register after the first. -/
theorem Admits.next : limit.Covers (i.a + 1) := by
  unfold Admits Instruction.reach Covers at *
  omega

end Bounds

end LuaRecovery

/-
Tables of registers.

An operation on a table changes what is known of the registers that it names, and of no other:
what such a register holds, and whether it was read since it was written.  `ChangesAt` says so of
two tables and a set of registers.

The bound registers after a base are looked for here as it is meant, one after the other with
nothing that bounds the search (`Scan`).  That it comes to an end is shown by the bounded search,
which never gets to its bound: each step leaves an entry of the table behind.
-/
import LuaRecovery.Walk.Basic

namespace LuaRecovery

open List

theorem Table.mem_keys_of_contains {κ α : Type} [DecidableEq κ] {t : Table κ α} {k : κ}
    (h : t.contains k = true) : k ∈ t.keys := by
  obtain ⟨v, hv⟩ := Option.isSome_iff_exists.mp h
  exact mem_map_of_mem (mem_of_find hv)

namespace Walking

theorem range_of_lt {first last : Int} (h : last < first) : range first last = [] := by
  rw [range, Int.toNat_of_nonpos (by omega)]
  rfl

theorem range_of_le {first last : Int} (h : first ≤ last) :
    range first last = first :: range (first + 1) last := by
  have hcount : (last + 1 - first).toNat = (last + 1 - (first + 1)).toNat + 1 := by omega
  rw [range, hcount, range_succ_eq_map, map_cons, map_map, range]
  simp only [Int.natCast_zero, Int.add_zero, List.cons.injEq, true_and]
  refine map_congr_left fun k _ => ?_
  simp only [Function.comp_apply, Int.natCast_succ]
  omega

theorem mem_range {x first last : Int} : x ∈ range first last ↔ first ≤ x ∧ x ≤ last := by
  unfold range
  rw [mem_map]
  constructor
  · rintro ⟨k, hk, rfl⟩
    rw [List.mem_range] at hk
    omega
  · rintro ⟨hfirst, hlast⟩
    exact ⟨(x - first).toNat, List.mem_range.mpr (by omega), by omega⟩

theorem length_range (first last : Int) : (range first last).length = (last + 1 - first).toNat := by
  rw [range, length_map, List.length_range]

end Walking

namespace Registers

/-! ### What an operation changes -/

/-- The registers that an operand reads. -/
def ofOperand (operand : Int) : List Int :=
  if constantBase ≤ operand then [] else [operand]

/-- Two tables agree on what a register holds and on whether it was read. -/
structure SameAt (reg : Int) (r r' : Registers) : Prop where
  slot : r'.slots.get? reg = r.slots.get? reg
  unread : r'.isUnread reg = r.isUnread reg

/-- Registers of `A` were read, written or cleared: the constants and the notes on them stay, and
what is known of all other registers. -/
structure ChangesAt (A : Int → Prop) (r r' : Registers) : Prop where
  constants : r'.constants = r.constants
  anomalies : r'.anomalies = r.anomalies
  others : ∀ reg, ¬A reg → SameAt reg r r'

variable {A A' : Int → Prop} {reg index : Int} {r r' r'' : Registers}

theorem ne_of_outside (h : A index) (hreg : ¬A reg) : index ≠ reg := fun heq => hreg (heq ▸ h)

namespace SameAt

theorem refl (r : Registers) : SameAt reg r r := ⟨rfl, rfl⟩

theorem trans (h : SameAt reg r r') (h' : SameAt reg r' r'') : SameAt reg r r'' :=
  ⟨h'.slot.trans h.slot, h'.unread.trans h.unread⟩

theorem peek (h : SameAt reg r r') : r'.peek reg = r.peek reg := by
  unfold Registers.peek
  rw [h.slot]

end SameAt

namespace ChangesAt

theorem refl (r : Registers) : r.ChangesAt A r := ⟨rfl, rfl, fun _ _ => .refl r⟩

theorem trans (h : r.ChangesAt A r') (h' : r'.ChangesAt A r'') : r.ChangesAt A r'' :=
  ⟨h'.constants.trans h.constants, h'.anomalies.trans h.anomalies,
    fun reg hreg => (h.others reg hreg).trans (h'.others reg hreg)⟩

theorem mono (h : r.ChangesAt A r') (hA : ∀ reg, A reg → A' reg) : r.ChangesAt A' r' :=
  ⟨h.constants, h.anomalies, fun reg hreg => h.others reg fun h => hreg (hA reg h)⟩

end ChangesAt

variable (r)

theorem isUnread_touch (reg index : Int) :
    (r.touch index).isUnread reg = if index = reg then false else r.isUnread reg := by
  unfold isUnread touch
  by_cases h : index = reg
  · rw [if_pos h, ← Bool.not_eq_true, contains_iff_mem, mem_filter, bne_iff_ne]
    exact fun hmem => hmem.2 h.symm
  · rw [if_neg h, Bool.eq_iff_iff, contains_iff_mem, contains_iff_mem, mem_filter, bne_iff_ne]
    exact and_iff_left (Ne.symm h)

theorem isUnread_setUnread (reg index : Int) (slot : Slot) :
    (r.setUnread index slot).isUnread reg = if index = reg then true else r.isUnread reg := by
  show (index :: (r.touch index).unread).contains reg = _
  by_cases h : index = reg
  · rw [if_pos h, contains_iff_mem]
    exact h ▸ mem_cons_self
  · rw [if_neg h, contains_cons, beq_false_of_ne (Ne.symm h), Bool.false_or]
    exact (r.isUnread_touch reg index).trans (if_neg h)

theorem changesAt_touch (h : A index) : r.ChangesAt A (r.touch index) :=
  ⟨rfl, rfl, fun reg hreg =>
    ⟨rfl, (r.isUnread_touch reg index).trans (if_neg (ne_of_outside h hreg))⟩⟩

theorem changesAt_set (h : A index) (slot : Slot) : r.ChangesAt A (r.set index slot) := by
  refine ⟨rfl, rfl, fun reg hreg => ⟨?_, ((r.changesAt_touch h).others reg hreg).unread⟩⟩
  show (r.slots.insert index slot).get? reg = _
  rw [Table.get?_insert, if_neg (ne_of_outside h hreg)]

theorem changesAt_setUnread (h : A index) (slot : Slot) :
    r.ChangesAt A (r.setUnread index slot) := by
  refine ⟨rfl, rfl, fun reg hreg => ⟨((r.changesAt_set h slot).others reg hreg).slot, ?_⟩⟩
  rw [isUnread_setUnread, if_neg (ne_of_outside h hreg)]

theorem changesAt_clear (h : A index) : r.ChangesAt A (r.clear index) := by
  refine ⟨rfl, rfl, fun reg hreg => ⟨?_, ((r.changesAt_touch h).others reg hreg).unread⟩⟩
  show (r.slots.erase index).get? reg = _
  rw [Table.get?_erase, if_neg (ne_of_outside h hreg)]

theorem changesAt_clearAll {indexes : List Int} (h : ∀ reg ∈ indexes, A reg) :
    r.ChangesAt A (indexes.foldl clear r) := by
  induction indexes generalizing r with
  | nil => exact .refl r
  | cons index rest ih =>
    obtain ⟨hindex, hrest⟩ := forall_mem_cons.mp h
    exact (r.changesAt_clear hindex).trans (ih _ hrest)

theorem lookUp_sameAt (index : Int) : SameAt reg r (r.lookUp index) := by
  unfold lookUp
  split <;> exact ⟨rfl, rfl⟩

/-! ### The search for bound registers -/

/-- The search for bound registers from an index on: it ends at the first gap. -/
inductive Scan (r : Registers) : Int → List Int → Prop
  | gap {index : Int} (unbound : r.isBound index = false) : Scan r index []
  | next {index : Int} {found : List Int} (bound : r.isBound index = true)
      (rest : Scan r (index + 1) found) : Scan r index (index :: found)

variable {r} {found : List Int}

theorem Scan.found_eq (h : r.Scan index found) :
    found = Walking.range index (index + found.length - 1) := by
  induction h with
  | gap => exact (Walking.range_of_lt (by rw [length_nil]; omega)).symm
  | @next index found _ _ ih =>
    rw [length_cons, Walking.range_of_le (by omega)]
    refine congrArg _ (ih.trans (congrArg _ ?_))
    omega

/-- What the search finds cannot be continued. -/
theorem Scan.le_length_iff (h : r.Scan index found) : ∀ n : Nat,
    n ≤ found.length ↔ ∀ reg, index ≤ reg → reg < index + n → r.isBound reg = true := by
  induction h with
  | @gap index hunbound =>
    intro n
    constructor
    · intro hn reg hle hlt
      rw [length_nil] at hn
      omega
    · intro hall
      refine Nat.le_of_not_lt fun hn => ?_
      rw [hall index (Int.le_refl _) (by rw [length_nil] at hn; omega)] at hunbound
      cases hunbound
  | @next index found hbound _ ih =>
    intro n
    cases n with
    | zero => exact ⟨fun _ reg hle hlt => by omega, fun _ => Nat.zero_le _⟩
    | succ n =>
      rw [length_cons, Nat.add_le_add_iff_right, ih]
      constructor
      · intro hall reg hle hlt
        by_cases heq : reg = index
        · exact heq ▸ hbound
        · exact hall reg (by omega) (by omega)
      · exact fun hall reg hle hlt => hall reg (by omega) (by omega)

variable (r)

/-- The number of entries of the table from an index on. -/
def entriesFrom (index : Int) : Nat := (r.slots.keys.filter (index ≤ ·)).length

theorem entriesFrom_lt (h : r.isBound index = true) :
    r.entriesFrom (index + 1) < r.entriesFrom index := by
  have hrest : r.slots.keys.filter (index + 1 ≤ ·) =
      (r.slots.keys.filter (index ≤ ·)).filter (index + 1 ≤ ·) := by
    rw [filter_filter]
    refine filter_congr fun key _ => ?_
    rw [← Bool.decide_and]
    exact decide_eq_decide.mpr (by omega)
  unfold entriesFrom
  rw [hrest, length_filter_lt_length_iff_exists]
  exact ⟨index, mem_filter.mpr ⟨Table.mem_keys_of_contains h, by simp⟩,
    by simp only [decide_eq_true_eq]; omega⟩

theorem scan_boundFrom (fuel : Nat) : ∀ index, r.entriesFrom index ≤ fuel →
    r.Scan index (r.boundFrom index fuel) := by
  induction fuel with
  | zero =>
    intro index hle
    -- A bound register would be an entry that is still ahead.
    refine .gap (Bool.eq_false_iff.mpr fun hbound => ?_)
    have := r.entriesFrom_lt hbound
    omega
  | succ fuel ih =>
    intro index hle
    unfold boundFrom
    split
    · rename_i hbound
      have := r.entriesFrom_lt hbound
      exact .next hbound (ih _ (by omega))
    · exact .gap (Bool.eq_false_iff.mpr ‹_›)

theorem isBound_of_mem_boundFrom {fuel : Nat} {reg : Int} (h : reg ∈ r.boundFrom index fuel) :
    r.isBound reg = true := by
  induction fuel generalizing index with
  | zero => cases h
  | succ fuel ih =>
    unfold boundFrom at h
    split at h
    · rcases mem_cons.mp h with rfl | h
      · assumption
      · exact ih h
    · cases h

theorem scan_boundAbove (base : Int) : r.Scan (base + 1) (r.boundAbove base) := by
  refine r.scan_boundFrom _ _ (Nat.le_trans (length_filter_le _ _) (Nat.le_of_eq ?_))
  exact length_map _

theorem boundAbove_eq (base : Int) :
    r.boundAbove base = Walking.range (base + 1) (base + (r.boundAbove base).length) := by
  refine (r.scan_boundAbove base).found_eq.trans (congrArg _ ?_)
  omega

end Registers

end LuaRecovery

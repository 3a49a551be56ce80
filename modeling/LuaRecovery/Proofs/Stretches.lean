/-
Stretches of a walk.

A job gets to the indexes of its code in one order, since what an instruction does only depends on
the state before it.  So of two indexes to which it gets, the walk goes on from the smaller one to
the larger: there is a stretch of instructions between them.  What every instruction adds to or
keeps is therefore there at every later index.
-/
import LuaRecovery.Proofs.WholeWalks

namespace LuaRecovery

namespace Job

open Walking

variable {j : Job} {start index taken : Nat} {i : Instruction} {v w w' : Walk}

/-- The walk of a job goes on from one index to another. -/
inductive Stretch (j : Job) (start : Nat) (v : Walk) : Nat → Walk → Prop
  | nil : Stretch j start v start v
  | snoc {index taken : Nat} {i : Instruction} {w w' : Walk} (before : Stretch j start v index w)
      (instruction : w.frame.code[index]? = some i)
      (advanced : advance j.children i index w = .ok taken w') :
      Stretch j start v (index + taken) w'

theorem At.advances_pos (h : j.At index w)
    (hadvance : advance j.children i index w = .ok taken w') : 0 < taken := by
  rw [advance_taken h.owns.code hadvance]
  exact j.source.width_pos i index

namespace Stretch

variable (h : j.Stretch start v index w)

include h

theorem reached (hstart : j.At start v) : j.At index w := by
  induction h with
  | nil => exact hstart
  | snoc _ hi hadvance ih => exact .next ih hi hadvance

theorem le : start ≤ index := by
  induction h with
  | nil => exact Nat.le_refl _
  | snoc _ _ _ ih => exact Nat.le_trans ih (Nat.le_add_right _ _)

/-- A stretch without an instruction, or with a first one. -/
theorem head : (start = index ∧ v = w) ∨ ∃ i taken v', v.frame.code[start]? = some i ∧
      advance j.children i start v = .ok taken v' ∧ j.Stretch (start + taken) v' index w := by
  induction h with
  | nil => exact .inl ⟨rfl, rfl⟩
  | snoc _ hi hadvance ih =>
    rcases ih with ⟨rfl, rfl⟩ | ⟨i', taken', v', hi', hadvance', hrest⟩
    · exact .inr ⟨_, _, _, hi, hadvance, .nil⟩
    · exact .inr ⟨i', taken', v', hi', hadvance', .snoc hrest hi hadvance⟩

theorem eq_of_le (hstart : j.At start v) (hle : index ≤ start) : start = index ∧ v = w := by
  rcases h.head with heq | ⟨i, taken, v', _, hadvance, hrest⟩
  · exact heq
  · have hpos := hstart.advances_pos hadvance
    have hfar := hrest.le
    omega

/-- What no instruction takes back is there at the end of a stretch. -/
theorem carries {R : Walk → Walk → Prop} (hstart : j.At start v)
    (hrefl : ∀ w, R w w) (htrans : ∀ w₁ w₂ w₃, R w₁ w₂ → R w₂ w₃ → R w₁ w₃)
    (hadvance : ∀ {k i taken w w'}, start ≤ k → k < index → j.At k w →
      w.frame.code[k]? = some i → advance j.children i k w = .ok taken w' → R w w') :
    R v w := by
  induction h with
  | nil => exact hrefl v
  | @snoc index taken i w w' hbefore hi hadvanced ih =>
    have hreached := hbefore.reached hstart
    have hpos := hreached.advances_pos hadvanced
    refine htrans _ _ _ (ih fun hle hlt => hadvance hle (by omega)) ?_
    exact hadvance hbefore.le (by omega) hreached hi hadvanced

end Stretch

theorem stretch_of_zero (hzero : j.At 0 v) (h : j.At index w) : j.Stretch 0 v index w := by
  induction h with
  | first henter hopened =>
    generalize hindex : 0 = index at hzero
    cases hzero with
    | first henter' hopened' =>
      rw [henter] at henter'
      cases henter'
      rw [hopened] at hopened'
      cases hopened'
      exact .nil
    | next hbefore _ hadvance =>
      have hpos := hbefore.advances_pos hadvance
      omega
  | next _ hi hadvance ih => exact .snoc ih hi hadvance

/-- Of two indexes to which a job gets, the walk goes on from one to the other. -/
theorem At.stretch_or (h : j.At start v) (h' : j.At index w) :
    j.Stretch start v index w ∨ j.Stretch index w start v := by
  induction h' with
  | first henter hopened => exact .inr (stretch_of_zero (.first henter hopened) h)
  | @next index taken i w w' _ hi hadvance ih =>
    rcases ih with hthere | hback
    · exact .inl (.snoc hthere hi hadvance)
    · rcases hback.head with ⟨rfl, rfl⟩ | ⟨i', taken', w'', hi', hadvance', hrest⟩
      · exact .inl (.snoc .nil hi hadvance)
      · -- The instruction is the same, and so is the state after it.
        rw [hi] at hi'
        cases hi'
        rw [hadvance] at hadvance'
        cases hadvance'
        exact .inr hrest

/-- The walk of a job goes on from every index to each that is not smaller. -/
theorem At.stretch (h : j.At start v) (h' : j.At index w) (hle : start ≤ index) :
    j.Stretch start v index w := by
  rcases h.stretch_or h' with hthere | hback
  · exact hthere
  · obtain ⟨rfl, rfl⟩ := hback.eq_of_le h' hle
    exact .nil

theorem At.unique (h : j.At index v) (h' : j.At index w) : v = w :=
  ((h.stretch h' (Nat.le_refl _)).eq_of_le h (Nat.le_refl _)).2

theorem Due.unique {i' : Instruction} (h : j.Due index i v) (h' : j.Due index i' w) :
    i = i' ∧ v = w := by
  obtain @⟨before, hreached, hi, happroach⟩ := h
  obtain @⟨before', hreached', hi', happroach'⟩ := h'
  obtain rfl := hreached.unique hreached'
  rw [hi] at hi'
  cases hi'
  rw [happroach] at happroach'
  exact ⟨rfl, (EStateM.Result.ok.inj happroach').2⟩

theorem advance_onward (hadvance : advance j.children i index w = .ok taken w') : Onward w w' := by
  have hafter := (onward_preserved w).advance (i := i) (fun v hv _ =>
    (onward_preserved w).after (closure_onward j.children i index) hv) (onward_blocked.refl w)
  rwa [hadvance] at hafter

/-- A walk takes nothing back from an index to a later one. -/
theorem At.onward (h : j.At start v) (h' : j.At index w) (hle : start ≤ index) : Onward v w :=
  (h.stretch h' hle).carries h onward_blocked.refl Onward.trans fun _ _ _ _ => advance_onward

end Job

end LuaRecovery

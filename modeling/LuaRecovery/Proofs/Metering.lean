/-
Walks with and without limits.

A limit is looked at in three places only: before an instruction the caller is asked and the
instruction is counted, and a function is entered.  The host has limits of its own, and is asked
wherever it may meet one.  Everything else goes on in the same way whatever the limits are.  So a
walk with limits follows the walk without, state by state, until a limit stops it.

`Meters` relates the two walks while they go side by side.  An action is `Fair` if it keeps
them so wherever the walk without limits gets through it, or if a limit stops the other one;
that one has then recovered a part of what the walk without limits has at that point, and
since a walk only ever adds to what it has (`Grows`), a part of what it has from then on.
-/
import LuaRecovery.Proofs.Pieces
import LuaRecovery.Proofs.Scaffold

namespace LuaRecovery

/-! ### Limits -/

namespace Limits

/-- No limit stops a run, and functions may nest to any depth. -/
structure Free (l : Limits) : Prop extends Unlimited l where
  depth : ∀ m, l.maxDepth = some m → m < 0

/-- The same is allowed. -/
structure SameBounds (l k : Limits) : Prop where
  budget : l.budget = k.budget
  maxDepth : l.maxDepth = k.maxDepth
  cancel : l.cancel = k.cancel
  host : l.host = k.host

/-- The same was used. -/
structure SameUse (l k : Limits) : Prop where
  instructions : l.instructions = k.instructions
  depth : l.depth = k.depth
  maxDepthSeen : l.maxDepthSeen = k.maxDepthSeen

/-- No more was used than is allowed.  A negative budget allows nothing, so it is kept only
until the first instruction. -/
structure Obeyed (l : Limits) : Prop where
  budget : ∀ n, l.budget = some n → 0 ≤ n → l.instructions ≤ n
  depth : ∀ m, l.maxDepth = some m → 0 ≤ m → l.maxDepthSeen ≤ m

/-- Nothing is used up again. -/
structure Grows (l k : Limits) : Prop where
  free : l.Free → k.Free
  instructions : l.instructions ≤ k.instructions
  maxDepthSeen : l.maxDepthSeen ≤ k.maxDepthSeen

theorem Grows.refl (l : Limits) : l.Grows l := ⟨id, Nat.le_refl _, Nat.le_refl _⟩

theorem Grows.trans {l k j : Limits} (h : l.Grows k) (h' : k.Grows j) : l.Grows j :=
  ⟨fun hl => h'.free (h.free hl), Nat.le_trans h.instructions h'.instructions,
    Nat.le_trans h.maxDepthSeen h'.maxDepthSeen⟩

/-- Why a run with the bounds of `l` that has used `used` is stopped, where a run without
them gets to have used `full`: the cause is a bound of `l` that the latter breaks. -/
def Breaks (l : Limits) : Cause → Limits → Limits → Prop
  | .overBudget n, used, full =>
    l.budget = some n ∧ (0 ≤ n → (used.instructions : Int) = n + 1) ∧ n < full.instructions
  | .tooDeep m, _, full => l.maxDepth = some m ∧ 0 ≤ m ∧ m < full.maxDepthSeen
  | .cancelled, _, _ => ∃ k, l.cancel k = true
  | _, _, _ => False

theorem Breaks.grows {l used full full' : Limits} {cause : Cause} (h : l.Breaks cause used full)
    (hgrows : full.Grows full') : l.Breaks cause used full' := by
  have hinstructions := hgrows.instructions
  have hdepth := hgrows.maxDepthSeen
  cases cause with
  | overBudget n => exact ⟨h.1, h.2.1, by have := h.2.2; omega⟩
  | tooDeep m => exact ⟨h.1, h.2.1, by have := h.2.2; omega⟩
  | cancelled => exact h
  | trailingCompare | unpairedCompare | rejected => exact h.elim

/-- Only the number of instructions counts of what a stopped run has used. -/
theorem Breaks.congr {l used used' full : Limits} {cause : Cause} (h : l.Breaks cause used full)
    (hused : used'.instructions = used.instructions) : l.Breaks cause used' full := by
  cases cause with
  | overBudget n => exact ⟨h.1, fun hn => by rw [hused]; exact h.2.1 hn, h.2.2⟩
  | tooDeep m => exact h
  | cancelled => exact h
  | trailingCompare | unpairedCompare | rejected => exact h.elim

variable {l : Limits}

theorem budgetBreach?_eq_some {n : Int} :
    l.budgetBreach? = some n ↔ l.budget = some n ∧ n < l.instructions := by
  rw [budgetBreach?, Option.filter_eq_some_iff, decide_eq_true_eq]

theorem budgetBreach?_eq_none :
    l.budgetBreach? = none ↔ ∀ n, l.budget = some n → l.instructions ≤ n := by
  simp only [budgetBreach?, Option.filter_eq_none_iff, decide_eq_true_eq, Int.not_lt]

theorem depthBreach?_eq_some {m : Int} :
    l.depthBreach? = some m ↔ l.maxDepth = some m ∧ 0 ≤ m ∧ m ≤ l.depth := by
  rw [depthBreach?, Option.filter_eq_some_iff, Bool.and_eq_true, decide_eq_true_eq,
    decide_eq_true_eq]

theorem depthBreach?_eq_none :
    l.depthBreach? = none ↔ ∀ m, l.maxDepth = some m → 0 ≤ m → l.depth < m := by
  simp only [depthBreach?, Option.filter_eq_none_iff, Bool.and_eq_true, decide_eq_true_eq,
    not_and, Int.not_le]

end Limits

/-! ### What is left of a routine -/

/-- The comment in place of what a failure has cut off. -/
def Cause.remark (cause : Cause) : Statement :=
  .remark (cause.code.word ++ ": " ++ cause.message)

/-- The same name and parameters, and no upvalues but the first ones. -/
structure SameHead (r full : Routine) : Prop where
  name : r.name = full.name
  params : r.params = full.params
  vararg : r.vararg = full.vararg
  captured : r.captured <+: full.captured

/-- A routine that a failure has cut short: its body starts like that of the full routine.  It
breaks off with a comment that says why, or in a function inside, which is then cut short
itself.  After that there are only markers and comments. -/
inductive Truncates (cause : Cause) : Routine → Routine → Prop
  | here {r full : Routine} {kept rest tail : List Statement} (head : SameHead r full)
      (full_body : full.body = kept ++ rest) (body : r.body = kept ++ cause.remark :: tail)
      (scaffold : Scaffold tail) : Truncates cause r full
  | inside {r full inner fullInner : Routine} {kept rest tail : List Statement} {target : String}
      {declares : Bool} (head : SameHead r full)
      (full_body : full.body = kept ++ .define target fullInner declares none :: rest)
      (body : r.body = kept ++ .define target inner declares none :: tail)
      (scaffold : Scaffold tail) (cut : Truncates cause inner fullInner) :
      Truncates cause r full

namespace Frame

/-- Nothing that was recovered is lost. -/
structure Grows (f g : Frame) : Prop where
  name : g.name = f.name
  params : g.params = f.params
  vararg : g.vararg = f.vararg
  captured : f.captured <+: g.captured
  body : f.body <+: g.body

theorem Grows.refl (f : Frame) : f.Grows f :=
  ⟨rfl, rfl, rfl, List.prefix_rfl, List.prefix_rfl⟩

theorem Grows.trans {f g k : Frame} (h : f.Grows g) (h' : g.Grows k) : f.Grows k :=
  ⟨h'.name.trans h.name, h'.params.trans h.params, h'.vararg.trans h.vararg,
    h.captured.trans h'.captured, h.body.trans h'.body⟩

/-- What a function has recovered where it was stopped, beside what it recovers if it is not:
it has the first part of it, and perhaps after that a function inside that was cut short. -/
inductive Cut (cause : Cause) : Option Routine → Frame → Frame → Prop
  | here {f g : Frame} (grows : f.Grows g) : Cut cause none f g
  | inside {f g : Frame} {inner fullInner : Routine} {kept : List Statement} {target : String}
      {declares : Bool} (body : f.body = kept ++ [.define target inner declares none])
      (grows : Grows { f with body := kept ++ [.define target fullInner declares none] } g)
      (cut : Truncates cause inner fullInner) : Cut cause (some inner) f g

theorem Cut.grows {cause : Cause} {recovered : Option Routine} {f g k : Frame}
    (h : Cut cause recovered f g) (hg : g.Grows k) : Cut cause recovered f k := by
  cases h with
  | here h => exact .here (h.trans hg)
  | inside hbody h hcut => exact .inside hbody (h.trans hg) hcut

end Frame

/-! ### Walks side by side -/

/-- A context with the bounds of `l` beside one without limits: the same was used, and
everything is the same that a walk depends on. -/
structure Context.Meters (l : Limits) (c d : Context) : Prop where
  bounds : c.limits.SameBounds l
  obeyed : c.limits.Obeyed
  free : d.limits.Free
  use : c.limits.SameUse d.limits
  simulate : c.options.simulate = d.options.simulate
  scene : c.scene = d.scene
  strings : c.strings = d.strings
  diagnostics : c.diagnostics = d.diagnostics

/-- No limit is obeyed by every use. -/
theorem Limits.Free.obeyed {l : Limits} (h : l.Free) : l.Obeyed where
  budget n hn := by rw [h.budget] at hn; cases hn
  depth m hm hpos := absurd (h.depth m hm) (Int.not_lt.mpr hpos)

theorem Context.meters_self (c : Context) (h : c.limits.Free) : c.Meters c.limits c :=
  ⟨⟨rfl, rfl, rfl, rfl⟩, h.obeyed, h, ⟨rfl, rfl, rfl⟩, rfl, rfl, rfl, rfl⟩

namespace Walk

/-- A walk with the bounds of `l` beside the one without limits. -/
structure Meters (l : Limits) (w v : Walk) : Prop where
  frame : w.frame = v.frame
  context : w.context.Meters l v.context

/-- What was recovered and what was used is still there. -/
structure Grows (v v' : Walk) : Prop where
  frame : v.frame.Grows v'.frame
  limits : v.context.limits.Grows v'.context.limits

theorem Grows.refl (v : Walk) : v.Grows v := ⟨.refl _, .refl _⟩

theorem Grows.trans {v₁ v₂ v₃ : Walk} (h : v₁.Grows v₂) (h' : v₂.Grows v₃) : v₁.Grows v₃ :=
  ⟨h.frame.trans h'.frame, h.limits.trans h'.limits⟩

/-- A walk that a limit has stopped beside the one without limits. -/
structure Cut (l : Limits) (cause : Cause) (recovered : Option Routine) (w v : Walk) : Prop where
  frame : w.frame.Cut cause recovered v.frame
  broken : l.Breaks cause w.context.limits v.context.limits

theorem Cut.grows {l : Limits} {cause : Cause} {recovered : Option Routine} {w v v' : Walk}
    (h : Cut l cause recovered w v) (hv : v.Grows v') : Cut l cause recovered w v' :=
  ⟨h.frame.grows hv.frame, h.broken.grows hv.limits⟩

/-- A walk without limits goes beside itself. -/
theorem meters_self {v : Walk} (h : v.context.limits.Free) : v.Meters v.context.limits v :=
  ⟨rfl, v.context.meters_self h⟩

/-- The frames change in the same way. -/
theorem Meters.withFrame {l : Limits} {w v : Walk} (h : w.Meters l v) {f g : Frame}
    (hfg : f = g) : Meters l { w with frame := f } { v with frame := g } :=
  ⟨hfg, h.context⟩

end Walk

/-- Walks of one frame. -/
theorem Context.Meters.walks {l : Limits} {c d : Context} (h : c.Meters l d) (f : Frame) :
    Walk.Meters l ⟨f, c⟩ ⟨f, d⟩ := ⟨rfl, h⟩

namespace Walking

/-- How a walk with limits is stopped where the one without gets to `v`. -/
def Stopped (l : Limits) (v : Walk) : Stop → Walk → Prop
  | .failed failure recovered, w => w.Cut l failure.cause recovered v
  | .host fault, _ => l.host.Refuses fault
  | _, _ => False

theorem Stopped.grows {l : Limits} {v v' : Walk} (hv : v.Grows v') {stop : Stop} {w : Walk}
    (h : Stopped l v stop w) : Stopped l v' stop w := by
  cases stop with
  | failed failure recovered => exact Walk.Cut.grows h hv
  | scene | option | host => exact h

/-- An action that a walk with limits carries out like one without, unless a limit stops it. -/
def Fair {α : Type} (m : Walking α) : Prop :=
  ∀ l w v, w.Meters l v → ∀ a v', m v = .ok a v' →
    v.Grows v' ∧ After (fun b w' => b = a ∧ w'.Meters l v') (Stopped l v') (m w)

section

variable {α β : Type}

theorem fair_pure (a : α) : Fair (pure a : Walking α) := by
  intro l w v h b v' hrun
  cases hrun
  exact ⟨.refl v, rfl, h⟩

theorem fair_throw (stop : Stop) : Fair (throw stop : Walking α) := by
  intro l w v _ a v' hrun
  cases hrun

variable {m : Walking α}

theorem fair_bind {f : α → Walking β} (hm : Fair m) (hf : ∀ a, Fair (f a)) : Fair (m >>= f) := by
  intro l w v h b v₂ hrun
  obtain ⟨a, v₁, hmv, hfv⟩ := ok_of_bind hrun
  obtain ⟨hgrows, hresult⟩ := hm l w v h a v₁ hmv
  -- Also where `m` was stopped, the walk without limits goes on from what it has by then.
  have hgrows' := (hf a _ v₁ v₁ (v₁.meters_self (hgrows.limits.free h.context.free)) b v₂ hfv).1
  refine ⟨hgrows.trans hgrows', after_bind (after_mono hresult ?_ fun _ _ => Stopped.grows hgrows')⟩
  rintro _ w₁ ⟨rfl, hw₁⟩
  exact (hf _ l w₁ v₁ hw₁ b v₂ hfv).2

theorem fair_seq {f : α → Walking β} (hm : Fair m) (hf : ∀ {a}, Fair (f a)) : Fair (m >>= f) :=
  fair_bind hm fun _ => hf

theorem fair_ite {c : Prop} [Decidable c] {m m' : Walking α} (h : Fair m) (h' : Fair m') :
    Fair (if c then m else m') := by
  split
  · exact h
  · exact h'

/-- What is looked up in the state is the same in both walks. -/
theorem fair_get {f : Walk → Walking β} (hf : ∀ v, Fair (f v))
    (hsame : ∀ l w v, w.Meters l v → f w = f v) : Fair (get >>= f) := by
  intro l w v h b v' hrun
  rw [run_get] at hrun
  rw [run_get, hsame l w v h]
  exact hf v l w v h b v' hrun

/-- An action that always answers, in the same way in both walks. -/
theorem fair_run (f : Walk → α × Walk) (hm : ∀ w, m w = .ok (f w).1 (f w).2)
    (hsame : ∀ l w v, w.Meters l v → (f w).1 = (f v).1 ∧ (f w).2.Meters l (f v).2)
    (hgrows : ∀ v : Walk, v.Grows (f v).2) : Fair m := by
  intro l w v h a v' hrun
  rw [hm] at hrun
  cases hrun
  refine ⟨hgrows v, ?_⟩
  rw [hm]
  exact hsame l w v h

/-- The host without limits answers; the other one may refuse. -/
theorem askHost_fair {fault? : Host → Walk → Option HostFault}
    (hfault : ∀ host w fault, fault? host w = some fault → host.Refuses fault) :
    Fair (askHost fault?) := by
  intro l w v h a v' hrun
  rw [(barring_askHost (hfault _ v)).eq h.context.free.host] at hrun
  cases hrun
  refine ⟨.refl v, after_askHost ⟨rfl, h⟩ fun fault hsome => ?_⟩
  show l.host.Refuses fault
  rw [← h.context.bounds.host]
  exact hfault _ w fault hsome

theorem spell_fair (numbers : Walk → List Int) : Fair (spell numbers) :=
  askHost_fair fun _ _ _ h => (Host.refuses_of_writingFault? h).1

theorem listed_fair (first last : Int) : Fair (listed first last) :=
  fair_seq (askHost_fair fun _ _ _ h => (Host.refuses_of_unless h id).1) (fair_pure _)

/-- An action on the frame that loses nothing. -/
theorem fair_frame (f : Frame → α × Frame)
    (hm : ∀ w, m w = .ok (f w.frame).1 { w with frame := (f w.frame).2 })
    (hgrows : ∀ g : Frame, g.Grows (f g).2) : Fair m := by
  refine fair_run (fun w => ((f w.frame).1, { w with frame := (f w.frame).2 })) hm ?_ ?_
  · intro l w v h
    exact ⟨by rw [h.frame], h.withFrame (by rw [h.frame])⟩
  · exact fun v => ⟨hgrows v.frame, .refl _⟩

end

end Walking

end LuaRecovery

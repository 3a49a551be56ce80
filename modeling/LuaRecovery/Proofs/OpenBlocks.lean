/-
Open blocks and the body they are open in.

The stack of a walk and the markers in its body have to tell the same story.  Nearly
always they do: the open blocks are those of the stack, and only closings are pending.
This is `Calm`.  A jump that gives the innermost branch an else part is the exception: the
branch counts as divided at once, but the marker for it only comes out at the next index.
Until then the state is `Splits`, and nothing else may happen first.  That holds because
what is pending lies ahead, `NothingBefore`: the instructions are walked in order, and
where the walk is cut short what is pending is carried out in increasing order.
-/
import LuaRecovery.Proofs.Nesting

namespace LuaRecovery

open List Table

/-- A block as a part of the body. -/
def Block.part (block : Block) : OpenPart := ⟨block.kind, block.hasElse⟩

namespace Unfinished

/-- Blocks are closed from the innermost on, each with a remark. -/
theorem closeEach {f : Block → List Statement}
    (hf : ∀ block, ∃ text, f block = [.remark text, .closing]) :
    ∀ {inner : List Block} {outer : List OpenPart} {body : List Statement},
      Unfinished (inner.map Block.part ++ outer) body →
      Unfinished outer (body ++ inner.flatMap f) := by
  intro inner
  induction inner with
  | nil => exact fun h => by simpa using h
  | cons block rest ih =>
    intro outer body h
    obtain ⟨text, htext⟩ := hf block
    have hremark : Unfinished (block.part :: (rest.map Block.part ++ outer))
        (body ++ [.remark text]) := h.append (nested_remark text)
    have hrest := ih hremark.close
    rw [flatMap_cons, htext]
    simpa using hrest

end Unfinished

namespace Blocks

/-- Only closings are pending at an index. -/
def ClosesAt (b : Blocks) (index : Int) : Prop :=
  ∀ item ∈ (b.pending.get? index).getD [], item.2 = .closes

/-- Nothing is pending before an index. -/
def NothingBefore (b : Blocks) (index : Int) : Prop :=
  ∀ e ∈ b.pending.entries, e.2 ≠ [] → index ≤ e.1

/-- The open blocks are those of the body, and only closings are pending. -/
structure Calm (b : Blocks) (body : List Statement) : Prop where
  closes : ∀ index, b.ClosesAt index
  unfinished : Unfinished (b.stack.map Block.part) body

/-- The innermost block is a branch that is divided at an index, where it may also be
closed. -/
structure Splits (b : Blocks) (body : List Statement) (index : Int) : Prop where
  closes : ∀ k, k ≠ index → b.ClosesAt k
  split : ∃ top outer closings, b.stack = top :: outer ∧ top.part = ⟨.branch, true⟩ ∧
    b.pending.get? index = some ((top.id, .divides) :: closings) ∧
    (∀ item ∈ closings, item = (top.id, .closes)) ∧
    Unfinished (⟨.branch, false⟩ :: outer.map Block.part) body

/-- The state before the instruction at an index. -/
structure Ready (b : Blocks) (body : List Statement) (index : Int) : Prop where
  tied : Calm b body ∨ Splits b body index
  nothing : b.NothingBefore index

variable {b : Blocks} {body : List Statement} {index : Int}

/-- Only the stack and what is pending matter. -/
theorem Calm.congr {b' : Blocks} (h : Calm b body) (hstack : b'.stack = b.stack)
    (hpending : b'.pending = b.pending) : Calm b' body := by
  refine ⟨fun k item hitem => ?_, hstack ▸ h.unfinished⟩
  rw [hpending] at hitem
  exact h.closes k item hitem

theorem Ready.congr {b' : Blocks} (h : Ready b body index) (hstack : b'.stack = b.stack)
    (hpending : b'.pending = b.pending) : Ready b' body index := by
  refine ⟨h.tied.imp (·.congr hstack hpending) fun hsplits => ⟨fun k hk item hitem => ?_, ?_⟩, ?_⟩
  · rw [hpending] at hitem
    exact hsplits.closes k hk item hitem
  · rw [hstack, hpending]
    exact hsplits.split
  · rw [NothingBefore, hpending]
    exact h.nothing

variable {more : List Statement} {target : Int}

theorem Calm.append (h : Calm b body) (hmore : Nested more) : Calm b (body ++ more) :=
  ⟨h.closes, h.unfinished.append hmore⟩

theorem Splits.append (h : Splits b body index) (hmore : Nested more) :
    Splits b (body ++ more) index := by
  obtain ⟨top, outer, closings, hstack, hpart, hpending, hclosings, hbody⟩ := h.split
  exact ⟨h.closes, top, outer, closings, hstack, hpart, hpending, hclosings, hbody.append hmore⟩

theorem Ready.append (h : Ready b body index) (hmore : Nested more) :
    Ready b (body ++ more) index :=
  ⟨h.tied.imp (·.append hmore) (·.append hmore), h.nothing⟩

/-! ### Closing -/

theorem close_calm (h : Calm b body) (id : Nat) (index : Int) :
    Calm (b.close id index).2 (body ++ (b.close id index).1) := by
  refine ⟨h.closes, ?_⟩
  have hsplit : b.stack.map Block.part = (b.stack.takeWhile (·.id != id)).map Block.part ++
      (b.stack.dropWhile (·.id != id)).map Block.part := by
    rw [← map_append, takeWhile_append_dropWhile]
  have hinner := Unfinished.closeEach (f := closedEarly) (fun _ => ⟨_, rfl⟩) (hsplit ▸ h.unfinished)
  show Unfinished ((b.stack.dropWhile (·.id != id)).tail.map Block.part)
    (body ++ ((b.stack.takeWhile (·.id != id)).flatMap closedEarly ++
      if (b.stack.dropWhile (·.id != id)).isEmpty then [] else [.closing]))
  rw [← append_assoc]
  revert hinner
  cases b.stack.dropWhile (·.id != id) with
  | nil => exact fun hinner => hinner.append .nil
  | cons block rest => exact fun hinner => hinner.close

theorem settle_calm (h : Calm b body) {item : Nat × MarkerRole} (hitem : item.2 = .closes)
    (index : Int) : Calm (b.settle index item).2 (body ++ (b.settle index item).1) := by
  unfold settle
  split
  · rw [hitem, if_neg nofun]
    exact close_calm h _ _
  · exact h.append .nil

theorem settleAll_calm (index : Int) : ∀ {items : List (Nat × MarkerRole)} {b : Blocks}
    {body : List Statement}, Calm b body → (∀ item ∈ items, item.2 = .closes) →
    Calm (b.settleAll index items).2 (body ++ (b.settleAll index items).1) := by
  intro items
  induction items with
  | nil => exact fun h _ => h.append .nil
  | cons item rest ih =>
    intro b body h hitems
    have hfirst := settle_calm h (hitems item (by simp)) index
    have hrest := ih hfirst fun i hi => hitems i (mem_cons_of_mem _ hi)
    rw [append_assoc] at hrest
    exact hrest

theorem openLoops_calm (index : Int) : ∀ {count : Nat} {b : Blocks} {body : List Statement},
    Calm b body → Calm (b.openLoops index count).2 (body ++ (b.openLoops index count).1) := by
  intro count
  induction count with
  | zero => exact fun h => h.append .nil
  | succ count ih =>
    intro b body h
    have hpush : Calm (b.push .loop index none) (body ++ [BlockKind.loop.opening "true"]) :=
      ⟨h.closes, h.unfinished.open_ .loop "true"⟩
    have hrest := ih hpush
    rw [append_assoc] at hrest
    exact hrest

/-! ### What is pending -/

@[simp] theorem close_pending (b : Blocks) (id : Nat) (index : Int) :
    (b.close id index).2.pending = b.pending := rfl

@[simp] theorem settle_pending (b : Blocks) (index : Int) (item : Nat × MarkerRole) :
    (b.settle index item).2.pending = b.pending := by
  unfold settle
  split
  · split <;> rfl
  · rfl

@[simp] theorem settleAll_pending (index : Int) (items : List (Nat × MarkerRole)) (b : Blocks) :
    (b.settleAll index items).2.pending = b.pending := by
  induction items generalizing b with
  | nil => rfl
  | cons item rest ih => exact (ih _).trans (settle_pending b index item)

@[simp] theorem openLoops_pending (index : Int) (count : Nat) (b : Blocks) :
    (b.openLoops index count).2.pending = b.pending := by
  induction count generalizing b with
  | zero => rfl
  | succ count ih => exact ih _

theorem due_pending (b : Blocks) (index : Int) :
    (b.due index).2.pending = b.pending.erase index := by
  show (openLoops _ index _).2.pending = _
  simp

/-- What is due at an index is no longer pending. -/
theorem due_nothing (h : b.NothingBefore index) : (b.due index).2.NothingBefore (index + 1) := by
  intro e he hne
  rw [due_pending] at he
  obtain ⟨hmem, hkey⟩ := mem_remove he
  have := h e hmem hne
  omega

theorem schedule_nothing (h : b.NothingBefore index) (htarget : index ≤ target)
    (item : Nat × MarkerRole) : (b.schedule target item).NothingBefore index := by
  intro e he hne
  rcases mem_put he with rfl | hmem
  · exact htarget
  · exact h e hmem hne

theorem schedule_closes {k target : Int} (h : b.ClosesAt k) (id : Nat) :
    (b.schedule target (id, .closes)).ClosesAt k := by
  intro item hitem
  rw [schedule, get?_insert] at hitem
  split at hitem
  · rename_i hk
    rw [Option.getD_some, mem_append, mem_singleton, hk] at hitem
    rcases hitem with hitem | rfl
    · exact h item hitem
    · rfl
  · exact h item hitem

/-! ### What is due -/

theorem openDue_calm (h : Calm b body) (index : Int) :
    Calm (b.openDue index).2 (body ++ (b.openDue index).1) :=
  openLoops_calm index ⟨h.closes, h.unfinished⟩

/-- What is due is calm if the pending markers leave it so. -/
theorem due_calm_of_settleDue (h : Calm (b.settleDue index).2 (body ++ (b.settleDue index).1)) :
    Calm (b.due index).2 (body ++ (b.due index).1) := by
  have hloops := openDue_calm h index
  rw [append_assoc] at hloops
  exact hloops

theorem erase_closes (h : ∀ k, k ≠ index → b.ClosesAt k) (k : Int) :
    ClosesAt { b with pending := b.pending.erase index } k := by
  intro item hitem
  rw [get?_erase] at hitem
  split at hitem
  · exact absurd hitem not_mem_nil
  · rename_i hk
    exact h k (fun h => hk h.symm) item hitem

theorem due_calm (h : Calm b body) (index : Int) :
    Calm (b.due index).2 (body ++ (b.due index).1) := by
  refine due_calm_of_settleDue (settleAll_calm index ⟨?_, h.unfinished⟩ ?_)
  · exact erase_closes fun k _ => h.closes k
  · intro item hitem
    exact h.closes index item (mem_mergeSort.mp hitem)

/-- Where a branch is divided, that comes before anything else. -/
theorem Splits.dueItems_eq {top : Block} {closings : List (Nat × MarkerRole)}
    (hpending : b.pending.get? index = some ((top.id, .divides) :: closings))
    (hclosings : ∀ item ∈ closings, item = (top.id, .closes)) :
    b.dueItems index = (top.id, .divides) :: closings := by
  rw [dueItems, hpending, Option.getD_some]
  refine mergeSort_of_pairwise (pairwise_of_forall_mem_list ?_)
  have hid : ∀ item ∈ (top.id, MarkerRole.divides) :: closings, item.1 = top.id := by
    intro item hitem
    rcases mem_cons.mp hitem with rfl | hitem
    · rfl
    · rw [hclosings item hitem]
  intro x hx y hy
  rw [hid x hx, hid y hy]
  exact decide_eq_true (Nat.le_refl _)

theorem due_splits (h : Splits b body index) : Calm (b.due index).2 (body ++ (b.due index).1) := by
  obtain ⟨top, outer, closings, hstack, hpart, hpending, hclosings, hbody⟩ := h.split
  refine due_calm_of_settleDue ?_
  have hopen : isOpen { b with pending := b.pending.erase index } top.id = true := by
    show b.stack.any (·.id == top.id) = true
    rw [hstack]
    simp
  have hsettle : settle { b with pending := b.pending.erase index } index (top.id, .divides) =
      ([.dividing], { b with pending := b.pending.erase index }) := by
    rw [settle, if_pos hopen, if_pos rfl]
  have hcalm : Calm { b with pending := b.pending.erase index } (body ++ [.dividing]) := by
    refine ⟨erase_closes h.closes, ?_⟩
    show Unfinished (b.stack.map Block.part) _
    rw [hstack, map_cons, hpart]
    exact hbody.divide
  have hrest := settleAll_calm index hcalm fun item hitem => by rw [hclosings item hitem]
  rw [append_assoc] at hrest
  rw [settleDue, Splits.dueItems_eq hpending hclosings, settleAll, hsettle]
  exact hrest

/-- Whatever is due, the state is calm after it. -/
theorem Ready.due (h : Ready b body index) :
    Calm (b.due index).2 (body ++ (b.due index).1) ∧ (b.due index).2.NothingBefore (index + 1) := by
  refine ⟨?_, due_nothing h.nothing⟩
  rcases h.tied with hcalm | hsplits
  · exact due_calm hcalm index
  · exact due_splits hsplits

/-! ### Jumps -/

theorem openConditional_calm (h : Calm b body) (index offset : Int) (condition : String) :
    Calm (b.openConditional index offset condition).2
      (body ++ [(b.openConditional index offset condition).1]) := by
  unfold openConditional
  split
  · exact ⟨h.closes, h.unfinished.open_ .loop condition⟩
  · refine ⟨fun k => ?_, h.unfinished.open_ .branch condition⟩
    exact schedule_closes (h.closes k) _

theorem openConditional_nothing (h : b.NothingBefore (index + 1)) (offset : Int)
    (condition : String) :
    (b.openConditional index offset condition).2.NothingBefore (index + 1) := by
  unfold openConditional
  split
  · exact h
  · refine schedule_nothing (b := b.push .branch index _) h ?_ _
    unfold jumpTarget
    omega

theorem elseBranch?_stack {inner : Block} (h : b.elseBranch? index target = some inner) :
    ∃ outer, b.stack = inner :: outer ∧ inner.kind = .branch ∧ inner.hasElse = false := by
  unfold elseBranch? at h
  cases hstack : b.stack with
  | nil =>
    rw [hstack] at h
    cases h
  | cons top outer =>
    rw [hstack] at h
    simp only [Option.ite_none_right_eq_some, Option.some.injEq] at h
    obtain ⟨⟨hkind, helse, -⟩, rfl⟩ := h
    exact ⟨outer, rfl, hkind, by simpa using helse⟩

/-- An else part is still to come: the branch is divided next. -/
theorem addElse_splits {inner : Block} (h : Calm b body)
    (helse : b.elseBranch? index target = some inner) :
    Splits (b.addElse inner index target) body (index + 1) := by
  obtain ⟨outer, hstack, hkind, hno⟩ := elseBranch?_stack helse
  refine ⟨fun k hk => schedule_closes ?_ _, ?_⟩
  · intro item hitem
    rw [get?_insert, if_neg (Ne.symm hk)] at hitem
    exact h.closes k item hitem
  · have hbody := h.unfinished
    rw [hstack, map_cons, Block.part, hkind, hno] at hbody
    refine ⟨{ inner with hasElse := true, endIndex := some target }, outer,
      if target = index + 1 then [(inner.id, .closes)] else [], ?_, ?_, ?_, ?_, hbody⟩
    · show _ :: b.stack.tail = _
      rw [hstack]
      rfl
    · rw [Block.part, hkind]
    · show get? (insert (insert b.pending _ _) _ _) _ = _
      by_cases ht : target = index + 1
      · simp [ht]
      · simp [ht]
    · intro item hitem
      split at hitem
      · exact mem_singleton.mp hitem
      · exact absurd hitem not_mem_nil

theorem addElse_nothing (h : b.NothingBefore (index + 1)) (htarget : index + 1 ≤ target)
    (inner : Block) : (b.addElse inner index target).NothingBefore (index + 1) := by
  refine schedule_nothing (fun e he hne => ?_) htarget _
  rcases mem_put he with rfl | hmem
  · exact Int.le_refl _
  · exact h e hmem hne

/-- A jump leaves the state ready for the next instruction. -/
theorem jump_ready (h : Calm b body) (hnothing : b.NothingBefore (index + 1)) (offset : Int) :
    Ready (b.jump index offset).2 (body ++ (b.jump index offset).1) (index + 1) := by
  have hremark : Nested [gotoRemark (jumpTarget index offset)] := nested_remark _
  unfold jump
  split
  · split
    · exact ⟨Or.inl (close_calm h _ _), hnothing⟩
    · exact ⟨Or.inl ⟨h.closes, h.unfinished.append hremark⟩, hnothing⟩
  · split
    · exact ⟨Or.inl (h.append hremark), hnothing⟩
    · dsimp only
      cases helse : b.elseBranch? index (jumpTarget index offset) with
      | none => exact ⟨Or.inl (h.append .nil), hnothing⟩
      | some inner =>
        refine ⟨Or.inr ?_, addElse_nothing hnothing ?_ inner⟩
        · rw [append_nil]
          exact addElse_splits h helse
        · unfold jumpTarget
          omega

/-! ### The end of the code -/

theorem dueAll_calm : ∀ (indexes : List Int) {b : Blocks} {body : List Statement}, Calm b body →
    Calm (b.dueAll indexes).2 (body ++ (b.dueAll indexes).1) := by
  intro indexes
  induction indexes with
  | nil => exact fun h => h.append .nil
  | cons index rest ih =>
    intro b body h
    have hrest := ih (due_calm h index)
    rw [append_assoc] at hrest
    exact hrest

/-- Where a branch is about to be divided, that index is the first with something pending. -/
theorem Splits.pendingIndexes_eq (h : Splits b body index) (hnothing : b.NothingBefore index) :
    ∃ rest, b.pendingIndexes = index :: rest := by
  obtain ⟨top, outer, closings, -, -, hpending, -, -⟩ := h.split
  have hkeys : ∀ k, k ∈ b.pendingIndexes ↔ ∃ e ∈ b.pending.entries, e.2 ≠ [] ∧ e.1 = k := by
    intro k
    simp only [pendingIndexes, Table.keys, filterValues, mem_mergeSort, mem_map,
      mem_filter, and_assoc, Bool.not_eq_true', isEmpty_eq_false_iff]
  have hmem : index ∈ b.pendingIndexes :=
    (hkeys index).mpr ⟨_, mem_of_find hpending, by simp, rfl⟩
  have hsorted : b.pendingIndexes.Pairwise fun i j => decide (i ≤ j) = true :=
    pairwise_mergeSort (fun i j k hij hjk => by simp at *; omega) (fun i j => by simp; omega) _
  cases hlist : b.pendingIndexes with
  | nil =>
    rw [hlist] at hmem
    cases hmem
  | cons first rest =>
    rw [hlist] at hmem hsorted
    have hge : index ≤ first := by
      obtain ⟨e, he, hne, rfl⟩ := (hkeys first).mp (by rw [hlist]; simp)
      exact hnothing e he hne
    have hle : first ≤ index := by
      rcases mem_cons.mp hmem with heq | hrest
      · omega
      · simpa using (pairwise_cons.mp hsorted).1 index hrest
    exact ⟨rest, by rw [show first = index by omega]⟩

theorem dueAll_ready (h : Ready b body index) :
    Calm (b.dueAll b.pendingIndexes).2 (body ++ (b.dueAll b.pendingIndexes).1) := by
  rcases h.tied with hcalm | hsplits
  · exact dueAll_calm _ hcalm
  · obtain ⟨rest, hrest⟩ := hsplits.pendingIndexes_eq h.nothing
    rw [hrest]
    have hdue := dueAll_calm rest (due_splits hsplits)
    rw [append_assoc] at hdue
    exact hdue

/-- **At the end the markers nest**, wherever the walk is cut short. -/
theorem finish_nested (h : Ready b body index) (endIndex : Int) :
    Nested (body ++ (b.finish endIndex).1) := by
  have hcalm := (dueAll_ready h).unfinished
  rw [← append_nil (List.map Block.part _)] at hcalm
  have hclosed := Unfinished.closeEach (f := unterminated) (fun _ => ⟨_, rfl⟩) hcalm
  rw [append_assoc] at hclosed
  exact hclosed.nested

/-! ### Where markers are pending -/

/-- Markers are pending only at indexes with `P`. -/
def PendsAt (P : Int → Prop) (b : Blocks) : Prop := ∀ e ∈ b.pending.entries, P e.1

namespace PendsAt

variable {P : Int → Prop}

theorem due (h : b.PendsAt P) (index : Int) : (b.due index).2.PendsAt P := by
  intro e he
  rw [due_pending] at he
  exact h e (mem_remove he).1

theorem schedule (h : b.PendsAt P) {target : Int} (htarget : P target) (item : Nat × MarkerRole) :
    (b.schedule target item).PendsAt P := by
  intro e he
  rcases mem_put he with rfl | hmem
  · exact htarget
  · exact h e hmem

theorem openConditional (h : b.PendsAt P) {index offset : Int}
    (htarget : 0 ≤ offset → P (jumpTarget (index + 1) offset)) (condition : String) :
    (b.openConditional index offset condition).2.PendsAt P := by
  unfold Blocks.openConditional
  split
  · exact h
  · exact schedule (b := b.push _ _ _) h (htarget (by omega)) _

theorem jump (h : b.PendsAt P) {index offset : Int} (hnext : P (index + 1))
    (htarget : 0 ≤ offset → P (jumpTarget index offset)) : (b.jump index offset).2.PendsAt P := by
  unfold Blocks.jump
  dsimp only
  split
  · split <;> exact h
  · split
    · exact h
    · split
      · refine schedule (fun e he => ?_) (htarget (by omega)) _
        rcases mem_put he with rfl | hmem
        · exact hnext
        · exact h e hmem
      · exact h

theorem dueAll (indexes : List Int) (h : b.PendsAt P) : (b.dueAll indexes).2.PendsAt P := by
  induction indexes generalizing b with
  | nil => exact h
  | cons index rest ih => exact ih (h.due index)

theorem finish (h : b.PendsAt P) (endIndex : Int) : (b.finish endIndex).2.PendsAt P :=
  h.dueAll b.pendingIndexes

theorem pendingIndexes (h : b.PendsAt P) : ∀ index ∈ b.pendingIndexes, P index := by
  intro index hindex
  rw [Blocks.pendingIndexes, mem_mergeSort] at hindex
  obtain ⟨e, he, rfl⟩ := mem_map.mp hindex
  exact h e (mem_filter.mp he).1

end PendsAt

end Blocks

end LuaRecovery

/-
Blocks of structured code.

In structured code the blocks are opened and closed in order, and nothing is pending but
the closings of the open branches.  `Tidy` says this, and that the blocks are told apart by
their numbers.  What is due at an index can then be taken one marker at a time: closing the
innermost branch, dividing it, or opening one loop leaves a state from which the rest is
due.  A proof about structured code can thus treat a marker as part of the block it belongs
to, and not as part of the instruction that happens to stand there.
-/
import LuaRecovery.Proofs.OpenBlocks

namespace LuaRecovery

open List

namespace Table

variable {κ α : Type} [DecidableEq κ]

theorem remove_put (k : κ) (v : α) (es : List (κ × α)) : remove k (put k v es) = remove k es := by
  induction es with
  | nil => simp [put, remove]
  | cons e es ih =>
    obtain ⟨k', v'⟩ := e
    by_cases hk : k' = k
    · simp [put, remove, hk]
    · simp [put, remove, hk, ih]

theorem nodup_put (k : κ) (v : α) (es : List (κ × α)) (h : (es.map Prod.fst).Nodup) :
    ((put k v es).map Prod.fst).Nodup := by
  induction es with
  | nil => simp [put]
  | cons e es ih =>
    obtain ⟨k', v'⟩ := e
    rw [map_cons, nodup_cons] at h
    by_cases hk : k' = k
    · rw [put, if_pos hk, map_cons, nodup_cons]
      exact hk ▸ h
    · rw [put, if_neg hk, map_cons, nodup_cons]
      refine ⟨fun hmem => ?_, ih h.2⟩
      obtain ⟨e, he, heq⟩ := mem_map.mp hmem
      rcases mem_put he with rfl | he
      · exact hk heq.symm
      · exact h.1 (heq ▸ mem_map_of_mem he)

theorem find_of_mem {k : κ} {v : α} {es : List (κ × α)} (h : (es.map Prod.fst).Nodup)
    (hmem : (k, v) ∈ es) : find k es = some v := by
  induction es with
  | nil => exact absurd hmem not_mem_nil
  | cons e es ih =>
    obtain ⟨k', v'⟩ := e
    rw [map_cons, nodup_cons] at h
    rcases mem_cons.mp hmem with heq | hmem
    · cases heq
      exact if_pos rfl
    · have hne : k' ≠ k := by
        rintro rfl
        exact h.1 (mem_map.mpr ⟨_, hmem, rfl⟩)
      rw [find, if_neg hne]
      exact ih h.2 hmem

/-- Every key is stored once. -/
def Keyed (t : Table κ α) : Prop := t.keys.Nodup

theorem Keyed.insert {t : Table κ α} (h : t.Keyed) (k : κ) (v : α) : (t.insert k v).Keyed :=
  nodup_put k v t.entries h

theorem Keyed.erase {t : Table κ α} (h : t.Keyed) (k : κ) : (t.erase k).Keyed := by
  unfold Keyed keys Table.erase
  rw [remove_eq_filter]
  exact h.sublist (filter_sublist.map _)

theorem erase_insert (t : Table κ α) (k : κ) (v : α) : (t.insert k v).erase k = t.erase k := by
  simp only [erase, insert, remove_put]

end Table

namespace Blocks

/-- The closings of the blocks that end at an index. -/
def closingsAt (stack : List Block) (index : Int) : List (Nat × MarkerRole) :=
  (stack.filter (·.endIndex == some index)).map fun block => (block.id, .closes)

/-- Just the closings of the open branches are pending, those of outer ones first; later
blocks have larger numbers, and nothing was noted. -/
structure Tidy (b : Blocks) : Prop where
  pending : ∀ index, (b.pending.get? index).getD [] = (closingsAt b.stack index).reverse
  keyed : b.pending.Keyed
  ids : b.stack.Pairwise fun inner outer => outer.id < inner.id
  fresh : ∀ block ∈ b.stack, block.id < b.nextId
  quiet : b.anomalies = []

/-! ### Ranks -/

/-- The place of a block among blocks, from the innermost. -/
def placeOf (stack : List Block) (id : Nat) : Nat := stack.findIdx (·.id == id)

theorem placeOf_head (top : Block) (outer : List Block) : placeOf (top :: outer) top.id = 0 := by
  simp [placeOf, findIdx_cons]

variable {outer : List Block} {top : Block} {stack : List Block} {target : Int}

theorem placeOf_tail {id : Nat} (h : id ≠ top.id) (outer : List Block) :
    placeOf (top :: outer) id = placeOf outer id + 1 := by
  have hne : (top.id == id) = false := by simpa using Ne.symm h
  rw [placeOf, findIdx_cons, hne]
  rfl

/-- The place of a block tells its number. -/
theorem placeOf_inj {x y : Block} (hx : x ∈ stack) (hy : y ∈ stack)
    (h : placeOf stack x.id = placeOf stack y.id) : x.id = y.id := by
  have hat : ∀ z ∈ stack, ∃ block, stack[placeOf stack z.id]? = some block ∧ block.id = z.id := by
    intro z hz
    have hlt : placeOf stack z.id < stack.length :=
      findIdx_lt_length_of_exists ⟨z, hz, by simp⟩
    refine ⟨stack[placeOf stack z.id], getElem?_eq_getElem hlt, ?_⟩
    exact eq_of_beq (findIdx_getElem (w := hlt))
  obtain ⟨u, hu, hux⟩ := hat x hx
  obtain ⟨v, hv, hvy⟩ := hat y hy
  rw [h, hv] at hu
  cases hu
  rw [← hux, hvy]

/-- On a stack with different numbers, inner blocks have smaller places. -/
theorem pairwise_placeOf (hids : stack.Pairwise fun inner outer => outer.id < inner.id) :
    stack.Pairwise fun x y => placeOf stack x.id < placeOf stack y.id := by
  induction stack with
  | nil => exact .nil
  | cons top outer ih =>
    rw [pairwise_cons] at hids ⊢
    have hne : ∀ block ∈ outer, block.id ≠ top.id := fun block hblock =>
      Nat.ne_of_lt (hids.1 block hblock)
    refine ⟨fun y hy => ?_, (ih hids.2).imp_of_mem fun hx hy h => ?_⟩
    · rw [placeOf_head, placeOf_tail (hne y hy)]
      omega
    · rw [placeOf_tail (hne _ hx), placeOf_tail (hne _ hy)]
      omega

theorem pairwise_closingsAt (hids : stack.Pairwise fun inner outer => outer.id < inner.id)
    (index : Int) :
    (closingsAt stack index).Pairwise fun x y => placeOf stack x.1 < placeOf stack y.1 := by
  rw [closingsAt, pairwise_map]
  exact (pairwise_placeOf hids).filter _

variable {b : Blocks} {index : Int}

/-- The closings that are due come out from the innermost on. -/
theorem Tidy.dueItems_eq (h : Tidy b) (index : Int) :
    b.dueItems index = closingsAt b.stack index := by
  have hsorted := pairwise_closingsAt h.ids index
  have hle : (closingsAt b.stack index).Pairwise fun x y =>
      decide (b.rank x.1 ≤ b.rank y.1) = true :=
    hsorted.imp fun h => decide_eq_true (Nat.le_of_lt h)
  have hperm : (b.dueItems index).Perm (closingsAt b.stack index) := by
    rw [dueItems, h.pending]
    exact (mergeSort_perm _ _).trans (reverse_perm _)
  refine hperm.eq_of_pairwise ?_ (pairwise_mergeSort ?_ ?_ _) hle
  · intro x y hx hy hxy hyx
    obtain ⟨u, hu, rfl⟩ := mem_map.mp (hperm.mem_iff.mp hx)
    obtain ⟨v, hv, rfl⟩ := mem_map.mp hy
    rw [decide_eq_true_eq] at hxy hyx
    have hid : u.id = v.id := placeOf_inj (mem_filter.mp hu).1 (mem_filter.mp hv).1
      (Nat.le_antisymm hxy hyx)
    rw [hid]
  · intro x y z hxy hyz
    rw [decide_eq_true_eq] at *
    omega
  · intro x y
    rw [Bool.or_eq_true, decide_eq_true_eq, decide_eq_true_eq]
    omega

/-! ### One marker at a time -/

/-- First some statements are due, and then what is due in another state. -/
def DueAfter (b : Blocks) (index : Int) (nodes : List Statement) (b' : Blocks) : Prop :=
  b.due index = (nodes ++ (b'.due index).1, (b'.due index).2)

theorem dueAfter_of_settleDue {b' : Blocks} {nodes : List Statement}
    (h : b.settleDue index = (nodes ++ (b'.settleDue index).1, (b'.settleDue index).2)) :
    DueAfter b index nodes b' := by
  unfold DueAfter due
  rw [h]
  simp only [append_assoc]

/-- The blocks without the innermost one, whose closing is no longer pending. -/
def closeTop (b : Blocks) (outer : List Block) (index : Int) : Blocks :=
  { b with
    stack := outer
    pending := b.pending.insert index (closingsAt outer index).reverse }

theorem closingsAt_cons_eq (htop : top.endIndex = some index) (outer : List Block) :
    closingsAt (top :: outer) index = (top.id, .closes) :: closingsAt outer index := by
  simp [closingsAt, htop]

theorem closingsAt_cons_ne (htop : top.endIndex ≠ some index) (outer : List Block) :
    closingsAt (top :: outer) index = closingsAt outer index := by
  simp [closingsAt, htop]

theorem closingsAt_eq_nil (h : ∀ block ∈ stack, block.endIndex ≠ some index) :
    closingsAt stack index = [] := by
  rw [closingsAt, filter_eq_nil_iff.mpr, map_nil]
  intro block hblock
  simpa using h block hblock

theorem Tidy.closeTop (h : Tidy b) (hstack : b.stack = top :: outer)
    (htop : top.endIndex = some index) : Tidy (b.closeTop outer index) := by
  refine ⟨fun k => ?_, h.keyed.insert _ _, ?_, fun block hblock => ?_, h.quiet⟩
  · by_cases hk : index = k
    · simp [Blocks.closeTop, hk]
    · have hpending := h.pending k
      rw [hstack, closingsAt_cons_ne (by rw [htop]; simpa using hk)] at hpending
      simpa [Blocks.closeTop, hk] using hpending
  · exact (pairwise_cons.mp (hstack ▸ h.ids)).2
  · exact h.fresh block (hstack ▸ mem_cons_of_mem _ hblock)

section

variable (hstack : b.stack = top :: outer)

include hstack

/-- Closing the innermost block gives its closing marker. -/
theorem close_top (index : Int) :
    b.close top.id index = ([.closing], { b with stack := outer }) := by
  unfold close
  rw [hstack]
  simp

theorem isOpen_top : b.isOpen top.id = true := by
  rw [isOpen, hstack]
  simp

theorem settle_close_top (index : Int) :
    b.settle index (top.id, .closes) = ([.closing], { b with stack := outer }) := by
  unfold settle
  rw [if_pos (isOpen_top hstack), if_neg nofun, close_top hstack]

theorem settle_divide_top (index : Int) : b.settle index (top.id, .divides) = ([.dividing], b) := by
  unfold settle
  rw [if_pos (isOpen_top hstack), if_pos rfl]

end

theorem settleAll_cons {item : Nat × MarkerRole} {nodes : List Statement} {b' : Blocks}
    (h : b.settle index item = (nodes, b')) (rest : List (Nat × MarkerRole)) :
    b.settleAll index (item :: rest) =
      (nodes ++ (b'.settleAll index rest).1, (b'.settleAll index rest).2) := by
  rw [settleAll, h]

/-- Where the innermost branch ends, its closing is due first. -/
theorem Tidy.due_close (h : Tidy b) (hstack : b.stack = top :: outer)
    (htop : top.endIndex = some index) : DueAfter b index [.closing] (b.closeTop outer index) := by
  have hitems := h.dueItems_eq index
  rw [hstack, closingsAt_cons_eq htop] at hitems
  refine dueAfter_of_settleDue ?_
  rw [settleDue, hitems, settleDue, (h.closeTop hstack htop).dueItems_eq,
    settleAll_cons (settle_close_top
      (b := { b with pending := b.pending.erase index }) hstack index)]
  simp only [Blocks.closeTop, Table.erase_insert]

/-- Where the innermost branch is divided, that is due first. -/
theorem due_divide (top : Block) (outer : List Block) (hstack : b.stack = top :: outer)
    (hpending : b.pending.get? index = some [(top.id, .divides)]) :
    DueAfter b index [.dividing] { b with pending := b.pending.insert index [] } := by
  have hitems : b.dueItems index = [(top.id, .divides)] := by
    rw [dueItems, hpending]
    simp
  have hrest : dueItems { b with pending := b.pending.insert index [] } index = [] := by
    rw [dueItems]
    simp
  refine dueAfter_of_settleDue ?_
  rw [settleDue, hitems, settleDue, hrest, settleAll_cons (settle_divide_top
    (b := { b with pending := b.pending.erase index }) hstack index)]
  simp only [Table.erase_insert, settleAll]

/-- The blocks with one more loop open, which is no longer to open. -/
def openTop (b : Blocks) (index : Int) (count : Nat) : Blocks :=
  { b.push .loop index none with headers := b.headers.insert index count }

/-- Where nothing is pending and loops start, the first of them is due. -/
theorem due_open {count : Nat} (hpending : (b.pending.get? index).getD [] = [])
    (hheaders : (b.headers.get? index).getD 0 = count + 1) :
    DueAfter b index [BlockKind.loop.opening "true"] (b.openTop index count) := by
  have hitems : b.dueItems index = [] := by
    rw [dueItems, hpending]
    simp
  have hrest : (b.openTop index count).dueItems index = [] := by
    rw [dueItems]
    simp only [openTop, push, hpending]
    simp
  unfold DueAfter due
  rw [settleDue, hitems, settleDue, hrest]
  simp only [settleAll, openDue, hheaders]
  simp [openLoops, openTop, push, Table.erase_insert, BlockKind.opening]

/-- The blocks after an index at which nothing is due. -/
def pass (b : Blocks) (index : Int) : Blocks :=
  { b with pending := b.pending.erase index, headers := b.headers.erase index }

theorem due_nothing_eq (hpending : (b.pending.get? index).getD [] = [])
    (hheaders : (b.headers.get? index).getD 0 = 0) : b.due index = ([], b.pass index) := by
  have hitems : b.dueItems index = [] := by
    rw [dueItems, hpending]
    simp
  unfold due
  rw [settleDue, hitems]
  simp only [settleAll, openDue, hheaders]
  rfl

theorem Tidy.pass (h : Tidy b) (hpending : (b.pending.get? index).getD [] = []) :
    Tidy (b.pass index) := by
  refine ⟨fun k => ?_, h.keyed.erase _, h.ids, h.fresh, h.quiet⟩
  by_cases hk : index = k
  · have := h.pending k
    rw [← hk, hpending] at this
    simpa [Blocks.pass, hk] using this
  · simpa [Blocks.pass, hk] using h.pending k

/-! ### Opening and closing -/

theorem Tidy.pairwise_push {block : Block} (h : Tidy b) (hid : block.id = b.nextId) :
    (block :: b.stack).Pairwise fun inner outer => outer.id < inner.id := by
  refine pairwise_cons.mpr ⟨fun outer houter => ?_, h.ids⟩
  rw [hid]
  exact h.fresh outer houter

theorem Tidy.fresh_push {block : Block} (h : Tidy b) (hid : block.id = b.nextId) :
    ∀ inner ∈ block :: b.stack, inner.id < b.nextId + 1 := by
  intro inner hinner
  rcases mem_cons.mp hinner with rfl | hinner
  · omega
  · have := h.fresh inner hinner
    omega

theorem Tidy.push_loop (h : Tidy b) (openedAt : Int) : Tidy (b.push .loop openedAt none) := by
  refine ⟨fun k => ?_, h.keyed, h.pairwise_push rfl, h.fresh_push rfl, h.quiet⟩
  rw [push, closingsAt_cons_ne (by simp)]
  exact h.pending k

theorem Tidy.openTop (h : Tidy b) (index : Int) (count : Nat) : Tidy (b.openTop index count) :=
  let h := h.push_loop index
  ⟨h.pending, h.keyed, h.ids, h.fresh, h.quiet⟩

/-- The blocks with one more branch, which ends at a target. -/
def openBranch (b : Blocks) (openedAt target : Int) : Blocks :=
  (b.push .branch openedAt (some target)).schedule target (b.nextId, .closes)

theorem Tidy.openBranch (h : Tidy b) (openedAt target : Int) :
    Tidy (b.openBranch openedAt target) := by
  refine ⟨fun k => ?_, h.keyed.insert _ _, h.pairwise_push rfl, h.fresh_push rfl, h.quiet⟩
  rw [Blocks.openBranch, schedule, Table.get?_insert]
  by_cases hk : target = k
  · rw [if_pos hk, Option.getD_some]
    simp only [push]
    rw [closingsAt_cons_eq (by rw [hk]), reverse_cons, h.pending, hk]
  · rw [if_neg hk]
    simp only [push]
    rw [closingsAt_cons_ne (by simpa using hk)]
    exact h.pending k

theorem Tidy.popLoop (h : Tidy b) (hstack : b.stack = top :: outer) (htop : top.endIndex = none) :
    Tidy { b with stack := outer } := by
  refine ⟨fun k => ?_, h.keyed, ?_, fun block hblock => ?_, h.quiet⟩
  · have hpending := h.pending k
    rwa [hstack, closingsAt_cons_ne (by rw [htop]; simp)] at hpending
  · exact (pairwise_cons.mp (hstack ▸ h.ids)).2
  · exact h.fresh block (hstack ▸ mem_cons_of_mem _ hblock)

/-- The jump that closes a loop, where the innermost block is one. -/
theorem jump_close (hstack : b.stack = top :: outer) (hkind : top.kind = .loop)
    (hcloser : index ∈ b.closers) (offset : Int) :
    b.jump index offset = ([.closing], { b with stack := outer }) := by
  have hloop : b.innermostLoop? = some top := by
    rw [innermostLoop?, hstack, find?_cons_of_pos (by rw [hkind]; rfl)]
  unfold jump
  rw [if_pos (by simpa using hcloser), hloop]
  exact close_top hstack index

/-- The blocks after the innermost branch was divided. -/
def divideTop (b : Blocks) (top : Block) (index target : Int) : Blocks :=
  { b.addElse top index target with
    pending := (b.addElse top index target).pending.insert (index + 1) [] }

theorem closingsAt_eq_nil_of_lt (htarget : index < target)
    (h : ∀ block ∈ stack, ∀ e, block.endIndex = some e → target ≤ e) :
    closingsAt stack index = [] := by
  refine closingsAt_eq_nil fun block hblock hsome => ?_
  have := h block hblock _ hsome
  omega

theorem endsInside_of_le (h : ∀ block ∈ stack, ∀ e, block.endIndex = some e → target ≤ e) :
    endsInside target stack = true := by
  cases stack with
  | nil => rfl
  | cons block rest =>
    rw [endsInside, Option.all_eq_true]
    exact fun e he => decide_eq_true (h block (by simp) e he)

/-- Where the branch is to be divided, that is due first. -/
theorem due_addElse (hstack : b.stack = top :: outer) (htarget : index + 1 < target) :
    DueAfter (b.addElse top index target) (index + 1) [.dividing]
      (b.divideTop top index target) := by
  refine due_divide { top with hasElse := true, endIndex := some target } outer ?_ ?_
  · rw [addElse, hstack]
    rfl
  · simp only [addElse, schedule, Table.get?_insert]
    simp
    omega

section

variable {top : Block} {outer : List Block} {target : Int} (h : Tidy b)
  (hstack : b.stack = top :: outer) (hend : top.endIndex = some (index + 1))
  (htarget : index + 1 < target)
  (houter : ∀ block ∈ outer, ∀ e, block.endIndex = some e → target ≤ e)

include h hstack hend htarget houter

/-- The jump at the end of the first part of a branch that has another one. -/
theorem Tidy.jump_else {offset : Int} (hkind : top.kind = .branch) (helse : top.hasElse = false)
    (hcloser : index ∉ b.closers) (hoffset : 0 ≤ offset)
    (hjump : jumpTarget index offset = target) :
    b.jump index offset = ([], b.addElse top index target) := by
  have hwaiting : (b.pending.get? (index + 1)).getD [] = [(top.id, .closes)] := by
    rw [h.pending, hstack, closingsAt_cons_eq hend, closingsAt_eq_nil_of_lt htarget houter]
    rfl
  have hbranch : b.elseBranch? index target = some top := by
    unfold elseBranch?
    rw [hstack, hwaiting]
    simp [isOpen_top hstack, helse, hkind, hend, endsInside_of_le houter]
  unfold jump
  rw [if_neg (by simpa using hcloser), if_neg (by omega), hjump]
  simp only [hbranch]

theorem Tidy.divideTop : Tidy (b.divideTop top index target) := by
  have hstack' : (b.divideTop top index target).stack =
      { top with hasElse := true, endIndex := some target } :: outer := by
    rw [Blocks.divideTop, addElse, hstack]
    rfl
  have hids := h.ids
  rw [hstack, pairwise_cons] at hids
  refine ⟨fun k => ?_, ((h.keyed.insert _ _).insert _ _).insert _ _, ?_, ?_, h.quiet⟩
  · rw [hstack', Blocks.divideTop, Table.get?_insert]
    have hold := h.pending k
    rw [hstack] at hold
    by_cases hk : index + 1 = k
    · rw [if_pos hk, ← hk, closingsAt_cons_ne (by simp; omega),
        closingsAt_eq_nil_of_lt htarget houter]
      rfl
    · rw [if_neg hk]
      rw [closingsAt_cons_ne (by rw [hend]; simpa using hk)] at hold
      simp only [addElse, schedule, Table.get?_insert]
      by_cases hkt : target = k
      · have hne : index + 1 ≠ target := by omega
        rw [if_pos hkt, if_neg hne, Option.getD_some, closingsAt_cons_eq (by rw [hkt]),
          reverse_cons, hkt, hold]
      · rw [if_neg hkt, if_neg hk, closingsAt_cons_ne (by simpa using hkt)]
        exact hold
  · rw [hstack']
    exact pairwise_cons.mpr hids
  · intro block hblock
    rw [hstack'] at hblock
    rcases mem_cons.mp hblock with rfl | hblock
    · exact h.fresh top (by rw [hstack]; simp)
    · exact h.fresh block (by rw [hstack]; exact mem_cons_of_mem _ hblock)

end

/-! ### The end -/

/-- Once no block is open nothing is left to do. -/
theorem Tidy.finish_eq (h : Tidy b) (hstack : b.stack = []) (index : Int) :
    b.finish index = ([], b) := by
  have hnone : b.pending.filterValues (fun items => !items.isEmpty) = {} := by
    unfold Table.filterValues
    rw [filter_eq_nil_iff.mpr]
    rintro ⟨k, items⟩ he
    have hget := h.pending k
    rw [hstack, Table.get?, Table.find_of_mem h.keyed he] at hget
    simpa [closingsAt] using hget
  have hindexes : b.pendingIndexes = [] := by
    rw [pendingIndexes, hnone, Table.keys, map_nil, mergeSort_nil]
  unfold finish
  rw [hindexes]
  simp only [dueAll, hstack, map_nil, flatMap_nil, append_nil]
  rw [← hstack]

end Blocks

end LuaRecovery

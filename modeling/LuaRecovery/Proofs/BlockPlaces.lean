/-
Where blocks stand in a body.

The stack of a walk has the open blocks, and the markers in its body have them too: `marks` reads
off from a body where each open block is opened and divided.  `Placed` ties the two to the passages
of the body.  Every open branch is opened by the instruction it belongs to and divided where its
jump goes, and it ends where its jump goes or where an else part has moved its end; every branch
that was closed stands like this in the body.

One lemma for each operation on the blocks says that it keeps this, as long as nothing is noted.
Without notes a block is closed only when it is the innermost one, so what a marker closes is the
block that it was pending for.
-/
import Mathlib.Data.List.Forall2
import LuaRecovery.Proofs.Passages
import LuaRecovery.Proofs.Scaffold
import LuaRecovery.Proofs.TidyBlocks

namespace LuaRecovery

open List Blocks

/-! ### Open blocks by their places -/

/-- Where an open block stands: the place of its opening marker, and of the one that divides it. -/
structure Mark where
  opened : Nat
  divided : Option Nat

/-- The open blocks, innermost first, behind a statement at a place. -/
def Statement.mark (place : Nat) (marks : List Mark) : Statement → List Mark
  | .marker _ .opens => ⟨place, none⟩ :: marks
  | .marker _ .divides => marks.modifyHead fun m => { m with divided := some place }
  | .marker _ .closes => marks.tail
  | _ => marks

/-- The open blocks behind statements that start at a place. -/
def marksFrom (place : Nat) (marks : List Mark) : List Statement → List Mark
  | [] => marks
  | s :: rest => marksFrom (place + 1) (s.mark place marks) rest

/-- The open blocks of a body, innermost first. -/
def marks (body : List Statement) : List Mark := marksFrom 0 [] body

variable (place : Nat) (ms : List Mark)

theorem marksFrom_append (xs ys : List Statement) :
    marksFrom place ms (xs ++ ys) = marksFrom (place + xs.length) (marksFrom place ms xs) ys := by
  induction xs generalizing place ms with
  | nil => simp [marksFrom]
  | cons s rest ih =>
    simp only [cons_append, marksFrom, ih, length_cons]
    congr 1
    omega

theorem marks_append (xs ys : List Statement) :
    marks (xs ++ ys) = marksFrom xs.length (marks xs) ys := by
  rw [marks, marksFrom_append, Nat.zero_add]
  rfl

@[simp] theorem mark_opening (kind : BlockKind) (condition : String) (place : Nat)
    (ms : List Mark) : (kind.opening condition).mark place ms = ⟨place, none⟩ :: ms := by
  cases kind <;> rfl

@[simp] theorem mark_dividing (m : Mark) (ms : List Mark) :
    Statement.dividing.mark place (m :: ms) = { m with divided := some place } :: ms := rfl

@[simp] theorem mark_closing : Statement.closing.mark place ms = ms.tail := rfl

/-- What nests leaves the open blocks as they are. -/
theorem Nested.marksFrom_eq {body : List Statement} (h : Nested body) :
    ∀ (place : Nat) (ms : List Mark), marksFrom place ms body = ms := by
  induction h with
  | nil => exact fun _ _ => rfl
  | @plain s rest hs _ _ _ ih =>
    intro place ms
    have hsame : s.mark place ms = ms := by
      cases s with
      | marker text role => exact hs.elim
      | _ => rfl
    rw [marksFrom, hsame, ih]
  | block kind condition _ _ ihinner ihrest =>
    intro place ms
    rw [marksFrom, mark_opening, marksFrom_append, ihinner, marksFrom, mark_closing,
      tail_cons, ihrest]
  | divided condition _ _ _ ihyes ihno ihrest =>
    intro place ms
    rw [marksFrom, mark_opening, marksFrom_append, ihyes, marksFrom, mark_dividing,
      marksFrom_append, ihno, marksFrom, mark_closing, tail_cons, ihrest]

namespace Unfinished

variable {kind : BlockKind} {outer : List OpenPart} {body : List Statement}

/-- The innermost block, if it is not divided, and its mark. -/
theorem of_opened (h : Unfinished (⟨kind, false⟩ :: outer) body) :
    ∃ condition front inner, body = front ++ kind.opening condition :: inner ∧ Nested inner ∧
      marks body = ⟨front.length, none⟩ :: marks front := by
  cases h with
  | @opened _ condition _ front inner _ hinner =>
    refine ⟨condition, front, inner, rfl, hinner, ?_⟩
    rw [marks_append, marksFrom, mark_opening, hinner.marksFrom_eq]

/-- The innermost block, if it is divided, and its mark. -/
theorem of_divided (h : Unfinished (⟨kind, true⟩ :: outer) body) : ∃ condition front yes no,
      body = front ++ BlockKind.branch.opening condition :: (yes ++ .dividing :: no) ∧
      Nested yes ∧ Nested no ∧
      marks body = ⟨front.length, some (front.length + 1 + yes.length)⟩ :: marks front := by
  cases h with
  | @divided _ before no hbefore hno =>
    obtain ⟨condition, front, yes, rfl, hyes, hmarks⟩ := hbefore.of_opened
    refine ⟨condition, front, yes, no, by simp, hyes, hno, ?_⟩
    rw [marks_append, hmarks, marksFrom, mark_dividing, hno.marksFrom_eq]
    simp only [length_append, length_cons, List.cons.injEq, Mark.mk.injEq,
      Option.some.injEq, true_and, and_true]
    omega

end Unfinished

/-! ### What is pending -/

namespace Blocks

variable {b : Blocks}

variable {index : Int}

/-- A marker for a closed block is passed over. -/
theorem settleAll_closed {item : Nat × MarkerRole} (h : ¬b.isOpen item.1 = true)
    (rest : List (Nat × MarkerRole)) :
    b.settleAll index (item :: rest) = b.settleAll index rest := by
  have hsettle : b.settle index item = ([], b) := if_neg h
  rw [settleAll_cons hsettle, nil_append]

theorem pendingIndexes_increasing (h : b.pending.Keyed) : b.pendingIndexes.Pairwise (· < ·) := by
  have hnodup : b.pendingIndexes.Nodup := by
    rw [pendingIndexes, (mergeSort_perm _ _).nodup_iff]
    exact h.sublist (filter_sublist.map Prod.fst)
  have hsorted : b.pendingIndexes.Pairwise fun i j => decide (i ≤ j) = true :=
    pairwise_mergeSort (fun i j k hij hjk => by
        rw [decide_eq_true_eq] at hij hjk ⊢
        omega)
      (fun i j => by
        simp only [Bool.or_eq_true, decide_eq_true_eq]
        omega) _
  refine (hsorted.and hnodup).imp fun h => ?_
  obtain ⟨hle, hne⟩ := h
  rw [decide_eq_true_eq] at hle
  omega

theorem NothingBefore.pendingIndexes (h : b.NothingBefore index) :
    ∀ k ∈ b.pendingIndexes, index ≤ k := by
  intro k hk
  rw [Blocks.pendingIndexes, mem_mergeSort] at hk
  obtain ⟨e, he, rfl⟩ := mem_map.mp hk
  obtain ⟨hmem, hne⟩ := mem_filter.mp he
  exact h e hmem (by simpa using hne)

/-- If nothing is noted at the end, then what is pending comes out and no block is left open. -/
theorem finish_of_quiet {count : Int} (h : (b.finish count).2.anomalies = []) :
    (b.dueAll b.pendingIndexes).2.anomalies = [] ∧ (b.dueAll b.pendingIndexes).2.stack = [] ∧
      (b.finish count).1 = (b.dueAll b.pendingIndexes).1 := by
  obtain ⟨hdue, hopen⟩ := append_eq_nil_iff.mp h
  have hstack := map_eq_nil_iff.mp hopen
  refine ⟨hdue, hstack, ?_⟩
  show _ ++ _ = _
  rw [hstack, flatMap_nil, append_nil]

theorem exists_after (indexes : List Int) (next : Int) :
    ∃ last, next ≤ last ∧ ∀ k ∈ indexes, k < last := by
  induction indexes with
  | nil => exact ⟨next, by omega, by simp⟩
  | cons index rest ih =>
    obtain ⟨last, hnext, hrest⟩ := ih
    refine ⟨max last (index + 1), by omega, forall_mem_cons.mpr ⟨by omega, fun k hk => ?_⟩⟩
    have := hrest k hk
    omega

/-- What is still pending at the end covers the rest of the body. -/
theorem pendingPassages_tiles {passages : List Passage} {size : Nat}
    (h : Passage.Tiles passages index size) (hkeyed : b.pending.Keyed)
    (hnothing : b.NothingBefore index) :
    ∃ last, Passage.Tiles (passages ++ b.duePassages size b.pendingIndexes) last
      (size + (b.dueAll b.pendingIndexes).1.length) := by
  obtain ⟨last, hnext, hlast⟩ := exists_after b.pendingIndexes index
  exact ⟨last, dueAllPassages_tiles last b h (pendingIndexes_increasing hkeyed)
    (fun k hk => ⟨hnothing.pendingIndexes k hk, hlast k hk⟩) hnext⟩

end Blocks

/-! ### Closed branches -/

/-- A branch without an else part is opened at one place of a body and closed at another. -/
def BranchAt (body : List Statement) (opened closed : Nat) : Prop :=
  ∃ condition front inner back,
    body = front ++ BlockKind.branch.opening condition :: (inner ++ .closing :: back) ∧
      Nested inner ∧ front.length = opened ∧ opened + 1 + inner.length = closed

/-- A branch with an else part is opened, divided and closed at places of a body. -/
def DividedAt (body : List Statement) (opened divided closed : Nat) : Prop :=
  ∃ condition front yes no back, body = front ++ BlockKind.branch.opening condition ::
      (yes ++ .dividing :: (no ++ .closing :: back)) ∧
      Nested yes ∧ Nested no ∧ front.length = opened ∧ opened + 1 + yes.length = divided ∧
      divided + 1 + no.length = closed

theorem BranchAt.append {body : List Statement} {opened closed : Nat}
    (h : BranchAt body opened closed) (more : List Statement) :
    BranchAt (body ++ more) opened closed := by
  obtain ⟨condition, front, inner, back, rfl, hinner⟩ := h
  exact ⟨condition, front, inner, back ++ more, by simp, hinner⟩

theorem DividedAt.append {body : List Statement} {opened divided closed : Nat}
    (h : DividedAt body opened divided closed) (more : List Statement) :
    DividedAt (body ++ more) opened divided closed := by
  obtain ⟨condition, front, yes, no, back, rfl, hinner⟩ := h
  exact ⟨condition, front, yes, no, back ++ more, by simp, hinner⟩

/-- Where the branches of a code are to end: at the target of the jump behind the compare, or
where an else part moves the end to. -/
structure Aims where
  target : Int → Int
  moved : Int → Int → Prop

namespace Aims

open Passage

variable {a : Aims} {passages more : List Passage}

/-- An open branch with a mark is opened by its instruction, is divided at its target, and is to
end where it should. -/
structure Sits (a : Aims) (passages : List Passage) (block : Block) (mark : Mark) : Prop where
  opened : Holds passages false block.openedAt mark.opened
  whole : block.hasElse = false → block.endIndex = some (a.target block.openedAt)
  parted : block.hasElse = true → ∃ last, a.moved block.openedAt last ∧ block.endIndex = some last
  divided : ∀ place, mark.divided = some place → Holds passages true (a.target block.openedAt) place

/-- A closed branch is opened by its instruction, and is divided and closed at the right indexes. -/
structure Ended (a : Aims) (passages : List Passage) (body : List Statement) (block : Block) :
    Prop where
  whole : block.hasElse = false → ∃ opened closed, Holds passages false block.openedAt opened ∧
    BranchAt body opened closed ∧ Holds passages true (a.target block.openedAt) closed
  parted : block.hasElse = true → ∃ last opened divided closed, a.moved block.openedAt last ∧
    Holds passages false block.openedAt opened ∧ DividedAt body opened divided closed ∧
    Holds passages true (a.target block.openedAt) divided ∧ Holds passages true last closed

theorem Sits.append {block : Block} {mark : Mark} (h : a.Sits passages block mark)
    (more : List Passage) : a.Sits (passages ++ more) block mark :=
  ⟨h.opened.append_left more, h.whole, h.parted,
    fun place hplace => (h.divided place hplace).append_left more⟩

theorem Ended.append {body : List Statement} {block : Block} (h : a.Ended passages body block)
    (more : List Passage) (nodes : List Statement) :
    a.Ended (passages ++ more) (body ++ nodes) block := by
  refine ⟨fun helse => ?_, fun helse => ?_⟩
  · obtain ⟨opened, closed, hopened, hbranch, hclosed⟩ := h.whole helse
    exact ⟨opened, closed, hopened.append_left more, hbranch.append nodes, hclosed.append_left more⟩
  · obtain ⟨last, opened, divided, closed, hmoved, hopened, hbranch, hdivided, hclosed⟩ :=
      h.parted helse
    exact ⟨last, opened, divided, closed, hmoved, hopened.append_left more, hbranch.append nodes,
      hdivided.append_left more, hclosed.append_left more⟩

/-- A marker that is pending for a block is pending where the block is divided or closed. -/
structure Agrees (a : Aims) (block : Block) (index : Int) (role : MarkerRole) : Prop where
  closes : role = .closes → block.endIndex = some index
  divides : role = .divides → a.target block.openedAt = index

/-- The blocks, the body with its passages, and the branches that were closed go together. -/
structure Placed (a : Aims) (passages : List Passage) (past : List Block) (b : Blocks)
    (body : List Statement) : Prop where
  ids : b.stack.Pairwise fun inner outer => outer.id < inner.id
  fresh : ∀ block ∈ b.stack, block.id < b.nextId
  known : ∀ k, ∀ item ∈ (b.pending.get? k).getD [], item.1 < b.nextId
  agrees : ∀ k, ∀ item ∈ (b.pending.get? k).getD [], ∀ block ∈ b.stack, block.id = item.1 →
    a.Agrees block k item.2
  keyed : b.pending.Keyed
  seated : List.Forall₂ (fun block mark => block.kind = .branch → a.Sits passages block mark)
    b.stack (marks body)
  ended : ∀ block ∈ past, block.kind = .branch → a.Ended passages body block

/-- No block is lost, and one with an else part stays as it is. -/
def Kept (before after : List Block) : Prop :=
  ∀ block ∈ before, ∃ block' ∈ after, block'.openedAt = block.openedAt ∧
    block'.kind = block.kind ∧ (block.hasElse = true → block' = block)

theorem Kept.of_subset {before after : List Block} (h : before ⊆ after) : Kept before after :=
  fun block hblock => ⟨block, h hblock, rfl, rfl, fun _ => rfl⟩

theorem Kept.trans {xs ys zs : List Block} (h : Kept xs ys) (h' : Kept ys zs) : Kept xs zs := by
  intro block hblock
  obtain ⟨block₁, hmem₁, hopened₁, hkind₁, hsame₁⟩ := h block hblock
  obtain ⟨block₂, hmem₂, hopened₂, hkind₂, hsame₂⟩ := h' block₁ hmem₁
  refine ⟨block₂, hmem₂, hopened₂.trans hopened₁, hkind₂.trans hkind₁, fun helse => ?_⟩
  obtain rfl := hsame₁ helse
  exact hsame₂ helse

/-- From one state of the blocks and the body the next one is reached, and all is in place. -/
def Leads (a : Aims) (passages : List Passage) (past : List Block) (b : Blocks) (b' : Blocks)
    (body' : List Statement) : Prop :=
  ∃ past', a.Placed passages past' b' body' ∧ Kept (b.stack ++ past) (b'.stack ++ past')

theorem Leads.trans {past : List Block} {b b₁ b₂ : Blocks} {body₁ body₂ : List Statement}
    (h : a.Leads passages past b b₁ body₁)
    (h' : ∀ past₁, a.Placed passages past₁ b₁ body₁ → a.Leads passages past₁ b₁ b₂ body₂) :
    a.Leads passages past b b₂ body₂ := by
  obtain ⟨past₁, hplaced₁, hkept₁⟩ := h
  obtain ⟨past₂, hplaced₂, hkept₂⟩ := h' past₁ hplaced₁
  exact ⟨past₂, hplaced₂, hkept₁.trans hkept₂⟩

namespace Placed

variable {past : List Block} {b b' : Blocks} {body : List Statement} {index : Int}

section

variable (h : a.Placed passages past b body)

include h

theorem append (more : List Passage) : a.Placed (passages ++ more) past b body := by
  refine ⟨h.ids, h.fresh, h.known, h.agrees, h.keyed, ?_, fun block hblock hkind => ?_⟩
  · exact h.seated.imp fun block mark hsits hkind => (hsits hkind).append more
  · simpa using (h.ended block hblock hkind).append more []

/-- What nests is added to the body. -/
theorem say {nodes : List Statement} (hnodes : Nested nodes) :
    a.Placed passages past b (body ++ nodes) := by
  refine ⟨h.ids, h.fresh, h.known, h.agrees, h.keyed, ?_, fun block hblock hkind => ?_⟩
  · rw [marks_append, hnodes.marksFrom_eq]
    exact h.seated
  · simpa using (h.ended block hblock hkind).append [] nodes

/-- Only the stack, what is pending and the next number matter. -/
theorem congr (hstack : b'.stack = b.stack)
    (hpending : b'.pending = b.pending) (hnext : b'.nextId = b.nextId) :
    a.Placed passages past b' body := by
  obtain ⟨hids, hfresh, hknown, hagrees, hkeyed, hseated, hended⟩ := h
  rw [← hstack] at hids hfresh hagrees hseated
  rw [← hpending] at hknown hagrees hkeyed
  rw [← hnext] at hfresh hknown
  exact ⟨hids, hfresh, hknown, hagrees, hkeyed, hseated, hended⟩

theorem leads_self : a.Leads passages past b b body :=
  ⟨past, h, .of_subset (List.Subset.refl _)⟩

/-- What is pending at an index is taken. -/
theorem erase (index : Int) :
    a.Placed passages past { b with pending := b.pending.erase index } body := by
  have hless : ∀ k, ∀ item ∈ ((b.pending.erase index).get? k).getD [],
      item ∈ (b.pending.get? k).getD [] := by
    intro k item hitem
    rw [Table.get?_erase] at hitem
    split at hitem
    · simp at hitem
    · exact hitem
  exact ⟨h.ids, h.fresh, fun k item hitem => h.known k item (hless k item hitem),
    fun k item hitem => h.agrees k item (hless k item hitem), h.keyed.erase index, h.seated,
    h.ended⟩

end

/-! ### Opening, dividing and closing -/

variable {outer : List Block} {inner : Block} {target : Int} {top : Block}

section

variable (h : a.Placed passages past b body)

include h

/-- The innermost block is closed.  If it is a branch, this is where it ends. -/
theorem close (hcalm : b.Calm body) (hstack : b.stack = top :: outer) (htop : top.kind = .branch →
      top.endIndex = some index ∧ Holds passages true index body.length) :
    a.Placed passages (top :: past) { b with stack := outer } (body ++ [.closing]) := by
  have hseated := h.seated
  have hbody := hcalm.unfinished
  rw [hstack] at hseated hbody
  obtain ⟨mark, rest, hsits, hrest, hmarks⟩ := forall₂_cons_left_iff.mp hseated
  refine ⟨?_, ?_, h.known, ?_, h.keyed, ?_, ?_⟩
  · exact (pairwise_cons.mp (hstack ▸ h.ids)).2
  · intro block hblock
    exact h.fresh block (hstack ▸ mem_cons_of_mem _ hblock)
  · intro k item hitem block hblock
    exact h.agrees k item hitem block (hstack ▸ mem_cons_of_mem _ hblock)
  · rw [marks_append, hmarks]
    exact hrest
  · intro block hblock hkind
    rcases mem_cons.mp hblock with rfl | hold
    · obtain ⟨hend, hplace⟩ := htop hkind
      have hsits := hsits hkind
      rw [map_cons, Block.part, hkind] at hbody
      refine ⟨fun helse => ?_, fun helse => ?_⟩
      · rw [helse] at hbody
        obtain ⟨condition, front, inner, hsplit, hinner, hmark⟩ := hbody.of_opened
        obtain ⟨rfl, -⟩ := List.cons.inj (hmarks.symm.trans hmark)
        have htarget : a.target block.openedAt = index :=
          Option.some.inj ((hsits.whole helse).symm.trans hend)
        refine ⟨front.length, body.length, hsits.opened, ?_, htarget ▸ hplace⟩
        refine ⟨condition, front, inner, [], by simp [hsplit], hinner, rfl, ?_⟩
        rw [hsplit, length_append, length_cons]
        omega
      · rw [helse] at hbody
        obtain ⟨condition, front, yes, no, hsplit, hyes, hno, hmark⟩ := hbody.of_divided
        obtain ⟨rfl, -⟩ := List.cons.inj (hmarks.symm.trans hmark)
        obtain ⟨last, hmoved, hlast⟩ := hsits.parted helse
        obtain rfl : last = index := Option.some.inj (hlast.symm.trans hend)
        refine ⟨last, front.length, front.length + 1 + yes.length, body.length, hmoved,
          hsits.opened, ?_, hsits.divided _ rfl, hplace⟩
        refine ⟨condition, front, yes, no, [], by simp [hsplit], hyes, hno, rfl, rfl, ?_⟩
        rw [hsplit, length_append, length_cons, length_append, length_cons]
        omega
    · simpa using (h.ended block hold hkind).append [] [.closing]

theorem leads_close (hcalm : b.Calm body) (hstack : b.stack = top :: outer)
    (htop : top.kind = .branch →
      top.endIndex = some index ∧ Holds passages true index body.length) :
    a.Leads passages past b { b with stack := outer } (body ++ [.closing]) := by
  refine ⟨top :: past, h.close hcalm hstack htop, .of_subset fun block hblock => ?_⟩
  rw [hstack] at hblock
  simp only [cons_append, mem_cons, mem_append] at hblock ⊢
  rcases hblock with rfl | houter | hpast
  · exact .inr (.inl rfl)
  · exact .inl houter
  · exact .inr (.inr hpast)

/-- The innermost block is divided at its target. -/
theorem divide (hstack : b.stack = top :: outer)
    (hplace : Holds passages true (a.target top.openedAt) body.length) :
    a.Placed passages past b (body ++ [.dividing]) := by
  refine ⟨h.ids, h.fresh, h.known, h.agrees, h.keyed, ?_, fun block hblock hkind => ?_⟩
  · have hseated := h.seated
    rw [hstack] at hseated
    obtain ⟨mark, rest, hsits, hrest, hmarks⟩ := forall₂_cons_left_iff.mp hseated
    rw [marks_append, hmarks, hstack]
    refine .cons (fun hkind => ?_) hrest
    obtain ⟨hopened, hwhole, hparted, -⟩ := hsits hkind
    refine ⟨hopened, hwhole, hparted, fun place heq => ?_⟩
    obtain rfl : body.length = place := Option.some.inj heq
    exact hplace
  · simpa using (h.ended block hblock hkind).append [] [.dividing]

variable (kind : BlockKind) (condition : String) (endIndex : Option Int)

/-- A block is opened, and nothing is pending for it. -/
theorem push (hsits : kind = .branch → a.Sits passages ⟨b.nextId, kind, index, endIndex, false⟩
      ⟨body.length, none⟩) :
    a.Placed passages past (b.push kind index endIndex) (body ++ [kind.opening condition]) := by
  refine ⟨?_, ?_, fun k item hitem => ?_, ?_, h.keyed, ?_, fun block hblock hkind => ?_⟩
  · exact pairwise_cons.mpr ⟨h.fresh, h.ids⟩
  · refine forall_mem_cons.mpr ⟨Nat.lt_succ_self _, fun block hblock => ?_⟩
    exact Nat.lt_succ_of_lt (h.fresh block hblock)
  · exact Nat.lt_succ_of_lt (h.known k item hitem)
  · intro k item hitem block hblock hid
    rcases mem_cons.mp hblock with rfl | hold
    · exact absurd hid (Nat.ne_of_gt (h.known k item hitem))
    · exact h.agrees k item hitem block hold hid
  · rw [marks_append, marksFrom, mark_opening]
    exact .cons hsits h.seated
  · simpa using (h.ended block hblock hkind).append [] [kind.opening condition]

theorem leads_push
    (hsits : kind = .branch → a.Sits passages ⟨b.nextId, kind, index, endIndex, false⟩
      ⟨body.length, none⟩) :
    a.Leads passages past b (b.push kind index endIndex) (body ++ [kind.opening condition]) :=
  ⟨past, h.push kind condition endIndex hsits,
    .of_subset (subset_cons_self _ (b.stack ++ past))⟩

/-- A marker is scheduled for the blocks with a number that agree. -/
theorem schedule {item : Nat × MarkerRole} (hknown : item.1 < b.nextId)
    (hagrees : ∀ block ∈ b.stack, block.id = item.1 → a.Agrees block index item.2) :
    a.Placed passages past (b.schedule index item) body := by
  have hcases : ∀ k, ∀ item' ∈ ((b.schedule index item).pending.get? k).getD [],
      item' ∈ (b.pending.get? k).getD [] ∨ index = k ∧ item' = item := by
    intro k item' hitem
    rw [Blocks.schedule, Table.get?_insert] at hitem
    split at hitem
    · rename_i hk
      rw [Option.getD_some, mem_append, mem_singleton, hk] at hitem
      exact hitem.imp id fun hsame => ⟨hk, hsame⟩
    · exact .inl hitem
  refine ⟨h.ids, h.fresh, fun k item' hitem => ?_, fun k item' hitem block hblock hid => ?_,
    h.keyed.insert _ _, h.seated, h.ended⟩
  · rcases hcases k item' hitem with hold | ⟨-, rfl⟩
    · exact h.known k item' hold
    · exact hknown
  · rcases hcases k item' hitem with hold | ⟨rfl, rfl⟩
    · exact h.agrees k item' hold block hblock hid
    · exact hagrees block hblock hid

end

/-! ### What is due -/

theorem quiet_of_speaks {P : Int → Prop} {result : List Statement × Blocks}
    (h : b.Speaks P result) (hquiet : result.2.anomalies = []) : b.anomalies = [] := by
  obtain ⟨notes, hnotes, -⟩ := h
  rw [hnotes] at hquiet
  exact (append_eq_nil_iff.mp hquiet).1

/-- A block that is closed without a note is the innermost one. -/
theorem top_of_close {id : Nat} (hopen : b.isOpen id = true)
    (hquiet : (b.close id index).2.anomalies = []) :
    ∃ top outer, b.stack = top :: outer ∧ top.id = id := by
  have hinner : b.stack.takeWhile (·.id != id) = [] :=
    map_eq_nil_iff.mp (append_eq_nil_iff.mp hquiet).2
  cases hstack : b.stack with
  | nil => simp [isOpen, hstack] at hopen
  | cons top outer =>
    refine ⟨top, outer, rfl, ?_⟩
    rw [hstack] at hinner
    by_cases hid : top.id = id
    · exact hid
    · simp [hid] at hinner

/-- Closings are carried out, each at the end of its block. -/
theorem leads_settleAll : ∀ {items : List (Nat × MarkerRole)} {b : Blocks}
    {body : List Statement} {past : List Block}, a.Placed passages past b body → b.Calm body →
    (∀ item ∈ items, item.2 = .closes) →
    (∀ item ∈ items, ∀ block ∈ b.stack, block.id = item.1 → a.Agrees block index item.2) →
    (b.settleAll index items).2.anomalies = [] →
    (∀ place, body.length ≤ place → place < body.length + (b.settleAll index items).1.length →
      Holds passages true index place) →
    a.Leads passages past b (b.settleAll index items).2 (body ++ (b.settleAll index items).1) := by
  intro items
  induction items with
  | nil =>
    intro b body past h _ _ _ _ _
    simpa [settleAll] using h.leads_self
  | cons item rest ih =>
    intro b body past h hcalm hcloses hagrees hquiet hplaces
    obtain ⟨hclose, hcloseRest⟩ := forall_mem_cons.mp hcloses
    obtain ⟨hagree, hagreeRest⟩ := forall_mem_cons.mp hagrees
    by_cases hopen : b.isOpen item.1 = true
    · have hfirst : (b.settle index item).2.anomalies = [] :=
        quiet_of_speaks (settleAll_speaks (P := fun _ => True) trivial rest _) hquiet
      rw [settle, if_pos hopen, if_neg (by simp [hclose])] at hfirst
      obtain ⟨top, outer, hstack, hid⟩ := top_of_close hopen hfirst
      obtain rfl : item = (top.id, .closes) := Prod.ext hid.symm hclose
      have hsettle := settleAll_cons (settle_close_top hstack index) rest
      rw [hsettle] at hquiet hplaces ⊢
      have hnext := settle_calm hcalm hclose index
      rw [settle_close_top hstack] at hnext
      have hend : top.endIndex = some index :=
        (hagree top (hstack ▸ mem_cons_self) rfl).closes rfl
      have hhere : Holds passages true index body.length := by
        refine hplaces _ (Nat.le_refl _) ?_
        simp only [length_append, length_cons]
        omega
      refine (h.leads_close hcalm hstack fun _ => ⟨hend, hhere⟩).trans fun past₁ h₁ => ?_
      rw [← append_assoc]
      refine ih h₁ hnext hcloseRest ?_ hquiet fun place hge hlt => hplaces place ?_ ?_
      · intro item hitem block hblock
        exact hagreeRest item hitem block (hstack ▸ mem_cons_of_mem _ hblock)
      · simp only [length_append, length_cons] at hge
        omega
      · simp only [length_append, length_cons, length_nil] at hlt ⊢
        omega
    · rw [settleAll_closed hopen] at hquiet hplaces ⊢
      exact ih h hcalm hcloseRest hagreeRest hquiet hplaces

/-- Loops are opened. -/
theorem leads_openLoops (index : Int) : ∀ (count : Nat) {b : Blocks} {body : List Statement}
    {past : List Block}, a.Placed passages past b body →
    a.Leads passages past b (b.openLoops index count).2 (body ++ (b.openLoops index count).1) := by
  intro count
  induction count with
  | zero =>
    intro b body past h
    simpa [openLoops] using h.leads_self
  | succ count ih =>
    intro b body past h
    have hopen : a.Leads passages past b (b.push .loop index none)
        (body ++ [BlockKind.loop.opening "true"]) :=
      h.leads_push .loop "true" none fun hkind => by cases hkind
    refine hopen.trans fun past₁ h₁ => ?_
    have hrest := ih h₁
    rw [append_assoc] at hrest
    exact hrest

/-- The markers that are pending at an index are carried out. -/
theorem leads_settleDue (h : a.Placed passages past b body)
    (htied : b.Calm body ∨ b.Splits body index) (hquiet : (b.settleDue index).2.anomalies = [])
    (hplaces : ∀ place, body.length ≤ place →
      place < body.length + (b.settleDue index).1.length → Holds passages true index place) :
    a.Leads passages past b (b.settleDue index).2 (body ++ (b.settleDue index).1) := by
  have herase := h.erase index
  rcases htied with hcalm | hsplits
  · refine leads_settleAll herase ⟨erase_closes fun k _ => hcalm.closes k, hcalm.unfinished⟩
      (fun item hitem => ?_) (fun item hitem => ?_) hquiet hplaces
    · exact hcalm.closes index item (mem_mergeSort.mp hitem)
    · exact h.agrees index item (mem_mergeSort.mp hitem)
  · obtain ⟨top, outer, closings, hstack, hpart, hpending, hclosings, hbody⟩ := hsplits.split
    have htop : top ∈ b.stack := hstack ▸ mem_cons_self
    -- The branch is divided first, so afterwards the state is calm and only closings are left.
    have hitems := Blocks.Splits.dueItems_eq hpending hclosings
    have hsettle := settleAll_cons (settle_divide_top
      (b := { b with pending := b.pending.erase index }) hstack index) closings
    rw [settleDue, hitems, hsettle] at hquiet hplaces ⊢
    have hagrees : ∀ item ∈ (top.id, MarkerRole.divides) :: closings,
        item ∈ (b.pending.get? index).getD [] := by
      intro item hitem
      rw [hpending]
      exact hitem
    have htarget : a.target top.openedAt = index :=
      (h.agrees index _ (hagrees _ mem_cons_self) top htop rfl).divides rfl
    have hhere : Holds passages true index body.length := by
      refine hplaces _ (Nat.le_refl _) ?_
      simp only [length_append, length_cons]
      omega
    have hcalm : Blocks.Calm { b with pending := b.pending.erase index } (body ++ [.dividing]) := by
      refine ⟨erase_closes hsplits.closes, ?_⟩
      show Unfinished (b.stack.map Block.part) _
      rw [hstack, map_cons, hpart]
      exact hbody.divide
    have hdivide := herase.divide hstack (htarget ▸ hhere)
    rw [← append_assoc]
    refine leads_settleAll hdivide hcalm (fun item hitem => ?_) (fun item hitem => ?_) hquiet
      fun place hge hlt => hplaces place ?_ ?_
    · rw [hclosings item hitem]
    · exact h.agrees index item (hagrees item (mem_cons_of_mem _ hitem))
    · simp only [length_append, length_cons] at hge
      omega
    · simp only [length_append, length_cons, length_nil] at hlt ⊢
      omega

/-- Where the innermost block does not end, nothing that is pending comes out without a note. -/
theorem settleDue_silent (h : a.Placed passages past b body) (hcalm : b.Calm body)
    (hstack : b.stack = top :: outer) (hend : top.endIndex ≠ some index)
    (hquiet : (b.settleDue index).2.anomalies = []) : (b.settleDue index).1 = [] := by
  have hitems : ∀ item ∈ b.dueItems index, item ∈ (b.pending.get? index).getD [] :=
    fun item hitem => mem_mergeSort.mp hitem
  unfold settleDue at hquiet ⊢
  generalize b.dueItems index = items at hitems hquiet ⊢
  induction items with
  | nil => rfl
  | cons item rest ih =>
    obtain ⟨hitem, hrest⟩ := forall_mem_cons.mp hitems
    have hclose : item.2 = .closes := hcalm.closes index item hitem
    have hclosed : ¬isOpen { b with pending := b.pending.erase index } item.1 = true := by
      intro hopen
      have hfirst : (settle { b with pending := b.pending.erase index }
          index item).2.anomalies = [] :=
        quiet_of_speaks (settleAll_speaks (P := fun _ => True) trivial rest _) hquiet
      rw [settle, if_pos hopen, if_neg (by simp [hclose])] at hfirst
      obtain ⟨top', outer', hstack', hid⟩ := top_of_close hopen hfirst
      obtain ⟨rfl, -⟩ := List.cons.inj (hstack.symm.trans hstack')
      exact hend ((h.agrees index item hitem top (hstack ▸ mem_cons_self) hid).closes hclose)
    rw [settleAll_closed hclosed] at hquiet ⊢
    exact ih hrest hquiet

/-- Loops are opened without notes. -/
theorem settleDue_quiet (hquiet : (b.due index).2.anomalies = []) :
    (b.settleDue index).2.anomalies = [] :=
  quiet_of_speaks (openLoops_speaks (P := fun _ => True) index
    (((b.settleDue index).2.headers.get? index).getD 0)
    { (b.settleDue index).2 with headers := (b.settleDue index).2.headers.erase index }) hquiet

/-- What is due at an index comes out in its passages. -/
theorem leads_due (h : a.Placed passages past b body)
    (htied : b.Calm body ∨ b.Splits body index) (hquiet : (b.due index).2.anomalies = [])
    (hpassages : b.duePassages body.length [index] ⊆ passages) :
    a.Leads passages past b (b.due index).2 (body ++ (b.due index).1) := by
  have hsettle := h.leads_settleDue htied (settleDue_quiet hquiet) fun place hge hlt =>
    ⟨_, hpassages mem_cons_self, rfl, rfl, hge, hlt⟩
  refine hsettle.trans fun past₁ h₁ => ?_
  have hcleared : a.Placed passages past₁ { (b.settleDue index).2 with
      headers := (b.settleDue index).2.headers.erase index } (body ++ (b.settleDue index).1) :=
    h₁.congr rfl rfl rfl
  have hloops := leads_openLoops index (((b.settleDue index).2.headers.get? index).getD 0) hcleared
  rw [append_assoc] at hloops
  exact hloops

/-- What is due at indexes comes out in its passages. -/
theorem leads_dueAll : ∀ {indexes : List Int} {b : Blocks} {body : List Statement}
    {past : List Block}, a.Placed passages past b body → b.Calm body →
    (b.dueAll indexes).2.anomalies = [] → b.duePassages body.length indexes ⊆ passages →
    a.Leads passages past b (b.dueAll indexes).2 (body ++ (b.dueAll indexes).1) := by
  intro indexes
  induction indexes with
  | nil =>
    intro b body past h _ _ _
    simpa [dueAll] using h.leads_self
  | cons index rest ih =>
    intro b body past h hcalm hquiet hpassages
    rw [duePassages_cons] at hpassages
    obtain ⟨hfirst, hrest⟩ := append_subset.mp hpassages
    have hdue : (b.due index).2.anomalies = [] :=
      quiet_of_speaks (dueAll_speaks (P := fun _ => True) rest (fun _ _ => trivial) _) hquiet
    refine (h.leads_due (.inl hcalm) hdue hfirst).trans fun past₁ h₁ => ?_
    have hmore := ih h₁ (due_calm hcalm index) hquiet (by simpa using hrest)
    rw [append_assoc] at hmore
    exact hmore

/-- What is still pending at the end comes out in its passages. -/
theorem leads_dueAll_ready (h : a.Placed passages past b body) (hready : b.Ready body index)
    (hquiet : (b.dueAll b.pendingIndexes).2.anomalies = [])
    (hpassages : b.duePassages body.length b.pendingIndexes ⊆ passages) :
    a.Leads passages past b (b.dueAll b.pendingIndexes).2
      (body ++ (b.dueAll b.pendingIndexes).1) := by
  rcases hready.tied with hcalm | hsplits
  · exact h.leads_dueAll hcalm hquiet hpassages
  · obtain ⟨rest, hrest⟩ := hsplits.pendingIndexes_eq hready.nothing
    rw [hrest] at hquiet hpassages ⊢
    rw [duePassages_cons] at hpassages
    obtain ⟨hfirst, hlater⟩ := append_subset.mp hpassages
    have hdue : (b.due index).2.anomalies = [] :=
      quiet_of_speaks (dueAll_speaks (P := fun _ => True) rest (fun _ _ => trivial) _) hquiet
    refine (h.leads_due (.inr hsplits) hdue hfirst).trans fun past₁ h₁ => ?_
    have hmore := leads_dueAll h₁ (due_splits hsplits) hquiet (by simpa using hlater)
    rw [append_assoc] at hmore
    exact hmore

/-! ### Jumps -/

/-- A compare opens a block; a branch has its end where the jump goes. -/
theorem leads_openConditional (h : a.Placed passages past b body) {offset : Int}
    (htarget : 0 ≤ offset → a.target index = jumpTarget (index + 1) offset)
    (hplace : Holds passages false index body.length) (condition : String) :
    a.Leads passages past b (b.openConditional index offset condition).2
      (body ++ [(b.openConditional index offset condition).1]) := by
  unfold openConditional
  by_cases hoffset : offset < 0
  · rw [if_pos hoffset]
    exact h.leads_push .loop condition none fun hkind => by cases hkind
  · rw [if_neg hoffset]
    have htarget := htarget (by omega)
    have hopen : a.Leads passages past b
        (b.push .branch index (some (jumpTarget (index + 1) offset)))
        (body ++ [BlockKind.branch.opening condition]) :=
      h.leads_push .branch condition _ fun _ => ⟨hplace, fun _ => by rw [htarget],
        fun helse => by simp at helse, fun place hnone => by simp at hnone⟩
    obtain ⟨past₁, h₁, hkept⟩ := hopen
    refine ⟨past₁, h₁.schedule (Nat.lt_succ_self _) fun block hblock hid => ?_, hkept⟩
    -- Only the new block has the new number.
    rcases mem_cons.mp hblock with rfl | hold
    · exact ⟨fun _ => rfl, fun hrole => (by simp at hrole)⟩
    · exact absurd hid (Nat.ne_of_lt (h.fresh block hold))

theorem elseBranch?_endIndex (h : b.elseBranch? index target = some inner) :
    inner.endIndex = some (index + 1) := by
  unfold elseBranch? at h
  cases hstack : b.stack with
  | nil =>
    rw [hstack] at h
    cases h
  | cons top outer =>
    rw [hstack] at h
    simp only [Option.ite_none_right_eq_some, Option.some.injEq] at h
    obtain ⟨⟨-, -, hend, -⟩, rfl⟩ := h
    exact hend

section

variable (h : a.Placed passages past b body) (helse : b.elseBranch? index target = some inner)

include h helse

/-- The branch that a jump gives an else part ends behind the jump. -/
theorem target_of_elseBranch? : a.target inner.openedAt = index + 1 := by
  obtain ⟨outer, hstack, hkind, hno⟩ := elseBranch?_stack helse
  have hseated := h.seated
  rw [hstack] at hseated
  obtain ⟨mark, rest, hsits, -, -⟩ := forall₂_cons_left_iff.mp hseated
  exact Option.some.inj (((hsits hkind).whole hno).symm.trans (elseBranch?_endIndex helse))

/-- A branch gets an else part, which moves its end. -/
theorem addElse (hmoved : a.moved inner.openedAt target) :
    a.Placed passages past (b.addElse inner index target) body := by
  obtain ⟨outer, hstack, hkind, hno⟩ := elseBranch?_stack helse
  have hend := elseBranch?_endIndex helse
  have htarget := h.target_of_elseBranch? helse
  have hids := h.ids
  rw [hstack, pairwise_cons] at hids
  have hold : ∀ block ∈ b.stack.tail, block ∈ b.stack := fun _ => mem_of_mem_tail
  have hinner : inner.id < b.nextId := h.fresh inner (hstack ▸ mem_cons_self)
  -- No marker for the branch is left at another index than the next one.
  have hplaced : a.Placed passages past { b with
      stack := { inner with hasElse := true, endIndex := some target } :: b.stack.tail
      pending := b.pending.insert (index + 1) [(inner.id, .divides)] } body := by
    refine ⟨?_, ?_, fun k item hitem => ?_, fun k item hitem block hblock hid => ?_,
      h.keyed.insert _ _, ?_, h.ended⟩
    · rw [hstack]
      exact pairwise_cons.mpr hids
    · refine forall_mem_cons.mpr ⟨hinner, fun block hblock => h.fresh block (hold _ hblock)⟩
    · rw [Table.get?_insert] at hitem
      split at hitem
      · obtain rfl : item = (inner.id, .divides) := by simpa using hitem
        exact hinner
      · exact h.known k item hitem
    · rw [Table.get?_insert] at hitem
      split at hitem
      · rename_i hk
        obtain rfl : item = (inner.id, .divides) := by simpa using hitem
        rcases mem_cons.mp hblock with rfl | hmem
        · exact ⟨fun hrole => (by simp at hrole), fun _ => htarget.trans hk⟩
        · rw [hstack] at hmem
          exact absurd hid (Nat.ne_of_lt (hids.1 block hmem))
      · rename_i hk
        rcases mem_cons.mp hblock with rfl | hmem
        · have hagrees := h.agrees k item hitem inner (hstack ▸ mem_cons_self) hid
          refine ⟨fun hrole => absurd ?_ hk, fun hrole => absurd ?_ hk⟩
          · exact Option.some.inj (hend.symm.trans (hagrees.closes hrole))
          · exact htarget.symm.trans (hagrees.divides hrole)
        · exact h.agrees k item hitem block (hold _ hmem) hid
    · have hseated := h.seated
      rw [hstack] at hseated
      obtain ⟨mark, rest, hsits, hrest, hmarks⟩ := forall₂_cons_left_iff.mp hseated
      rw [hstack, hmarks]
      refine .cons (fun _ => ?_) hrest
      obtain ⟨hopened, -, -, hdivided⟩ := hsits hkind
      exact ⟨hopened, fun hfalse => by simp at hfalse, fun _ => ⟨target, hmoved, rfl⟩, hdivided⟩
  refine hplaced.schedule hinner fun block hblock hid => ?_
  rcases mem_cons.mp hblock with rfl | hmem
  · exact ⟨fun _ => rfl, fun hrole => (by simp at hrole)⟩
  · rw [hstack] at hmem
    exact absurd hid (Nat.ne_of_lt (hids.1 block hmem))

theorem leads_addElse (hmoved : a.moved inner.openedAt target) :
    a.Leads passages past b (b.addElse inner index target) body := by
  obtain ⟨outer, hstack, -, hno⟩ := elseBranch?_stack helse
  refine ⟨past, h.addElse helse hmoved, fun block hblock => ?_⟩
  rw [hstack] at hblock
  rcases mem_cons.mp hblock with rfl | hmem
  · refine ⟨{ block with hasElse := true, endIndex := some target }, mem_cons_self, rfl, rfl,
      fun hfalse => ?_⟩
    rw [hno] at hfalse
    cases hfalse
  · refine ⟨block, mem_cons_of_mem _ ?_, rfl, rfl, fun _ => rfl⟩
    rw [hstack]
    exact hmem

end

/-- The innermost loop, if it is closed without a note, is the innermost block. -/
theorem top_of_closeLoop (h : a.Placed passages past b body) {loop : Block}
    (hloop : b.innermostLoop? = some loop) (hquiet : (b.close loop.id index).2.anomalies = []) :
    ∃ outer, b.stack = loop :: outer ∧ loop.kind = .loop := by
  have hmem : loop ∈ b.stack := mem_of_find?_eq_some hloop
  have hkind : loop.kind = .loop := by simpa using find?_some hloop
  have hopen : b.isOpen loop.id = true := any_eq_true.mpr ⟨loop, hmem, by simp⟩
  obtain ⟨top, outer, hstack, hid⟩ := top_of_close hopen hquiet
  refine ⟨outer, ?_, hkind⟩
  have hids := h.ids
  rw [hstack] at hmem hids
  rcases mem_cons.mp hmem with rfl | houter
  · exact hstack
  · exact absurd hid.symm (Nat.ne_of_lt ((pairwise_cons.mp hids).1 loop houter))

/-- A jump closes a loop, gives a branch an else part, or changes no block. -/
theorem leads_jump (h : a.Placed passages past b body) (hcalm : b.Calm body) {offset : Int}
    (hquiet : (b.jump index offset).2.anomalies = [])
    (hmoved : ∀ inner, b.closers.contains index = false → 0 ≤ offset →
      b.elseBranch? index (jumpTarget index offset) = some inner →
      a.moved inner.openedAt (jumpTarget index offset)) :
    a.Leads passages past b (b.jump index offset).2 (body ++ (b.jump index offset).1) := by
  have hremark : Nested [gotoRemark (jumpTarget index offset)] := nested_remark _
  unfold jump at hquiet ⊢
  by_cases hcloser : b.closers.contains index = true
  · rw [if_pos hcloser] at hquiet ⊢
    cases hloop : b.innermostLoop? with
    | none =>
      rw [hloop] at hquiet
      exact absurd hquiet (by simp [note])
    | some loop =>
      rw [hloop] at hquiet
      obtain ⟨outer, hstack, hkind⟩ := h.top_of_closeLoop hloop hquiet
      dsimp only
      rw [close_top hstack]
      have hloop : loop.kind = .branch →
          loop.endIndex = some index ∧ Holds passages true index body.length := by
        simp [hkind]
      exact h.leads_close hcalm hstack hloop
  · rw [if_neg hcloser] at hquiet ⊢
    by_cases hoffset : offset < 0
    · rw [if_pos hoffset]
      exact (h.say hremark).leads_self
    · rw [if_neg hoffset]
      cases helse : b.elseBranch? index (jumpTarget index offset) with
      | none => simpa using h.leads_self
      | some inner =>
        have hlast := hmoved inner (by simpa using hcloser) (by omega) helse
        simpa using h.leads_addElse helse hlast

end Placed

end Aims

end LuaRecovery

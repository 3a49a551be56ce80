/-
Walking the code of structured programs.

The code of a structured program is walked from its first instruction to its last, and the
statements that come out are those of the program, `recovers_all`.  The proof goes along the
program: the pieces of a shape are put together as the shape is, so that a block is opened,
its body is walked, and the block is closed again.  Before a part of the program is walked,
the blocks know the loops of that part, `Marks`, and no open block ends inside it; after it
the same blocks are open as before, `Passed`.
-/
import LuaRecovery.Proofs.Pieces

namespace LuaRecovery

open List

open Shape Blocks

namespace Blocks

variable {b b' : Blocks} {xs ys : List Span} {first mid last k : Int}

/-! ### The loops ahead -/

/-- The loops between two indexes are known: how many start at each index, and which indexes
close one. -/
structure Marks (b : Blocks) (spans : List Span) (first last : Int) : Prop where
  headers : ∀ k, first ≤ k → k < last →
    (b.headers.get? k).getD 0 = spans.countP fun span => span.head == some k
  closers : ∀ k, first ≤ k → k < last → (k ∈ b.closers ↔ ∃ span ∈ spans, span.tail = k)

/-- No loop starts at an index outside of the code it lies in. -/
theorem countP_outside (h : ∀ span ∈ xs, span.Within first last) (hk : k < first ∨ last ≤ k) :
    (xs.countP fun span => span.head == some k) = 0 := by
  rw [countP_eq_zero]
  intro span hspan
  have := (h span hspan).2.2 k
  simp only [beq_iff_eq]
  intro hhead
  have := this hhead
  omega

theorem tail_outside (h : ∀ span ∈ xs, span.Within first last) (hk : k < first ∨ last ≤ k) :
    ¬ ∃ span ∈ xs, span.tail = k := by
  rintro ⟨span, hspan, rfl⟩
  have := h span hspan
  unfold Span.Within at this
  omega

/-- The loops of the first of two parts. -/
theorem Marks.left (h : Marks b (xs ++ ys) first last) (hys : ∀ span ∈ ys, span.Within mid last)
    (hmid : mid ≤ last) : Marks b xs first mid := by
  refine ⟨fun k hfirst hk => ?_, fun k hfirst hk => ?_⟩
  · rw [h.headers k hfirst (by omega), countP_append, countP_outside hys (by omega), Nat.add_zero]
  · have hnot := tail_outside hys (k := k) (by omega)
    rw [h.closers k hfirst (by omega)]
    simp only [mem_append, or_and_right, exists_or, hnot, or_false]

/-- The loops of the second of two parts. -/
theorem Marks.right (h : Marks b (xs ++ ys) first last)
    (hxs : ∀ span ∈ xs, span.Within first mid) (hmid : first ≤ mid) : Marks b ys mid last := by
  refine ⟨fun k hk hlast => ?_, fun k hk hlast => ?_⟩
  · rw [h.headers k (by omega) hlast, countP_append, countP_outside hxs (by omega), Nat.zero_add]
  · have hnot := tail_outside hxs (k := k) (by omega)
    rw [h.closers k (by omega) hlast]
    simp only [mem_append, or_and_right, exists_or, hnot, false_or]

theorem Marks.mono {first' last' : Int} (h : Marks b xs first last) (hfirst : first ≤ first')
    (hlast : last' ≤ last) : Marks b xs first' last' :=
  ⟨fun k h₁ h₂ => h.headers k (by omega) (by omega),
    fun k h₁ h₂ => h.closers k (by omega) (by omega)⟩

/-- Between two parts no loop starts and none is closed. -/
theorem Marks.between (h : Marks b (xs ++ ys) first last) (hxs : ∀ span ∈ xs, span.Within first k)
    (hys : ∀ span ∈ ys, span.Within (k + 1) last) (hfirst : first ≤ k) (hlast : k < last) :
    (b.headers.get? k).getD 0 = 0 ∧ k ∉ b.closers := by
  refine ⟨?_, ?_⟩
  · rw [h.headers k hfirst hlast, countP_append, countP_outside hxs (by omega),
      countP_outside hys (by omega)]
  · rw [h.closers k hfirst hlast]
    rintro ⟨span, hspan, htail⟩
    rcases mem_append.mp hspan with hspan | hspan
    · exact tail_outside hxs (by omega) ⟨span, hspan, htail⟩
    · exact tail_outside hys (by omega) ⟨span, hspan, htail⟩

/-- The loops from an index on are the same for two states. -/
structure SameAhead (b b' : Blocks) (index : Int) : Prop where
  closers : b'.closers = b.closers
  headers : ∀ k, index ≤ k → (b'.headers.get? k).getD 0 = (b.headers.get? k).getD 0

theorem SameAhead.trans {b'' : Blocks} (h₁ : SameAhead b b' first) (h₂ : SameAhead b' b'' last)
    (h : first ≤ last) : SameAhead b b'' last := by
  refine ⟨h₂.closers.trans h₁.closers, fun k hk => ?_⟩
  rw [h₂.headers k hk, h₁.headers k (by omega)]

theorem Marks.ahead (h : Marks b xs first last) (hsame : SameAhead b b' first) :
    Marks b' xs first last := by
  refine ⟨fun k hfirst hk => ?_, fun k hfirst hk => ?_⟩
  · rw [hsame.headers k hfirst, h.headers k hfirst hk]
  · rw [hsame.closers, h.closers k hfirst hk]

/-- Nothing is lost by passing an index at which no loop starts. -/
theorem sameAhead_pass (h : (b.headers.get? k).getD 0 = 0) (first : Int) :
    SameAhead b (b.pass k) first := by
  refine ⟨rfl, fun j _ => ?_⟩
  by_cases hj : k = j
  · subst hj
    simp [pass, h]
  · simp [pass, hj]

/-! ### Before and after a part of the code -/

/-- The blocks before a part of the code: its loops are known, and no open block ends inside
it. -/
structure Before (b : Blocks) (spans : List Span) (first last : Int) : Prop where
  tidy : Tidy b
  marks : Marks b spans first last
  ends : ∀ block ∈ b.stack, ∀ e, block.endIndex = some e → last ≤ e

/-- The blocks after a part of the code: those of a stack are open, and the loops after it are
still ahead. -/
structure Passed (b b' : Blocks) (stack : List Block) (last : Int) : Prop where
  tidy : Tidy b'
  stack : b'.stack = stack
  ahead : SameAhead b b' last

variable {inner outer : List Block}

theorem Passed.trans {b'' : Blocks} (h₁ : Passed b b' inner first) (h₂ : Passed b' b'' outer last)
    (h : first ≤ last) : Passed b b'' outer last :=
  ⟨h₂.tidy, h₂.stack, h₁.ahead.trans h₂.ahead h⟩

/-- Inside a part of the code nothing is pending for the blocks around it. -/
theorem Before.pending (h : Before b xs first last) (hk : k < last) :
    (b.pending.get? k).getD [] = [] := by
  rw [h.tidy.pending, closingsAt_eq_nil_of_lt hk h.ends]
  rfl

theorem Before.passed (h : Before b (xs ++ ys) first last) (hpassed : Passed b b' b.stack mid)
    (hxs : ∀ span ∈ xs, span.Within first mid) (hmid : first ≤ mid) : Before b' ys mid last := by
  refine ⟨hpassed.tidy, (h.marks.right hxs hmid).ahead hpassed.ahead, ?_⟩
  rw [hpassed.stack]
  exact h.ends

theorem Before.left (h : Before b (xs ++ ys) first last) (hys : ∀ span ∈ ys, span.Within mid last)
    (hmid : mid ≤ last) : Before b xs first mid := by
  refine ⟨h.tidy, h.marks.left hys hmid, fun block hblock e he => ?_⟩
  have := h.ends block hblock e he
  omega

/-- The blocks before the body of a block that was opened. -/
theorem Before.inside {block : Block} {first' last' : Int} (h : Before b xs first last)
    (hpassed : Passed b b' (block :: b.stack) first') (hmarks : Marks b ys first' last')
    (hlast : last' ≤ last) (hend : ∀ e, block.endIndex = some e → last' ≤ e) :
    Before b' ys first' last' := by
  refine ⟨hpassed.tidy, hmarks.ahead hpassed.ahead, ?_⟩
  rw [hpassed.stack]
  intro inner hinner e he
  rcases mem_cons.mp hinner with rfl | hinner
  · exact hend e he
  · have := h.ends inner hinner e he
    omega

end Blocks

namespace Walking

variable {children : List Child} {code : List Instruction}

/-! ### Programs -/

variable {index : Nat} {body : List Shape} {rest : List Instruction} {outer : List Block} {w : Walk}
  {i : Instruction} {block : Block}

theorem getElem?_of_drop (h : code.drop index = i :: rest) : code[index]? = some i := by
  rw [← head?_drop, h]
  rfl

theorem drop_of_drop_cons (h : code.drop index = i :: rest) : code.drop (index + 1) = rest := by
  rw [← drop_drop, h]
  rfl

theorem drop_of_drop_append {xs ys : List Instruction} (h : code.drop index = xs ++ ys) :
    code.drop (index + xs.length) = ys := by
  rw [← drop_drop, h, drop_left]

/-- From an index the walk writes statements and comes to a later index, where the blocks of a
stack are open. -/
def Comes (children : List Child) (w : Walk) (index : Nat) (nodes : List Statement) (index' : Nat)
    (stack : List Block) : Prop :=
  ∃ w', Leads children w index nodes w' index' ∧ w.frame.blocks.Passed w'.frame.blocks stack index'

theorem Comes.cast {nodes nodes' : List Statement} {n n' : Nat}
    (h : Comes children w index nodes n outer) (hnodes : nodes' = nodes) (hn : n' = n) :
    Comes children w index nodes' n' outer := by
  rw [hnodes, hn]
  exact h

/-- The code of a program, wherever it stands before other code, is walked to its end, and
its statements come out. -/
def Recovers (children : List Child) (code : List Instruction) (shapes : List Shape) : Prop :=
  ∀ (w : Walk) (index : Nat) (first : Int) (rest : List Instruction), first = index →
    Steady code w → code.drop index = codeAll shapes ++ rest → rest ≠ [] →
    w.frame.blocks.Before (loopsAll first shapes) first (first + (codeAll shapes).length) →
    Comes children w index (nodesAll shapes) (index + (codeAll shapes).length) w.frame.blocks.stack

theorem recovers_nil : Recovers children code [] := by
  intro w index first rest _ hw _ _ hb
  exact ⟨w, .refl children index hw.unlimited, hb.tidy, rfl, rfl, fun _ _ => rfl⟩

theorem recovers_cons {s : Shape} {shapes : List Shape} (hs : Recovers children code [s])
    (hshapes : Recovers children code shapes) : Recovers children code (s :: shapes) := by
  intro w index first rest hfirst hw hcode hrest hb
  have hcodeAll : codeAll (s :: shapes) = codeAll [s] ++ codeAll shapes := by simp [codeAll]
  have hnodesAll : nodesAll (s :: shapes) = nodesAll [s] ++ nodesAll shapes := by simp [nodesAll]
  have hloopsAll : loopsAll first (s :: shapes) =
      loopsAll first [s] ++ loopsAll (first + (codeAll [s]).length) shapes := by
    simp [loopsAll, codeAll]
  rw [hcodeAll, append_assoc] at hcode
  rw [hcodeAll, hloopsAll, length_append, Int.natCast_add, ← Int.add_assoc] at hb
  obtain ⟨w₁, hleads₁, hpassed₁⟩ := hs w index first _ hfirst hw hcode (by simp [hrest])
    (hb.left (within_loopsAll shapes _) (by omega))
  obtain ⟨w₂, hleads₂, hpassed₂⟩ := hshapes w₁ (index + (codeAll [s]).length) _ rest
    (by omega) (hleads₁.steady hw) (drop_of_drop_append hcode) hrest
    (hb.passed (by subst hfirst; exact hpassed₁) (within_loopsAll [s] first) (by omega))
  rw [hpassed₁.stack] at hpassed₂
  refine Comes.cast ⟨w₂, hleads₁.trans hleads₂, hpassed₁.trans hpassed₂ (by omega)⟩ hnodesAll ?_
  rw [hcodeAll, length_append, Nat.add_assoc]

theorem recovers_assign : Recovers children code [.assign] := by
  intro w index first rest hfirst hw hcode hrest hb
  subst hfirst
  have hlast : (index : Int) < index + (codeAll [.assign]).length := by
    simp only [codeAll, Shape.code, append_nil, length_singleton]
    omega
  have hheaders := hb.marks.headers index (Int.le_refl _) hlast
  obtain ⟨w', hleads, hblocks⟩ := leads_storeY hw (hb.pending hlast) hheaders children
    (getElem?_of_drop hcode) hb.tidy.quiet
  refine ⟨w', hleads, ?_⟩
  rw [hblocks]
  exact ⟨hb.tidy.pass (hb.pending hlast), rfl, Blocks.sameAhead_pass hheaders _⟩

/-- A compare and its jump open a block that ends after them, where no loop starts. -/
theorem leads_open {opcode : Opcode} {rel : Relation} {offset last : Int} {node : Statement}
    {b : Blocks} {spans : List Span} (children : List Child) (hw : Steady code w)
    (hb : w.frame.blocks.Before spans index last) (hlast : index + 2 ≤ last)
    (hspans : ∀ span ∈ spans, span.Within (index + 2) last)
    (hi : code[index]? = some (Shape.test opcode))
    (hj : code[index + 1]? = some (Shape.jumpBy offset)) (hopcode : opcode.relation? = some rel)
    (hopen : (w.frame.blocks.pass index).openConditional index offset (conditionOf rel) = (node, b))
    (htidy : Tidy b) (hstack : b.stack = block :: w.frame.blocks.stack)
    (hend : ∀ e, block.endIndex = some e → index + 2 ≤ e)
    (hsame : (w.frame.blocks.pass index).SameAhead b (index + 1)) :
    Comes children w index [node] (index + 2) (block :: w.frame.blocks.stack) := by
  have hheaders : ∀ k : Int, index ≤ k → k < index + 2 →
      (w.frame.blocks.headers.get? k).getD 0 = 0 := by
    intro k h₁ h₂
    rw [hb.marks.headers k h₁ (by omega), Blocks.countP_outside hspans (by omega)]
  have hnext : (b.headers.get? (index + 1)).getD 0 = 0 := by
    rw [hsame.headers _ (Int.le_refl _),
      (Blocks.sameAhead_pass (hheaders index (by omega) (by omega)) (index + 1)).headers _
        (Int.le_refl _), hheaders _ (by omega) (by omega)]
  have hends : ∀ inner ∈ block :: w.frame.blocks.stack, ∀ e, inner.endIndex = some e →
      (index : Int) + 2 ≤ e := by
    intro inner hinner e he
    rcases mem_cons.mp hinner with rfl | hinner
    · exact hend e he
    · have := hb.ends inner hinner e he
      omega
  have hpending : (b.pending.get? (index + 1)).getD [] = [] := by
    rw [htidy.pending, hstack, closingsAt_eq_nil_of_lt (by omega) hends]
    rfl
  obtain ⟨w', hleads, hblocks⟩ := leads_test hw (hb.pending (by omega))
    (hheaders index (by omega) (by omega)) children hi hj hopcode hopen
    (Blocks.due_nothing_eq hpending hnext) htidy.quiet
  refine ⟨w', hleads, ?_⟩
  rw [hblocks]
  refine ⟨htidy.pass hpending, hstack, ?_⟩
  exact ((Blocks.sameAhead_pass (hheaders index (by omega) (by omega)) index).trans hsame
    (by omega)).trans (Blocks.sameAhead_pass hnext _) (by omega)

/-- A compare whose jump goes forward opens a branch. -/
theorem leads_openBranch {offset target last : Int} {spans : List Span} (children : List Child)
    (hw : Steady code w) (hb : w.frame.blocks.Before spans index last) (hlast : index + 2 ≤ last)
    (hspans : ∀ span ∈ spans, span.Within (index + 2) last)
    (hi : code[index]? = some (Shape.test .compareEq))
    (hj : code[index + 1]? = some (Shape.jumpBy offset)) (hoffset : 0 ≤ offset)
    (htarget : target = index + 2 + offset) :
    ∃ id, Comes children w index [BlockKind.branch.opening "x == 1"] (index + 2)
      (⟨id, .branch, index, some target, false⟩ :: w.frame.blocks.stack) := by
  have hpass := hb.tidy.pass (hb.pending (k := index) (by omega))
  have hjump : jumpTarget (index + 1) offset = target := by
    rw [jumpTarget, htarget]
    omega
  have hopen : (w.frame.blocks.pass index).openConditional index offset (conditionOf .eq) =
      (BlockKind.branch.opening "x == 1", (w.frame.blocks.pass index).openBranch index target) := by
    unfold openConditional
    rw [if_neg (by omega), hjump]
    rfl
  exact ⟨_, leads_open children hw hb hlast hspans hi hj rfl hopen (hpass.openBranch index target)
    rfl (by intro e he; cases he; omega) ⟨rfl, fun _ _ => rfl⟩⟩

/-- A branch is closed where it ends, before the instruction there. -/
theorem leads_close (children : List Child) (hw : Steady code w) (hi : code[index]? = some i)
    (htidy : Tidy w.frame.blocks) (hstack : w.frame.blocks.stack = block :: outer)
    (hend : block.endIndex = some (index : Int)) :
    Comes children w index [.closing] index outer :=
  ⟨_, leads_due children hw hi (htidy.due_close hstack hend), htidy.closeTop hstack hend, rfl,
    rfl, fun _ _ => rfl⟩

/-- In an open branch that ends after its body, the body is walked and the branch is closed. -/
theorem leads_arm {first : Int} (hbody : Recovers children code body) (hfirst : first = index)
    (hw : Steady code w) (hcode : code.drop index = codeAll body ++ rest) (hrest : rest ≠ [])
    (hb : w.frame.blocks.Before (loopsAll first body) first (first + (codeAll body).length))
    (hstack : w.frame.blocks.stack = block :: outer)
    (hend : block.endIndex = some (first + (codeAll body).length)) :
    Comes children w index (nodesAll body ++ [.closing]) (index + (codeAll body).length) outer := by
  obtain ⟨w₁, hleads₁, hpassed₁⟩ := hbody w index first rest hfirst hw hcode hrest hb
  obtain ⟨i, more, rfl⟩ := exists_cons_of_ne_nil hrest
  obtain ⟨w₂, hleads₂, hpassed₂⟩ := leads_close children (hleads₁.steady hw)
    (getElem?_of_drop (drop_of_drop_append hcode)) hpassed₁.tidy (hpassed₁.stack.trans hstack)
    (hend.trans (by rw [hfirst, Int.natCast_add]))
  exact ⟨w₂, hleads₁.trans hleads₂, hpassed₁.trans hpassed₂ (Int.le_refl _)⟩

theorem recovers_branch (hbody : Recovers children code body) :
    Recovers children code [.branch body] := by
  intro w index first rest hfirst hw hcode hrest hb
  subst hfirst
  have hcodeAll : codeAll [.branch body] =
      test .compareEq :: jumpBy (codeAll body).length :: codeAll body := by
    rw [codeAll_branch, codeAll, append_nil]
  have hloopsAll : loopsAll index [.branch body] = loopsAll (index + 2) body := by
    rw [loopsAll_branch, loopsAll, append_nil]
  have hnodesAll : nodesAll [.branch body] =
      [BlockKind.branch.opening "x == 1"] ++ (nodesAll body ++ [.closing]) := by
    simp only [nodesAll, nodes, append_nil, singleton_append]
  have hlength : ((index : Int) + (codeAll [.branch body]).length) =
      index + 2 + (codeAll body).length := by
    rw [hcodeAll, length_cons, length_cons]
    omega
  rw [hloopsAll, hlength] at hb
  rw [hcodeAll] at hcode
  have hwithin := within_loopsAll body (index + 2)
  have hcode₁ := drop_of_drop_cons hcode
  have hcode₂ : code.drop (index + 2) = codeAll body ++ rest := drop_of_drop_cons hcode₁
  obtain ⟨id, w₁, hleads₁, hpassed₁⟩ := leads_openBranch children hw hb (by omega) hwithin
    (getElem?_of_drop hcode) (getElem?_of_drop hcode₁) (by omega) rfl
  have hb₁ := hb.inside hpassed₁ (hb.marks.mono (by omega) (Int.le_refl _)) (Int.le_refl _)
    (by intro e he; cases he; omega)
  obtain ⟨w₂, hleads₂, hpassed₂⟩ := leads_arm hbody rfl (hleads₁.steady hw) hcode₂ hrest hb₁
    hpassed₁.stack rfl
  exact Comes.cast ⟨w₂, hleads₁.trans hleads₂, hpassed₁.trans hpassed₂ (by omega)⟩ hnodesAll
    (by omega)

/-- The jump at the end of the first part of a branch divides it before the next
instruction. -/
theorem leads_else {offset target : Int} {top : Block} (children : List Child) (hw : Steady code w)
    (hi : code[index]? = some (Shape.jumpBy offset)) (hnext : code[index + 1]? = some i)
    (htidy : Tidy w.frame.blocks) (hstack : w.frame.blocks.stack = top :: outer)
    (hkind : top.kind = .branch) (helse : top.hasElse = false)
    (hend : top.endIndex = some ((index : Int) + 1))
    (houter : ∀ block ∈ outer, ∀ e, block.endIndex = some e → target ≤ e)
    (htarget : target = index + 1 + offset) (hoffset : 0 < offset)
    (hheaders : (w.frame.blocks.headers.get? index).getD 0 = 0)
    (hcloser : (index : Int) ∉ w.frame.blocks.closers) :
    Comes children w index [.dividing] (index + 1)
      ({ top with hasElse := true, endIndex := some target } :: outer) := by
  have hpending : (w.frame.blocks.pending.get? index).getD [] = [] := by
    have hne : top.endIndex ≠ some (index : Int) := by
      rw [hend]
      simp only [ne_eq, Option.some.injEq]
      omega
    rw [htidy.pending, hstack, closingsAt_cons_ne hne, closingsAt_eq_nil_of_lt (by omega) houter]
    rfl
  have hpass := htidy.pass hpending
  have hjump := hpass.jump_else hstack hend (by omega) houter hkind helse hcloser
    (Int.le_of_lt hoffset) (by rw [jumpTarget, htarget])
  obtain ⟨w₁, hleads₁, hblocks₁⟩ := leads_jump hw hpending hheaders children hi hjump hpass.quiet
  have hdue : w₁.frame.blocks.DueAfter ((index + 1 : Nat) : Int) [.dividing]
      ((w.frame.blocks.pass index).divideTop top index target) := by
    rw [hblocks₁]
    exact due_addElse hstack (by omega)
  refine ⟨_, hleads₁.trans (leads_due children (hleads₁.steady hw) hnext hdue),
    hpass.divideTop hstack hend (by omega) houter, ?_, ?_⟩
  · show ({ top with hasElse := true, endIndex := some target } :: w.frame.blocks.stack.tail) = _
    rw [hstack]
    rfl
  · exact ⟨rfl, (sameAhead_pass hheaders _).headers⟩

theorem code_length_pos (s : Shape) : 0 < s.code.length := by
  cases s <;> simp [Shape.code]

theorem recovers_either {yes : List Shape} {no : Shape} {more : List Shape}
    (hyes : Recovers children code yes) (hno : Recovers children code (no :: more)) :
    Recovers children code [.either yes no more] := by
  intro w index first rest hfirst hw hcode hrest hb
  subst hfirst
  have hcodeAll : codeAll [.either yes no more] =
      test .compareEq :: jumpBy ((codeAll yes).length + 1) :: (codeAll yes ++
        jumpBy (codeAll (no :: more)).length :: codeAll (no :: more)) := by
    rw [codeAll_either, codeAll, append_nil]
  have hloopsAll : loopsAll index [.either yes no more] =
      loopsAll (index + 2) yes ++ loopsAll (index + 3 + (codeAll yes).length) (no :: more) := by
    rw [loopsAll_either, loopsAll, append_nil]
  have hnodesAll : nodesAll [.either yes no more] =
      [BlockKind.branch.opening "x == 1"] ++ (nodesAll yes ++ ([.dividing] ++
        (nodesAll (no :: more) ++ [.closing]))) := by
    simp only [nodesAll, nodes, append_nil, singleton_append, append_assoc]
  have hlength : (index : Int) + (codeAll [.either yes no more]).length =
      index + 3 + (codeAll yes).length + (codeAll (no :: more)).length := by
    rw [hcodeAll, length_cons, length_cons, length_append, length_cons]
    omega
  have hpos : 0 < (codeAll (no :: more)).length := by
    have := code_length_pos no
    rw [codeAll, length_append]
    omega
  rw [hloopsAll, hlength] at hb
  rw [hcodeAll] at hcode
  have hcode₁ := drop_of_drop_cons hcode
  have hcode₂ : code.drop (index + 2) = codeAll yes ++
      (jumpBy (codeAll (no :: more)).length :: (codeAll (no :: more) ++ rest)) := by
    simpa using drop_of_drop_cons hcode₁
  have hcode₃ := drop_of_drop_append hcode₂
  have hcode₄ := drop_of_drop_cons hcode₃
  have hinside := within_loopsAll yes (index + 2)
  have hafter := within_loopsAll (no :: more) (index + 3 + (codeAll yes).length)
  have hwithin : ∀ span ∈ loopsAll (index + 2) yes ++
      loopsAll (index + 3 + (codeAll yes).length) (no :: more), span.Within (index + 2)
        (index + 3 + (codeAll yes).length + (codeAll (no :: more)).length) := by
    intro span hspan
    rcases mem_append.mp hspan with hspan | hspan
    · exact (hinside span hspan).mono (by omega) (by omega)
    · exact (hafter span hspan).mono (by omega) (by omega)
  -- The first part, up to the jump over the second one.
  obtain ⟨id, w₁, hleads₁, hpassed₁⟩ := leads_openBranch children hw hb (by omega) hwithin
    (getElem?_of_drop hcode) (getElem?_of_drop hcode₁) (by omega) rfl
  have hmarks := (hb.marks.left (fun span hspan => (hafter span hspan).mono (by omega)
    (Int.le_refl _)) (by omega) : Marks _ _ _ (index + 2 + (codeAll yes).length))
  have hb₁ := hb.inside hpassed₁ (hmarks.mono (by omega) (Int.le_refl _)) (by omega)
    (by intro e he; cases he; omega)
  obtain ⟨w₂, hleads₂, hpassed₂⟩ := hyes w₁ (index + 2) (index + 2) _ (by omega)
    (hleads₁.steady hw) hcode₂ (by simp) hb₁
  have hsame₂ := hpassed₁.ahead.trans hpassed₂.ahead (by omega)
  obtain ⟨hheaders, hcloser⟩ := hb.marks.between (k := index + 2 + (codeAll yes).length)
    (fun span hspan => (hinside span hspan).mono (by omega) (Int.le_refl _))
    (fun span hspan => (hafter span hspan).mono (by omega) (Int.le_refl _)) (by omega) (by omega)
  rw [← hsame₂.headers (index + 2 + (codeAll yes).length) (by omega)] at hheaders
  rw [← hsame₂.closers] at hcloser
  obtain ⟨i, others, hnext⟩ := exists_cons_of_ne_nil
    (l := codeAll (no :: more) ++ rest) (by simp [hrest])
  obtain ⟨w₃, hleads₃, hpassed₃⟩ := leads_else children
    (hleads₂.steady (hleads₁.steady hw)) (getElem?_of_drop hcode₃)
    (getElem?_of_drop (hcode₄.trans hnext)) hpassed₂.tidy (hpassed₂.stack.trans hpassed₁.stack)
    rfl rfl (by simp only [Option.some.injEq]; omega) hb.ends (by omega) (by omega) hheaders hcloser
  -- The second part, up to the end of the branch.
  have hsteady₃ := hleads₃.steady (hleads₂.steady (hleads₁.steady hw))
  have hpassed : w.frame.blocks.Passed w₃.frame.blocks _ (index + 3 + (codeAll yes).length) :=
    ⟨hpassed₃.tidy, hpassed₃.stack, hsame₂.trans ⟨hpassed₃.ahead.closers,
      fun k hk => hpassed₃.ahead.headers k (by omega)⟩ (by omega)⟩
  have hb₃ := hb.inside hpassed (hb.marks.right (fun span hspan =>
    (hinside span hspan).mono (by omega) (by omega)) (by omega)) (Int.le_refl _)
    (by intro e he; cases he; omega)
  obtain ⟨w₄, hleads₄, hpassed₄⟩ := leads_arm hno (by omega) hsteady₃ hcode₄ hrest hb₃
    hpassed₃.stack rfl
  exact Comes.cast ⟨w₄, hleads₁.trans (hleads₂.trans (hleads₃.trans hleads₄)),
    hpassed.trans hpassed₄ (by omega)⟩ hnodesAll (by omega)

/-- In an open loop the body is walked, and the jump after it closes the loop. -/
theorem leads_loop {first offset : Int} (hbody : Recovers children code body)
    (hfirst : first = index) (hw : Steady code w)
    (hcode : code.drop index = codeAll body ++ jumpBy offset :: rest) (htidy : Tidy w.frame.blocks)
    (hstack : w.frame.blocks.stack = block :: outer) (hkind : block.kind = .loop)
    (hend : block.endIndex = none)
    (houter : ∀ inner ∈ outer, ∀ e, inner.endIndex = some e → first + (codeAll body).length + 1 ≤ e)
    (hmarks : Marks w.frame.blocks (loopsAll first body) first (first + (codeAll body).length))
    (hheaders : (w.frame.blocks.headers.get? (first + (codeAll body).length)).getD 0 = 0)
    (hcloser : first + (codeAll body).length ∈ w.frame.blocks.closers) :
    Comes children w index (nodesAll body ++ [.closing]) (index + (codeAll body).length + 1)
      outer := by
  have hends : ∀ inner ∈ w.frame.blocks.stack, ∀ e, inner.endIndex = some e →
      first + (codeAll body).length + 1 ≤ e := by
    rw [hstack]
    intro inner hinner e he
    rcases mem_cons.mp hinner with rfl | hinner
    · rw [hend] at he
      cases he
    · exact houter inner hinner e he
  have hb : w.frame.blocks.Before (loopsAll first body) first (first + (codeAll body).length) :=
    ⟨htidy, hmarks, fun inner hinner e he => by have := hends inner hinner e he; omega⟩
  obtain ⟨w₁, hleads₁, hpassed₁⟩ := hbody w index first _ hfirst hw hcode (by simp) hb
  have hplace : first + (codeAll body).length = ((index + (codeAll body).length : Nat) : Int) := by
    omega
  rw [hplace] at hheaders hcloser
  have hheaders₁ := hpassed₁.ahead.headers _ (Int.le_refl _)
  rw [hheaders] at hheaders₁
  have hpending : (w₁.frame.blocks.pending.get?
      ((index + (codeAll body).length : Nat) : Int)).getD [] = [] := by
    rw [hpassed₁.tidy.pending, hpassed₁.stack, closingsAt_eq_nil_of_lt (by omega) hends]
    rfl
  have hstack₁ := hpassed₁.stack.trans hstack
  have hpass := hpassed₁.tidy.pass hpending
  have hjump := jump_close (b := w₁.frame.blocks.pass ((index + (codeAll body).length : Nat) : Int))
    hstack₁ hkind (by rw [← hpassed₁.ahead.closers] at hcloser; exact hcloser) offset
  obtain ⟨w₂, hleads₂, hblocks₂⟩ := leads_jump (hleads₁.steady hw) hpending hheaders₁ children
    (getElem?_of_drop (drop_of_drop_append hcode)) hjump hpass.quiet
  refine ⟨w₂, hleads₁.trans hleads₂, ?_⟩
  rw [hblocks₂]
  refine ⟨hpass.popLoop hstack₁ hend, rfl, ?_⟩
  have hsame := hpassed₁.ahead.trans
    (sameAhead_pass hheaders₁ ((index + (codeAll body).length + 1 : Nat) : Int)) (by omega)
  exact ⟨hsame.closers, hsame.headers⟩

theorem recovers_whileLoop (hbody : Recovers children code body) :
    Recovers children code [.whileLoop body] := by
  intro w index first rest hfirst hw hcode hrest hb
  subst hfirst
  have hcodeAll : codeAll [.whileLoop body] = test .compareLt :: jumpBy (-1) ::
      (codeAll body ++ [jumpBy (-((codeAll body).length + 3))]) := by
    rw [codeAll_whileLoop, codeAll]
  have hloopsAll : loopsAll index [.whileLoop body] =
      loopsAll (index + 2) body ++ [⟨none, index + 2 + (codeAll body).length⟩] := by
    rw [loopsAll_whileLoop, loopsAll]
  have hnodesAll : nodesAll [.whileLoop body] =
      [BlockKind.loop.opening "x < 1"] ++ (nodesAll body ++ [.closing]) := by
    simp only [nodesAll, nodes, append_nil, singleton_append]
  have hlength : (index : Int) + (codeAll [.whileLoop body]).length =
      index + 2 + (codeAll body).length + 1 := by
    rw [hcodeAll, length_cons, length_cons, length_append, length_singleton]
    omega
  rw [hloopsAll, hlength] at hb
  rw [hcodeAll] at hcode
  have hcode₁ := drop_of_drop_cons hcode
  have hcode₂ : code.drop (index + 2) = codeAll body ++
      jumpBy (-((codeAll body).length + 3)) :: rest := by
    simpa using drop_of_drop_cons hcode₁
  have hinside := within_loopsAll body (index + 2)
  have hlast : ∀ span ∈ [(⟨none, index + 2 + (codeAll body).length⟩ : Span)],
      span.Within (index + 2 + (codeAll body).length) (index + 2 + (codeAll body).length + 1) := by
    intro span hspan
    cases mem_singleton.mp hspan
    exact ⟨Int.le_refl _, by dsimp only; omega, by simp⟩
  have hwithin : ∀ span ∈ loopsAll (index + 2) body ++ [⟨none, index + 2 + (codeAll body).length⟩],
      span.Within (index + 2) (index + 2 + (codeAll body).length + 1) := by
    intro span hspan
    rcases mem_append.mp hspan with hspan | hspan
    · exact (hinside span hspan).mono (by omega) (by omega)
    · exact (hlast span hspan).mono (by omega) (by omega)
  have hpass := hb.tidy.pass (hb.pending (k := index) (by omega))
  obtain ⟨w₁, hleads₁, hpassed₁⟩ := leads_open children hw hb (by omega) hwithin
    (getElem?_of_drop hcode) (getElem?_of_drop hcode₁)
    (show Opcode.relation? .compareLt = some .lt from rfl) rfl (hpass.push_loop index) rfl
    (by simp) ⟨rfl, fun _ _ => rfl⟩
  have hmarks := hb.marks.left hlast (by omega)
  have hheaders : (w₁.frame.blocks.headers.get?
      (index + 2 + (codeAll body).length)).getD 0 = 0 := by
    rw [hpassed₁.ahead.headers _ (by omega), hb.marks.headers _ (by omega) (by omega),
      countP_append, countP_outside hinside (by omega)]
    rfl
  have hcloser : (index + 2 + (codeAll body).length : Int) ∈ w₁.frame.blocks.closers := by
    rw [hpassed₁.ahead.closers, hb.marks.closers _ (by omega) (by omega)]
    exact ⟨_, mem_append_right _ (mem_singleton.mpr rfl), rfl⟩
  obtain ⟨w₂, hleads₂, hpassed₂⟩ := leads_loop hbody (by omega) (hleads₁.steady hw) hcode₂
    hpassed₁.tidy hpassed₁.stack rfl rfl hb.ends
    ((hmarks.mono (by omega) (by omega)).ahead hpassed₁.ahead) hheaders hcloser
  exact Comes.cast ⟨w₂, hleads₁.trans hleads₂, hpassed₁.trans hpassed₂ (by omega)⟩ hnodesAll
    (by omega)

theorem recovers_endless (hbody : Recovers children code body) :
    Recovers children code [.endless body] := by
  intro w index first rest hfirst hw hcode hrest hb
  subst hfirst
  have hcodeAll : codeAll [.endless body] =
      codeAll body ++ [jumpBy (-((codeAll body).length + 1))] := by
    rw [codeAll_endless, codeAll]
  have hloopsAll : loopsAll index [.endless body] =
      loopsAll index body ++ [⟨some index, index + (codeAll body).length⟩] := by
    rw [loopsAll_endless, loopsAll]
  have hnodesAll : nodesAll [.endless body] =
      [BlockKind.loop.opening "true"] ++ (nodesAll body ++ [.closing]) := by
    simp only [nodesAll, nodes, append_nil, singleton_append]
  have hlength : (index : Int) + (codeAll [.endless body]).length =
      index + (codeAll body).length + 1 := by
    rw [hcodeAll, length_append, length_singleton]
    omega
  rw [hloopsAll, hlength] at hb
  rw [hcodeAll, append_assoc, singleton_append] at hcode
  have hinside := within_loopsAll body index
  obtain ⟨count, hcount⟩ : ∃ count, count =
    (loopsAll index body).countP fun span => span.head == some (index : Int) := ⟨_, rfl⟩
  have hstarts : (w.frame.blocks.headers.get? index).getD 0 = count + 1 := by
    rw [hb.marks.headers _ (Int.le_refl _) (by omega), countP_append, hcount]
    simp
  obtain ⟨i, others, hnext⟩ := exists_cons_of_ne_nil
    (l := codeAll body ++ jumpBy (-((codeAll body).length + 1)) :: rest) (by simp)
  have hleads₁ := leads_due children hw (getElem?_of_drop (hcode.trans hnext))
    (due_open (hb.pending (by omega)) hstarts)
  -- One of the loops that start here is this one, and the others are those of the body.
  have hheaders : ∀ k : Int, index ≤ k → k < index + (codeAll body).length + 1 →
      ((w.frame.blocks.openTop index count).headers.get? k).getD 0 =
        (loopsAll index body).countP fun span => span.head == some k := by
    intro k hk hlast
    by_cases hindex : (index : Int) = k
    · simp [openTop, hindex, hcount]
    · have hother := hb.marks.headers k hk hlast
      simp only [countP_append, countP_singleton] at hother
      simpa [openTop, push, hindex] using hother
  have hclosers : ∀ k : Int, index ≤ k → k < index + (codeAll body).length →
      (k ∈ w.frame.blocks.closers ↔ ∃ span ∈ loopsAll index body, span.tail = k) := by
    intro k hk hlast
    rw [hb.marks.closers k hk (by omega)]
    simp only [mem_append, mem_singleton, or_and_right, exists_or, exists_eq_left,
      or_iff_left_iff_imp]
    omega
  obtain ⟨w₂, hleads₂, hpassed₂⟩ := leads_loop hbody rfl (hleads₁.steady hw)
    hcode (hb.tidy.openTop index count) rfl rfl rfl hb.ends
    ⟨fun k hk hlast => hheaders k hk (by omega), hclosers⟩
    ((hheaders _ (by omega) (by omega)).trans (countP_outside hinside (by omega)))
    ((hb.marks.closers _ (by omega) (by omega)).mpr
      ⟨_, mem_append_right _ (mem_singleton.mpr rfl), rfl⟩)
  refine Comes.cast ⟨w₂, hleads₁.trans hleads₂, hpassed₂.tidy, hpassed₂.stack,
    hpassed₂.ahead.closers, fun k hk => ?_⟩ hnodesAll (by omega)
  rw [hpassed₂.ahead.headers k hk]
  have hne : (index : Int) ≠ k := by omega
  simp [Walk.grow, openTop, push, hne]

/-- Every program is recovered. -/
theorem recovers_all (children : List Child) (code : List Instruction) (shapes : List Shape) :
    Recovers children code shapes := by
  induction shapes using induct_programs with
  | nil => exact recovers_nil
  | assign rest ih => exact recovers_cons recovers_assign ih
  | branch body rest ihbody ih => exact recovers_cons (recovers_branch ihbody) ih
  | either yes no more rest ihyes ihno ih => exact recovers_cons (recovers_either ihyes ihno) ih
  | whileLoop body rest ihbody ih => exact recovers_cons (recovers_whileLoop ihbody) ih
  | endless body rest ihbody ih => exact recovers_cons (recovers_endless ihbody) ih

end Walking

end LuaRecovery

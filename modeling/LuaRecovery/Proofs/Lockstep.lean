/-
The search for loops and the walk read the code in the same way.

The search goes through the code before the walk does, and both take a compare together with the
jump behind it.  The walk also takes along the instructions behind a closure that name its
upvalues; these are no compares and no jumps, so the search finds nothing at them.  The two are
thus at the same places wherever there is a compare or a jump, and a job that succeeds meets every
loop that the search has found: it opens a loop at each header, and hands on each jump that closes
one.
-/
import LuaRecovery.Proofs.BlockCalls

namespace LuaRecovery

open Statement

open List hiding range

/-! ### The jumps that the search passes over -/

namespace Loops

/-- The loops of the code from `index` on, and the jumps that are taken together with the compare
before them. -/
def scanPassing (l : Loops) (waiting : List Int) (index : Int) :
    List Instruction → Loops × List Int
  | [] => (l, [])
  | [i] =>
    if !i.opcode.isCompare && i.opcode == .jump && decide (i.b < 0) then
      ((l.backJump waiting index (jumpTarget index i.b)).2, [])
    else (l, [])
  | i :: j :: rest =>
    if i.opcode.isCompare && j.opcode == .jump then
      let (found, passed) :=
        l.scanPassing (if j.b < 0 then index :: waiting else waiting) (index + 2) rest
      (found, (index + 1) :: passed)
    else if !i.opcode.isCompare && i.opcode == .jump && decide (i.b < 0) then
      let (waiting, l) := l.backJump waiting index (jumpTarget index i.b)
      l.scanPassing waiting (index + 1) (j :: rest)
    else l.scanPassing waiting (index + 1) (j :: rest)

/-- The loops of a function's code, and the jumps that are taken together with a compare. -/
def findPassing (code : List Instruction) : Loops × List Int := scanPassing {} [] 0 code

variable {l : Loops} {index : Int} {i j : Instruction}

theorem scanPassing_fst (l : Loops) (waiting : List Int) (index : Int) (code : List Instruction) :
    (l.scanPassing waiting index code).1 = l.scan waiting index code := by
  fun_induction scan l waiting index code with
  | case1 => rfl
  | case2 l waiting index i h => simp [scanPassing, h]
  | case3 l waiting index i h => simp [scanPassing, h]
  | case4 l waiting index i j rest h ih => simp [scanPassing, h, ih]
  | case5 l waiting index i j rest hpair hback waiting' l' hjump ih =>
    simp [scanPassing, hpair, hback, hjump, ih]
  | case6 l waiting index i j rest hpair hback ih => simp [scanPassing, hpair, hback, ih]

/-- Without the jumps, the search is the one for loops. -/
theorem findPassing_fst (code : List Instruction) : (findPassing code).1 = find code :=
  scanPassing_fst {} [] 0 code

/-- What the instruction at an index adds to the loops: it may close one, whose header then lies
before it. -/
structure Extends (l l' : Loops) (index : Int) : Prop where
  closers : ∀ k ∈ l'.closers, k ∈ l.closers ∨ k = index
  headers : ∀ k n, l'.headers.get? k = some n → l.headers.get? k = some n ∨ 0 ≤ k ∧ k ≤ index

theorem extends_self (l : Loops) (index : Int) : l.Extends l index :=
  ⟨fun _ h => .inl h, fun _ _ h => .inl h⟩

theorem extends_addCloser {l' : Loops} (h : l.Extends l' index) :
    l.Extends (l'.addCloser index) index := by
  refine ⟨fun k hk => ?_, h.headers⟩
  rcases mem_cons.mp hk with rfl | hk
  · exact .inr rfl
  · exact h.closers k hk

theorem extends_addHeader {target : Int} (hlow : 0 ≤ target) (hhigh : target ≤ index) :
    l.Extends (l.addHeader target) index := by
  refine ⟨fun _ h => .inl h, fun k n hk => ?_⟩
  rw [addHeader, Table.get?_insert] at hk
  split at hk
  · exact .inr (by omega)
  · exact .inl hk

theorem extends_backJump (l : Loops) (waiting : List Int) (index target : Int) :
    l.Extends (l.backJump waiting index target).2 index := by
  have halone : l.Extends (if 0 ≤ target ∧ target ≤ index then
      (waiting, (l.addHeader target).addCloser index) else (waiting, l)).2 index := by
    split
    · rename_i hinside
      exact extends_addCloser (extends_addHeader hinside.1 hinside.2)
    · exact extends_self l index
  unfold backJump
  cases waiting with
  | nil => exact halone
  | cons w outer =>
    dsimp only
    split
    · exact extends_addCloser (extends_self l index)
    · exact halone

theorem scanPassing_pair (l : Loops) (waiting : List Int) (index : Int)
    (hi : i.opcode.isCompare = true) (hj : j.opcode = .jump) (rest : List Instruction) :
    ∃ waiting', l.scanPassing waiting index (i :: j :: rest) =
      ((l.scanPassing waiting' (index + 2) rest).1,
        (index + 1) :: (l.scanPassing waiting' (index + 2) rest).2) := by
  refine ⟨if j.b < 0 then index :: waiting else waiting, ?_⟩
  simp [scanPassing, hi, hj]

theorem scanPassing_jump (l : Loops) (waiting : List Int) (index : Int) (hi : i.opcode = .jump)
    (rest : List Instruction) :
    ∃ l' waiting', l.Extends l' index ∧
      l.scanPassing waiting index (i :: rest) = l'.scanPassing waiting' (index + 1) rest := by
  have hcompare : Opcode.jump.isCompare = false := rfl
  by_cases hback : i.b < 0
  · refine ⟨_, (l.backJump waiting index (jumpTarget index i.b)).1,
      extends_backJump l waiting index (jumpTarget index i.b), ?_⟩
    cases rest <;> simp [scanPassing, hcompare, hi, hback]
  · refine ⟨l, waiting, extends_self l index, ?_⟩
    cases rest <;> simp [scanPassing, hcompare, hi, hback]

theorem scanPassing_plain (l : Loops) (waiting : List Int) (index : Int)
    (hcompare : i.opcode.isCompare = false) (hjump : i.opcode ≠ .jump) (rest : List Instruction) :
    l.scanPassing waiting index (i :: rest) = l.scanPassing waiting (index + 1) rest := by
  cases rest <;> simp [scanPassing, hcompare, hjump]

/-- A header lies in the code. -/
theorem scan_headers (l : Loops) (waiting : List Int) (index : Int) (code : List Instruction)
    {k : Int} {n : Nat} (h : (l.scan waiting index code).headers.get? k = some n) :
    l.headers.get? k = some n ∨ 0 ≤ k ∧ k < index + code.length := by
  fun_induction scan l waiting index code with
  | case1 => exact .inl h
  | case2 l waiting index i _ =>
    rcases (extends_backJump l waiting index (jumpTarget index i.b)).headers k n h with h | h
    · exact .inl h
    · exact .inr (by simp; omega)
  | case3 => exact .inl h
  | case4 l waiting index i j rest _ ih =>
    rcases ih h with h | h
    · exact .inl h
    · exact .inr (by simp; omega)
  | case5 l waiting index i j rest _ _ waiting' l' hback ih =>
    rcases ih h with h | h
    · have hextends := extends_backJump l waiting index (jumpTarget index i.b)
      rw [hback] at hextends
      rcases hextends.headers k n h with h | h
      · exact .inl h
      · exact .inr (by simp; omega)
    · exact .inr (by simp at h ⊢; omega)
  | case6 l waiting index i j rest _ _ ih =>
    rcases ih h with h | h
    · exact .inl h
    · exact .inr (by simp at h ⊢; omega)

theorem find_headers {code : List Instruction} {k : Int} {n : Nat}
    (h : (find code).headers.get? k = some n) : 0 ≤ k ∧ k < code.length := by
  rcases scan_headers {} [] 0 code h with h | h
  · cases h
  · omega

/-- Where there is neither a compare nor a jump, the search finds nothing. -/
theorem scanPassing_drop (l : Loops) (waiting : List Int) {code : List Instruction}
    (first count : Nat) (hplain : ∀ k i, first ≤ k → k < first + count → code[k]? = some i →
      i.opcode.isCompare = false ∧ i.opcode ≠ .jump) (hcount : first + count ≤ code.length) :
    l.scanPassing waiting first (code.drop first) =
      l.scanPassing waiting ((first + count : Nat) : Int) (code.drop (first + count)) := by
  induction count with
  | zero => rfl
  | succ count ih =>
    have hlt : first + count < code.length := by omega
    obtain ⟨hcompare, hjump⟩ := hplain (first + count) _ (by omega) (by omega)
      (getElem?_eq_getElem hlt)
    rw [ih (fun k i hk hlt => hplain k i hk (by omega)) (by omega),
      drop_eq_getElem_cons hlt, scanPassing_plain _ _ _ hcompare hjump]
    rfl

end Loops

/-! ### Loops that are still to open -/

/-- A marker that opens a loop without condition. -/
def Statement.opensLoop : Statement → Bool
  | .marker text .opens => text == "while true do"
  | _ => false

namespace Blocks

variable {b : Blocks} {index : Int} {headers : Table Int Nat}

/-- Only the stack and what is noted differ. -/
structure Settles (b b' : Blocks) : Prop where
  headers : b'.headers = b.headers
  nextId : b'.nextId = b.nextId

theorem close_settles (b : Blocks) (id : Nat) (index : Int) : b.Settles (b.close id index).2 :=
  ⟨rfl, rfl⟩

theorem countP_close (b : Blocks) (id : Nat) (index : Int) :
    (b.close id index).1.countP opensLoop = 0 := by
  rw [countP_eq_zero]
  intro s hs
  rcases mem_append.mp hs with hs | hs
  · obtain ⟨block, -, hs⟩ := mem_flatMap.mp hs
    simp only [closedEarly, mem_cons, not_mem_nil, or_false] at hs
    rcases hs with rfl | rfl <;> simp [opensLoop, remark, closing]
  · split at hs
    · simp at hs
    · simp only [mem_singleton] at hs
      rw [hs]
      simp [opensLoop, closing]

theorem settle_settles (b : Blocks) (index : Int) (item : Nat × MarkerRole) :
    b.Settles (b.settle index item).2 ∧ (b.settle index item).1.countP opensLoop = 0 := by
  unfold settle
  split
  · split
    · exact ⟨⟨rfl, rfl⟩, rfl⟩
    · exact ⟨close_settles b item.1 index, countP_close b item.1 index⟩
  · exact ⟨⟨rfl, rfl⟩, rfl⟩

theorem settleAll_settles (index : Int) (items : List (Nat × MarkerRole)) : ∀ b : Blocks,
    b.Settles (b.settleAll index items).2 ∧ (b.settleAll index items).1.countP opensLoop = 0 := by
  induction items with
  | nil => exact fun b => ⟨⟨rfl, rfl⟩, rfl⟩
  | cons item rest ih =>
    intro b
    obtain ⟨hfirst, hnone⟩ := settle_settles b index item
    obtain ⟨hrest, hnothing⟩ := ih (b.settle index item).2
    refine ⟨⟨hrest.headers.trans hfirst.headers, hrest.nextId.trans hfirst.nextId⟩, ?_⟩
    show ((b.settle index item).1 ++ ((b.settle index item).2.settleAll index rest).1).countP _ = 0
    rw [countP_append, hnone, hnothing]

theorem openLoops_opens (index : Int) (count : Nat) : ∀ b : Blocks,
    (b.openLoops index count).2.headers = b.headers ∧
      (b.openLoops index count).2.nextId = b.nextId + count ∧
      (b.openLoops index count).1.countP opensLoop = count := by
  induction count with
  | zero => exact fun b => ⟨rfl, rfl, rfl⟩
  | succ count ih =>
    intro b
    obtain ⟨hheaders, hnext, hcount⟩ := ih (b.push .loop index none)
    refine ⟨hheaders, ?_, ?_⟩
    · show ((b.push .loop index none).openLoops index count).2.nextId = b.nextId + (count + 1)
      rw [hnext]
      show b.nextId + 1 + count = _
      omega
    · show (_ :: ((b.push .loop index none).openLoops index count).1).countP _ = count + 1
      rw [countP_cons, hcount]
      rfl

/-- What is due at an index opens as many loops as start there, and they are then no longer to
open. -/
theorem due_opens (b : Blocks) (index : Int) : (b.due index).2.headers = b.headers.erase index ∧
      (b.due index).2.nextId = b.nextId + (b.headers.get? index).getD 0 ∧
      (b.due index).1.countP opensLoop = (b.headers.get? index).getD 0 := by
  obtain ⟨hsettles, hnone⟩ := settleAll_settles index (b.dueItems index)
    { b with pending := b.pending.erase index }
  change (b.settleDue index).1.countP opensLoop = 0 at hnone
  have hheaders : (b.settleDue index).2.headers = b.headers := hsettles.headers
  have hnext : (b.settleDue index).2.nextId = b.nextId := hsettles.nextId
  obtain ⟨hopened, hids, hcount⟩ := openLoops_opens index
    (((b.settleDue index).2.headers.get? index).getD 0)
    { (b.settleDue index).2 with headers := (b.settleDue index).2.headers.erase index }
  refine ⟨hopened.trans (by rw [hheaders]), hids.trans (by rw [hheaders, hnext]), ?_⟩
  show ((b.settleDue index).1 ++ ((b.settleDue index).2.openDue index).1).countP _ = _
  rw [countP_append, hnone, Nat.zero_add, ← hheaders]
  exact hcount

theorem openConditional_headers (b : Blocks) (index offset : Int) (condition : String) :
    (b.openConditional index offset condition).2.headers = b.headers := by
  unfold openConditional
  split <;> rfl

theorem jump_headers (b : Blocks) (index offset : Int) :
    (b.jump index offset).2.headers = b.headers := by
  unfold jump
  dsimp only
  split
  · cases b.innermostLoop? <;> rfl
  · split
    · rfl
    · cases b.elseBranch? index (jumpTarget index offset) <;> rfl

/-- The loops that start at an index or later are still to open, and all others are not. -/
def Awaits (b : Blocks) (headers : Table Int Nat) (index : Int) : Prop :=
  ∀ k, b.headers.get? k = if k < index then none else headers.get? k

theorem Awaits.congr {b' : Blocks} (h : b.Awaits headers index) (hsame : b'.headers = b.headers) :
    b'.Awaits headers index := by
  rwa [Awaits, hsame]

theorem Awaits.due (h : b.Awaits headers index) : (b.due index).2.Awaits headers (index + 1) := by
  intro k
  rw [(b.due_opens index).1, Table.get?_erase, h k]
  by_cases hk : index = k
  · rw [if_pos hk, if_pos (by omega)]
  · rw [if_neg hk]
    by_cases hlt : k < index
    · rw [if_pos hlt, if_pos (by omega)]
    · rw [if_neg hlt, if_neg (by omega)]

theorem Awaits.get? (h : b.Awaits headers index) : b.headers.get? index = headers.get? index := by
  rw [h index, if_neg (by omega)]

/-- What is due at a row of indexes opens the loops that start there. -/
theorem Awaits.dueAll {last : Int} : ∀ (count : Nat) (first : Int) (b : Blocks),
    (last + 1 - first).toNat = count → b.Awaits headers first →
      (b.dueAll (Walking.range first last)).2.Awaits headers (max first (last + 1)) ∧
        ∀ a ∈ b.asksDue (Walking.range first last), ∀ k, a.call = .due k →
          a.blocks.headers.get? k = headers.get? k := by
  intro count
  induction count with
  | zero =>
    intro first b hcount h
    rw [Walking.range_of_lt (by omega), Int.max_eq_left (by omega)]
    exact ⟨h, by simp [asksDue]⟩
  | succ count ih =>
    intro first b hcount h
    obtain ⟨hrest, hasked⟩ := ih (first + 1) (b.due first).2 (by omega) h.due
    rw [Walking.range_of_le (by omega), Int.max_eq_right (by omega)]
    rw [Int.max_eq_right (by omega)] at hrest
    refine ⟨hrest, fun a ha k hk => ?_⟩
    rcases mem_cons.mp ha with rfl | ha
    · cases hk
      exact h.get?
    · exact hasked a ha k hk

end Blocks

/-! ### What one instruction does to both -/

namespace Walking

variable {index taken : Nat} {i : Instruction} {w w₁ v w' : Walk} {made : List Asked}

theorem Effect.headers (h : Effect index i w taken w') :
    w'.frame.blocks.headers = w.frame.blocks.headers := by
  cases h with
  | adds _ _ hblocks => rw [hblocks]
  | compares _ _ _ hblocks => rw [hblocks, Blocks.openConditional_headers]
  | jumps _ hblocks => rw [hblocks, Blocks.jump_headers]

theorem Effect.taken_of_compare (h : Effect index i w taken w') (hi : i.opcode.isCompare = true) :
    taken = 2 := by
  cases h with
  | adds hcompare =>
    rw [hi] at hcompare
    cases hcompare
  | compares => rfl
  | jumps hjump =>
    rw [hjump] at hi
    cases hi

theorem Effect.taken_of_jump (h : Effect index i w taken w') (hi : i.opcode = .jump) :
    taken = 1 := by
  cases h with
  | adds _ hjump => exact absurd hi hjump
  | compares _ hcompare =>
    rw [hi] at hcompare
    cases hcompare
  | jumps => rfl

end Walking

namespace Job

open Walking

variable {j : Job} {index taken mark : Nat} {i : Instruction} {w w₁ v w' : Walk}
  {record : List Asked} {r : Routine} {d : Context}

theorem effect_of_step (hstep : step j.children i index w = .ok taken v) :
    Effect index i w taken v := by
  have heffect := step_effect j.nests_children i index w
  rwa [hstep] at heffect

/-- The loops that start behind an instruction are still to open after its step. -/
theorem awaits_of_step {headers : Table Int Nat} (happroach : approach i index w = .ok () w₁)
    (hstep : step j.children i index w₁ = .ok taken v) (h : w.frame.blocks.Awaits headers index) :
    v.frame.blocks.Awaits headers (index + 1) := by
  obtain ⟨-, -, hblocks, -⟩ := approach_effect happroach
  have happroached : w₁.frame.blocks.Awaits headers (index + 1) := h.due.congr (by rw [hblocks])
  exact happroached.congr (effect_of_step hstep).headers

/-- The walk of a job has opened the loops that start before the index to which it gets. -/
theorem At.awaits (h : j.At index w) :
    w.frame.blocks.Awaits (Loops.find j.source.instructions).headers index := by
  induction h with
  | @first limits w _ hopened =>
    have hframe := opening_frame j.children (j.entered limits)
    rw [hopened] at hframe
    obtain ⟨hblocks, -⟩ := Frame.addParams_blocks j.source.paramCount.toNat
      (Frame.bare j.source j.name j.path j.upvalues) j.context.scene 0
    have hheaders : w.frame.blocks.headers = (Loops.find j.source.instructions).headers := by
      rw [hframe]
      exact congrArg Blocks.headers hblocks
    intro k
    rw [hheaders]
    split
    · rename_i hneg
      cases hfound : (Loops.find j.source.instructions).headers.get? k with
      | none => rfl
      | some n =>
        have hinside := Loops.find_headers hfound
        omega
    · rfl
  | @next index taken i w w' hbefore hi hadvanced ih =>
    have hpos := hbefore.advances_pos hadvanced
    obtain ⟨w₁, v, mark, happroach, hstep, hconclude⟩ := ok_of_advance hadvanced
    obtain ⟨hblocks, -⟩ := conclude_effect hconclude
    obtain ⟨hdues, -⟩ := Blocks.Awaits.dueAll _ _ _ rfl (awaits_of_step happroach hstep ih)
    have hnext : max ((index : Int) + 1) (index + taken - 1 + 1) =
        ((index + taken : Nat) : Int) := by omega
    rw [hnext] at hdues
    exact hdues.congr (by rw [hblocks]; rfl)

/-! ### The record of a whole walk -/

end Job

namespace Asked

/-- The index at which what is due was asked for. -/
def dueIndex? (a : Asked) : Option Int :=
  match a.call with
  | .due index => some index
  | _ => none

/-- The jump that was taken together with the compare before it. -/
def pairedJump? (a : Asked) : Option Int :=
  match a.call with
  | .opens index _ _ => some (index + 1)
  | _ => none

end Asked

theorem Blocks.asksDue_indexes (indexes : List Int) : ∀ b : Blocks,
    (b.asksDue indexes).filterMap Asked.dueIndex? = indexes ∧
      (b.asksDue indexes).filterMap Asked.pairedJump? = [] ∧
      ∀ a ∈ b.asksDue indexes, ∃ index, a.call = .due index := by
  induction indexes with
  | nil => exact fun b => ⟨rfl, rfl, by simp [asksDue]⟩
  | cons index rest ih =>
    intro b
    obtain ⟨hdues, hpairs, hcalls⟩ := ih (b.due index).2
    refine ⟨?_, ?_, forall_mem_cons.mpr ⟨⟨index, rfl⟩, hcalls⟩⟩
    · simp [asksDue, Asked.dueIndex?, hdues]
    · simpa [asksDue, Asked.pairedJump?] using hpairs

namespace Job

open Walking

variable {j : Job} {index taken mark : Nat} {i : Instruction} {w w₁ v w' : Walk}
  {record made : List Asked} {r : Routine} {d : Context}

theorem Asks.reached (h : j.Asks index w record) : j.At index w := by
  cases h with
  | done hreached => exact hreached
  | turn hreached => exact hreached

theorem StepAsks.indexes (h : StepAsks index i w made) : made.filterMap Asked.dueIndex? = [] ∧
      ∀ a ∈ made, ∀ n, a.call ≠ .due n ∧ a.call ≠ .finish n := by
  cases h <;> simp [Asked.dueIndex?]

theorem along_eq (index taken : Nat) :
    along index taken = (List.range' (index + 1) (taken - 1)).map fun k : Nat => (k : Int) := by
  have hcount : ((index : Int) + taken - 1 + 1 - (index + 1)).toNat = taken - 1 := by omega
  rw [along, range, hcount, range'_eq_map_range, map_map]
  refine map_congr_left fun k _ => ?_
  simp

theorem Due.taken_pos (h : j.Due index i w) (hstep : step j.children i index w = .ok taken v) :
    0 < taken := by
  rw [h.taken_eq hstep]
  exact j.source.width_pos i index

/-- What is due is asked for at every index from one on, in order. -/
theorem Asks.dues (h : j.Asks index w record) : record.filterMap Asked.dueIndex? =
      (List.range' index (j.source.instructions.length - index)).map fun k : Nat => (k : Int) := by
  induction h with
  | done => simp [Asked.dueIndex?]
  | @turn index taken mark i w w₁ v w' made rest hreached hi happroach hstep _ hasks hafter ih =>
    have hpos := Due.taken_pos ⟨hreached, hi, happroach⟩ hstep
    have hend := hafter.reached.le_length
    obtain ⟨hdues, -, -⟩ := v.frame.blocks.asksDue_indexes (along index taken)
    have hsplit : List.range' index (j.source.instructions.length - index) =
        index :: (List.range' (index + 1) (taken - 1) ++
          List.range' (index + taken) (j.source.instructions.length - (index + taken))) := by
      rw [← cons_append, ← range'_succ, Nat.sub_add_cancel hpos, range'_append_1]
      congr 1
      omega
    rw [hsplit, map_cons, map_append, ← along_eq, ← ih]
    simp [Asked.dueIndex?, (StepAsks.indexes hasks).1, hdues]

/-- The instruction at an index is a jump, and it was handed on. -/
def HandsOn (j : Job) (record : List Asked) (k : Int) : Prop :=
  ∃ (index : Nat) (jump : Instruction) (b : Blocks), k = index ∧
    j.source.instructions[index]? = some jump ∧ jump.opcode = .jump ∧
    ⟨.jump index jump.b, b⟩ ∈ record

theorem HandsOn.mono {k : Int} {more : List Asked} (h : j.HandsOn record k)
    (hmore : ∀ a ∈ record, a ∈ more) : j.HandsOn more k := by
  obtain ⟨index, jump, b, hk, hjump, hop, hmem⟩ := h
  exact ⟨index, jump, b, hk, hjump, hop, hmore _ hmem⟩

/-- An instruction that is no compare and no jump takes none along. -/
theorem Due.plain (h : j.Due index i w) (hstep : step j.children i index w = .ok taken v)
    (hcompare : i.opcode.isCompare = false) (hjump : i.opcode ≠ .jump) {k : Nat} {i' : Instruction}
    (hk : index ≤ k) (hlt : k < index + taken) (hi' : j.source.instructions[k]? = some i') :
    i'.opcode.isCompare = false ∧ i'.opcode ≠ .jump := by
  rcases Nat.lt_or_eq_of_le hk with hk | rfl
  · rcases h.taken_along hstep hk hlt hi' with ⟨hpaired, -⟩ | ⟨-, hcapture⟩
    · rw [hcompare] at hpaired
      cases hpaired
    · simp only [Instruction.isCapture, Bool.or_eq_true, beq_iff_eq] at hcapture
      rcases hcapture with hop | hop <;> simp [hop, Opcode.isCompare]
  · have hinstruction := h.instruction
    rw [hi'] at hinstruction
    cases hinstruction
    exact ⟨hcompare, hjump⟩

/-- From every index to which the walk gets, the search passes over the jumps that the walk takes
together with a compare, and a jump that closes a loop is handed on. -/
theorem Asks.search (h : j.Asks index w record) : ∀ (l : Loops) (waiting : List Int),
    (l.scanPassing waiting index (j.source.instructions.drop index)).2 =
        record.filterMap Asked.pairedJump? ∧
      ∀ k ∈ (l.scanPassing waiting index (j.source.instructions.drop index)).1.closers,
        k ∈ l.closers ∨ j.HandsOn record k := by
  induction h with
  | done =>
    intro l waiting
    rw [drop_length]
    exact ⟨rfl, fun k hk => .inl hk⟩
  | @turn index taken mark i w w₁ v w' made rest hreached hi happroach hstep _ hasks hafter ih =>
    intro l waiting
    have hdue : j.Due index i w₁ := ⟨hreached, hi, happroach⟩
    have hend := hafter.reached.le_length
    have hpairs : (⟨.due index, w.frame.blocks⟩ :: made ++
        v.frame.blocks.asksDue (along index taken) ++ rest).filterMap Asked.pairedJump? =
        made.filterMap Asked.pairedJump? ++ rest.filterMap Asked.pairedJump? := by
      obtain ⟨-, hnone, -⟩ := v.frame.blocks.asksDue_indexes (along index taken)
      rw [filterMap_append, filterMap_append, hnone, append_nil, filterMap_cons_none rfl]
    have hrest : ∀ k, j.HandsOn rest k → j.HandsOn (⟨.due index, w.frame.blocks⟩ :: made ++
        v.frame.blocks.asksDue (along index taken) ++ rest) k :=
      fun k h => h.mono fun a ha => mem_append_right _ ha
    have hhere : j.source.instructions.drop index =
        i :: j.source.instructions.drop (index + 1) := by
      obtain ⟨hlt, hget⟩ := List.getElem?_eq_some_iff.mp hdue.instruction
      rw [drop_eq_getElem_cons hlt, hget]
    rw [hpairs]
    cases hasks with
    | nothing hcompare hjump =>
      have hplain := l.scanPassing_drop waiting index taken
        (fun k i' hk hlt hi' => hdue.plain hstep hcompare hjump hk hlt hi') hend
      rw [hplain]
      obtain ⟨hpassed, hclosers⟩ := ih l waiting
      exact ⟨hpassed, fun k hk => (hclosers k hk).imp_right (hrest k)⟩
    | @compares jump condition hcompare hpaired hjump =>
      obtain rfl := (effect_of_step hstep).taken_of_compare hcompare
      rw [hdue.owns.code] at hpaired
      have hnext : j.source.instructions.drop (index + 1) =
          jump :: j.source.instructions.drop (index + 2) := by
        obtain ⟨hlt, hget⟩ := List.getElem?_eq_some_iff.mp hpaired
        rw [drop_eq_getElem_cons hlt, hget]
      obtain ⟨waiting', hscan⟩ := l.scanPassing_pair waiting index hcompare hjump
        (j.source.instructions.drop (index + 2))
      rw [hhere, hnext, hscan]
      obtain ⟨hpassed, hclosers⟩ := ih l waiting'
      refine ⟨?_, fun k hk => (hclosers k hk).imp_right (hrest k)⟩
      simp [Asked.pairedJump?, ← hpassed]
    | jumps hjump =>
      obtain rfl := (effect_of_step hstep).taken_of_jump hjump
      obtain ⟨l', waiting', hextends, hscan⟩ := l.scanPassing_jump waiting index hjump
        (j.source.instructions.drop (index + 1))
      rw [hhere, hscan]
      obtain ⟨hpassed, hclosers⟩ := ih l' waiting'
      refine ⟨hpassed, fun k hk => ?_⟩
      rcases hclosers k hk with hk | hk
      · refine (hextends.closers k hk).imp_right fun hk => ?_
        exact ⟨index, i, w₁.frame.blocks, hk, hdue.instruction, hjump, by simp⟩
      · exact .inr (hrest k hk)

/-- Wherever what is due is asked for, the loops are to open that the search has found there. -/
theorem Asks.opened (h : j.Asks index w record) : ∀ a ∈ record, ∀ k, a.call = .due k →
    a.blocks.headers.get? k = (Loops.find j.source.instructions).headers.get? k := by
  induction h with
  | done => simp
  | @turn index taken mark i w w₁ v w' made rest hreached hi happroach hstep _ hasks hafter ih =>
    intro a ha k hk
    rw [mem_append, mem_append] at ha
    rcases ha with (ha | ha) | ha
    · rcases mem_cons.mp ha with rfl | ha
      · cases hk
        exact hreached.awaits.get?
      · exact absurd hk ((StepAsks.indexes hasks).2 a ha k).1
    · have hstepped := awaits_of_step happroach hstep hreached.awaits
      exact (Blocks.Awaits.dueAll _ _ _ rfl hstepped).2 a ha k hk
    · exact ih a ha k hk

/-- The blocks finish at the end of the code, and nowhere before. -/
theorem Asks.ends (h : j.Asks index w record) : ∃ before wend,
    record = before ++ [⟨.finish j.source.instructions.length, wend.frame.blocks⟩] ∧
      j.At j.source.instructions.length wend ∧ ∀ a ∈ before, ∀ n, a.call ≠ .finish n := by
  induction h with
  | @done w hreached => exact ⟨[], w, rfl, hreached, by simp⟩
  | @turn index taken mark i w w₁ v w' made rest _ _ _ _ _ hasks _ ih =>
    obtain ⟨before, wend, rfl, hend, hbefore⟩ := ih
    refine ⟨⟨.due index, w.frame.blocks⟩ :: made ++ v.frame.blocks.asksDue (along index taken)
      ++ before, wend, by simp, hend, fun a ha n hcall => ?_⟩
    rw [mem_append, mem_append] at ha
    rcases ha with (ha | ha) | ha
    · rcases mem_cons.mp ha with rfl | ha
      · cases hcall
      · exact ((StepAsks.indexes hasks).2 a ha n).2 hcall
    · obtain ⟨k, hk⟩ := (v.frame.blocks.asksDue_indexes (along index taken)).2.2 a ha
      rw [hk] at hcall
      cases hcall
    · exact hbefore a ha n hcall

theorem Asks.asks_due (h : j.Asks 0 w record) {k : Int} (hlow : 0 ≤ k)
    (hhigh : k < j.source.instructions.length) : ∃ b, ⟨.due k, b⟩ ∈ record := by
  have hmem : k ∈ record.filterMap Asked.dueIndex? := by
    rw [h.dues, mem_map]
    exact ⟨k.toNat, mem_range'_1.mpr (by omega), by omega⟩
  obtain ⟨⟨call, b⟩, ha, hindex⟩ := mem_filterMap.mp hmem
  cases call with
  | due index =>
    cases hindex
    exact ⟨b, ha⟩
  | _ => cases hindex

/-! ### In step -/

/-- The walk of a job reads the code as the search for loops did. -/
structure InStep (j : Job) : Prop where
  /-- What is due is asked for once at every index of the code, in order. -/
  dues : j.record.filterMap Asked.dueIndex? =
    (List.range j.source.instructions.length).map fun k : Nat => (k : Int)
  inside : ∀ index w, j.At index w → index ≤ j.source.instructions.length
  /-- The jumps that are taken with the compare before them are those that the search passed
  over. -/
  paired : j.record.filterMap Asked.pairedJump? = (Loops.findPassing j.source.instructions).2
  /-- A jump that closes a loop is handed on. -/
  closers : ∀ k ∈ (Loops.find j.source.instructions).closers, j.HandsOn j.record k
  /-- A header lies in the code, so what is due there is asked for. -/
  headers : ∀ k n, (Loops.find j.source.instructions).headers.get? k = some n →
    0 ≤ k ∧ k < j.source.instructions.length ∧ ∃ b, ⟨.due k, b⟩ ∈ j.record
  /-- Where what is due is asked for, as many loops are opened as the search has found there. -/
  opened : ∀ k b, ⟨.due k, b⟩ ∈ j.record →
    let count := ((Loops.find j.source.instructions).headers.get? k).getD 0
    (b.due k).1.countP opensLoop = count ∧ (b.due k).2.nextId = b.nextId + count
  /-- The last thing is that the blocks finish.  No loop is to open then, and nothing is pending
  before the end of the code. -/
  finish : ∃ before b, j.record = before ++ [⟨.finish j.source.instructions.length, b⟩] ∧
    (∀ a ∈ before, ∀ n, a.call ≠ .finish n) ∧ (∀ k, b.headers.get? k = none) ∧
    ∀ k ∈ b.pendingIndexes, (j.source.instructions.length : Int) ≤ k

/-- **The search for loops and the walk are in step.**  The record of a walk and the list of jumps
that the search passes over are additions that change nothing: without them these are the walk and
the search themselves.  If a job succeeds, its walk asks for what is due once at every index, in
order, and does not get past the end of the code.  It takes the same jumps together with a compare
as the search, hands on every jump that closes a loop, and opens every loop that the search has
found before the blocks finish, with nothing pending before the end. -/
theorem search_and_walk_in_step (hok : j.result = .ok r d) :
    (∀ asked, Prod.fst <$> (walkAsking j.children).run asked = walk j.children) ∧
      (Loops.findPassing j.source.instructions).1 = Loops.find j.source.instructions ∧
      j.InStep := by
  obtain ⟨w, hzero, hasks⟩ := asks_of_ok hok
  obtain ⟨hpassed, hclosers⟩ := hasks.search {} []
  rw [drop_zero] at hpassed hclosers
  refine ⟨walkAsking_forgets j.children, Loops.findPassing_fst _, ?_⟩
  refine ⟨?_, fun index w h => h.le_length, hpassed.symm, fun k hk => ?_,
    fun k n h => ?_, fun k b hdue => ?_, ?_⟩
  · rw [hasks.dues, range_eq_range', Nat.sub_zero]
  · rw [← Loops.findPassing_fst] at hk
    exact (hclosers k hk).resolve_left not_mem_nil
  · obtain ⟨hlow, hhigh⟩ := Loops.find_headers h
    exact ⟨hlow, hhigh, hasks.asks_due hlow hhigh⟩
  · obtain ⟨-, hnext, hcount⟩ := b.due_opens k
    rw [hasks.opened _ hdue k rfl] at hnext hcount
    exact ⟨hcount, hnext⟩
  · obtain ⟨before, wend, hrecord, hend, hbefore⟩ := hasks.ends
    refine ⟨before, wend.frame.blocks, hrecord, hbefore, fun k => ?_,
      hend.orderly.nothing.pendingIndexes⟩
    rw [hend.awaits k]
    split
    · rfl
    · rename_i hpast
      cases hfound : (Loops.find j.source.instructions).headers.get? k with
      | none => rfl
      | some n => exact absurd (Loops.find_headers hfound).2 hpast

/-- A loop around a branch, behind a closure with two upvalues.  The instructions that name them
stand between the closure and the header of the loop. -/
def capturesBeforeLoop : Job :=
  .root {
    instructions := [{ opcode := .closure }, { opcode := .move }, { opcode := .getUpvalue },
      { opcode := .compareEq }, { opcode := .jump, b := 1 }, { opcode := .newTable },
      { opcode := .jump, b := -4 }]
    children := [{ instructions := [{ opcode := .ret, b := 1 }], upvalueCount := 2 }] } {}

/-- In `capturesBeforeLoop` the search passes over the jump at 4, and the loop from 3 to 6 is
met. -/
theorem capturesBeforeLoop_in_step :
    ∃ r d, capturesBeforeLoop.result = .ok r d ∧ capturesBeforeLoop.InStep ∧
      (Loops.findPassing capturesBeforeLoop.source.instructions).2 = [4] ∧
      (Loops.find capturesBeforeLoop.source.instructions).closers = [6] ∧
      (Loops.find capturesBeforeLoop.source.instructions).headers.get? 3 = some 1 := by
  obtain ⟨r, d, hok, -⟩ := result_of_eval (p := capturesBeforeLoop.source) (o := {})
    (fun _ _ => True) (by decide +kernel)
  exact ⟨r, d, hok, (search_and_walk_in_step hok).2.2, by decide, by decide, by decide⟩

end Job

end LuaRecovery

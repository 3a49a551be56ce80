/-
What the blocks emit, and what they note.

Whatever is done to the blocks of a function, what comes out are markers and comments: the
blocks hold no assignments, no calls and no functions.  What cannot be shown by markers alone is
noted as well, to be reported later, and every note has a remark of its own among what comes out.
-/
import LuaRecovery.Blocks.Basic

namespace LuaRecovery

/-- A marker or a comment. -/
def Statement.IsScaffold (s : Statement) : Prop :=
  (∃ text role, s = .marker text role) ∨ ∃ text, s = .remark text

/-- Markers and comments only. -/
def Scaffold (nodes : List Statement) : Prop := ∀ s ∈ nodes, s.IsScaffold

/-- A note on the blocks, and the text of the remark that comes with it. -/
inductive BlockNote : String → String → Prop
  | early (block : Block) : BlockNote (Blocks.describe block ++ " closed early by enclosing block")
        (Blocks.describe block ++ " closed early")
  | leftOpen (block : Block) : BlockNote (Blocks.describe block ++ " left open at end of function")
        ("unterminated " ++ Blocks.describe block)
  | backEdge (index target : Int) :
      BlockNote s!"loop back-edge at {index} has no open loop" s!"goto {target}"

/-- Notes, at indexes with `P`, and what comes out while they are taken: markers, remarks on jumps
that are left as they are, and a remark for each note. -/
inductive Utters (P : Int → Prop) : List (Int × String) → List Statement → Prop
  | nil : Utters P [] []
  | marker (text : String) (role : MarkerRole) {notes : List (Int × String)}
      {nodes : List Statement} (rest : Utters P notes nodes) :
      Utters P notes (.marker text role :: nodes)
  | goto (target : Int) {notes : List (Int × String)} {nodes : List Statement}
      (rest : Utters P notes nodes) : Utters P notes (Blocks.gotoRemark target :: nodes)
  | noted {index : Int} {message text : String} {notes : List (Int × String)}
      {nodes : List Statement} (place : P index) (note : BlockNote message text)
      (rest : Utters P notes nodes) :
      Utters P ((index, message) :: notes) (.remark text :: nodes)

namespace Utters

variable {P : Int → Prop} {notes notes' : List (Int × String)} {nodes nodes' : List Statement}

theorem append (h : Utters P notes nodes) (h' : Utters P notes' nodes') :
    Utters P (notes ++ notes') (nodes ++ nodes') := by
  induction h with
  | nil => exact h'
  | marker text role _ ih => exact .marker text role ih
  | goto target _ ih => exact .goto target ih
  | noted hplace hnote _ ih => exact .noted hplace hnote ih

theorem scaffold (h : Utters P notes nodes) : Scaffold nodes := by
  induction h with
  | nil => exact nofun
  | marker text role _ ih => exact List.forall_mem_cons.mpr ⟨.inl ⟨text, role, rfl⟩, ih⟩
  | goto target _ ih => exact List.forall_mem_cons.mpr ⟨.inr ⟨_, rfl⟩, ih⟩
  | noted _ _ _ ih => exact List.forall_mem_cons.mpr ⟨.inr ⟨_, rfl⟩, ih⟩

/-- Blocks that are closed one after the other, each with a note and a remark. -/
theorem each {index : Int} (hindex : P index) {message text : Block → String}
    (hnote : ∀ block, BlockNote (message block) (text block)) (blocks : List Block) :
    Utters P (blocks.map fun block => (index, message block))
      (blocks.flatMap fun block => [.remark (text block), .closing]) := by
  induction blocks with
  | nil => exact .nil
  | cons block rest ih => exact .noted hindex (hnote block) (.marker _ _ ih)

end Utters

namespace Blocks

variable {P : Int → Prop} {b : Blocks}

/-- What comes out of an operation on blocks, and what is noted meanwhile at indexes with `P`. -/
def Speaks (P : Int → Prop) (b : Blocks) (result : List Statement × Blocks) : Prop :=
  ∃ notes, result.2.anomalies = b.anomalies ++ notes ∧ Utters P notes result.1

/-- Something comes out and nothing is noted. -/
theorem speaks_unnoted {nodes : List Statement} {b' : Blocks} (hb : b'.anomalies = b.anomalies)
    (hnodes : Utters P [] nodes) : b.Speaks P (nodes, b') :=
  ⟨[], hb.trans (List.append_nil _).symm, hnodes⟩

theorem Speaks.append {nodes more : List Statement} {b₁ b₂ : Blocks} (h : b.Speaks P (nodes, b₁))
    (h' : b₁.Speaks P (more, b₂)) : b.Speaks P (nodes ++ more, b₂) := by
  obtain ⟨notes, hb, hnodes⟩ := h
  obtain ⟨notes', hb', hmore⟩ := h'
  exact ⟨notes ++ notes', by rw [hb', hb, List.append_assoc], hnodes.append hmore⟩

variable {index : Int}

theorem close_speaks (b : Blocks) (id : Nat) (hindex : P index) :
    b.Speaks P (b.close id index) := by
  refine ⟨_, rfl, ?_⟩
  rw [← List.append_nil (List.map _ _)]
  refine (Utters.each hindex .early _).append ?_
  split
  · exact .nil
  · exact .marker _ _ .nil

theorem settle_speaks (b : Blocks) (hindex : P index) (item : Nat × MarkerRole) :
    b.Speaks P (b.settle index item) := by
  unfold settle
  split
  · split
    · exact speaks_unnoted rfl (.marker _ _ .nil)
    · exact b.close_speaks _ hindex
  · exact speaks_unnoted rfl .nil

theorem settleAll_speaks (hindex : P index) (items : List (Nat × MarkerRole)) (b : Blocks) :
    b.Speaks P (b.settleAll index items) := by
  induction items generalizing b with
  | nil => exact speaks_unnoted rfl .nil
  | cons item rest ih => exact (b.settle_speaks hindex item).append (ih _)

theorem openLoops_speaks (index : Int) (count : Nat) (b : Blocks) :
    b.Speaks P (b.openLoops index count) := by
  induction count generalizing b with
  | zero => exact speaks_unnoted rfl .nil
  | succ count ih =>
    obtain ⟨notes, hb, hnodes⟩ := ih (b.push .loop index none)
    exact ⟨notes, hb, .marker _ _ hnodes⟩

theorem due_speaks (b : Blocks) (hindex : P index) : b.Speaks P (b.due index) :=
  Speaks.append (settleAll_speaks hindex _ { b with pending := b.pending.erase index })
    (openLoops_speaks index _ { (b.settleDue index).2 with headers := _ })

theorem openConditional_speaks (b : Blocks) (index offset : Int) (condition : String) :
    b.Speaks P ([(b.openConditional index offset condition).1],
      (b.openConditional index offset condition).2) := by
  unfold openConditional
  split <;> exact speaks_unnoted rfl (.marker _ _ .nil)

theorem jump_speaks (b : Blocks) (hindex : P index) (offset : Int) :
    b.Speaks P (b.jump index offset) := by
  unfold jump
  dsimp only
  split
  · split
    · exact b.close_speaks _ hindex
    · exact ⟨[_], rfl, .noted hindex (.backEdge _ _) .nil⟩
  · split
    · exact speaks_unnoted rfl (.goto _ .nil)
    · split <;> exact speaks_unnoted rfl .nil

theorem dueAll_speaks (indexes : List Int) (hindexes : ∀ index ∈ indexes, P index) (b : Blocks) :
    b.Speaks P (b.dueAll indexes) := by
  induction indexes generalizing b with
  | nil => exact speaks_unnoted rfl .nil
  | cons index rest ih =>
    obtain ⟨hindex, hrest⟩ := List.forall_mem_cons.mp hindexes
    exact (b.due_speaks hindex).append (ih hrest _)

theorem finish_speaks (b : Blocks) {endIndex : Int} (hend : P endIndex)
    (hpending : ∀ index ∈ b.pendingIndexes, P index) : b.Speaks P (b.finish endIndex) := by
  have hdue : b.Speaks P ((b.dueAll b.pendingIndexes).1, (b.dueAll b.pendingIndexes).2) :=
    dueAll_speaks _ hpending b
  refine hdue.append ?_
  exact ⟨_, rfl, Utters.each hend .leftOpen _⟩

theorem Speaks.scaffold {result : List Statement × Blocks} (h : b.Speaks P result) :
    Scaffold result.1 :=
  h.elim fun _ h => h.2.scaffold

theorem due_scaffold (b : Blocks) (index : Int) : Scaffold (b.due index).1 :=
  (b.due_speaks (P := fun _ => True) trivial).scaffold

theorem openConditional_scaffold (b : Blocks) (index offset : Int) (condition : String) :
    Scaffold [(b.openConditional index offset condition).1] :=
  (b.openConditional_speaks (P := fun _ => True) index offset condition).scaffold

theorem jump_scaffold (b : Blocks) (index offset : Int) : Scaffold (b.jump index offset).1 :=
  (b.jump_speaks (P := fun _ => True) trivial offset).scaffold

theorem finish_scaffold (b : Blocks) (endIndex : Int) : Scaffold (b.finish endIndex).1 :=
  (b.finish_speaks (P := fun _ => True) trivial fun _ _ => trivial).scaffold

end Blocks

end LuaRecovery

/-
The passages of a body.

A body grows by one passage after another.  Some are the markers that were pending at an index of
the code; the others belong to the instruction there, the loops that start at it included.  The
places of a body can thus be traced back to the code, and `Lands` says that a place is where an
index of the code begins: behind all that belongs to what comes before the index, and before all
that belongs to the rest.

`Tiles` is what a growing list of passages keeps: they cover the body once, and every pending marker
lands on its index.  The passages need not be in the order of the code for that.  It is enough that
markers come out at increasing indexes, and that an instruction adds nothing once markers have come
out at a later index.
-/
import LuaRecovery.Blocks.Basic

namespace LuaRecovery

/-- A part of a body that comes out at once, from the place `first` to before the place `last`:
the markers that were pending at an index, or else what belongs to the instruction there. -/
structure Passage where
  index : Int
  pending : Bool
  first : Nat
  last : Nat
  deriving DecidableEq, Repr

namespace Passage

/-- A place lies in a passage for an index. -/
def Holds (passages : List Passage) (pending : Bool) (index : Int) (place : Nat) : Prop :=
  ∃ passage ∈ passages, passage.pending = pending ∧ passage.index = index ∧
    passage.first ≤ place ∧ place < passage.last

/-- A place is where an index begins. -/
def Lands (passages : List Passage) (index : Int) (place : Nat) : Prop :=
  ∀ pending k other, Holds passages pending k other →
    (k < index → other < place) ∧ (index < k ∨ index = k ∧ pending = false → place < other)

variable {passages more : List Passage} {passage : Passage} {pending : Bool} {index next : Int}
  {place size : Nat}

theorem Holds.append_left (h : Holds passages pending index place) (more : List Passage) :
    Holds (passages ++ more) pending index place := by
  obtain ⟨passage, hmem, hpassage⟩ := h
  exact ⟨passage, List.mem_append_left _ hmem, hpassage⟩

theorem holds_last (passages : List Passage) (hfirst : passage.first ≤ place)
    (hlast : place < passage.last) :
    Holds (passages ++ [passage]) passage.pending passage.index place :=
  ⟨passage, by simp, rfl, rfl, hfirst, hlast⟩

theorem Holds.cases (h : Holds (passages ++ [passage]) pending index place) :
    Holds passages pending index place ∨
      passage.pending = pending ∧ passage.index = index ∧ passage.first ≤ place ∧
        place < passage.last := by
  obtain ⟨other, hmem, hother⟩ := h
  rcases List.mem_append.mp hmem with hold | hnew
  · exact .inl ⟨other, hold, hother⟩
  · rw [List.mem_singleton.mp hnew] at hother
    exact .inr hother

/-- Passages that cover a body of a size once, all for indexes before `next`, in which every pending
marker lands on its index. -/
structure Tiles (passages : List Passage) (next : Int) (size : Nat) : Prop where
  covers : ∀ place < size, ∃ pending index, Holds passages pending index place
  once : ∀ {pending pending' index index' place}, Holds passages pending index place →
    Holds passages pending' index' place → pending = pending' ∧ index = index'
  within : ∀ pending index place, Holds passages pending index place → index < next ∧ place < size
  lands : ∀ index place, Holds passages true index place → Lands passages index place

namespace Tiles

theorem nil (next : Int) : Tiles [] next 0 := by
  refine ⟨fun place hplace => ?_, fun h => ?_, fun pending index place h => ?_,
    fun index place h => ?_⟩
  · omega
  · obtain ⟨passage, hmem, -⟩ := h
    simp at hmem
  · obtain ⟨passage, hmem, -⟩ := h
    simp at hmem
  · obtain ⟨passage, hmem, -⟩ := h
    simp at hmem

theorem mono {next' : Int} (h : Tiles passages next size) (hnext : next ≤ next') :
    Tiles passages next' size := by
  refine ⟨h.covers, h.once, fun pending index place hplace => ?_, h.lands⟩
  have hwithin := h.within pending index place hplace
  omega

/-- A passage is added behind all others. -/
theorem add (h : Tiles passages next size) (hfirst : passage.first = size)
    (hlast : passage.first ≤ passage.last) (hindex : passage.index < next)
    (hmarkers : ∀ index place, Holds passages true index place → index ≤ passage.index)
    (hpending : passage.pending = true →
      ∀ pending index place, Holds passages pending index place → index < passage.index) :
    Tiles (passages ++ [passage]) next passage.last := by
  refine ⟨fun place hplace => ?_, fun {pending pending' index index' place} hplace hplace' => ?_,
    fun pending index place hplace => ?_, fun index place hplace => ?_⟩
  · by_cases hlt : place < size
    · obtain ⟨pending, index, hold⟩ := h.covers place hlt
      exact ⟨pending, index, hold.append_left _⟩
    · exact ⟨passage.pending, passage.index, holds_last passages (by omega) hplace⟩
  · rcases hplace.cases with hold | ⟨rfl, rfl, hge, -⟩
    · have hsize := (h.within pending index place hold).2
      rcases hplace'.cases with hold' | ⟨-, -, hge', -⟩
      · exact h.once hold hold'
      · omega
    · rcases hplace'.cases with hold' | ⟨rfl, rfl, -⟩
      · have hsize := (h.within pending' index' place hold').2
        omega
      · exact ⟨rfl, rfl⟩
  · rcases hplace.cases with hold | ⟨-, hindex', -, hplace⟩
    · have hwithin := h.within pending index place hold
      omega
    · omega
  · intro pending k other hother
    rcases hplace.cases with hplace | ⟨hmarker, rfl, hge, -⟩
    · have hsize := (h.within true index place hplace).2
      rcases hother.cases with hother | ⟨-, rfl, hge, -⟩
      · exact h.lands index place hplace pending k other hother
      · have hle := hmarkers index place hplace
        exact ⟨fun hlt => by omega, fun _ => by omega⟩
    · rcases hother.cases with hother | ⟨hmarker', rfl, -, -⟩
      · have hlt := hpending hmarker pending k other hother
        have hsize := (h.within pending k other hother).2
        exact ⟨fun _ => by omega, fun hgt => by omega⟩
      · refine ⟨fun hlt => by omega, fun hgt => ?_⟩
        rcases hgt with hgt | ⟨-, hfalse⟩
        · omega
        · rw [← hmarker', hmarker] at hfalse
          cases hfalse

/-- The markers that are pending at an index come out before anything else there. -/
theorem pend (h : Tiles passages index size) {last : Nat} (hlast : size ≤ last) :
    Tiles (passages ++ [⟨index, true, size, last⟩]) (index + 1) last := by
  have hbefore : ∀ pending k place, Holds passages pending k place → k < index :=
    fun pending k place hplace => (h.within pending k place hplace).1
  refine add (h.mono (by omega)) rfl hlast (Int.lt_succ index) (fun k place hplace => ?_)
    fun _ => hbefore
  exact Int.le_of_lt (hbefore true k place hplace)

/-- An instruction adds to the body, and no marker for a later index has come out. -/
theorem emit (h : Tiles passages next size) (index : Int) {last : Nat} (hlast : size ≤ last)
    (hindex : index < next)
    (hmarkers : ∀ k place, Holds passages true k place → k ≤ index) :
    Tiles (passages ++ [⟨index, false, size, last⟩]) next last :=
  add h rfl hlast hindex hmarkers fun hfalse => by simp at hfalse

/-- A passage without places changes nothing. -/
theorem empty (h : Tiles passages next size) (index : Int) (pending : Bool) :
    Tiles (passages ++ [⟨index, pending, size, size⟩]) next size := by
  have hsame : ∀ pending' k place,
      Holds (passages ++ [⟨index, pending, size, size⟩]) pending' k place →
      Holds passages pending' k place := by
    intro pending' k place hplace
    rcases hplace.cases with hold | ⟨-, -, hge, hlt⟩
    · exact hold
    · exact absurd hge (Nat.not_le_of_lt hlt)
  refine ⟨fun place hplace => ?_, fun hplace hplace' => ?_, fun pending k place hplace => ?_,
    fun k place hplace => ?_⟩
  · obtain ⟨pending, k, hold⟩ := h.covers place hplace
    exact ⟨pending, k, hold.append_left _⟩
  · exact h.once (hsame _ _ _ hplace) (hsame _ _ _ hplace')
  · exact h.within pending k place (hsame _ _ _ hplace)
  · intro pending k' other hother
    exact h.lands k place (hsame _ _ _ hplace) pending k' other (hsame _ _ _ hother)

end Tiles

end Passage

/-! ### What is due -/

namespace Blocks

open Passage

/-- The passages of what is due at indexes, one after the other, from a place on: at each index the
pending markers, and then the loops that start there. -/
def duePassages (b : Blocks) (place : Nat) : List Int → List Passage
  | [] => []
  | index :: rest =>
    let settled := place + (b.settleDue index).1.length
    let done := place + (b.due index).1.length
    ⟨index, true, place, settled⟩ :: ⟨index, false, settled, done⟩
      :: (b.due index).2.duePassages done rest

variable {b : Blocks} {passages : List Passage} {index : Int} {size : Nat}

theorem due_length (b : Blocks) (index : Int) :
    (b.settleDue index).1.length ≤ (b.due index).1.length := by
  show _ ≤ ((b.settleDue index).1 ++ _).length
  simp

theorem duePassages_singleton (b : Blocks) (place : Nat) (index : Int) :
    b.duePassages place [index] = [⟨index, true, place, place + (b.settleDue index).1.length⟩] ++
        [⟨index, false, place + (b.settleDue index).1.length, place + (b.due index).1.length⟩] :=
  rfl

theorem duePassages_cons (b : Blocks) (place : Nat) (index : Int) (rest : List Int) :
    b.duePassages place (index :: rest) = b.duePassages place [index] ++
      (b.due index).2.duePassages (place + (b.due index).1.length) rest := rfl

/-- What is due at an index covers its part of the body. -/
theorem duePassages_tiles (h : Tiles passages index size) (b : Blocks) :
    Tiles (passages ++ b.duePassages size [index]) (index + 1) (size + (b.due index).1.length) := by
  have hle := b.due_length index
  have hpend : Tiles (passages ++ [⟨index, true, size, size + (b.settleDue index).1.length⟩])
      (index + 1) (size + (b.settleDue index).1.length) := h.pend (by omega)
  rw [duePassages_singleton, ← List.append_assoc]
  refine hpend.emit index (by omega) (by omega) fun k place hplace => ?_
  have := (hpend.within true k place hplace).1
  omega

/-- What is due at increasing indexes covers its part of the body. -/
theorem dueAllPassages_tiles (last : Int) : ∀ {indexes : List Int} (b : Blocks)
    {passages : List Passage} {next : Int} {size : Nat}, Tiles passages next size →
    indexes.Pairwise (· < ·) → (∀ index ∈ indexes, next ≤ index ∧ index < last) → next ≤ last →
    Tiles (passages ++ b.duePassages size indexes) last (size + (b.dueAll indexes).1.length) := by
  intro indexes
  induction indexes with
  | nil =>
    intro b passages next size h _ _ hlast
    rw [duePassages, List.append_nil]
    exact h.mono hlast
  | cons index rest ih =>
    intro b passages next size h hsorted hbounds _
    obtain ⟨hindex, hrest⟩ := List.forall_mem_cons.mp hbounds
    obtain ⟨hlater, hsorted⟩ := List.pairwise_cons.mp hsorted
    have hdue := duePassages_tiles (h.mono hindex.1) b
    have hall : Tiles (passages ++ b.duePassages size [index] ++
        (b.due index).2.duePassages (size + (b.due index).1.length) rest) last
        (size + (b.due index).1.length + ((b.due index).2.dueAll rest).1.length) := by
      refine ih (b.due index).2 hdue hsorted (fun k hk => ?_) (by omega)
      have := hlater k hk
      have := hrest k hk
      omega
    have hlength : (b.dueAll (index :: rest)).1.length =
        (b.due index).1.length + ((b.due index).2.dueAll rest).1.length := List.length_append
    rw [duePassages_cons, ← List.append_assoc, hlength, ← Nat.add_assoc]
    exact hall

end Blocks

end LuaRecovery

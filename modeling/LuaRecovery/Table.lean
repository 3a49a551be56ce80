/-
Finite tables.

A table is the list of its entries in the order in which their keys were first
stored.  Storing under a key that is present keeps the key's place, so a listing
shows first-stored order.  Reading goes through `get?`, and the lemmas at the end
say how storing and erasing change what `get?` sees and which entries there are.
-/
namespace LuaRecovery

/-- Entries in first-stored order.  A key is stored at most once. -/
structure Table (κ α : Type) where
  entries : List (κ × α) := []

namespace Table

variable {κ α : Type} [DecidableEq κ]

/-- The value stored under the first entry for `k`. -/
def find (k : κ) : List (κ × α) → Option α
  | [] => none
  | (k', v) :: rest => if k' = k then some v else find k rest

/-- The entries with `v` stored under `k`, in place if `k` is present. -/
def put (k : κ) (v : α) : List (κ × α) → List (κ × α)
  | [] => [(k, v)]
  | (k', v') :: rest => if k' = k then (k, v) :: rest else (k', v') :: put k v rest

/-- The entries without those for `k`. -/
def remove (k : κ) : List (κ × α) → List (κ × α)
  | [] => []
  | (k', v') :: rest => if k' = k then remove k rest else (k', v') :: remove k rest

/-- The value stored under `k`. -/
def get? (t : Table κ α) (k : κ) : Option α := find k t.entries

/-- Store `v` under `k`. -/
def insert (t : Table κ α) (k : κ) (v : α) : Table κ α := ⟨put k v t.entries⟩

/-- Forget what is stored under `k`. -/
def erase (t : Table κ α) (k : κ) : Table κ α := ⟨remove k t.entries⟩

/-- Whether something is stored under `k`. -/
def contains (t : Table κ α) (k : κ) : Bool := (t.get? k).isSome

/-- The stored keys. -/
def keys (t : Table κ α) : List κ := t.entries.map Prod.fst

/-- The stored values. -/
def values (t : Table κ α) : List α := t.entries.map Prod.snd

/-- The number of entries. -/
def size (t : Table κ α) : Nat := t.entries.length

/-- Keep the entries whose value satisfies `p`. -/
def filterValues (t : Table κ α) (p : α → Bool) : Table κ α :=
  ⟨t.entries.filter fun e => p e.2⟩

theorem find_put (k j : κ) (v : α) (es : List (κ × α)) :
    find j (put k v es) = if k = j then some v else find j es := by
  induction es with
  | nil => simp [put, find]
  | cons e es ih =>
    obtain ⟨k', v'⟩ := e
    by_cases hk : k' = k
    · subst hk
      by_cases hj : k' = j <;> simp [put, find, hj]
    · by_cases hj : k' = j
      · subst hj
        simp [put, find, hk, Ne.symm hk]
      · simp [put, find, hk, hj, ih]

theorem find_remove (k j : κ) (es : List (κ × α)) :
    find j (remove k es) = if k = j then none else find j es := by
  induction es with
  | nil => simp [remove, find]
  | cons e es ih =>
    obtain ⟨k', v'⟩ := e
    by_cases hk : k' = k
    · subst hk
      by_cases hj : k' = j <;> simp_all [remove, find]
    · by_cases hj : k' = j
      · subst hj
        simp [remove, find, hk, Ne.symm hk]
      · simp [remove, find, hk, hj, ih]

@[simp] theorem get?_insert (t : Table κ α) (k j : κ) (v : α) :
    (t.insert k v).get? j = if k = j then some v else t.get? j :=
  find_put k j v t.entries

@[simp] theorem get?_erase (t : Table κ α) (k j : κ) :
    (t.erase k).get? j = if k = j then none else t.get? j :=
  find_remove k j t.entries

section

variable {k : κ} {v : α} {e : κ × α} {es : List (κ × α)}

theorem mem_put (h : e ∈ put k v es) : e = (k, v) ∨ e ∈ es := by
  induction es with
  | nil => exact .inl (List.mem_singleton.mp h)
  | cons e' es ih =>
    unfold put at h
    split at h
    · exact (List.mem_cons.mp h).imp_right (List.mem_cons_of_mem _)
    · rcases List.mem_cons.mp h with rfl | h
      · exact .inr List.mem_cons_self
      · exact (ih h).imp_right (List.mem_cons_of_mem _)

theorem remove_eq_filter (k : κ) (es : List (κ × α)) : remove k es = es.filter (·.1 ≠ k) := by
  induction es with
  | nil => rfl
  | cons e es ih => by_cases hk : e.1 = k <;> simp [remove, hk, ih]

theorem mem_remove (h : e ∈ remove k es) : e ∈ es ∧ e.1 ≠ k := by
  rw [remove_eq_filter, List.mem_filter] at h
  simpa using h

theorem mem_of_find (h : find k es = some v) : (k, v) ∈ es := by
  induction es with
  | nil => cases h
  | cons e es ih =>
    unfold find at h
    split at h
    · rename_i hk
      cases h
      exact hk ▸ List.mem_cons_self
    · exact List.mem_cons_of_mem _ (ih h)

end

end Table

end LuaRecovery

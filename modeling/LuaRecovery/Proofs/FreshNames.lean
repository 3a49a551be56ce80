/-
New names are new.

The candidates for a base are different names, so among one more of them than there are names
in use one is free, and that is the one that `unique` hands out.  A scene only ever adds to its
names and objects: `Grows` says so of every operation, with what is known of the names that
were added.
-/
import LuaRecovery.Scene.Access

namespace LuaRecovery

open List

/-- A text of characters that names have. -/
def Lua.IsWord (s : String) : Prop := ∀ c ∈ s.toList, isNameChar c = true

namespace NameSupply

/-! ### Candidates -/

theorem toString_inj {i j : Nat} (h : toString i = toString j) : i = j := by
  have hdigits : Nat.toDigits 10 i = Nat.toDigits 10 j := by
    rw [Nat.toString_eq_ofList_toDigits, Nat.toString_eq_ofList_toDigits] at h
    exact String.ofList_injective h
  rw [← Nat.ofDigitChars_toDigits (b := 10) (n := i) (by decide) (by decide), hdigits,
    Nat.ofDigitChars_toDigits (by decide) (by decide)]

theorem base_ne_numbered (base : String) (k : Nat) : base ≠ base ++ "_" ++ toString k := by
  intro h
  have hlength := congrArg String.length h
  rw [String.length_append, String.length_append] at hlength
  have hone : "_".length = 1 := rfl
  omega

variable {base : String}

theorem candidate_inj {i j : Nat} (h : candidate base i = candidate base j) : i = j := by
  unfold candidate at h
  by_cases hi : i = 1
  · by_cases hj : j = 1
    · rw [hi, hj]
    · rw [if_pos hi, if_neg hj] at h
      exact absurd h (base_ne_numbered base j)
  · by_cases hj : j = 1
    · rw [if_neg hi, if_pos hj] at h
      exact absurd h.symm (base_ne_numbered base i)
    · rw [if_neg hi, if_neg hj] at h
      exact toString_inj (String.append_right_inj _ |>.mp h)

/-! ### The first free candidate -/

/-- If the first free candidate is in use, all that were tried are. -/
theorem all_used_of_firstFree {used : List String} (fuel : Nat) :
    ∀ {start : Nat}, 0 < fuel → candidate base (firstFree used base start fuel) ∈ used →
      ∀ k < fuel, candidate base (start + 1 + k) ∈ used := by
  induction fuel with
  | zero => exact fun h => absurd h (Nat.lt_irrefl 0)
  | succ fuel ih =>
    intro start _ hmem k hk
    rw [firstFree] at hmem
    split at hmem
    · rename_i hused
      have hfirst : candidate base (start + 1) ∈ used := contains_iff_mem.mp hused
      cases k with
      | zero => exact hfirst
      | succ k =>
        have hrest := ih (by omega) hmem k (by omega)
        rwa [show start + 1 + (k + 1) = start + 1 + 1 + k by omega]
    · rename_i hfree
      exact absurd (contains_iff_mem.mpr hmem) hfree

/-- The name that is handed out is not in use. -/
theorem unique_fresh (s : NameSupply) (hint : String) : (s.unique hint).1 ∉ s.used := by
  intro hmem
  obtain ⟨start, hstart⟩ : ∃ start, start = (s.counters.get? (Lua.sanitize hint)).getD 0 := ⟨_, rfl⟩
  have hall := all_used_of_firstFree (s.used.length + 1) (Nat.succ_pos _) hmem
  rw [← hstart] at hall
  -- One candidate more than there are names in use, and all of them different.
  have hnodup : ((List.range (s.used.length + 1)).map fun k =>
      candidate (Lua.sanitize hint) (start + 1 + k)).Nodup := by
    refine pairwise_map.mpr (nodup_range.imp ?_)
    intro i j hne heq
    have := candidate_inj heq
    omega
  have hsubset := hnodup.length_le_of_subset fun x hx => by
    obtain ⟨k, hk, rfl⟩ := mem_map.mp hx
    exact hall k (List.mem_range.mp hk)
  rw [length_map, List.length_range] at hsubset
  omega

/-! ### Characters of names -/

theorem isWord_underscored (h : Lua.IsWord base) :
    Lua.IsWord (if Lua.isKeyword base then base ++ "_" else base) := by
  split
  · intro c hc
    rw [String.toList_append, mem_append] at hc
    rcases hc with hc | hc
    · exact h c hc
    · rw [mem_singleton.mp hc]
      decide
  · exact h

theorem isWord_sanitize (hint : String) : Lua.IsWord (Lua.sanitize hint) := by
  refine isWord_underscored ?_
  split
  · exact all_eq_true.mp (by decide)
  · intro c hc
    rw [String.toList_ofList] at hc
    exact (mem_filter.mp ((dropWhile_sublist _).mem hc)).2

theorem isWord_toString (k : Nat) : Lua.IsWord (toString k) := by
  intro c hc
  rw [Nat.toString_eq_ofList_toDigits, String.toList_ofList] at hc
  have hdigit := Nat.isDigit_of_mem_toDigits (by decide) (by decide) hc
  rw [Lua.isNameChar, Char.isAlphanum, hdigit, Bool.or_true, Bool.true_or]

theorem isWord_candidate (h : Lua.IsWord base) (k : Nat) : Lua.IsWord (candidate base k) := by
  unfold candidate
  split
  · exact h
  · intro c hc
    rw [String.toList_append, String.toList_append, mem_append, mem_append] at hc
    rcases hc with (hc | hc) | hc
    · exact h c hc
    · rw [mem_singleton.mp hc]
      decide
    · exact isWord_toString k c hc

end NameSupply

namespace Scene

/-! ### Growth -/

/-- Names and objects were added to a scene.  The names are candidates for hints, and those of the
objects are in use. -/
structure Grows (s s' : Scene) : Prop where
  used : ∀ x ∈ s.names.used, x ∈ s'.names.used
  coined : ∀ x ∈ s'.names.used, x ∈ s.names.used ∨
    ∃ hint k, x = NameSupply.candidate (Lua.sanitize hint) k
  objects : ∀ o ∈ s.objects, o ∈ s'.objects
  named : ∀ o ∈ s'.objects, o ∈ s.objects ∨ o.name ∈ s'.names.used

variable {s s' s'' : Scene}

theorem Grows.refl (s : Scene) : s.Grows s :=
  ⟨fun _ h => h, fun _ h => .inl h, fun _ h => h, fun _ h => .inl h⟩

theorem Grows.trans (h₁ : s.Grows s') (h₂ : s'.Grows s'') : s.Grows s'' where
  used x hx := h₂.used x (h₁.used x hx)
  coined x hx := (h₂.coined x hx).elim (h₁.coined x) .inr
  objects o ho := h₂.objects o (h₁.objects o ho)
  named o ho := (h₂.named o ho).elim (fun h => (h₁.named o h).imp_right (h₂.used _)) .inr

/-- Recorded calls are no part of it. -/
theorem grows_logged (s : Scene) (records : List CallRecord) :
    s.Grows { s with calls := records } :=
  ⟨fun _ h => h, fun _ h => .inl h, fun _ h => h, fun _ h => .inl h⟩

/-- The names that were added are words. -/
theorem Grows.words (h : s.Grows s') : ∀ x ∈ s'.names.used, x ∈ s.names.used ∨ Lua.IsWord x := by
  intro x hx
  refine (h.coined x hx).imp_right ?_
  rintro ⟨hint, k, rfl⟩
  exact NameSupply.isWord_candidate (NameSupply.isWord_sanitize hint) k

/-- A name for a hint is new: it was not in use before, and is now. -/
structure Gives (s s' : Scene) (hint name : String) : Prop where
  fresh : name ∉ s.names.used
  used : name ∈ s'.names.used
  candidate : ∃ k, name = NameSupply.candidate (Lua.sanitize hint) k

theorem Gives.of_grows {hint name : String} (h₁ : s.Grows s') (h : s'.Gives s'' hint name) :
    s.Gives s'' hint name :=
  ⟨fun hmem => h.fresh (h₁.used _ hmem), h.used, h.candidate⟩

theorem Gives.grows {hint name : String} (h : s.Gives s' hint name) (h₂ : s'.Grows s'') :
    s.Gives s'' hint name :=
  ⟨h.fresh, h₂.used _ h.used, h.candidate⟩

theorem uniqueName_gives (s : Scene) (hint : String) :
    s.Gives (s.uniqueName hint).2 hint (s.uniqueName hint).1 :=
  ⟨s.names.unique_fresh hint, mem_cons_self, _, rfl⟩

theorem uniqueName_grows (s : Scene) (hint : String) : s.Grows (s.uniqueName hint).2 where
  used _ hx := mem_cons_of_mem _ hx
  coined x hx := by
    rcases mem_cons.mp hx with rfl | hx
    · exact .inr ⟨hint, _, rfl⟩
    · exact .inl hx
  objects _ ho := ho
  named _ ho := .inl ho

theorem add_grows (s : Scene) (hint : String) (kind : ObjectKind) (parent : Option Nat)
    (key : Option String) : s.Grows (s.add hint kind parent key).2 := by
  have hname := s.uniqueName_grows hint
  refine ⟨hname.used, hname.coined, fun o ho => mem_append_left _ ho, fun o ho => ?_⟩
  rcases mem_append.mp ho with ho | ho
  · exact .inl ho
  · rw [mem_singleton.mp ho]
    exact .inr (s.uniqueName_gives hint).used

theorem child_grows (s : Scene) (parent : Option Nat) (key : String) (kind : ObjectKind)
    (hint : String) : s.Grows (s.child parent key kind hint).2 := by
  unfold child
  cases s.slots.get? (parent, key) with
  | some handle => exact .refl s
  | none =>
    have hadd := s.add_grows hint kind parent (some key)
    exact ⟨hadd.used, hadd.coined, hadd.objects, hadd.named⟩

theorem service_grows (s : Scene) (key : String) : s.Grows (s.service key).2 :=
  s.child_grows _ _ _ _

theorem readGlobal_grows (s : Scene) (name : String) : s.Grows (s.readGlobal name).2 := by
  unfold readGlobal
  split
  · exact .refl s
  · cases aliasedService? name with
    | some key => exact s.service_grows key
    | none => exact .refl s

variable {keyText baseText : String} {outcome : CallOutcome} {reading : Reading} {site : CallSite}
  {handle : Nat}

/-- A field is read at a place. -/
theorem read_cases (h : s.read handle keyText baseText = .ok (reading, s')) :
    ∃ parent key kind hint, s' = (s.child parent key kind hint).2 := by
  unfold read at h
  cases hkey : Lua.unquote? keyText with
  | none =>
    simp only [hkey] at h
    cases h
    exact ⟨_, _, _, _, rfl⟩
  | some key =>
    simp only [hkey] at h
    split at h
    · cases h
      exact ⟨_, _, _, _, rfl⟩
    · cases hkind : s.kindUnder handle key with
      | error fault =>
        rw [hkind] at h
        cases h
      | ok kind =>
        rw [hkind] at h
        cases h
        exact ⟨_, _, _, _, rfl⟩

theorem read_grows (h : s.read handle keyText baseText = .ok (reading, s')) : s.Grows s' := by
  obtain ⟨parent, key, kind, hint, rfl⟩ := read_cases h
  exact s.child_grows parent key kind hint

/-- Calls make objects of their own and look up services. -/
theorem resolve_cases (h : s.resolve site = .ok (outcome, s')) :
    s' = s ∨ (∃ key, s' = (s.service key).2) ∨
      ∃ hint kind parent key, s' = (s.add hint kind parent key).2 := by
  unfold resolve at h
  dsimp only at h
  split at h
  · cases h
    exact .inr (.inr ⟨_, _, _, _, rfl⟩)
  · split at h
    · split at h
      · cases h
        exact .inr (.inl ⟨_, rfl⟩)
      · cases h
        exact .inl rfl
    · split at h
      · cases h
        exact .inr (.inl ⟨_, rfl⟩)
      · split at h
        · cases h
          exact .inr (.inr ⟨_, _, _, _, rfl⟩)
        · split at h
          · rename_i receiver method _ _
            cases hui : s.isUiLibrary receiver with
            | error fault =>
              rw [hui] at h
              cases h
            | ok ui =>
              rw [hui] at h
              cases ui with
              | true =>
                cases h
                exact .inr (.inr ⟨_, _, _, _, rfl⟩)
              | false =>
                cases h
                exact .inl rfl
          · cases h
            exact .inl rfl

/-- A call is resolved, and then its record is added if it crosses the boundary. -/
theorem call_resolves (h : s.call site = .ok (outcome, s')) :
    ∃ made s₁, s.resolve site = .ok (made, s₁) ∧ outcome.callee = made.callee ∧
      outcome.args = made.args ∧ outcome.handle = made.handle ∧
      s' = { s₁ with calls := s₁.calls ++
        ((category? made.callee).map (⟨·, made.callee, made.args⟩)).toList } := by
  unfold call at h
  cases hresolve : s.resolve site with
  | error fault =>
    rw [hresolve] at h
    cases h
  | ok resolved =>
    obtain ⟨made, s₁⟩ := resolved
    rw [hresolve] at h
    simp only [bind, Except.bind] at h
    refine ⟨made, s₁, rfl, ?_⟩
    cases hcategory : category? made.callee with
    | some category =>
      rw [hcategory] at h
      cases h
      exact ⟨rfl, rfl, rfl, rfl⟩
    | none =>
      rw [hcategory] at h
      cases h
      refine ⟨rfl, rfl, rfl, ?_⟩
      rw [Option.map_none, Option.toList_none, append_nil]

theorem call_grows (h : s.call site = .ok (outcome, s')) : s.Grows s' := by
  obtain ⟨made, s₁, hresolve, -, -, -, rfl⟩ := call_resolves h
  have hgrows : s.Grows s₁ := by
    rcases resolve_cases hresolve with rfl | ⟨key, rfl⟩ | ⟨hint, kind, parent, key, rfl⟩
    · exact .refl _
    · exact s.service_grows key
    · exact s.add_grows hint kind parent key
  exact ⟨hgrows.used, hgrows.coined, hgrows.objects, hgrows.named⟩

/-! ### Reading records no call -/

theorem child_calls (s : Scene) (parent : Option Nat) (key : String) (kind : ObjectKind)
    (hint : String) : (s.child parent key kind hint).2.calls = s.calls := by
  unfold child
  cases s.slots.get? (parent, key) <;> rfl

theorem service_calls (s : Scene) (key : String) : (s.service key).2.calls = s.calls :=
  s.child_calls _ _ _ _

theorem readGlobal_calls (s : Scene) (name : String) : (s.readGlobal name).2.calls = s.calls := by
  unfold readGlobal
  split
  · rfl
  · cases aliasedService? name with
    | some key => exact s.service_calls key
    | none => rfl

theorem read_calls (h : s.read handle keyText baseText = .ok (reading, s')) :
    s'.calls = s.calls := by
  obtain ⟨parent, key, kind, hint, rfl⟩ := read_cases h
  exact s.child_calls parent key kind hint

end Scene

end LuaRecovery

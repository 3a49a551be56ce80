/-
Histories of a supply of names.

A supply is asked for names and told of names in use, in any order and with any texts.  The search
for a free number is walked here as it is meant, one number after the other with nothing that
bounds it (`Seeks`); that it comes to an end is shown by the bounded search, which never gets to
its bound.  What it hands out is a name of the language, and over a history of requests two things
stay true: all names that were handed out or reserved are in use, and the numbers of a base only
grow.
-/
import LuaRecovery.Proofs.ExpressionText
import LuaRecovery.Proofs.FreshNames

namespace LuaRecovery

open List

/-! ### Names of the language -/

namespace Lua

variable {s : String} {c : Char}

theorem isNameStart_of_isNameChar (hname : isNameChar c = true) (hdigit : c.isDigit = false) :
    isNameStart c = true := by
  simp only [isNameChar, Char.isAlphanum, hdigit, Bool.or_false] at hname
  exact hname

/-- No keyword has an underscore. -/
theorem not_isKeyword_of_underscore (h : '_' ∈ s.toList) : isKeyword s = false := by
  have hkeywords : keywords.all (fun word => !word.toList.contains '_') = true := by decide
  refine Bool.eq_false_iff.mpr fun hkeyword => ?_
  have hword := all_eq_true.mp hkeywords s (contains_iff_mem.mp hkeyword)
  rw [contains_iff_mem.mpr h] at hword
  cases hword

theorem isIdentifier_of_toList {rest : List Char} (hs : s.toList = c :: rest)
    (hc : isNameStart c = true) (hrest : ∀ d ∈ rest, isNameChar d = true)
    (hkeyword : isKeyword s = false) : isIdentifier s = true := by
  unfold isIdentifier
  rw [hs]
  simp only [hc, all_eq_true.mpr hrest, hkeyword, Bool.not_false, Bool.and_self]

/-- A name stays one with an underscore and more characters of names behind it. -/
theorem isIdentifier_underscored {rest : List Char} (hs : s.toList = c :: rest)
    (hc : isNameStart c = true) (hrest : ∀ d ∈ rest, isNameChar d = true) {more : String}
    (hmore : IsWord more) : isIdentifier (s ++ "_" ++ more) = true := by
  have hlist : (s ++ "_" ++ more).toList = c :: (rest ++ '_' :: more.toList) := by
    rw [String.toList_append, String.toList_append, hs]
    simp
  refine isIdentifier_of_toList hlist hc ?_ (not_isKeyword_of_underscore ?_)
  · rw [forall_mem_append, forall_mem_cons]
    exact ⟨hrest, by decide, hmore⟩
  · rw [hlist]
    simp

/-- Whatever the text, a name is made of it. -/
theorem sanitize_isIdentifier (s : String) : isIdentifier (sanitize s) = true := by
  -- The characters that are left, or the fallback, and then perhaps the underscore.
  have hbase : ∀ base : String, (∃ c rest, base.toList = c :: rest ∧ isNameStart c = true ∧
      ∀ d ∈ rest, isNameChar d = true) →
      isIdentifier (if isKeyword base then base ++ "_" else base) = true := by
    rintro base ⟨c, rest, hlist, hc, hrest⟩
    split
    · have h : isIdentifier (base ++ "_" ++ "") = true :=
        isIdentifier_underscored hlist hc hrest nofun
      rwa [String.append_empty] at h
    · rename_i hkeyword
      exact isIdentifier_of_toList hlist hc hrest (Bool.not_eq_true _ ▸ hkeyword)
  refine hbase _ ?_
  split
  · obtain ⟨c, rest, hlist, hc, hrest, -⟩ := Identifier.chars ⟨fallbackName, by decide⟩
    exact ⟨c, rest, hlist, hc, hrest⟩
  · rename_i hkept
    cases hlist : (s.toList.filter isNameChar).dropWhile Char.isDigit with
    | nil =>
      rw [hlist] at hkept
      exact absurd rfl hkept
    | cons c rest =>
      have hname : ∀ d ∈ c :: rest, isNameChar d = true := by
        intro d hd
        rw [← hlist] at hd
        exact (mem_filter.mp ((dropWhile_sublist _).mem hd)).2
      have hdigit : c.isDigit = false := by
        have h := head?_dropWhile_not Char.isDigit (s.toList.filter isNameChar)
        rw [hlist] at h
        exact h
      obtain ⟨hc, hrest⟩ := forall_mem_cons.mp hname
      exact ⟨c, rest, String.toList_ofList, isNameStart_of_isNameChar hc hdigit, hrest⟩

end Lua

namespace NameSupply

theorem candidate_isIdentifier {base : String} (h : Lua.isIdentifier base = true) (k : Nat) :
    Lua.isIdentifier (candidate base k) = true := by
  unfold candidate
  split
  · exact h
  · obtain ⟨c, rest, hlist, hc, hrest, -⟩ := Lua.Identifier.chars ⟨base, h⟩
    exact Lua.isIdentifier_underscored hlist hc hrest (isWord_toString k)

/-! ### The search for a free number -/

/-- The search for a free number after `start`: the next number is tried, and if its candidate is
in use the search goes on from there. -/
inductive Seeks (used : List String) (base : String) : Nat → Nat → Prop
  | free {start : Nat} (unused : candidate base (start + 1) ∉ used) :
      Seeks used base start (start + 1)
  | taken {start k : Nat} (inUse : candidate base (start + 1) ∈ used)
      (rest : Seeks used base (start + 1) k) : Seeks used base start k

variable {used : List String} {base : String}

theorem Seeks.lt {start k : Nat} (h : Seeks used base start k) : start < k := by
  induction h with
  | free => exact Nat.lt_succ_self _
  | taken _ _ ih => exact Nat.lt_of_succ_lt ih

/-- A search ends in one number only. -/
theorem Seeks.unique {start k k' : Nat} (h : Seeks used base start k)
    (h' : Seeks used base start k') : k = k' := by
  induction h with
  | free hunused =>
    cases h' with
    | free => rfl
    | taken hinUse => exact absurd hinUse hunused
  | taken hinUse _ ih =>
    cases h' with
    | free hunused => exact absurd hinUse hunused
    | taken _ hrest => exact ih hrest

/-- The bounded search is the search, if it finds something. -/
theorem seeks_firstFree (fuel : Nat) : ∀ {start : Nat}, 0 < fuel →
    candidate base (firstFree used base start fuel) ∉ used →
    Seeks used base start (firstFree used base start fuel) := by
  induction fuel with
  | zero => exact fun h => absurd h (Nat.lt_irrefl 0)
  | succ fuel ih =>
    intro start _ hfree
    rw [firstFree] at hfree ⊢
    split at hfree
    · rename_i hused
      rw [if_pos hused]
      refine .taken (contains_iff_mem.mp hused) ?_
      cases fuel with
      | zero => exact absurd (contains_iff_mem.mp hused) hfree
      | succ fuel => exact ih (Nat.succ_pos fuel) hfree
    · rename_i hunused
      rw [if_neg hunused]
      exact .free hfree

/-- The number that was last tried for a base. -/
def lastNumber (s : NameSupply) (base : String) : Nat := (s.counters.get? base).getD 0

/-- A supply hands a name out for a hint: the search for a number comes to an end, and the name is
the base, or the base with the number from two up behind it. -/
structure HandsOut (s : NameSupply) (hint : String) (k : Nat) (name : String) : Prop where
  seeks : Seeks s.used (Lua.sanitize hint) (s.lastNumber (Lua.sanitize hint)) k
  form : k = 1 ∧ name = Lua.sanitize hint ∨ 2 ≤ k ∧ name = Lua.sanitize hint ++ "_" ++ toString k

theorem HandsOut.candidate {s : NameSupply} {hint name : String} {k : Nat}
    (h : s.HandsOut hint k name) : name = NameSupply.candidate (Lua.sanitize hint) k := by
  unfold NameSupply.candidate
  rcases h.form with ⟨hk, hname⟩ | ⟨hk, hname⟩
  · rw [if_pos hk, hname]
  · rw [if_neg (by omega), hname]

variable (requests : List Request) (s : NameSupply) (request : Request)

/-- Every request for a name is answered, and the number of the answer is the last of its base. -/
theorem unique_handsOut (hint : String) : ∃ k, s.HandsOut hint k (s.unique hint).1 ∧
      (s.unique hint).2.lastNumber (Lua.sanitize hint) = k := by
  have hseeks := seeks_firstFree (s.used.length + 1) (Nat.succ_pos _) (s.unique_fresh hint)
  refine ⟨_, ⟨hseeks, ?_⟩, ?_⟩
  · show _ ∨ _ ∧ NameSupply.candidate _ _ = _
    unfold NameSupply.candidate
    have hpos := hseeks.lt
    split
    · exact .inl ⟨‹_›, if_pos ‹_›⟩
    · exact .inr ⟨by omega, rfl⟩
  · show ((s.counters.insert _ _).get? _).getD 0 = _
    simp

/-! ### Histories -/

/-- What a supply is asked for: a name for a hint, or to put a name in use. -/
inductive Request where
  | unique (hint : String)
  | reserve (name : String)

/-- The name that a request puts in use, which is the answer to a hint, and the supply then. -/
def answer (s : NameSupply) : Request → String × NameSupply
  | .unique hint => s.unique hint
  | .reserve name => (name, s.reserve name)

/-- The supply after requests. -/
def afterAll (s : NameSupply) (requests : List Request) : NameSupply :=
  requests.foldl (fun s request => (s.answer request).2) s

/-- The names that requests put in use, one after the other. -/
def answers (s : NameSupply) : List Request → List String
  | [] => []
  | request :: rest => (s.answer request).1 :: (s.answer request).2.answers rest

theorem answer_used : (s.answer request).2.used = (s.answer request).1 :: s.used := by
  cases request <;> rfl

/-- The numbers of a base only grow. -/
theorem answer_lastNumber (base : String) :
    s.lastNumber base ≤ (s.answer request).2.lastNumber base := by
  cases request with
  | reserve name => exact Nat.le_refl _
  | unique hint =>
    by_cases hbase : Lua.sanitize hint = base
    · obtain ⟨k, hhands, hlast⟩ := s.unique_handsOut hint
      rw [hbase] at hlast
      exact hlast ▸ hbase ▸ Nat.le_of_lt hhands.seeks.lt
    · refine Nat.le_of_eq (congrArg (Option.getD · 0) ?_)
      exact (Table.get?_insert _ _ _ _).trans (if_neg hbase) |>.symm

/-- What was handed out or reserved is in use. -/
theorem answers_used : ∀ (s : NameSupply) {name : String},
    name ∈ s.used ∨ name ∈ s.answers requests → name ∈ (s.afterAll requests).used := by
  induction requests with
  | nil => exact fun s name h => h.resolve_right not_mem_nil
  | cons request rest ih =>
    intro s name h
    refine ih _ ?_
    rw [answer_used, mem_cons]
    rw [answers, mem_cons] at h
    rcases h with hused | hanswer | hrest
    · exact .inl (.inr hused)
    · exact .inl (.inl hanswer)
    · exact .inr hrest

theorem afterAll_lastNumber : ∀ (s : NameSupply) (base : String),
    s.lastNumber base ≤ (s.afterAll requests).lastNumber base := by
  induction requests with
  | nil => exact fun s base => Nat.le_refl _
  | cons request rest ih =>
    exact fun s base => Nat.le_trans (s.answer_lastNumber request base) (ih _ base)

/-- **A supply of names never runs out.**  After any requests, a request for a name is answered:
the search for a free number comes to an end.  The answer is a name of the language and no keyword;
it is none of the names handed out or reserved before; it is the base that the hint gives, or that
base with a number from two up; and the number is larger than that of any earlier answer for the
same base. -/
theorem unique_always_new (before : List Request) (hint : String) :
    ∃ k name, ((afterAll {} before).unique hint).1 = name ∧
      (afterAll {} before).HandsOut hint k name ∧ Lua.isIdentifier name = true ∧
      name ∉ answers {} before ∧
      ∀ earlier hint' later k' name', before = earlier ++ .unique hint' :: later →
        Lua.sanitize hint' = Lua.sanitize hint →
        (afterAll {} earlier).HandsOut hint' k' name' → k' < k := by
  obtain ⟨k, hhands, -⟩ := (afterAll {} before).unique_handsOut hint
  refine ⟨k, _, rfl, hhands, ?_, fun hmem => ?_, ?_⟩
  · rw [hhands.candidate]
    exact candidate_isIdentifier (Lua.sanitize_isIdentifier hint) k
  · exact unique_fresh _ hint (answers_used before {} (.inr hmem))
  · rintro earlier hint' later k' name' rfl hbase hearlier
    -- The number of the earlier answer was the last one of the base then.
    obtain ⟨k₁, hhands₁, hlast⟩ := (afterAll {} earlier).unique_handsOut hint'
    have hk : k' = k₁ := hearlier.seeks.unique hhands₁.seeks
    calc k' = ((afterAll {} earlier).unique hint').2.lastNumber (Lua.sanitize hint) := by
          rw [hk, ← hbase, hlast]
      _ ≤ (afterAll {} (earlier ++ .unique hint' :: later)).lastNumber (Lua.sanitize hint) := by
          unfold afterAll
          rw [foldl_append]
          exact afterAll_lastNumber later _ _
      _ < k := hhands.seeks.lt

/-- A name that looks like a later answer and was reserved is passed over. -/
theorem unique_passes_over_reserved :
    ∃ k, (afterAll {} [.unique "v0", .reserve "v0_2"]).HandsOut "v0" k "v0_3" ∧ 1 < k := by
  obtain ⟨k, name, hname, hhands, -, -, hgrows⟩ :=
    unique_always_new [.unique "v0", .reserve "v0_2"] "v0"
  obtain rfl : "v0_3" = name := Eq.trans (by decide +kernel) hname
  have hfirst : (afterAll {} []).HandsOut "v0" 1 "v0" :=
    ⟨.free not_mem_nil, .inl ⟨rfl, by decide +kernel⟩⟩
  exact ⟨k, hhands, hgrows [] "v0" [.reserve "v0_2"] 1 "v0" rfl rfl hfirst⟩

end NameSupply

end LuaRecovery

/-
What a string literal stands for to the scene.

The scene takes a text in double quotes for a string.  It takes the escapes of quotes and of
backslashes back, in two passes from left to right, and leaves all other escapes as they are.
Of the literal for a string this gives the string in which control characters, and only those,
are still written by their escapes.
-/
import LuaRecovery.Lua.Quote

namespace LuaRecovery.Lua

open List

/-- A character that a literal has no place for. -/
def IsControl (c : Char) : Prop := c.toNat < 32 ∨ c.toNat = 127

/-- A character of a string as the scene sees it in the literal. -/
def shown (c : Char) : List Char := if c = '\\' ∨ c = '"' then [c] else escape c

/-! ### Escapes -/

theorem isDigit_of_mem_zeroPadded {width n : Nat} {d : Char} (h : d ∈ Text.zeroPadded width n) :
    d.isDigit = true := by
  rcases mem_append.mp h with h | h
  · rw [eq_of_mem_replicate h]
    rfl
  · exact Nat.isDigit_of_mem_toDigits (by decide) (by decide) h

theorem zeroPadded_ne_nil (width n : Nat) : Text.zeroPadded width n ≠ [] := by
  intro h
  exact Nat.toDigits_ne_nil (append_eq_nil_iff.mp h).2

/-- A backslash and a quote have an escape with a backslash, a control character one with other
characters after the backslash, and any other character stands for itself. -/
theorem escape_cases (c : Char) :
    (c = '\\' ∧ escape c = ['\\', '\\']) ∨ (c = '"' ∧ escape c = ['\\', '"']) ∨
      (IsControl c ∧ ∃ d rest, escape c = '\\' :: d :: rest ∧ ∀ e ∈ d :: rest, e ≠ '\\' ∧ e ≠ '"') ∨
      (c ≠ '\\' ∧ c ≠ '"' ∧ escape c = [c]) := by
  unfold escape
  by_cases hbackslash : c = '\\'
  · exact .inl ⟨hbackslash, if_pos hbackslash⟩
  rw [if_neg hbackslash]
  by_cases hquote : c = '"'
  · exact .inr (.inl ⟨hquote, if_pos hquote⟩)
  rw [if_neg hquote]
  refine .inr (.inr ?_)
  by_cases hnewline : c = '\n'
  · subst hnewline
    exact .inl ⟨.inl (by decide), 'n', [], rfl, by simp⟩
  rw [if_neg hnewline]
  by_cases hreturn : c = '\r'
  · subst hreturn
    exact .inl ⟨.inl (by decide), 'r', [], rfl, by simp⟩
  rw [if_neg hreturn]
  by_cases htab : c = '\t'
  · subst htab
    exact .inl ⟨.inl (by decide), 't', [], rfl, by simp⟩
  rw [if_neg htab]
  by_cases hcontrol : c.toNat < 32 ∨ c.toNat = 127
  · rw [if_pos hcontrol]
    obtain ⟨d, rest, hdigits⟩ := exists_cons_of_ne_nil (zeroPadded_ne_nil 3 c.toNat)
    refine .inl ⟨hcontrol, d, rest, by rw [hdigits], fun e he => ?_⟩
    have hdigit : e.isDigit = true := isDigit_of_mem_zeroPadded (hdigits ▸ he)
    constructor <;> rintro rfl <;> exact absurd hdigit (by decide)
  · rw [if_neg hcontrol]
    exact .inr ⟨hbackslash, hquote, rfl⟩

theorem shown_of_not_control {c : Char} (h : ¬ IsControl c) : shown c = [c] := by
  unfold shown
  split
  · rfl
  · rename_i hc
    rcases escape_cases c with ⟨rfl, -⟩ | ⟨rfl, -⟩ | ⟨hcontrol, -⟩ | ⟨-, -, hescape⟩
    · exact absurd (.inl rfl) hc
    · exact absurd (.inr rfl) hc
    · exact absurd hcontrol h
    · exact hescape

theorem flatMap_shown {cs : List Char} (h : ∀ c ∈ cs, ¬ IsControl c) : cs.flatMap shown = cs := by
  induction cs with
  | nil => rfl
  | cons c cs ih =>
    rw [flatMap_cons, shown_of_not_control (h c mem_cons_self),
      ih fun d hd => h d (mem_cons_of_mem _ hd)]
    rfl

/-! ### Taking escapes back -/

/-- A character that is not the first of the pair, or that the second does not follow, stays. -/
theorem collapse_cons {x y z c : Char} {rest : List Char} (h : c ≠ x ∨ rest.head? ≠ some y) :
    collapse x y z (c :: rest) = c :: collapse x y z rest := by
  cases rest with
  | nil => rfl
  | cons d rest =>
    rw [collapse, if_neg]
    rintro ⟨hc, hd⟩
    exact h.elim (fun h => h hc) (fun h => h (congrArg some hd))

theorem collapse_append {x y z : Char} (rest : List Char) {cs : List Char} (h : ∀ c ∈ cs, c ≠ x) :
    collapse x y z (cs ++ rest) = cs ++ collapse x y z rest := by
  induction cs with
  | nil => rfl
  | cons c cs ih =>
    rw [cons_append, collapse_cons (.inl (h c mem_cons_self)),
      ih fun d hd => h d (mem_cons_of_mem _ hd)]
    rfl

theorem collapse_pair (x y z : Char) (rest : List Char) :
    collapse x y z (x :: y :: rest) = z :: collapse x y z rest := by
  rw [collapse, if_pos ⟨rfl, rfl⟩]

/-- The escape of a character after the first pass. -/
def halfEscape (c : Char) : List Char := if c = '"' then [c] else escape c

theorem head?_flatMap_escape (cs : List Char) : (cs.flatMap escape).head? ≠ some '"' := by
  cases cs with
  | nil => exact nofun
  | cons c cs =>
    rw [flatMap_cons]
    rcases escape_cases c with ⟨-, h⟩ | ⟨-, h⟩ | ⟨-, d, rest, h, -⟩ | ⟨-, hquote, h⟩
    · simp [h]
    · simp [h]
    · simp [h]
    · simpa [h] using hquote

/-- The first pass takes the escaped quotes back. -/
theorem collapse_flatMap_escape (cs : List Char) :
    collapse '\\' '"' '"' (cs.flatMap escape) = cs.flatMap halfEscape := by
  induction cs with
  | nil => rfl
  | cons c cs ih =>
    rw [flatMap_cons, flatMap_cons, ← ih]
    unfold halfEscape
    rcases escape_cases c with
      ⟨rfl, h⟩ | ⟨rfl, h⟩ | ⟨-, d, rest, h, hrest⟩ | ⟨hbackslash, hquote, h⟩
    · -- The quote that would make the second backslash an escape is itself escaped.
      rw [h, if_neg (by decide), cons_append, cons_append, nil_append,
        collapse_cons (.inr (by simp)), collapse_cons (.inr (head?_flatMap_escape cs))]
      rfl
    · rw [h, if_pos rfl]
      exact collapse_pair _ _ _ _
    · have hne : c ≠ '"' := by
        rintro rfl
        cases h
        exact (hrest '"' mem_cons_self).2 rfl
      rw [h, if_neg hne, cons_append, collapse_cons, collapse_append]
      · rfl
      · exact fun e he => (hrest e he).1
      · exact .inr fun hhead => (hrest d mem_cons_self).2 (Option.some.inj hhead)
    · rw [h, if_neg hquote]
      exact collapse_cons (.inl hbackslash)

/-- The second pass takes the escaped backslashes back. -/
theorem collapse_flatMap_halfEscape (cs : List Char) :
    collapse '\\' '\\' '\\' (cs.flatMap halfEscape) = cs.flatMap shown := by
  induction cs with
  | nil => rfl
  | cons c cs ih =>
    rw [flatMap_cons, flatMap_cons, ← ih]
    rcases escape_cases c with
      ⟨rfl, h⟩ | ⟨rfl, h⟩ | ⟨-, d, rest, h, hrest⟩ | ⟨hbackslash, hquote, h⟩
    · exact collapse_pair _ _ _ _
    · exact collapse_cons (.inl (by decide))
    · have hne : ¬ (c = '\\' ∨ c = '"') := by
        rintro (rfl | rfl)
        · cases h
          exact (hrest '\\' mem_cons_self).1 rfl
        · cases h
          exact (hrest '"' mem_cons_self).2 rfl
      rw [halfEscape, shown, if_neg hne, if_neg fun hquote => hne (.inr hquote), h,
        cons_append, collapse_cons, collapse_append]
      · rfl
      · exact fun e he => (hrest e he).1
      · exact .inr fun hhead => (hrest d mem_cons_self).1 (Option.some.inj hhead)
    · rw [halfEscape, shown, if_neg hquote, if_neg (by simp [hbackslash, hquote]), h]
      exact collapse_cons (.inl hbackslash)

/-- The literal for a string stands for the string as it is shown. -/
theorem unquote?_quote (s : String) :
    unquote? (quote s) = some (String.ofList (s.toList.flatMap shown)) := by
  rw [unquote?, quote, String.toList_ofList, quoteChars, unquoteChars?,
    if_pos getLast?_concat, dropLast_concat, collapse_flatMap_escape,
    collapse_flatMap_halfEscape]
  rfl

/-- A string without control characters is read back from its literal. -/
theorem unquote?_quote_of_not_control {s : String} (h : ∀ c ∈ s.toList, ¬ IsControl c) :
    unquote? (quote s) = some s := by
  rw [unquote?_quote, flatMap_shown h, String.ofList_toList]

end LuaRecovery.Lua

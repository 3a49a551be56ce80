/-
Which fields are written with a dot.

A field with a literal key is written with a dot if the key is a name.  The test is not made on
the string itself: it is made on what the scene takes the literal for, and it lets a line break
at the end through.  Neither matters in the end.  The literal of a string with a control
character has a backslash for it that the scene leaves in place, and no name has one; any other
string is read back as it is, and has no line break to let through.

So the dot is for the names of the language and for nothing else.
-/
import LuaRecovery.Lua.Access
import LuaRecovery.Proofs.ExpressionText
import LuaRecovery.Proofs.LiteralReading

namespace LuaRecovery.Lua

/-! ### Names, character by character -/

/-- A letter of ASCII or the underscore. -/
def IsLetter (c : Char) : Prop := ('A' ≤ c ∧ c ≤ 'Z') ∨ ('a' ≤ c ∧ c ≤ 'z') ∨ c = '_'

/-- A digit of ASCII. -/
def IsFigure (c : Char) : Prop := '0' ≤ c ∧ c ≤ '9'

/-- A name of the language: a letter, then letters and digits up to the end, and no reserved
word. -/
def IsBareName (s : String) : Prop :=
  (∃ first rest, s.toList = first :: rest ∧ IsLetter first ∧
    ∀ c ∈ rest, IsLetter c ∨ IsFigure c) ∧ s ∉ keywords

theorem isFigure_iff (c : Char) : c.isDigit = true ↔ IsFigure c := by
  have hrange : c.isDigit = (decide (c.val ≥ 48) && decide (c.val ≤ 57)) := rfl
  rw [hrange, Bool.and_eq_true, decide_eq_true_iff, decide_eq_true_iff]
  exact Iff.rfl

theorem isNameStart_iff (c : Char) : isNameStart c = true ↔ IsLetter c := by
  have hletter : c.isAlpha = (decide (c.val ≥ 'A'.val ∧ c.val ≤ 'Z'.val) ||
      (decide (c.val ≥ 'a'.val) && decide (c.val ≤ 'z'.val))) := rfl
  rw [isNameStart, hletter, Bool.or_eq_true, Bool.or_eq_true, Bool.and_eq_true, beq_iff_eq,
    decide_eq_true_iff, decide_eq_true_iff, decide_eq_true_iff, or_assoc]
  exact Iff.rfl

theorem isNameChar_iff (c : Char) : isNameChar c = true ↔ IsLetter c ∨ IsFigure c := by
  rw [← isNameStart_iff, ← isFigure_iff, isNameChar, isNameStart, Char.isAlphanum,
    Bool.or_eq_true, Bool.or_eq_true, Bool.or_eq_true, or_right_comm]

theorem isIdentifier_iff (s : String) : isIdentifier s = true ↔ IsBareName s := by
  constructor
  · intro h
    obtain ⟨c, rest, hs, hc, hrest, hkeyword⟩ := Identifier.chars ⟨s, h⟩
    refine ⟨⟨c, rest, hs, (isNameStart_iff c).mp hc,
      fun d hd => (isNameChar_iff d).mp (hrest d hd)⟩, fun hmem => ?_⟩
    exact Bool.eq_false_iff.mp hkeyword (List.contains_iff_mem.mpr hmem)
  · rintro ⟨⟨c, rest, hs, hc, hrest⟩, hkeyword⟩
    have hkeyword : isKeyword s = false :=
      Bool.eq_false_iff.mpr fun h => hkeyword (List.contains_iff_mem.mp h)
    unfold isIdentifier
    rw [hs]
    simp only [(isNameStart_iff c).mpr hc, hkeyword, Bool.and_eq_true, List.all_eq_true,
      Bool.not_false, and_true, true_and]
    exact fun d hd => (isNameChar_iff d).mpr (hrest d hd)

instance : DecidablePred IsBareName := fun s => decidable_of_iff _ (isIdentifier_iff s)

/-! ### The test for names -/

/-- What passes the test is made of characters of names and line breaks. -/
theorem mem_of_isNameTail {cs : List Char} (h : isNameTail cs = true) :
    ∀ c ∈ cs, isNameChar c = true ∨ c = '\n' := by
  induction cs with
  | nil => nofun
  | cons d rest ih =>
    rw [isNameTail, Bool.or_eq_true, Bool.and_eq_true, Bool.and_eq_true, beq_iff_eq] at h
    rw [List.forall_mem_cons]
    rcases h with ⟨hd, hrest⟩ | ⟨hd, hrest⟩
    · rw [List.isEmpty_iff.mp hrest]
      exact ⟨.inr hd, nofun⟩
    · exact ⟨.inl hd, ih hrest⟩

theorem mem_of_isName {s : String} (h : isName s = true) :
    ∀ c ∈ s.toList, isNameChar c = true ∨ c = '\n' := by
  unfold isName at h
  split at h
  · cases h
  · next first rest hs =>
      simp only [Bool.and_eq_true] at h
      rw [hs, List.forall_mem_cons]
      exact ⟨.inl (isNameChar_of_isNameStart h.1.1), mem_of_isNameTail h.1.2⟩

theorem isNameTail_eq_all {cs : List Char} (h : '\n' ∉ cs) : isNameTail cs = cs.all isNameChar := by
  induction cs with
  | nil => rfl
  | cons c rest ih =>
    obtain ⟨hc, hrest⟩ := not_or.mp (mt List.mem_cons.mpr h)
    rw [isNameTail, ih hrest, List.all_cons, beq_eq_false_iff_ne.mpr (Ne.symm hc),
      Bool.false_and, Bool.false_or]

/-- On a text without line breaks the test is right. -/
theorem isName_eq_isIdentifier {s : String} (h : '\n' ∉ s.toList) : isName s = isIdentifier s := by
  unfold isName isIdentifier
  cases hs : s.toList with
  | nil => rfl
  | cons c rest =>
    rw [hs] at h
    dsimp only
    rw [isNameTail_eq_all (mt (List.mem_cons_of_mem c) h)]

/-! ### The test on a literal -/

theorem not_isControl_of_isNameChar {c : Char} (h : isNameChar c = true) : ¬ IsControl c := by
  have hrange : ∀ low high : Char, low ≤ c → c ≤ high → 32 ≤ low.toNat → high.toNat < 127 →
      32 ≤ c.toNat ∧ c.toNat < 127 := fun low high hlow hhigh h32 h127 =>
    ⟨Nat.le_trans h32 (UInt32.le_iff_toNat_le.mp hlow),
      Nat.lt_of_le_of_lt (UInt32.le_iff_toNat_le.mp hhigh) h127⟩
  have hbounds : 32 ≤ c.toNat ∧ c.toNat < 127 := by
    rcases (isNameChar_iff c).mp h with (h | h | rfl) | h
    · exact hrange _ _ h.1 h.2 (by decide) (by decide)
    · exact hrange _ _ h.1 h.2 (by decide) (by decide)
    · decide
    · exact hrange _ _ h.1 h.2 (by decide) (by decide)
  unfold IsControl
  omega

/-- The scene sees a backslash where a control character was. -/
theorem backslash_mem_shown {c : Char} (h : IsControl c) : '\\' ∈ shown c := by
  unfold shown
  split
  · next hc => rcases hc with rfl | rfl <;> exact absurd h (by decide)
  · rcases escape_read_back c with ⟨code, hescape, -⟩ | ⟨-, -, -, hc⟩
    · rw [hescape]
      exact List.mem_cons_self
    · exact absurd h hc

/-- The literal for a string passes the test exactly if the string is a name. -/
theorem isName_shown (s : String) :
    isName (String.ofList (s.toList.flatMap shown)) = isIdentifier s := by
  by_cases hcontrol : ∃ c ∈ s.toList, IsControl c
  · obtain ⟨c, hmem, hc⟩ := hcontrol
    have hshown : isName (String.ofList (s.toList.flatMap shown)) = false := by
      refine Bool.eq_false_iff.mpr fun h => ?_
      have hbackslash : '\\' ∈ s.toList.flatMap shown :=
        List.mem_flatMap.mpr ⟨c, hmem, backslash_mem_shown hc⟩
      have := mem_of_isName h '\\' (by rwa [String.toList_ofList])
      exact absurd this (by decide)
    have hname : isIdentifier s = false := by
      refine Bool.eq_false_iff.mpr fun h => ?_
      exact not_isControl_of_isNameChar (Identifier.isNameChar ⟨s, h⟩ c hmem) hc
    rw [hshown, hname]
  · have hplain : ∀ c ∈ s.toList, ¬ IsControl c := fun c hmem hc => hcontrol ⟨c, hmem, hc⟩
    rw [flatMap_shown hplain, String.ofList_toList]
    exact isName_eq_isIdentifier fun hmem => hplain _ hmem (.inl (by decide))

/-- A field whose key is a literal is written with a dot if the string is a name of the language,
and in brackets, with the literal as it stands, if it is any other string. -/
theorem fieldAccess_quote_eq (base s : String) : fieldAccess base (quote s) =
      if IsBareName s then base ++ "." ++ s else base ++ "[" ++ quote s ++ "]" := by
  rw [fieldAccess, unquote?_quote]
  dsimp only
  rw [isName_shown]
  by_cases hname : IsBareName s
  · have hidentifier := (isIdentifier_iff s).mpr hname
    have hshown : s.toList.flatMap shown = s.toList := flatMap_shown fun c hc =>
      not_isControl_of_isNameChar (Identifier.isNameChar ⟨s, hidentifier⟩ c hc)
    rw [if_pos hidentifier, if_pos hname, hshown, String.ofList_toList]
  · rw [if_neg (mt (isIdentifier_iff s).mp hname), if_neg hname]

/-- A line break at the end, which the test alone would let through, keeps the brackets. -/
example : fieldAccess "t" (quote "name") = "t.name" ∧
    fieldAccess "t" (quote "name\n") = "t[\"name\\n\"]" ∧
    fieldAccess "t" (quote "end") = "t[\"end\"]" := by decide +kernel

end LuaRecovery.Lua

/-
Literals among other text.

Two scans go through the text of an expression besides the lexer of the language: the cut into
lexemes, with which names are replaced, and the search for a space at depth zero, which decides
about parentheses.  Both take a literal in one go, whatever it holds and whatever text follows.  So
names are replaced behind it only, and it needs no parentheses of its own.
-/
import Mathlib.Data.List.Basic
import LuaRecovery.Proofs.LiteralReading
import LuaRecovery.Proofs.Renamings

namespace LuaRecovery.Lua

/-! ### The lexeme of a literal -/

theorem stringRest?_flatMap_escape (cs rest : List Char) :
    stringRest? '"' (cs.flatMap escape ++ '"' :: rest) = some ((cs.flatMap escape).length + 1) := by
  rw [passes_flatMap_escape (stringRest? '"') (Option.map (· + 1)) ?plain ?escaped, Nat.add_comm]
  case plain =>
    intro c rest hbackslash hquote hc
    have hnewline : c ≠ '\n' := by
      rintro rfl
      exact hc (.inl (by decide))
    rw [stringRest?_cons hbackslash, if_neg hquote, if_neg hnewline]
  case escaped =>
    intro c rest _
    rw [stringRest?, Option.map_map]
    rfl
  exact foldr_map_succ _ 1

theorem lexemes_quote_append (s rest : String) :
    lexemes (quote s ++ rest).toList = ⟨.string, (quote s).toList⟩ :: lexemes rest.toList := by
  have hquote : (quote s).toList = '"' :: (s.toList.flatMap escape ++ ['"']) := by
    rw [quote, String.toList_ofList, quoteChars]
  rw [String.toList_append, hquote]
  refine lexemes_append ?_
  rw [lexemeAt_quote (.inl rfl), List.append_assoc, List.singleton_append,
    stringRest?_flatMap_escape, List.length_append]
  rfl

/-! ### Names behind a literal -/

/-- What stands before a name matters only if it makes a field of it. -/
theorem markVariables_of_not_selects {before : List Char} (h : selects before = false)
    (ls : List Lexeme) : markVariables before ls = markVariables [] ls := by
  induction ls with
  | nil => rfl
  | cons l ls ih =>
    have hnil : selects [] = false := rfl
    rw [markVariables_cons, markVariables_cons, h, hnil]
    split
    · rw [ih]
    · rfl

theorem markedLexemes_quote_append (s rest : String) : markedLexemes (quote s ++ rest) =
      (⟨.string, (quote s).toList⟩, false) :: markedLexemes rest := by
  have hselects : selects (quote s).toList = false := by
    rw [quote, String.toList_ofList, quoteChars]
    simp [selects]
  rw [markedLexemes, lexemes_quote_append, markVariables_cons, markedLexemes]
  simp [Lexeme.isSilent, markVariables_of_not_selects hselects]

theorem rename_quote_append (s rest : String) (pairs : List (String × String)) :
    rename (quote s ++ rest) pairs = quote s ++ rename rest pairs := by
  rw [← String.toList_inj, String.toList_append, toList_rename, toList_rename,
    markedLexemes_quote_append]
  simp [renamedLexeme]

theorem occurrences_quote_append (s rest : String) :
    occurrences (quote s ++ rest) = occurrences rest := by
  rw [occurrences, markedLexemes_quote_append, occurrences]
  simp

/-! ### Gaps behind a literal -/

/-- In a string nothing is a gap, and an escaped quote does not end it. -/
theorem hasGap_flatMap_escape (d : Int) (cs rest : List Char) :
    Scan.hasGap ⟨d, some '"', false⟩ (cs.flatMap escape ++ '"' :: rest) =
      Scan.hasGap ⟨d, none, false⟩ rest := by
  rw [passes_flatMap_escape (Scan.hasGap ⟨d, some '"', false⟩) id ?plain ?escaped]
  case plain =>
    intro c rest hbackslash hquote _
    simp [Scan.hasGap, Scan.isGap, Scan.step, hbackslash, hquote]
  case escaped =>
    intro c rest _
    simp [Scan.hasGap, Scan.isGap, Scan.step]
  exact List.foldr_fixed _

theorem hasGap_quote_append (d : Int) (s rest : String) :
    Scan.hasGap ⟨d, none, false⟩ (quote s ++ rest).toList =
      Scan.hasGap ⟨d, none, false⟩ rest.toList := by
  rw [toList_quote_append, Scan.hasGap]
  exact hasGap_flatMap_escape d s.toList rest.toList

/-- No scan looks into a literal.  It is the first lexeme of the text that it begins, and the
lexemes behind it are those of the text that follows.  No name in it is counted or replaced.  At
every depth the gaps of the text are those of the text that follows, so this text alone decides
about parentheses. -/
theorem literals_are_atomic (s rest : String) :
    lexemes (quote s ++ rest).toList = ⟨.string, (quote s).toList⟩ :: lexemes rest.toList ∧
      needsParens (quote s ++ rest) = needsParens rest ∧
      (∀ d, Scan.hasGap ⟨d, none, false⟩ (quote s ++ rest).toList =
        Scan.hasGap ⟨d, none, false⟩ rest.toList) ∧
      occurrences (quote s ++ rest) = occurrences rest ∧
      ∀ pairs, rename (quote s ++ rest) pairs = quote s ++ rename rest pairs :=
  ⟨lexemes_quote_append s rest, hasGap_quote_append 0 s rest,
    fun d => hasGap_quote_append d s rest, occurrences_quote_append s rest,
    rename_quote_append s rest⟩

end LuaRecovery.Lua

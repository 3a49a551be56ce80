/-
Other words in the place of words.

A lexeme is read as before if other words stand in the text behind it (`lexemeAt_taken`).  So if
names of a text are spelled otherwise, its lexemes are those of before, each in its place
(`lexemes_respelled`).  Only a number could take in a name behind it, so none may stand there.
-/
import Mathlib.Data.List.Chain
import Mathlib.Data.List.Forall2
import LuaRecovery.Proofs.LookAhead

namespace LuaRecovery.Lua

open List

/-! ### One lexeme -/

section Lexeme

variable {t rest rest' : List Char} {kind : LexemeKind} {c : Char}

variable (cs : List Char)

theorem lexemeAt_dash : lexemeAt '-' cs = (commentRest? cs).getD (.sign, 0) := by
  cases hcs : commentRest? cs <;> simp only [lexemeAt, if_pos, hcs] <;> rfl

theorem lexemeAt_bracket :
    lexemeAt '[' cs = ((longBracketRest? cs).map (LexemeKind.longString, ·)).getD (.sign, 0) := by
  cases hcs : longBracketRest? cs <;> simp only [lexemeAt, if_pos, hcs] <;> rfl

theorem lexemeAt_quote (hc : c = '"' ∨ c = '\'') (cs : List Char) :
    lexemeAt c cs = ((stringRest? c cs).map (LexemeKind.string, ·)).getD (.sign, 0) := by
  rcases hc with rfl | rfl
  · cases hcs : stringRest? '"' cs <;> simp only [lexemeAt, hcs] <;> rfl
  · cases hcs : stringRest? '\'' cs <;> simp only [lexemeAt, hcs] <;> rfl

theorem lexemeAt_other (hdash : c ≠ '-') (hbracket : c ≠ '[') (hquote : ¬ (c = '"' ∨ c = '\''))
    (cs : List Char) :
    lexemeAt c cs = if isNameStart c then (.name, runLength isNameChar cs)
      else if c.isDigit then (.number, numberRest c cs)
      else if Text.isBlank c then (.space, runLength Text.isBlank cs)
      else (.sign, signRest c cs) := by
  rw [lexemeAt, if_neg hdash, if_neg hbracket, if_neg hquote]

theorem lexemeAt_name (hc : isNameStart c = true) (cs : List Char) :
    lexemeAt c cs = (.name, runLength isNameChar cs) := by
  have hname := isNameChar_of_isNameStart hc
  rw [lexemeAt_other (ne_of_isNameChar hname (by decide)) (ne_of_isNameChar hname (by decide)),
    if_pos hc]
  rintro (rfl | rfl) <;> cases hc

/-- A reader that finds something only if it is closed. -/
structure Closing (read : List Char → Option Nat) : Prop where
  alike : ∀ {cs ds : List Char}, Alike cs ds → (read cs).isSome = true → (read ds).isSome = true
  taken : ∀ {t rest : List Char} (rest' : List Char), read (t ++ rest) = some t.length →
    read (t ++ rest') = some t.length

theorem closing_longBracket : Closing longBracketRest? :=
  ⟨Alike.brackets, fun rest' h => longBracketRest?_taken h rest'⟩

theorem closing_string {quote : Char} (hquote : isNameChar quote = false) :
    Closing (stringRest? quote) :=
  ⟨fun h => (h.strings hquote).1, fun rest' h => stringRest?_taken rest' h⟩

theorem Closing.none {read : List Char → Option Nat} (h : Closing read) {cs ds : List Char}
    (halike : Alike cs ds) (hcs : read cs = none) : read ds = none := by
  cases hds : read ds with
  | none => rfl
  | some n =>
    have hsome := h.alike halike.symm (by rw [hds]; rfl)
    rw [hcs] at hsome
    cases hsome

/-- What is closed, or the sign that opens it. -/
theorem Closing.lexeme {read : List Char → Option Nat} (hread : Closing read) {k : LexemeKind}
    (halike : Alike rest rest')
    (h : ((read (t ++ rest)).map (k, ·)).getD (LexemeKind.sign, 0) = (kind, t.length)) :
    ((read (t ++ rest')).map (k, ·)).getD (LexemeKind.sign, 0) = (kind, t.length) := by
  cases hcs : read (t ++ rest) with
  | none =>
    rw [hcs] at h
    rw [hread.none (halike.append t) hcs]
    exact h
  | some n =>
    rw [hcs] at h
    cases h
    rw [hread.taken rest' hcs]
    rfl

/-- A long bracket with its first character. -/
def openedRest? : List Char → Option Nat
  | '[' :: more => (longBracketRest? more).map (· + 1)
  | _ => none

theorem openedRest?_cases {cs : List Char} {n : Nat} (h : openedRest? cs = some n) :
    ∃ more k, cs = '[' :: more ∧ longBracketRest? more = some k ∧ n = k + 1 := by
  unfold openedRest? at h
  split at h
  · rename_i more
    obtain ⟨k, hk, rfl⟩ := Option.map_eq_some_iff.mp h
    exact ⟨more, k, rfl, hk, rfl⟩
  · cases h

theorem closing_opened : Closing openedRest? := by
  refine ⟨fun {cs ds} halike hcs => ?_, fun {t rest} rest' h => ?_⟩
  · obtain ⟨n, hn⟩ := Option.isSome_iff_exists.mp hcs
    obtain ⟨more, k, rfl, hk, -⟩ := openedRest?_cases hn
    obtain ⟨more', rfl, hmore⟩ := halike.of_cons (by decide)
    rw [openedRest?, Option.isSome_map]
    exact hmore.brackets (by rw [hk]; rfl)
  · obtain ⟨more, k, hmore, hk, hlength⟩ := openedRest?_cases h
    match t, hmore, hlength with
    | x :: t, hmore, hlength =>
      obtain ⟨rfl, rfl⟩ := List.cons.inj hmore
      rw [← Nat.succ.inj hlength] at hk
      rw [cons_append, openedRest?, longBracketRest?_taken hk rest']
      rfl

/-- A comment after its two dashes, with the second one: a long one if a long bracket follows that
is closed, and else one to the end of the line. -/
def dashedRest (cs : List Char) : LexemeKind × Nat :=
  ((openedRest? cs).map fun n => (LexemeKind.longComment, 1 + n)).getD
    (.comment, 1 + runLength (· != '\n') cs)

theorem commentRest?_dash : commentRest? ('-' :: cs) = some (dashedRest cs) := by
  by_cases hcs : ∃ more, cs = '[' :: more
  · obtain ⟨more, rfl⟩ := hcs
    cases hmore : longBracketRest? more with
    | none =>
      simp only [commentRest?, dashedRest, openedRest?, hmore, Option.map_none, Option.getD_none]
    | some n =>
      simp only [commentRest?, dashedRest, openedRest?, hmore, Option.map_some, Option.getD_some]
      rw [Nat.add_comm n, ← Nat.add_assoc]
  · have hopened : openedRest? cs = none := by
      unfold openedRest?
      split
      · exact absurd ⟨_, rfl⟩ hcs
      · rfl
    unfold commentRest? dashedRest
    rw [hopened]
    split
    · rename_i heq
      cases heq
      split
      · exact absurd ⟨_, rfl⟩ hcs
      · rfl
    · rename_i hdash
      exact absurd rfl (hdash cs)

theorem commentRest?_other {cs : List Char} (h : cs.head? ≠ some '-') : commentRest? cs = none := by
  unfold commentRest?
  split
  · exact absurd rfl h
  · rfl

theorem dashedRest_taken (halike : Alike rest rest')
    (h : dashedRest (t ++ rest) = (kind, t.length + 1)) :
    dashedRest (t ++ rest') = (kind, t.length + 1) := by
  unfold dashedRest at h ⊢
  cases hopened : openedRest? (t ++ rest) with
  | none =>
    rw [hopened] at h
    obtain ⟨rfl, hlength⟩ := Prod.mk.inj h
    have hline : ∀ x y, isNameChar x = true → isNameChar y = true →
        (x != '\n') = false → (y != '\n') = false := by
      intro x y hx _ hbreak
      exact absurd (bne_eq_false_iff_eq.mp hbreak) (ne_of_isNameChar hx (by decide))
    rw [closing_opened.none (halike.append t) hopened]
    rw [Option.map_none, Option.getD_none, halike.run_taken hline (by omega), Nat.add_comm]
  | some n =>
    rw [hopened] at h
    obtain ⟨rfl, hlength⟩ := Prod.mk.inj h
    obtain rfl : n = t.length := by omega
    rw [closing_opened.taken rest' hopened, Option.map_some, Option.getD_some, Nat.add_comm]

theorem dash_taken (halike : Alike rest rest') (h : lexemeAt '-' (t ++ rest) = (kind, t.length)) :
    lexemeAt '-' (t ++ rest') = (kind, t.length) := by
  rw [lexemeAt_dash] at h ⊢
  by_cases hhead : (t ++ rest).head? = some '-'
  · cases t with
    | nil =>
      -- The second dash would be taken.
      obtain ⟨cs, rfl⟩ := head?_eq_some_iff.mp hhead
      rw [nil_append, commentRest?_dash, Option.getD_some, dashedRest] at h
      cases hopened : openedRest? cs with
      | none =>
        rw [hopened] at h
        exact absurd (Prod.mk.inj h).2 (by rw [length_nil]; omega)
      | some n =>
        rw [hopened] at h
        exact absurd (Prod.mk.inj h).2 (by rw [length_nil]; omega)
    | cons x t =>
      obtain rfl : x = '-' := Option.some.inj hhead
      rw [cons_append, commentRest?_dash, Option.getD_some] at h ⊢
      exact dashedRest_taken halike h
  · have hhead' : (t ++ rest').head? ≠ some '-' := (halike.append t).head_ne (by decide) hhead
    rw [commentRest?_other hhead] at h
    rw [commentRest?_other hhead']
    exact h

theorem signRest_dot : signRest '.' cs =
    if cs.head? = some '.' then if cs.tail.head? = some '.' then 2 else 1 else 0 := by
  cases cs with
  | nil => rfl
  | cons x cs =>
    by_cases hx : x = '.'
    · subst hx
      cases cs with
      | nil => rfl
      | cons y cs =>
        by_cases hy : y = '.'
        · subst hy
          rfl
        · simp [signRest, hy]
    · simp [signRest, hx]

theorem signRest_taken (halike : Alike rest rest') (h : signRest c (t ++ rest) = t.length) :
    signRest c (t ++ rest') = t.length := by
  by_cases hc : c = '.'
  · subst hc
    have hnone : rest.head? ≠ some '.' → rest'.head? ≠ some '.' := halike.head_ne (by decide)
    rw [signRest_dot] at h ⊢
    match t, h with
    | [], h =>
      have hfirst : rest.head? ≠ some '.' := by
        intro hdot
        rw [nil_append, if_pos hdot] at h
        split at h <;> cases h
      rw [nil_append, if_neg (hnone hfirst), length_nil]
    | [x], h =>
      have hx : x = '.' := by
        by_contra hx
        simp [hx] at h
      have hsecond : rest.head? ≠ some '.' := by
        intro hdot
        simp [hx, hdot] at h
      simp [hx, hnone hsecond]
    | x :: y :: t, h => exact h
  · unfold signRest at h ⊢
    rw [if_neg hc] at h ⊢
    exact h

/-- A lexeme is read as before if other words stand in the text behind it.  Behind a number no name
may stand. -/
theorem lexemeAt_taken (halike : Alike rest rest')
    (hnumber : kind = .number → rest'.head? = rest.head? ∧
      ∀ d, rest.head? = some d → isNameStart d = false)
    (h : lexemeAt c (t ++ rest) = (kind, t.length)) :
    lexemeAt c (t ++ rest') = (kind, t.length) := by
  by_cases hdash : c = '-'
  · subst hdash
    exact dash_taken halike h
  by_cases hbracket : c = '['
  · subst hbracket
    rw [lexemeAt_bracket] at h ⊢
    exact closing_longBracket.lexeme halike h
  by_cases hquote : c = '"' ∨ c = '\''
  · have hname : isNameChar c = false := by
      rcases hquote with rfl | rfl <;> decide
    rw [lexemeAt_quote hquote] at h ⊢
    exact (closing_string hname).lexeme halike h
  rw [lexemeAt_other hdash hbracket hquote] at h ⊢
  split at h
  · rw [if_pos ‹_›]
    obtain ⟨rfl, hlength⟩ := Prod.mk.inj h
    rw [halike.run_taken (fun x y hx hy hfalse => absurd hx (by rw [hfalse]; decide)) hlength]
  · rw [if_neg ‹_›]
    split at h
    · rw [if_pos ‹_›]
      obtain ⟨rfl, hlength⟩ := Prod.mk.inj h
      obtain ⟨hhead, hstart⟩ := hnumber rfl
      rw [numberRest_taken hhead hstart hlength]
    · rw [if_neg ‹_›]
      split at h
      · rw [if_pos ‹_›]
        obtain ⟨rfl, hlength⟩ := Prod.mk.inj h
        have hblank : ∀ x y, isNameChar x = true → isNameChar y = true →
            Text.isBlank x = false → Text.isBlank y = false := by
          intro x y _ hy _
          refine Bool.eq_false_iff.mpr fun hy' => ?_
          rw [isNameChar_of_isBlank hy'] at hy
          cases hy
        rw [halike.run_taken hblank hlength]
      · rw [if_neg ‹_›]
        obtain ⟨rfl, hlength⟩ := Prod.mk.inj h
        rw [signRest_taken halike hlength]

end Lexeme

/-! ### All lexemes -/

/-- The lexemes hold all of the text. -/
theorem flatMap_lexemes (cs : List Char) : (lexemes cs).flatMap Lexeme.chars = cs := by
  fun_induction lexemes cs with
  | case1 => rfl
  | case2 c rest ih => rw [flatMap_cons, ih, cons_append, take_append_drop]

variable {cs : List Char} {ls : List Lexeme} {c : Char}

/-- The lexemes of a text that starts with one. -/
theorem lexemes_append {t rest : List Char} {kind : LexemeKind}
    (h : lexemeAt c (t ++ rest) = (kind, t.length)) :
    lexemes (c :: t ++ rest) = ⟨kind, c :: t⟩ :: lexemes rest := by
  rw [cons_append, lexemes, h, take_left, drop_left]

/-- The characters of a name. -/
def IsNameChars : List Char → Prop
  | [] => False
  | c :: cs => isNameStart c = true ∧ ∀ d ∈ cs, isNameChar d = true

theorem IsNameChars.isRun (h : IsNameChars cs) : IsRun cs := by
  cases cs with
  | nil => exact h.elim
  | cons c cs =>
    exact ⟨cons_ne_nil _ _, forall_mem_cons.mpr ⟨isNameChar_of_isNameStart h.1, h.2⟩⟩

/-- The same lexeme, or another name in the place of a name. -/
inductive Respelled (l : Lexeme) : Lexeme → Prop
  | same : Respelled l l
  | name {cs : List Char} (kind : l.kind = .name) (chars : IsNameChars cs) : Respelled l ⟨.name, cs⟩

/-- No name directly behind a number. -/
abbrev NumbersApart (ls : List Lexeme) : Prop :=
  ls.IsChain fun l m => l.kind = .number → m.kind ≠ .name

/-- A lexeme is a name if its first character may start one, and only then. -/
theorem kind_name_iff : (lexemeAt c cs).1 = .name ↔ isNameStart c = true := by
  refine ⟨fun h => ?_, fun h => by rw [lexemeAt_name h]⟩
  by_cases hdash : c = '-'
  · rw [hdash, lexemeAt_dash] at h
    by_cases hhead : cs.head? = some '-'
    · obtain ⟨cs, rfl⟩ := head?_eq_some_iff.mp hhead
      rw [commentRest?_dash, dashedRest] at h
      cases hopened : openedRest? cs <;> rw [hopened] at h <;> cases h
    · rw [commentRest?_other hhead] at h
      cases h
  by_cases hbracket : c = '['
  · rw [hbracket, lexemeAt_bracket] at h
    cases hread : longBracketRest? cs <;> rw [hread] at h <;> cases h
  by_cases hquote : c = '"' ∨ c = '\''
  · rw [lexemeAt_quote hquote] at h
    cases hread : stringRest? c cs <;> rw [hread] at h <;> cases h
  rw [lexemeAt_other hdash hbracket hquote] at h
  split at h
  · assumption
  · split at h
    · cases h
    · split at h <;> cases h

theorem isNameChars_of_kind (h : (lexemeAt c cs).1 = .name) :
    IsNameChars (c :: cs.take (lexemeAt c cs).2) := by
  have hstart := kind_name_iff.mp h
  rw [lexemeAt_name hstart]
  refine ⟨hstart, fun d hd => ?_⟩
  have htake : cs.take (runLength isNameChar cs) = cs.takeWhile isNameChar := by
    calc cs.take (runLength isNameChar cs)
        = (cs.takeWhile isNameChar ++ cs.dropWhile isNameChar).take
            (cs.takeWhile isNameChar).length := by
          rw [takeWhile_append_dropWhile, runLength]
      _ = cs.takeWhile isNameChar := take_left
  rw [htake] at hd
  exact all_eq_true.mp all_takeWhile d hd

theorem Respelled.alike {l m : Lexeme} (h : Respelled l m)
    (hname : l.kind = .name → IsNameChars l.chars) {cs ds : List Char} (halike : Alike cs ds) :
    Alike (l.chars ++ cs) (m.chars ++ ds) := by
  cases h with
  | same => exact halike.append l.chars
  | name hkind hchars => exact .run (hname hkind).isRun hchars.isRun halike

theorem alike_of_respelled (h : List.Forall₂ Respelled (lexemes cs) ls) :
    Alike cs (ls.flatMap Lexeme.chars) := by
  fun_induction lexemes cs generalizing ls with
  | case1 =>
    cases h
    exact .nil
  | case2 c rest ih =>
    cases h with
    | cons hfirst hrest =>
      have halike := hfirst.alike isNameChars_of_kind (ih hrest)
      rwa [cons_append, take_append_drop] at halike

/-- What is behind a number starts as before, and with no name. -/
theorem NumbersApart.head {l : Lexeme} (h : NumbersApart (l :: lexemes cs))
    (hrest : List.Forall₂ Respelled (lexemes cs) ls) (hkind : l.kind = .number) :
    (ls.flatMap Lexeme.chars).head? = cs.head? ∧
      ∀ d, cs.head? = some d → isNameStart d = false := by
  cases cs with
  | nil =>
    rw [lexemes] at hrest
    cases hrest
    refine ⟨rfl, fun d hd => ?_⟩
    cases hd
  | cons d rest =>
    rw [lexemes] at h hrest
    have hother : (lexemeAt d rest).1 ≠ .name := (isChain_cons_cons.mp h).1 hkind
    cases hrest with
    | cons hfirst _ =>
      cases hfirst with
      | name hname _ => exact absurd hname hother
      | same =>
        refine ⟨rfl, fun d' hd' => ?_⟩
        cases hd'
        exact Bool.eq_false_iff.mpr fun hstart => hother (kind_name_iff.mpr hstart)

/-- Behind a name comes no character of names. -/
theorem Alike.behind_name {cs ds : List Char} (h : Alike (cs.drop (lexemeAt c cs).2) ds)
    (hkind : (lexemeAt c cs).1 = .name) : ∀ d, ds.head? = some d → isNameChar d = false := by
  rw [lexemeAt_name (kind_name_iff.mp hkind), drop_runLength] at h
  have hrun : runLength isNameChar (cs.takeWhile isNameChar ++ cs.dropWhile isNameChar)
      = (cs.takeWhile isNameChar).length := by
    rw [takeWhile_append_dropWhile, runLength]
  have hrun' := h.run_taken (fun x _ hx _ hfalse => absurd hx (by rw [hfalse]; decide)) hrun
  exact (runLength_eq_length_iff.mp hrun').2

/-- If names of a text are spelled otherwise, its lexemes are those of before, each in its place. -/
theorem lexemes_respelled (hnumbers : NumbersApart (lexemes cs))
    (h : List.Forall₂ Respelled (lexemes cs) ls) : lexemes (ls.flatMap Lexeme.chars) = ls := by
  fun_induction lexemes cs generalizing ls with
  | case1 =>
    cases h
    rw [flatMap_nil, lexemes]
  | case2 c rest ih =>
    cases h with
    | @cons _ m _ ls hfirst hrest =>
      have hmore := ih hnumbers.tail hrest
      have halike := alike_of_respelled hrest
      rw [flatMap_cons]
      cases hfirst with
      | same =>
        by_cases hlength : (lexemeAt c rest).2 ≤ rest.length
        · have hcut : lexemeAt c (rest.take (lexemeAt c rest).2 ++ rest.drop (lexemeAt c rest).2)
              = ((lexemeAt c rest).1, (rest.take (lexemeAt c rest).2).length) := by
            rw [take_append_drop, length_take_of_le hlength]
          rw [lexemes_append (lexemeAt_taken halike (hnumbers.head hrest) hcut), hmore]
        · -- Nothing stands behind the lexeme.
          have hnil : rest.drop (lexemeAt c rest).2 = [] :=
            drop_eq_nil_of_le (by omega)
          rw [hnil] at halike
          rw [halike.eq_nil] at hmore ⊢
          rw [append_nil, take_of_length_le (by omega), lexemes, hnil, hmore,
            take_of_length_le (by omega)]
      | name hkind hchars =>
        rename_i cs
        cases cs with
        | nil => exact hchars.elim
        | cons d t =>
          have hread : lexemeAt d (t ++ ls.flatMap Lexeme.chars) = (.name, t.length) := by
            rw [lexemeAt_name hchars.1, runLength_eq_length_iff.mpr
              ⟨hchars.2, halike.behind_name hkind⟩]
          rw [lexemes_append hread, hmore]

end LuaRecovery.Lua

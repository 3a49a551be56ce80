/-
Reading string literals.

The lexer of the language reads a string up to the quote it was opened with.  It takes a
backslash together with what follows: a letter for a control character, at most three digits
for a character by code, a line break, or a character that stands for itself.  With this
reader every literal that is written is read back, whatever text follows it.  The scene has
a simpler reader, `unquote?`; how far the two agree is said here too.
-/
import LuaRecovery.Lua.Token
import LuaRecovery.Proofs.Literals

namespace LuaRecovery.Lua

open List

/-! ### The reader -/

/-- The control characters that have a letter. -/
def controlLetters : List (Char × Char) :=
  [('a', '\x07'), ('b', '\x08'), ('f', '\x0c'), ('n', '\n'), ('r', '\r'), ('t', '\t'),
    ('v', '\x0b')]

/-- The character that stands after a backslash, and the rest of the text.  A line break may
have two characters, a code has at most three digits and is that of a byte. -/
def escapeAt? : List Char → Option (Char × List Char)
  | [] => none
  | c :: rest =>
    if isLineBreak c then
      some ('\n', if rest.head?.any (fun d => isLineBreak d && d != c) then rest.tail else rest)
    else if c.isDigit then
      let digits := (rest.take 2).takeWhile Char.isDigit
      let code := Nat.ofDigitChars 10 (c :: digits) 0
      if code < 256 then some (Char.ofNat code, rest.drop digits.length) else none
    else some ((controlLetters.lookup c).getD c, rest)

variable {c : Char}

theorem escapeAt?_shorter {cs rest : List Char} (h : escapeAt? cs = some (c, rest)) :
    rest.length < cs.length := by
  cases cs with
  | nil => cases h
  | cons d more =>
    rw [escapeAt?] at h
    rw [length_cons]
    split at h
    · cases h
      split
      · rw [length_tail]
        omega
      · omega
    · split at h
      · dsimp only at h
        split at h
        · cases h
          rw [length_drop]
          omega
        · cases h
      · cases h
        omega

/-- The string after its opening quote, and the text behind the closing one.  A string has no
line break in it unless a backslash stands before it. -/
def quotedValue? (quote : Char) (cs : List Char) : Option (List Char × List Char) :=
  match cs with
  | [] => none
  | c :: rest =>
    if c = quote then some ([], rest)
    else if isLineBreak c then none
    else if c = '\\' then
      match _ : escapeAt? rest with
      | none => none
      | some (d, more) => (quotedValue? quote more).map fun found => (d :: found.1, found.2)
    else (quotedValue? quote rest).map fun found => (c :: found.1, found.2)
termination_by cs.length
decreasing_by
  · have := escapeAt?_shorter ‹escapeAt? rest = some (d, more)›
    simp only [length_cons]
    omega
  · simp only [length_cons]
    omega

/-- The string whose literal a text begins with, and the text behind the literal. -/
def literalAt? (text : String) : Option (String × String) :=
  match text.toList with
  | c :: rest =>
    if c = '"' ∨ c = '\'' then
      (quotedValue? c rest).map fun found => (String.ofList found.1, String.ofList found.2)
    else none
  | [] => none

/-! ### Reading escapes back -/

instance : DecidablePred IsControl := fun c =>
  inferInstanceAs (Decidable (c.toNat < 32 ∨ c.toNat = 127))

theorem not_isControl_singleton (h : ¬ IsControl c) : ∀ d ∈ [c], ¬ IsControl d :=
  forall_mem_singleton.mpr h

theorem not_isControl_of_isDigit (h : c.isDigit = true) : ¬ IsControl c := by
  have hrange : c.isDigit = (decide (c.val ≥ 48) && decide (c.val ≤ 57)) := rfl
  rw [hrange, Bool.and_eq_true, decide_eq_true_iff, decide_eq_true_iff, ge_iff_le,
    UInt32.le_iff_toNat_le, UInt32.le_iff_toNat_le] at h
  rintro (hlow | hdel)
  · exact absurd h.1 (Nat.not_le.mpr (Nat.lt_of_lt_of_le hlow (by decide)))
  · have : c.val.toNat = 127 := hdel
    exact absurd h.2 (by rw [this]; decide)

theorem isLineBreak_eq_false (h : ¬ IsControl c) : isLineBreak c = false := by
  unfold isLineBreak
  rw [Bool.or_eq_false_iff, beq_eq_false_iff_ne, beq_eq_false_iff_ne]
  constructor <;> rintro rfl <;> exact h (.inl (by decide))

theorem ofDigitChars_zeroPadded (width n : Nat) :
    Nat.ofDigitChars 10 (Text.zeroPadded width n) 0 = n := by
  rw [Text.zeroPadded, Nat.ofDigitChars_append, Nat.ofDigitChars_replicate_zero, Nat.mul_zero,
    Nat.ofDigitChars_toDigits (by decide) (by decide)]

theorem length_zeroPadded {width n : Nat} (hwidth : 0 < width) (h : n < Nat.pow 10 width) :
    (Text.zeroPadded width n).length = width := by
  have := (Nat.length_toDigits_le_iff (by decide) hwidth).mpr h
  rw [Text.zeroPadded, length_append, length_replicate]
  omega

/-- A code of three digits is read to its end, whatever comes then: also a digit. -/
theorem escapeAt?_zeroPadded {n : Nat} (h : n < 256) (rest : List Char) :
    escapeAt? (Text.zeroPadded 3 n ++ rest) = some (Char.ofNat n, rest) := by
  have hlength : (Text.zeroPadded 3 n).length = 3 :=
    length_zeroPadded (by decide) (Nat.lt_trans h (by decide))
  have hvalue := ofDigitChars_zeroPadded 3 n
  have hdigit : ∀ d ∈ Text.zeroPadded 3 n, d.isDigit = true := fun d hd =>
    isDigit_of_mem_zeroPadded hd
  generalize Text.zeroPadded 3 n = ds at hlength hvalue hdigit ⊢
  match ds, hlength with
  | c :: more, hlength =>
    have htwo : more.length = 2 := Nat.succ.inj hlength
    have hdigits : ((more ++ rest).take 2).takeWhile Char.isDigit = more := by
      have hall := @takeWhile_append_of_pos _ Char.isDigit more [] fun d hd =>
        hdigit d (mem_cons_of_mem _ hd)
      rw [← htwo, take_left]
      simpa only [append_nil, takeWhile_nil] using hall
    have hc := hdigit c mem_cons_self
    rw [cons_append, escapeAt?, isLineBreak_eq_false (not_isControl_of_isDigit hc),
      if_neg Bool.false_ne_true, if_pos hc]
    dsimp only
    rw [hdigits, hvalue, if_pos h, drop_left]

/-- A character is written as it is, or by an escape that is read back whatever follows.  There
is no control character in either. -/
theorem escape_read_back (c : Char) :
    (∃ code, escape c = '\\' :: code ∧ (∀ d ∈ code, ¬ IsControl d) ∧
        ∀ rest, escapeAt? (code ++ rest) = some (c, rest)) ∨
      (escape c = [c] ∧ c ≠ '\\' ∧ c ≠ '"' ∧ ¬ IsControl c) := by
  unfold escape
  by_cases hbackslash : c = '\\'
  · subst hbackslash
    exact .inl ⟨['\\'], if_pos rfl, not_isControl_singleton (by decide), fun _ => rfl⟩
  rw [if_neg hbackslash]
  by_cases hquote : c = '"'
  · subst hquote
    exact .inl ⟨['"'], if_pos rfl, not_isControl_singleton (by decide), fun _ => rfl⟩
  rw [if_neg hquote]
  by_cases hnewline : c = '\n'
  · subst hnewline
    exact .inl ⟨['n'], if_pos rfl, not_isControl_singleton (by decide), fun _ => rfl⟩
  rw [if_neg hnewline]
  by_cases hreturn : c = '\r'
  · subst hreturn
    exact .inl ⟨['r'], if_pos rfl, not_isControl_singleton (by decide), fun _ => rfl⟩
  rw [if_neg hreturn]
  by_cases htab : c = '\t'
  · subst htab
    exact .inl ⟨['t'], if_pos rfl, not_isControl_singleton (by decide), fun _ => rfl⟩
  rw [if_neg htab]
  by_cases hcontrol : c.toNat < 32 ∨ c.toNat = 127
  · refine .inl ⟨Text.zeroPadded 3 c.toNat, if_pos hcontrol, fun d hd => ?_, fun rest => ?_⟩
    · exact not_isControl_of_isDigit (isDigit_of_mem_zeroPadded hd)
    · rw [escapeAt?_zeroPadded (by omega), Char.ofNat_toNat]
  · exact .inr ⟨if_neg hcontrol, hbackslash, hquote, hcontrol⟩

theorem not_isControl_of_mem_escape {c d : Char} (h : d ∈ escape c) : ¬ IsControl d := by
  rcases escape_read_back c with ⟨code, hescape, hcode, -⟩ | ⟨hescape, -, -, hc⟩
  · rw [hescape] at h
    rcases mem_cons.mp h with rfl | h
    · decide
    · exact hcode d h
  · rw [hescape] at h
    exact mem_singleton.mp h ▸ hc

theorem not_isControl_of_mem_quote {s : String} (h : c ∈ (quote s).toList) : ¬ IsControl c := by
  rw [quote, String.toList_ofList, quoteChars, mem_cons, mem_append,
    mem_singleton, mem_flatMap] at h
  rcases h with rfl | ⟨d, -, hd⟩ | rfl
  · decide
  · exact not_isControl_of_mem_escape hd
  · decide

/-- A reader that passes plain characters one at a time, and a backslash together with what
follows, passes all that a string was written as. -/
theorem passes_flatMap_escape {α : Type} (read : List Char → α) (pass : α → α)
    (hplain : ∀ c rest, c ≠ '\\' → c ≠ '"' → ¬ IsControl c → read (c :: rest) = pass (read rest))
    (hescaped : ∀ c rest, ¬ IsControl c → read ('\\' :: c :: rest) = pass (pass (read rest)))
    (cs rest : List Char) :
    read (cs.flatMap escape ++ rest) = (cs.flatMap escape).foldr (fun _ => pass) (read rest) := by
  have hplains : ∀ more rest, (∀ e ∈ more, e ≠ '\\' ∧ e ≠ '"' ∧ ¬ IsControl e) →
      read (more ++ rest) = more.foldr (fun _ => pass) (read rest) := by
    intro more rest h
    induction more with
    | nil => rfl
    | cons e more ih =>
      obtain ⟨⟨hbackslash, hquote, he⟩, hmore⟩ := forall_mem_cons.mp h
      rw [cons_append, hplain e _ hbackslash hquote he, ih hmore, foldr_cons]
  have hescape : ∀ c rest,
      read (escape c ++ rest) = (escape c).foldr (fun _ => pass) (read rest) := by
    intro c rest
    have hcontrol : ∀ d ∈ escape c, ¬ IsControl d := fun d => not_isControl_of_mem_escape
    rcases escape_cases c with ⟨-, h⟩ | ⟨-, h⟩ | ⟨-, d, more, h, hmore⟩ | ⟨hbackslash, hquote, h⟩
    · rw [h]
      exact hescaped _ rest (by decide)
    · rw [h]
      exact hescaped _ rest (by decide)
    · rw [h] at hcontrol ⊢
      obtain ⟨-, hd, hrest⟩ := by simpa only [forall_mem_cons] using hcontrol
      obtain ⟨-, hmore⟩ := forall_mem_cons.mp hmore
      rw [cons_append, cons_append, hescaped d _ hd, foldr_cons, foldr_cons,
        hplains more rest fun e he => ⟨(hmore e he).1, (hmore e he).2, hrest e he⟩]
    · rw [h] at hcontrol ⊢
      exact hplain c rest hbackslash hquote (hcontrol c mem_cons_self)
  induction cs with
  | nil => rfl
  | cons c cs ih => rw [flatMap_cons, append_assoc, hescape, ih, foldr_append]

/-- Passing one character more each time. -/
theorem foldr_map_succ (cs : List Char) (n : Nat) :
    cs.foldr (fun _ => Option.map (· + 1)) (some n) = some (n + cs.length) := by
  induction cs with
  | nil => rfl
  | cons c cs ih =>
    rw [foldr_cons, ih]
    rfl

/-- The reader takes exactly what one character was written as. -/
theorem quotedValue?_escape (c : Char) (rest : List Char) : quotedValue? '"' (escape c ++ rest) =
      (quotedValue? '"' rest).map fun found => (c :: found.1, found.2) := by
  rcases escape_read_back c with ⟨code, hescape, -, hcode⟩ | ⟨hescape, hbackslash, hquote, hc⟩
  · rw [hescape, cons_append, quotedValue?, if_neg (by decide), if_neg (by decide), if_pos rfl]
    split
    · rename_i hnone
      rw [hcode] at hnone
      cases hnone
    · rename_i hsome
      rw [hcode] at hsome
      cases hsome
      rfl
  · rw [hescape, singleton_append, quotedValue?, if_neg hquote, isLineBreak_eq_false hc,
      if_neg Bool.false_ne_true, if_neg hbackslash]

theorem quotedValue?_flatMap_escape (cs rest : List Char) :
    quotedValue? '"' (cs.flatMap escape ++ '"' :: rest) = some (cs, rest) := by
  induction cs with
  | nil => rw [flatMap_nil, nil_append, quotedValue?, if_pos rfl]
  | cons c cs ih =>
    rw [flatMap_cons, append_assoc, quotedValue?_escape, ih]
    rfl

theorem toList_quote_append (s text : String) :
    (quote s ++ text).toList = '"' :: (s.toList.flatMap escape ++ '"' :: text.toList) := by
  rw [String.toList_append, quote, String.toList_ofList, quoteChars, cons_append, append_assoc]
  rfl

theorem literalAt?_quote_append (s text : String) :
    literalAt? (quote s ++ text) = some (s, text) := by
  rw [literalAt?, toList_quote_append]
  dsimp only
  rw [if_pos (.inl rfl), quotedValue?_flatMap_escape]
  simp only [Option.map_some, String.ofList_toList]

theorem quote_injective {s t : String} (h : quote s = quote t) : s = t := by
  have hs := literalAt?_quote_append s ""
  rw [h, literalAt?_quote_append] at hs
  cases hs
  rfl

/-! ### The token of a literal -/

theorem quotedRest?_plain (hbackslash : c ≠ '\\') (hquote : c ≠ '"') (hc : ¬ IsControl c)
    (rest : List Char) : quotedRest? '"' (c :: rest) = (quotedRest? '"' rest).map (· + 1) := by
  rw [quotedRest?]
  · rw [if_neg hquote, isLineBreak_eq_false hc, if_neg Bool.false_ne_true]
  all_goals
    intros
    exact absurd ‹_› hbackslash

theorem quotedRest?_escaped (hc : ¬ IsControl c) (rest : List Char) :
    quotedRest? '"' ('\\' :: c :: rest) = (quotedRest? '"' rest).map (· + 2) := by
  rw [quotedRest?]
  all_goals
    intro more hmore
    rw [(List.cons.inj hmore).1] at hc
    exact hc (.inl (by decide))

theorem quotedRest?_flatMap_escape (cs rest : List Char) :
    quotedRest? '"' (cs.flatMap escape ++ '"' :: rest) = some ((cs.flatMap escape).length + 1) := by
  rw [passes_flatMap_escape (quotedRest? '"') (Option.map (· + 1)) ?plain ?escaped, Nat.add_comm]
  case plain => exact fun _ rest hbackslash hquote hc => quotedRest?_plain hbackslash hquote hc rest
  case escaped =>
    intro c rest hc
    rw [quotedRest?_escaped hc, Option.map_map]
    rfl
  exact foldr_map_succ _ 1

/-- A literal is one token of the text that it begins. -/
theorem tokens?_quote_append (s text : String) :
    tokens? (quote s ++ text).toList = (tokens? text.toList).map (Token.string :: ·) := by
  have htoken : tokenAt? '"' (s.toList.flatMap escape ++ '"' :: text.toList) =
      some (some .string, (s.toList.flatMap escape).length + 1) := by
    rw [tokenAt?, if_neg (by decide), if_neg fun h => absurd h.1 (by decide),
      if_neg fun h => absurd h.1 (by decide), if_pos (.inl rfl), quotedRest?_flatMap_escape]
    rfl
  rw [toList_quote_append, tokens?, htoken]
  dsimp only
  rw [append_cons, drop_left' (by simp)]
  rfl

/-- Every literal that is written is read back, and the reader stops where it ends: the literal
is one token, two strings have different literals, and no control character is in a literal. -/
theorem literals_decode_back (s text : String) : literalAt? (quote s ++ text) = some (s, text) ∧
      tokens? (quote s ++ text).toList = (tokens? text.toList).map (Token.string :: ·) ∧
      (∀ t, quote s = quote t → s = t) ∧ ∀ c ∈ (quote s).toList, ¬ IsControl c :=
  ⟨literalAt?_quote_append s text, tokens?_quote_append s text, fun _ => quote_injective,
    fun _ => not_isControl_of_mem_quote⟩

/-! ### The reader of the scene -/

/-- A text that begins and ends with a quote. -/
def InQuotes (text : String) : Prop := ∃ inner, text.toList = '"' :: (inner ++ ['"'])

theorem inQuotes_quote (s : String) : InQuotes (quote s) :=
  ⟨s.toList.flatMap escape, by rw [quote, String.toList_ofList, quoteChars]⟩

/-- The scene takes for a string whatever is in quotes. -/
theorem isSome_unquote? (text : String) : (unquote? text).isSome ↔ InQuotes text := by
  unfold unquote? unquoteChars? InQuotes
  rw [Option.isSome_map]
  split
  · rename_i rest hrest
    rw [hrest]
    constructor
    · intro h
      split at h
      · obtain ⟨inner, rfl⟩ := getLast?_eq_some_iff.mp ‹_›
        exact ⟨inner, rfl⟩
      · cases h
    · rintro ⟨inner, hinner⟩
      rw [(List.cons.inj hinner).2, if_pos getLast?_concat]
      rfl
  · rename_i hne
    refine iff_of_false Bool.false_ne_true ?_
    rintro ⟨inner, hinner⟩
    exact hne _ hinner

/-- A control character is shown by its escape, which begins with a backslash. -/
theorem flatMap_shown_eq_self_iff {cs : List Char} :
    cs.flatMap shown = cs ↔ ∀ c ∈ cs, ¬ IsControl c := by
  refine ⟨fun h => ?_, flatMap_shown⟩
  induction cs with
  | nil => exact fun c hc => absurd hc not_mem_nil
  | cons c cs ih =>
    rw [flatMap_cons] at h
    by_cases hc : IsControl c
    · have hne : ¬ (c = '\\' ∨ c = '"') := by
        rintro (rfl | rfl) <;> exact absurd hc (by decide)
      rw [shown, if_neg hne] at h
      rcases escape_read_back c with ⟨code, hescape, -, -⟩ | ⟨-, -, -, hc'⟩
      · rw [hescape] at h
        exact absurd (.inl (List.cons.inj h).1.symm) hne
      · exact absurd hc hc'
    · rw [shown_of_not_control hc] at h
      exact forall_mem_cons.mpr ⟨hc, ih (List.cons.inj h).2⟩

/-- The scene reads a string back from its literal only if there is no control character in it. -/
theorem unquote?_quote_eq_self_iff {s : String} :
    unquote? (quote s) = some s ↔ ∀ c ∈ s.toList, ¬ IsControl c := by
  rw [unquote?_quote, Option.some_inj, ← flatMap_shown_eq_self_iff]
  exact ⟨fun h => String.toList_ofList.symm.trans (congrArg String.toList h),
    fun h => by rw [h, String.ofList_toList]⟩

/-- The reader of the scene undoes the writing of literals exactly on the texts that are not in
quotes and on the literals without control characters.  Any other text in quotes is taken for a
string all the same, and a literal stands for its string with the control characters still
escaped. -/
theorem unquote_undoes_quote_iff (text : String) : ((∀ s, unquote? text = some s ↔ text = quote s) ↔
      (¬ InQuotes text ∨ ∃ s, (∀ c ∈ s.toList, ¬ IsControl c) ∧ text = quote s)) ∧
    ((unquote? text).isSome ↔ InQuotes text) ∧
    ∀ s, unquote? (quote s) = some (String.ofList (s.toList.flatMap shown)) ∧
      (unquote? (quote s) = some s ↔ ∀ c ∈ s.toList, ¬ IsControl c) := by
  refine ⟨⟨fun h => ?_, ?_⟩, isSome_unquote? text, fun s =>
    ⟨unquote?_quote s, unquote?_quote_eq_self_iff⟩⟩
  · by_cases hquotes : InQuotes text
    · obtain ⟨s, hs⟩ := Option.isSome_iff_exists.mp ((isSome_unquote? text).mpr hquotes)
      have htext : text = quote s := (h s).mp hs
      exact .inr ⟨s, unquote?_quote_eq_self_iff.mp (htext ▸ hs), htext⟩
    · exact .inl hquotes
  · rintro (hquotes | ⟨s, hs, rfl⟩) t
    · refine iff_of_false (fun h => hquotes ((isSome_unquote? text).mp ?_)) ?_
      · rw [h]
        rfl
      · rintro rfl
        exact hquotes (inQuotes_quote t)
    · rw [unquote?_quote_of_not_control hs, Option.some_inj]
      exact ⟨fun h => congrArg quote h, quote_injective⟩

/-- Two literals with an operator between them are taken for one string, and a line break in a
literal is not read back. -/
theorem unquote_not_inverse :
    (∃ s, unquote? "\"a\" .. \"b\"" = some s ∧ "\"a\" .. \"b\"" ≠ quote s) ∧
      unquote? (quote "a\nb") ≠ some "a\nb" :=
  ⟨⟨"a\" .. \"b", by decide, by decide⟩, by decide⟩

end LuaRecovery.Lua

/-
Looking ahead in a text.

Two texts are alike if they differ only in that words stand in the place of words.  Reading a
lexeme looks ahead: a quote or a long bracket is one only if it is closed further on, and a number
or a run goes on as long as it can.

  * What is closed in a text is closed in every text alike, because no quote, bracket, backslash
    or line break is part of a word.
  * How much a reader takes hangs on what it takes and at most on the first character behind.
-/
import LuaRecovery.Proofs.ExpressionText

namespace LuaRecovery.Lua

open List

theorem ne_of_isNameChar {x c : Char} (hx : isNameChar x = true) (hc : isNameChar c = false) :
    x ≠ c := by
  rintro rfl
  rw [hx] at hc
  cases hc

theorem isNameChar_of_isBlank {c : Char} (h : Text.isBlank c = true) : isNameChar c = false := by
  obtain ⟨hstart, hdigit⟩ := isNameStart_of_isBlank h
  rw [isNameStart, Bool.or_eq_false_iff] at hstart
  rw [isNameChar, Char.isAlphanum, hstart.1, hstart.2, hdigit]
  rfl

/-! ### Texts that are alike -/

/-- Characters of names, at least one. -/
structure IsRun (cs : List Char) : Prop where
  ne_nil : cs ≠ []
  all : ∀ c ∈ cs, isNameChar c = true

theorem IsRun.head {cs : List Char} (h : IsRun cs) (rest : List Char) :
    ∃ c, (cs ++ rest).head? = some c ∧ isNameChar c = true := by
  obtain ⟨c, cs, rfl⟩ := exists_cons_of_ne_nil h.ne_nil
  exact ⟨c, rfl, h.all c mem_cons_self⟩

/-- Two texts that differ only in that runs of characters of names stand in the place of such
runs. -/
inductive Alike : List Char → List Char → Prop
  | nil : Alike [] []
  | same (c : Char) {cs ds : List Char} (rest : Alike cs ds) : Alike (c :: cs) (c :: ds)
  | run {xs ys cs ds : List Char} (left : IsRun xs) (right : IsRun ys) (rest : Alike cs ds) :
      Alike (xs ++ cs) (ys ++ ds)

namespace Alike

variable {cs ds : List Char} {c : Char}

theorem symm (h : Alike cs ds) : Alike ds cs := by
  induction h with
  | nil => exact .nil
  | same c _ ih => exact .same c ih
  | run hleft hright _ ih => exact .run hright hleft ih

theorem append (h : Alike cs ds) (xs : List Char) : Alike (xs ++ cs) (xs ++ ds) := by
  induction xs with
  | nil => exact h
  | cons c xs ih => exact .same c ih

/-- The first characters are the same, or both are characters of names. -/
theorem head (h : Alike cs ds) : ds.head? = cs.head? ∨
    ∃ x y, cs.head? = some x ∧ ds.head? = some y ∧ isNameChar x = true ∧ isNameChar y = true := by
  cases h with
  | nil => exact .inl rfl
  | same c _ => exact .inl rfl
  | run hleft hright _ =>
    obtain ⟨x, hx, hxname⟩ := hleft.head _
    obtain ⟨y, hy, hyname⟩ := hright.head _
    exact .inr ⟨x, y, hx, hy, hxname, hyname⟩

theorem eq_nil (h : Alike [] ds) : ds = [] := by
  rcases h.head with heq | ⟨x, y, hx, -⟩
  · exact head?_eq_none_iff.mp heq
  · cases hx

/-- A character that names do not have is not first in one of the texts only. -/
theorem head_ne (h : Alike cs ds) (hc : isNameChar c = false) (hcs : cs.head? ≠ some c) :
    ds.head? ≠ some c := by
  rcases h.head with heq | ⟨x, y, -, hy, -, hname⟩
  · rwa [heq]
  · rw [hy]
    exact fun heq => ne_of_isNameChar hname hc (Option.some.inj heq)

theorem of_cons (h : Alike (c :: cs) ds) (hc : isNameChar c = false) :
    ∃ ds', ds = c :: ds' ∧ Alike cs ds' := by
  generalize hcs : c :: cs = cs' at h
  cases h with
  | nil => cases hcs
  | same _ hrest =>
    cases hcs
    exact ⟨_, rfl, hrest⟩
  | run hleft _ _ =>
    obtain ⟨x, hx, hname⟩ := hleft.head _
    rw [← hcs] at hx
    cases hx
    rw [hname] at hc
    cases hc

/-- Characters that names do not have stand at the start of both texts. -/
theorem of_append {xs : List Char} (hxs : ∀ c ∈ xs, isNameChar c = false) :
    ∀ {ds : List Char}, Alike (xs ++ cs) ds → ∃ ds', ds = xs ++ ds' ∧ Alike cs ds' := by
  induction xs with
  | nil => exact fun h => ⟨_, rfl, h⟩
  | cons x xs ih =>
    intro ds h
    obtain ⟨hx, hxs⟩ := forall_mem_cons.mp hxs
    obtain ⟨ds', rfl, hmore⟩ := h.of_cons hx
    obtain ⟨ds'', rfl, hrest⟩ := ih hxs hmore
    exact ⟨ds'', rfl, hrest⟩

end Alike

/-! ### What is closed further on -/

section Closed

variable {cs ds : List Char}

theorem equals_not_isNameChar (level : Nat) :
    ∀ c ∈ List.replicate level '=', isNameChar c = false := by
  intro c hc
  rw [eq_of_mem_replicate hc]
  decide

/-- What comes behind the first bracket of a closing one. -/
theorem closing_not_isNameChar (level : Nat) :
    ∀ c ∈ List.replicate level '=' ++ [']'], isNameChar c = false := by
  intro c hc
  rcases mem_append.mp hc with hc | hc
  · exact equals_not_isNameChar level c hc
  · rw [mem_singleton.mp hc]
    decide

theorem closeLength?_run {level : Nat} {xs : List Char} (hxs : ∀ c ∈ xs, isNameChar c = true)
    (cs : List Char) :
    (closeLength? level (xs ++ cs)).isSome = (closeLength? level cs).isSome := by
  induction xs with
  | nil => rfl
  | cons x xs ih =>
    obtain ⟨hx, hxs⟩ := forall_mem_cons.mp hxs
    have hne : x ≠ ']' := ne_of_isNameChar hx (by decide)
    rw [cons_append, closeLength?, if_neg fun h => hne h.1, Option.isSome_map, ih hxs]

theorem Alike.closes {level : Nat} (h : Alike cs ds)
    (hcs : (closeLength? level cs).isSome = true) : (closeLength? level ds).isSome = true := by
  induction h with
  | nil => exact hcs
  | @same c cs ds hrest ih =>
    rw [closeLength?] at hcs ⊢
    split at hcs
    · rename_i hclosed
      obtain ⟨more, rfl⟩ := isPrefixOf_iff_prefix.mp hclosed.2
      obtain ⟨more', rfl, -⟩ := hrest.of_append (closing_not_isNameChar level)
      rw [if_pos ⟨hclosed.1, isPrefixOf_iff_prefix.mpr (prefix_append _ _)⟩]
      rfl
    · split
      · rfl
      · rw [Option.isSome_map] at hcs ⊢
        exact ih hcs
  | run hleft hright _ ih =>
    rw [closeLength?_run hleft.all] at hcs
    rw [closeLength?_run hright.all]
    exact ih hcs

theorem takeWhile_eq_replicate (cs : List Char) :
    cs.takeWhile (· == '=') = List.replicate (runLength (· == '=') cs) '=' := by
  refine eq_replicate_iff.mpr ⟨rfl, fun c hc => ?_⟩
  exact eq_of_beq (all_eq_true.mp all_takeWhile c hc)

theorem longBracketRest?_eq (level : Nat) (body : List Char) :
    longBracketRest? (List.replicate level '=' ++ '[' :: body)
      = (closeLength? level body).map (level + 1 + ·) := by
  have hlevel : runLength (· == '=') (List.replicate level '=' ++ '[' :: body) = level := by
    have hequals : ∀ c ∈ List.replicate level '=', (c == '=') = true := by
      intro c hc
      rw [eq_of_mem_replicate hc]
      rfl
    rw [runLength, takeWhile_append_of_pos hequals,
      takeWhile_cons_of_neg (by decide), append_nil, length_replicate]
  have hdrop : (List.replicate level '=' ++ '[' :: body).drop level = '[' :: body :=
    drop_left' length_replicate
  simp only [longBracketRest?, hlevel, hdrop]

/-- A long bracket is equals signs, a bracket, and a text that is closed. -/
theorem longBracketRest?_cases {n : Nat} (h : longBracketRest? cs = some n) :
    ∃ level body k, cs = List.replicate level '=' ++ '[' :: body ∧
      closeLength? level body = some k ∧ n = level + 1 + k := by
  have hcs : List.replicate (runLength (· == '=') cs) '='
      ++ cs.drop (runLength (· == '=') cs) = cs := by
    rw [← takeWhile_eq_replicate, drop_runLength, takeWhile_append_dropWhile]
  unfold longBracketRest? at h
  dsimp only at h
  split at h
  · rename_i body hbody
    rw [hbody] at hcs
    obtain ⟨k, hk, rfl⟩ := Option.map_eq_some_iff.mp h
    exact ⟨_, body, k, hcs.symm, hk, rfl⟩
  · cases h

theorem Alike.brackets (h : Alike cs ds) (hcs : (longBracketRest? cs).isSome = true) :
    (longBracketRest? ds).isSome = true := by
  obtain ⟨n, hn⟩ := Option.isSome_iff_exists.mp hcs
  obtain ⟨level, body, k, rfl, hk, -⟩ := longBracketRest?_cases hn
  obtain ⟨ds', rfl, hopened⟩ := h.of_append (equals_not_isNameChar level)
  obtain ⟨body', rfl, hbody⟩ := hopened.of_cons (by decide)
  rw [longBracketRest?_eq, Option.isSome_map]
  exact hbody.closes (by rw [hk]; rfl)

/-- The rest of a string whose last character was a backslash. -/
def escapedRest? (quote : Char) : List Char → Option Nat
  | [] => none
  | _ :: rest => stringRest? quote rest

theorem stringRest?_backslash (quote : Char) (cs : List Char) :
    (stringRest? quote ('\\' :: cs)).isSome = (escapedRest? quote cs).isSome := by
  cases cs with
  | nil => rfl
  | cons c cs =>
    rw [stringRest?, Option.isSome_map]
    rfl

theorem stringRest?_cons {quote c : Char} (hc : c ≠ '\\') (cs : List Char) :
    stringRest? quote (c :: cs) = if c = quote then some 1 else if c = '\n' then none
      else (stringRest? quote cs).map (· + 1) := by
  rw [stringRest?]
  exact hc

theorem stringRest?_run {quote : Char} (hquote : isNameChar quote = false) {xs : List Char}
    (hxs : ∀ c ∈ xs, isNameChar c = true) (cs : List Char) :
    (stringRest? quote (xs ++ cs)).isSome = (stringRest? quote cs).isSome := by
  induction xs with
  | nil => rfl
  | cons x xs ih =>
    obtain ⟨hx, hxs⟩ := forall_mem_cons.mp hxs
    rw [cons_append, stringRest?_cons (ne_of_isNameChar hx (by decide)),
      if_neg (ne_of_isNameChar hx hquote), if_neg (ne_of_isNameChar hx (by decide)),
      Option.isSome_map, ih hxs]

/-- A string that is closed in one text is closed in the other.  The induction carries along what
comes behind a backslash, because a run may lose its first character to it. -/
theorem Alike.strings {quote : Char} (hquote : isNameChar quote = false) (h : Alike cs ds) :
    ((stringRest? quote cs).isSome = true → (stringRest? quote ds).isSome = true) ∧
      ((escapedRest? quote cs).isSome = true → (escapedRest? quote ds).isSome = true) := by
  induction h with
  | nil => exact ⟨id, id⟩
  | @same c cs ds _ ih =>
    refine ⟨fun hcs => ?_, ih.1⟩
    by_cases hc : c = '\\'
    · rw [hc, stringRest?_backslash] at hcs ⊢
      exact ih.2 hcs
    · rw [stringRest?_cons hc] at hcs ⊢
      by_cases hclosed : c = quote
      · rw [if_pos hclosed]
        rfl
      · rw [if_neg hclosed] at hcs ⊢
        by_cases hbreak : c = '\n'
        · rw [if_pos hbreak] at hcs
          cases hcs
        · rw [if_neg hbreak, Option.isSome_map] at hcs ⊢
          exact ih.1 hcs
  | @run xs ys cs ds hleft hright _ ih =>
    refine ⟨?_, ?_⟩
    · rw [stringRest?_run hquote hleft.all, stringRest?_run hquote hright.all]
      exact ih.1
    · obtain ⟨x, xs, rfl⟩ := exists_cons_of_ne_nil hleft.ne_nil
      obtain ⟨y, ys, rfl⟩ := exists_cons_of_ne_nil hright.ne_nil
      have hxs := (forall_mem_cons.mp hleft.all).2
      have hys := (forall_mem_cons.mp hright.all).2
      rw [cons_append, cons_append, escapedRest?, escapedRest?,
        stringRest?_run hquote hxs, stringRest?_run hquote hys]
      exact ih.1

end Closed

/-! ### How much is taken -/

section Taken

variable {t rest rest' : List Char}

theorem closeLength?_ge {level n : Nat} {cs : List Char} (h : closeLength? level cs = some n) :
    level + 2 ≤ n := by
  induction cs generalizing n with
  | nil => cases h
  | cons c cs ih =>
    rw [closeLength?] at h
    split at h
    · cases h
      exact Nat.le_refl _
    · obtain ⟨k, hk, rfl⟩ := Option.map_eq_some_iff.mp h
      exact Nat.le_succ_of_le (ih hk)

theorem isPrefixOf_taken {xs : List Char} (h : xs.length ≤ t.length) (rest : List Char) :
    xs.isPrefixOf (t ++ rest) = xs.isPrefixOf t := by
  rw [Bool.eq_iff_iff, isPrefixOf_iff_prefix, isPrefixOf_iff_prefix]
  exact ⟨fun hp => prefix_of_prefix_length_le hp (prefix_append _ _) h,
    fun hp => hp.trans (prefix_append _ _)⟩

theorem closeLength?_taken {level : Nat} (h : closeLength? level (t ++ rest) = some t.length)
    (rest' : List Char) : closeLength? level (t ++ rest') = some t.length := by
  induction t with
  | nil => exact absurd (closeLength?_ge h) (by simp)
  | cons c t ih =>
    have hlong : (List.replicate level '=' ++ [']']).length ≤ t.length := by
      have hge := closeLength?_ge h
      simp only [length_append, length_replicate, length_cons, length_nil] at hge ⊢
      omega
    rw [cons_append, closeLength?, isPrefixOf_taken hlong] at h ⊢
    split at h
    · rw [if_pos ‹_›, h]
    · rw [if_neg ‹_›]
      rw [length_cons] at h ⊢
      obtain ⟨k, hk, hlength⟩ := Option.map_eq_some_iff.mp h
      rw [Nat.succ.inj hlength] at hk
      rw [ih hk]
      rfl

theorem longBracketRest?_taken (h : longBracketRest? (t ++ rest) = some t.length)
    (rest' : List Char) : longBracketRest? (t ++ rest') = some t.length := by
  obtain ⟨level, body, k, hbody, hclose, hlength⟩ := longBracketRest?_cases h
  have hopened : List.replicate level '=' ++ ['['] <+: t := by
    have hprefix : List.replicate level '=' ++ ['['] <+: t ++ rest := by
      rw [hbody]
      exact ⟨body, by rw [append_assoc, singleton_append]⟩
    refine prefix_of_prefix_length_le hprefix (prefix_append _ _) ?_
    rw [length_append, length_replicate, length_singleton]
    omega
  obtain ⟨u, rfl⟩ := hopened
  rw [append_assoc, append_assoc, singleton_append] at hbody ⊢
  obtain rfl : u ++ rest = body := (List.cons.inj (append_cancel_left hbody)).2
  simp only [length_append, length_replicate, length_singleton] at hlength ⊢
  obtain rfl : u.length = k := by omega
  rw [longBracketRest?_eq, closeLength?_taken hclose rest']
  rfl

theorem stringRest?_pos {quote : Char} {cs : List Char} {n : Nat}
    (h : stringRest? quote cs = some n) : 0 < n := by
  cases cs with
  | nil => cases h
  | cons c cs =>
    by_cases hc : c = '\\'
    · subst hc
      cases cs with
      | nil => cases h
      | cons x more =>
        obtain ⟨k, -, rfl⟩ := Option.map_eq_some_iff.mp h
        exact Nat.succ_pos _
    · rw [stringRest?_cons hc] at h
      split at h
      · cases h
        exact Nat.one_pos
      · split at h
        · cases h
        · obtain ⟨k, -, rfl⟩ := Option.map_eq_some_iff.mp h
          exact Nat.succ_pos _

theorem stringRest?_taken {quote : Char} {rest : List Char} (rest' : List Char) :
    ∀ {t : List Char}, stringRest? quote (t ++ rest) = some t.length →
      stringRest? quote (t ++ rest') = some t.length
  | [], h => absurd (stringRest?_pos h) (Nat.lt_irrefl _)
  | c :: t, h => by
    by_cases hc : c = '\\'
    · subst hc
      match t, h with
      | [], h =>
        -- A backslash takes two characters at least.
        match rest, h with
        | x :: more, h =>
          rw [singleton_append, stringRest?] at h
          obtain ⟨k, -, hk⟩ := Option.map_eq_some_iff.mp h
          cases hk
      | x :: t, h =>
        rw [cons_append, cons_append, stringRest?] at h ⊢
        obtain ⟨k, hk, hlength⟩ := Option.map_eq_some_iff.mp h
        rw [Nat.add_right_cancel hlength] at hk
        rw [stringRest?_taken rest' hk]
        rfl
    · rw [cons_append, stringRest?_cons hc] at h ⊢
      by_cases hclosed : c = quote
      · rw [if_pos hclosed] at h ⊢
        exact h
      · rw [if_neg hclosed] at h ⊢
        by_cases hbreak : c = '\n'
        · rw [if_pos hbreak] at h
          cases h
        · rw [if_neg hbreak] at h ⊢
          obtain ⟨k, hk, hlength⟩ := Option.map_eq_some_iff.mp h
          rw [Nat.add_right_cancel hlength] at hk
          rw [stringRest?_taken rest' hk]
          rfl

variable {p : Char → Bool} {c : Char}

/-- A run that ends within `t` or at the end of it, whatever comes behind. -/
theorem runLength_taken (hhead : rest'.head? = rest.head?)
    (h : runLength p (t ++ rest) ≤ t.length) :
    runLength p (t ++ rest') = runLength p (t ++ rest) := by
  induction t with
  | nil =>
    match rest, rest', hhead with
    | [], [], _ => rfl
    | c :: rest, d :: rest', hhead =>
      obtain rfl : d = c := Option.some.inj hhead
      have hd : ¬ p d = true := by
        intro hd
        rw [nil_append, runLength, takeWhile_cons_of_pos hd] at h
        exact absurd h (Nat.not_succ_le_zero _)
      rw [nil_append, nil_append, runLength, runLength,
        takeWhile_cons_of_neg hd, takeWhile_cons_of_neg hd]
  | cons c t ih =>
    rw [cons_append, cons_append]
    by_cases hc : p c = true
    · have hcons : ∀ cs : List Char, runLength p (c :: cs) = runLength p cs + 1 := by
        intro cs
        rw [runLength, takeWhile_cons_of_pos hc, length_cons, runLength]
      rw [cons_append, hcons, length_cons] at h
      rw [hcons, hcons, ih (Nat.le_of_succ_le_succ h)]
    · rw [runLength, runLength, takeWhile_cons_of_neg hc, takeWhile_cons_of_neg hc]

/-- The digits of a number behind its point. -/
def fractionLength (cs : List Char) : Nat :=
  match cs with
  | '.' :: rest => 1 + runLength Char.isDigit rest
  | _ => 0

theorem fractionLength_cons (hc : c ≠ '.') (cs : List Char) : fractionLength (c :: cs) = 0 := by
  unfold fractionLength
  split
  · next heq => exact absurd (List.cons.inj heq).1 hc
  · rfl

theorem fractionLength_taken (hhead : rest'.head? = rest.head?)
    (h : fractionLength (t ++ rest) ≤ t.length) :
    fractionLength (t ++ rest') = fractionLength (t ++ rest) := by
  match t with
  | [] =>
    match rest, rest', hhead with
    | [], [], _ => rfl
    | c :: rest, d :: rest', hhead =>
      obtain rfl : d = c := Option.some.inj hhead
      have hd : d ≠ '.' := by
        rintro rfl
        rw [nil_append, fractionLength, length_nil] at h
        omega
      rw [nil_append, nil_append, fractionLength_cons hd, fractionLength_cons hd]
  | c :: t =>
    by_cases hc : c = '.'
    · subst hc
      rw [cons_append, fractionLength, length_cons] at h
      rw [cons_append, cons_append, fractionLength, fractionLength,
        runLength_taken hhead (by omega)]
    · rw [cons_append, cons_append, fractionLength_cons hc, fractionLength_cons hc]

/-- The sign of an exponent. -/
def signLength : List Char → Nat
  | c :: _ => if c = '+' ∨ c = '-' then 1 else 0
  | [] => 0

theorem exponentLength_cons (e : Char) (cs : List Char) : exponentLength (e :: cs) =
      if e = 'e' ∨ e = 'E' then
        if runLength Char.isDigit (cs.drop (signLength cs)) = 0 then 0
        else 1 + signLength cs + runLength Char.isDigit (cs.drop (signLength cs))
      else 0 := rfl

theorem exponentLength_other (hc : isNameStart c = false) (cs : List Char) :
    exponentLength (c :: cs) = 0 := by
  rw [exponentLength_cons, if_neg]
  rintro (rfl | rfl) <;> cases hc

/-- An exponent that is complete. -/
theorem exponentLength_taken (hhead : rest'.head? = rest.head?)
    (hstart : ∀ c, rest.head? = some c → isNameStart c = false)
    (h : exponentLength (t ++ rest) = t.length) : exponentLength (t ++ rest') = t.length := by
  match t with
  | [] =>
    match rest, rest', hhead with
    | [], [], _ => rfl
    | c :: rest, d :: rest', hhead =>
      obtain rfl : d = c := Option.some.inj hhead
      exact exponentLength_other (hstart d rfl) rest'
  | [e] =>
    rw [singleton_append, exponentLength_cons] at h
    split at h
    · split at h
      · cases h
      · rw [length_singleton] at h
        omega
    · cases h
  | e :: x :: t =>
    rw [cons_append, exponentLength_cons] at h ⊢
    split at h
    · rename_i he
      rw [if_pos he]
      have hsign : signLength (x :: t ++ rest') = signLength (x :: t ++ rest) := rfl
      rw [hsign]
      generalize signLength (x :: t ++ rest) = s at h ⊢
      split at h
      · cases h
      · rename_i hdigits
        rw [length_cons] at h
        have hs : s ≤ (x :: t).length := by omega
        rw [drop_append_of_le_length hs] at h hdigits ⊢
        have hlength : runLength Char.isDigit ((x :: t).drop s ++ rest)
            ≤ ((x :: t).drop s).length := by
          rw [length_drop]
          omega
        rw [runLength_taken hhead hlength, if_neg hdigits, h]
        rfl
    · cases h

theorem decimalRest_eq (cs : List Char) : decimalRest cs = runLength Char.isDigit cs
      + fractionLength (cs.drop (runLength Char.isDigit cs))
      + exponentLength (cs.drop (runLength Char.isDigit cs
        + fractionLength (cs.drop (runLength Char.isDigit cs)))) := rfl

theorem decimalRest_taken (hhead : rest'.head? = rest.head?)
    (hstart : ∀ c, rest.head? = some c → isNameStart c = false)
    (h : decimalRest (t ++ rest) = t.length) : decimalRest (t ++ rest') = t.length := by
  rw [decimalRest_eq] at h ⊢
  generalize hw : runLength Char.isDigit (t ++ rest) = whole at h
  rw [runLength_taken hhead (by omega), hw]
  have hwhole : whole ≤ t.length := by omega
  rw [drop_append_of_le_length hwhole] at h ⊢
  generalize hf : fractionLength (t.drop whole ++ rest) = fraction at h
  rw [fractionLength_taken hhead (by rw [length_drop]; omega), hf]
  have hfraction : whole + fraction ≤ t.length := by omega
  rw [drop_append_of_le_length hfraction] at h ⊢
  have hexponent : exponentLength (t.drop (whole + fraction) ++ rest)
      = (t.drop (whole + fraction)).length := by
    rw [length_drop]
    omega
  rw [exponentLength_taken hhead hstart hexponent, ← hexponent, h]

theorem numberRest_hex {x : Char} (hx : x = 'x' ∨ x = 'X') (cs : List Char) :
    numberRest '0' (x :: cs) =
      if runLength isHexDigit cs ≠ 0 then 1 + runLength isHexDigit cs else 0 := by
  by_cases hdigits : runLength isHexDigit cs ≠ 0
  · rw [if_pos hdigits]
    exact if_pos ⟨rfl, hx, hdigits⟩
  · have hnone : decimalRest (x :: cs) = 0 := by
      rcases hx with rfl | rfl <;> rfl
    rw [if_neg hdigits, ← hnone]
    exact if_neg fun hall => hdigits hall.2.2

theorem numberRest_taken (hhead : rest'.head? = rest.head?)
    (hstart : ∀ c, rest.head? = some c → isNameStart c = false)
    (h : numberRest c (t ++ rest) = t.length) : numberRest c (t ++ rest') = t.length := by
  match t with
  | [] =>
    match rest, rest', hhead with
    | [], [], _ => rfl
    | x :: rest, y :: rest', hhead =>
      obtain rfl : y = x := Option.some.inj hhead
      have hother : ∀ cs, numberRest c (y :: cs) = decimalRest (y :: cs) := by
        intro cs
        have hy := hstart y rfl
        refine if_neg ?_
        rintro ⟨-, rfl | rfl, -⟩ <;> cases hy
      rw [nil_append, hother] at h ⊢
      exact decimalRest_taken (t := []) hhead hstart h
  | x :: t =>
    by_cases hhex : c = '0' ∧ (x = 'x' ∨ x = 'X')
    · obtain ⟨rfl, hx⟩ := hhex
      rw [cons_append, numberRest_hex hx, length_cons] at h ⊢
      split at h
      · rename_i hdigits
        rw [runLength_taken hhead (by omega), if_pos hdigits, h]
      · cases h
    · have hother : ∀ cs, numberRest c (x :: cs) = decimalRest (x :: cs) :=
        fun cs => if_neg fun hall => hhex ⟨hall.1, hall.2.1⟩
      rw [cons_append, hother] at h ⊢
      exact decimalRest_taken (t := x :: t) hhead hstart h

theorem runLength_eq_length_iff : runLength p (t ++ rest) = t.length ↔
      (∀ c ∈ t, p c = true) ∧ ∀ c, rest.head? = some c → p c = false := by
  induction t with
  | nil =>
    cases rest with
    | nil => simp [runLength]
    | cons c rest => cases hc : p c <;> simp [runLength, hc]
  | cons c t ih =>
    rw [cons_append, length_cons, forall_mem_cons]
    cases hc : p c with
    | false => simp [runLength, hc]
    | true =>
      rw [runLength, takeWhile_cons_of_pos hc, length_cons, Nat.add_right_cancel_iff,
        ← runLength, ih]
      simp

/-- A run of characters ends where it did, if it ends at every character of names or at none. -/
theorem Alike.run_taken (h : Alike rest rest')
    (hp : ∀ x y, isNameChar x = true → isNameChar y = true → p x = false → p y = false)
    (hlength : runLength p (t ++ rest) = t.length) : runLength p (t ++ rest') = t.length := by
  rw [runLength_eq_length_iff] at hlength ⊢
  refine ⟨hlength.1, fun c hc => ?_⟩
  rcases h.head with heq | ⟨x, y, hx, hy, hxname, hyname⟩
  · exact hlength.2 c (heq ▸ hc)
  · rw [hc] at hy
    cases hy
    exact hp x c hxname hyname (hlength.2 x hx)

end Taken

end LuaRecovery.Lua

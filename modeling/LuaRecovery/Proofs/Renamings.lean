/-
What a renaming does to a text.

A renaming changes the characters of a text only within its variables, and the text that comes out
is cut into the same lexemes, with the new names in the place of the old ones.  Everything else
follows from the names alone: how often a name occurs afterwards, that two names can be exchanged,
and that a renaming to names that were not there can be undone.

This holds for texts without a name directly behind a number: in `0xg` the name `xg` starts behind
the number `0`, and a name such as `x1` there would be taken for a part of the number.  And the new
names must not end in a line break, which the test for names lets through.
-/
import LuaRecovery.Lua.Renaming
import LuaRecovery.Proofs.Respelling

namespace LuaRecovery.Lua

open List

/-- The name that a renaming gives a name. -/
def sent (pairs : List (String × String)) (x : String) : String := (pairs.lookup x).getD x

/-- A lexeme under a renaming: one that stands for a variable has the new name. -/
def renamedLexeme (pairs : List (String × String)) (m : Lexeme × Bool) : Lexeme :=
  if m.2 then ⟨m.1.kind, (sent pairs m.1.text).toList⟩ else m.1

/-- The names of a text that stand for variables, in order. -/
def variablesIn (source : String) : List String :=
  ((markedLexemes source).filter Prod.snd).map fun m => m.1.text

/-- The pairs of names of a renaming the other way round, as a proposal. -/
def inverse (pairs : List (String × String)) : List (String × Payload) :=
  pairs.map fun p => (p.2, .text p.1)

/-! ### The text of a renaming -/

section Text

variable {pairs : List (String × String)} {source : String}

theorem Lexeme.toList_text (l : Lexeme) : l.text.toList = l.chars := String.toList_ofList

theorem renamedLexeme_text {m : Lexeme × Bool} (h : m.2 = true) :
    (renamedLexeme pairs m).text = sent pairs m.1.text := by
  rw [renamedLexeme, if_pos h, Lexeme.text, String.ofList_toList]

theorem renamedLexeme_kind (m : Lexeme × Bool) : (renamedLexeme pairs m).kind = m.1.kind := by
  unfold renamedLexeme
  split <;> rfl

theorem renamedLexeme_of_sent {m : Lexeme × Bool} (h : sent pairs m.1.text = m.1.text) :
    renamedLexeme pairs m = m.1 := by
  unfold renamedLexeme
  split
  · rw [h, Lexeme.toList_text]
  · rfl

theorem map_fst_markVariables (before : List Char) (ls : List Lexeme) :
    (markVariables before ls).map Prod.fst = ls := by
  induction ls generalizing before with
  | nil => rfl
  | cons l ls ih => rw [markVariables, map_cons, ih]

theorem map_fst_markedLexemes (source : String) :
    (markedLexemes source).map Prod.fst = lexemes source.toList :=
  map_fst_markVariables [] _

/-- The text that a renaming gives is made of the renamed lexemes. -/
theorem toList_rename (source : String) (pairs : List (String × String)) :
    (rename source pairs).toList
      = ((markedLexemes source).map (renamedLexeme pairs)).flatMap Lexeme.chars := by
  unfold rename
  split
  · rename_i hempty
    have hsame : renamedLexeme pairs = Prod.fst := by
      rw [List.isEmpty_iff.mp hempty]
      exact funext fun m => renamedLexeme_of_sent rfl
    rw [hsame, map_fst_markedLexemes, flatMap_lexemes]
  · rw [String.toList_join, flatMap_map, flatMap_map]
    congr 1
    funext m
    obtain ⟨l, stands⟩ := m
    cases stands with
    | true => rfl
    | false => exact Lexeme.toList_text l

end Text

/-! ### The lexemes of a renaming -/

section Lexemes

variable {pairs : List (String × String)} {source : String}

/-- Whether a name behind a sign is a field. -/
def selects (before : List Char) : Bool := before == ['.'] || before == [':']

theorem markVariables_cons (before : List Char) (l : Lexeme) (ls : List Lexeme) :
    markVariables before (l :: ls) = (l, l.kind == .name && !isKeyword l.text && !selects before)
        :: markVariables (if l.isSilent then before else l.chars) ls := by
  rw [markVariables, selects, Bool.not_or, ← Bool.and_assoc]

theorem selects_of_isNameChars {cs : List Char} (h : IsNameChars cs) : selects cs = false := by
  cases cs with
  | nil => rfl
  | cons c cs =>
    have hname := isNameChar_of_isNameStart h.1
    have hdot : c ≠ '.' := ne_of_isNameChar hname (by decide)
    have hcolon : c ≠ ':' := ne_of_isNameChar hname (by decide)
    simp [selects, hdot, hcolon]

variable {m : Lexeme × Bool}

/-- Only a name that is no keyword stands for a variable. -/
theorem stands_cases {before : List Char} {ls : List Lexeme} (hm : m ∈ markVariables before ls)
    (hstands : m.2 = true) : m.1.kind = .name ∧ isKeyword m.1.text = false := by
  induction ls generalizing before with
  | nil => cases hm
  | cons l ls ih =>
    rw [markVariables_cons] at hm
    rcases mem_cons.mp hm with rfl | hm
    · simp only [Bool.and_eq_true, beq_iff_eq, Bool.not_eq_true'] at hstands
      exact hstands.1
    · exact ih hm

theorem isNameChars_of_mem_lexemes {cs : List Char} {l : Lexeme} (hl : l ∈ lexemes cs)
    (hkind : l.kind = .name) : IsNameChars l.chars := by
  fun_induction lexemes cs with
  | case1 => cases hl
  | case2 c rest ih =>
    rcases mem_cons.mp hl with rfl | hl
    · exact isNameChars_of_kind hkind
    · exact ih hl

/-- The new names are names, and none is a keyword or ends in a line break. -/
def Usable (pairs : List (String × String)) : Prop :=
  ∀ p ∈ pairs, IsNameChars p.2.toList ∧ isKeyword p.2 = false

theorem mem_of_lookup {x y : String} (h : pairs.lookup x = some y) : (x, y) ∈ pairs := by
  obtain ⟨front, back, rfl, -⟩ := lookup_eq_some_iff.mp h
  exact mem_append_right _ mem_cons_self

theorem lookup_of_mem {x y : String} (h : (x, y) ∈ pairs)
    (honly : ∀ z, (x, z) ∈ pairs → z = y) : pairs.lookup x = some y := by
  cases hlookup : pairs.lookup x with
  | none =>
    have hne := lookup_eq_none_iff.mp hlookup (x, y) h
    exact absurd rfl (bne_iff_ne.mp hne)
  | some z => rw [honly z (mem_of_lookup hlookup)]

theorem sent_cases (pairs : List (String × String)) (x : String) :
    (sent pairs x = x ∧ pairs.lookup x = none) ∨ (x, sent pairs x) ∈ pairs := by
  unfold sent
  cases hlookup : pairs.lookup x with
  | none => exact .inl ⟨rfl, rfl⟩
  | some y => exact .inr (mem_of_lookup hlookup)

theorem Usable.sent (h : Usable pairs) (hname : IsNameChars m.1.chars)
    (hkeyword : isKeyword m.1.text = false) :
    IsNameChars (sent pairs m.1.text).toList ∧ isKeyword (Lua.sent pairs m.1.text) = false := by
  rcases sent_cases pairs m.1.text with ⟨hsame, -⟩ | hmem
  · rw [hsame, Lexeme.toList_text]
    exact ⟨hname, hkeyword⟩
  · exact h _ hmem

section

variable (h : Usable pairs)

include h

theorem respelled_of_mem (hm : m ∈ markedLexemes source) :
    Respelled m.1 (renamedLexeme pairs m) := by
  unfold renamedLexeme
  split
  · rename_i hstands
    obtain ⟨hkind, hkeyword⟩ := stands_cases hm hstands
    have hmem : m.1 ∈ lexemes source.toList := by
      rw [← map_fst_markedLexemes]
      exact mem_map_of_mem hm
    have hchars := (h.sent (isNameChars_of_mem_lexemes hmem hkind) hkeyword).1
    rw [hkind]
    exact .name hkind hchars
  · exact .same

theorem lexemes_rename (hnumbers : NumbersApart (lexemes source.toList)) :
    lexemes (rename source pairs).toList = (markedLexemes source).map (renamedLexeme pairs) := by
  rw [toList_rename]
  refine lexemes_respelled hnumbers ?_
  rw [← map_fst_markedLexemes, forall₂_map_left_iff, forall₂_map_right_iff, forall₂_same]
  exact fun m hm => respelled_of_mem h hm

/-- A lexeme stands for a variable if it did before it was renamed, and it makes the same of the
name behind it. -/
theorem stands_renamed {before before' : List Char}
    (hbefore : selects before' = selects before) {l : Lexeme} {stands : Bool}
    (hl : l.kind = .name → IsNameChars l.chars)
    (hstands : (l.kind == .name && !isKeyword l.text && !selects before) = stands) :
    let l' := renamedLexeme pairs (l, stands)
    (l'.kind == .name && !isKeyword l'.text && !selects before') = stands ∧
      selects (if l'.isSilent then before' else l'.chars)
        = selects (if l.isSilent then before else l.chars) := by
  cases stands with
  | true =>
    simp only [Bool.and_eq_true, beq_iff_eq, Bool.not_eq_true'] at hstands
    obtain ⟨⟨hkind, hkeyword⟩, hfield⟩ := hstands
    obtain ⟨hchars, hsent⟩ := h.sent (m := (l, true)) (hl hkind) hkeyword
    refine ⟨?_, ?_⟩
    · rw [renamedLexeme_text rfl, renamedLexeme_kind, hsent, hbefore, hfield, hkind]
      rfl
    · have hname : ∀ m : Lexeme, m.kind = .name → m.isSilent = false := by
        intro m hm
        rw [Lexeme.isSilent, hm]
      have hkind' : (renamedLexeme pairs (l, true)).kind = .name := by
        rw [renamedLexeme_kind, hkind]
      rw [hname _ hkind', hname _ hkind]
      exact (selects_of_isNameChars hchars).trans (selects_of_isNameChars (hl hkind)).symm
  | false =>
    refine ⟨?_, ?_⟩
    · rw [hbefore]
      exact hstands
    · show selects (if l.isSilent then before' else l.chars) = _
      split
      · exact hbefore
      · rfl

/-- The names that stand for variables are those that did before. -/
theorem markVariables_renamed {before before' : List Char}
    (hbefore : selects before' = selects before) {ls : List Lexeme}
    (hls : ∀ l ∈ ls, l.kind = .name → IsNameChars l.chars) :
    markVariables before' ((markVariables before ls).map (renamedLexeme pairs))
      = (markVariables before ls).map fun m => (renamedLexeme pairs m, m.2) := by
  induction ls generalizing before before' with
  | nil => rfl
  | cons l ls ih =>
    obtain ⟨hl, hls⟩ := forall_mem_cons.mp hls
    obtain ⟨hmark, hnext⟩ := stands_renamed h hbefore hl rfl
    rw [markVariables_cons, map_cons, map_cons, markVariables_cons, hmark, ih hnext hls]

theorem markedLexemes_rename (hnumbers : NumbersApart (lexemes source.toList)) :
    markedLexemes (rename source pairs)
      = (markedLexemes source).map fun m => (renamedLexeme pairs m, m.2) := by
  rw [markedLexemes, lexemes_rename h hnumbers]
  exact markVariables_renamed h rfl fun l hl hkind => isNameChars_of_mem_lexemes hl hkind

theorem variablesIn_rename (hnumbers : NumbersApart (lexemes source.toList)) :
    variablesIn (rename source pairs) = (variablesIn source).map (sent pairs) := by
  rw [variablesIn, markedLexemes_rename h hnumbers, variablesIn, filter_map, map_map, map_map]
  refine map_congr_left fun m hm => ?_
  exact renamedLexeme_text (mem_filter.mp hm).2

end

theorem renamedLexeme_back {back : List (String × String)}
    (h : m.2 = true → sent back (sent pairs m.1.text) = m.1.text) :
    renamedLexeme back (renamedLexeme pairs m, m.2) = m.1 := by
  cases hstands : m.2 with
  | false =>
    rw [renamedLexeme, renamedLexeme, hstands]
    rfl
  | true =>
    have htext : (renamedLexeme pairs m).text = sent pairs m.1.text := renamedLexeme_text hstands
    rw [renamedLexeme, if_pos rfl, renamedLexeme_kind, htext, h hstands, Lexeme.toList_text]

/-- A second renaming that leads back from the new names. -/
theorem rename_rename {back : List (String × String)} (h : Usable pairs)
    (hnumbers : NumbersApart (lexemes source.toList))
    (hback : ∀ x ∈ variablesIn source, sent back (sent pairs x) = x) :
    rename (rename source pairs) back = source := by
  apply String.toList_inj.mp
  calc (rename (rename source pairs) back).toList = ((markedLexemes source).map fun m =>
          renamedLexeme back (renamedLexeme pairs m, m.2)).flatMap Lexeme.chars := by
        rw [toList_rename, markedLexemes_rename h hnumbers, map_map]
        rfl
    _ = ((markedLexemes source).map Prod.fst).flatMap Lexeme.chars := by
        congr 1
        refine map_congr_left fun m hm => renamedLexeme_back fun hstands => hback _ ?_
        exact mem_map_of_mem (mem_filter.mpr ⟨hm, hstands⟩)
    _ = source.toList := by rw [map_fst_markedLexemes, flatMap_lexemes]

end Lexemes

/-! ### How often names occur -/

/-- The table of how often each text is in a list. -/
def tally (xs : List String) : Table String Nat :=
  xs.foldl (fun t x => t.insert x ((t.get? x).getD 0 + 1)) {}

theorem occurrences_eq (source : String) : occurrences source = tally (variablesIn source) := by
  rw [occurrences, tally, variablesIn, foldl_map, foldl_filter]

/-- A number of occurrences as a table has it: nothing is stored for none. -/
def counted (n : Nat) : Option Nat := if n = 0 then none else some n

theorem get?_tally (xs : List String) (y : String) : (tally xs).get? y = counted (xs.count y) := by
  suffices hfold : ∀ t : Table String Nat,
      (xs.foldl (fun t x => t.insert x ((t.get? x).getD 0 + 1)) t).get? y
        = if xs.count y = 0 then t.get? y else some ((t.get? y).getD 0 + xs.count y) by
    rw [tally, hfold, counted]
    congr 2
    exact Nat.zero_add _
  induction xs with
  | nil => exact fun t => rfl
  | cons x xs ih =>
    intro t
    rw [foldl_cons, ih, Table.get?_insert, count_cons]
    by_cases hx : x = y
    · subst hx
      by_cases hnone : xs.count x = 0 <;> simp [hnone]
      omega
    · simp [hx]

/-- What is stored under the keys with a property, added up. -/
def totalOf (p : String → Bool) : List (String × Nat) → Nat
  | [] => 0
  | e :: es => (if p e.1 then e.2 else 0) + totalOf p es

theorem totalOf_put (p : String → Bool) (x : String) (es : List (String × Nat)) :
    totalOf p (Table.put x ((Table.find x es).getD 0 + 1) es)
      = totalOf p es + if p x then 1 else 0 := by
  induction es with
  | nil => simp [totalOf, Table.put, Table.find]
  | cons e es ih =>
    obtain ⟨k, n⟩ := e
    by_cases hk : k = x
    · subst hk
      by_cases hp : p k = true
      · simp [totalOf, Table.put, Table.find, hp]
        omega
      · simp [totalOf, Table.put, Table.find, hp]
    · simp [totalOf, Table.put, Table.find, hk, ih]
      omega

theorem totalOf_tally (p : String → Bool) (xs : List String) :
    totalOf p (tally xs).entries = xs.countP p := by
  suffices hfold : ∀ t : Table String Nat,
      totalOf p (xs.foldl (fun t x => t.insert x ((t.get? x).getD 0 + 1)) t).entries
        = totalOf p t.entries + xs.countP p by
    rw [tally, hfold]
    exact Nat.zero_add _
  induction xs with
  | nil => exact fun t => rfl
  | cons x xs ih =>
    intro t
    rw [foldl_cons, ih, Table.insert, Table.get?, totalOf_put, countP_cons]
    omega

/-! ### Proposals -/

section Proposals

variable {pairs : List (String × String)} {source : String}

variable {proposal : List (String × Payload)} {x y : String}

theorem mem_accepted : (x, y) ∈ accepted proposal ↔
      (x, Payload.text y) ∈ proposal ∧ isName x = true ∧ isName y = true ∧ x ≠ y := by
  rw [accepted, mem_filterMap]
  refine ⟨?_, fun ⟨hmem, hx, hy, hne⟩ => ⟨(x, .text y), mem_mergeSort.mpr hmem, ?_⟩⟩
  · rintro ⟨⟨old, new⟩, hmem, hpair⟩
    cases new <;> simp only [acceptedPair?, reduceCtorEq] at hpair
    split at hpair
    · rename_i hnames
      cases hpair
      simp only [Bool.and_eq_true, bne_iff_ne] at hnames
      exact ⟨mem_mergeSort.mp hmem, hnames.1.1, hnames.1.2, hnames.2⟩
    · cases hpair
  · simp [acceptedPair?, hx, hy, hne]

theorem accepted_of_sorted (h : proposal.Pairwise fun x y => proposalLe x y = true) :
    accepted proposal = proposal.filterMap acceptedPair? := by
  rw [accepted, mergeSort_of_pairwise h]

theorem isNameChar_of_isNameTail {cs : List Char} (h : isNameTail cs = true) (hbreak : '\n' ∉ cs) :
    ∀ c ∈ cs, isNameChar c = true := by
  induction cs with
  | nil => exact fun c hc => absurd hc not_mem_nil
  | cons c cs ih =>
    obtain ⟨hc, hcs⟩ := ne_and_not_mem_of_not_mem_cons hbreak
    rw [isNameTail, Bool.or_eq_true, Bool.and_eq_true, Bool.and_eq_true, beq_iff_eq] at h
    rcases h with ⟨rfl, -⟩ | ⟨hname, htail⟩
    · exact absurd rfl hc
    · exact forall_mem_cons.mpr ⟨hname, ih htail hcs⟩

theorem usable_accepted (hbreaks : ∀ p ∈ accepted proposal, '\n' ∉ p.2.toList) :
    Usable (accepted proposal) := by
  intro p hp
  have hbreak := hbreaks p hp
  have hname := (mem_accepted.mp hp).2.2.1
  unfold isName at hname
  cases hchars : p.2.toList with
  | nil =>
    rw [hchars] at hname
    cases hname
  | cons c cs =>
    rw [hchars] at hname hbreak
    simp only [Bool.and_eq_true, Bool.not_eq_true'] at hname
    obtain ⟨⟨hstart, htail⟩, hkeyword⟩ := hname
    exact ⟨⟨hstart, isNameChar_of_isNameTail htail fun hmem =>
      hbreak (mem_cons_of_mem c hmem)⟩, hkeyword⟩

theorem mem_accepted_inverse :
    (y, x) ∈ accepted (inverse (accepted proposal)) ↔ (x, y) ∈ accepted proposal := by
  rw [mem_accepted, inverse, mem_map]
  refine ⟨?_, fun h => ?_⟩
  · rintro ⟨⟨p, hp, hpair⟩, -⟩
    cases hpair
    exact hp
  · obtain ⟨-, hx, hy, hne⟩ := mem_accepted.mp h
    exact ⟨⟨(x, y), h, rfl⟩, hy, hx, hne.symm⟩

/-- The other way round leads back from every name that is not itself a new one. -/
theorem sent_inverse {x : String}
    (honce : ∀ a b y, (a, y) ∈ accepted proposal → (b, y) ∈ accepted proposal → a = b)
    (hnew : ∀ p ∈ accepted proposal, p.2 ≠ x) :
    sent (accepted (inverse (accepted proposal))) (sent (accepted proposal) x) = x := by
  rcases sent_cases (accepted proposal) x with ⟨hsame, -⟩ | hmem
  · rw [hsame]
    rcases sent_cases (accepted (inverse (accepted proposal))) x with ⟨hback, -⟩ | hback
    · exact hback
    · exact absurd rfl (hnew _ (mem_accepted_inverse.mp hback))
  · have hlookup := lookup_of_mem (mem_accepted_inverse.mpr hmem) fun z hz =>
      honce z x _ (mem_accepted_inverse.mp hz) hmem
    rw [sent, hlookup, Option.getD_some]

/-- Names that are exchanged. -/
theorem sent_sent (hboth : ∀ x y, pairs.lookup x = some y → pairs.lookup y = some x) (x : String) :
    sent pairs (sent pairs x) = x := by
  cases hlookup : pairs.lookup x with
  | none =>
    have hsame : sent pairs x = x := by rw [sent, hlookup, Option.getD_none]
    rw [hsame, hsame]
  | some y =>
    have hsent : sent pairs x = y := by rw [sent, hlookup, Option.getD_some]
    rw [hsent, sent, hboth x y hlookup, Option.getD_some]

theorem sent_beq (hboth : ∀ x y, pairs.lookup x = some y → pairs.lookup y = some x)
    (h : pairs.lookup x = some y) (z : String) : (sent pairs z == y) = (z == x) := by
  have hx : sent pairs x = y := by rw [sent, h, Option.getD_some]
  have hy : sent pairs y = x := by rw [← hx, sent_sent hboth]
  rw [Bool.eq_iff_iff, beq_iff_eq, beq_iff_eq]
  refine ⟨fun hz => ?_, fun hz => by rw [hz, hx]⟩
  rw [← sent_sent hboth z, hz, hy]

theorem kind_of_mem_variablesIn {x : String} (hx : x ∈ variablesIn source) :
    ∃ l ∈ lexemes source.toList, l.kind = .name ∧ l.text = x := by
  obtain ⟨m, hm, rfl⟩ := mem_map.mp hx
  obtain ⟨hm, hstands⟩ := mem_filter.mp hm
  refine ⟨m.1, ?_, (stands_cases hm hstands).1, rfl⟩
  rw [← map_fst_markedLexemes]
  exact mem_map_of_mem hm

end Proposals

/-- A renaming changes the names that stand for variables and no other lexeme.  So a name occurs as
often as all names that are sent to it did; names that are exchanged do not run into each other,
and exchanging them again gives the text back; and if no two names are sent to one, and to none
that is a name of the text, the renaming the other way round gives the text back. -/
theorem rename_acts_on_variables (source : String) (proposal : List (String × Payload))
    (hnumbers : NumbersApart (lexemes source.toList))
    (hbreaks : ∀ p ∈ accepted proposal, '\n' ∉ p.2.toList) :
    lexemes (rename source (accepted proposal)).toList
        = (markedLexemes source).map (renamedLexeme (accepted proposal)) ∧
      (∀ y, (occurrences (rename source (accepted proposal))).get? y = counted
        (totalOf (fun x => sent (accepted proposal) x == y) (occurrences source).entries)) ∧
      ((∀ x y, (accepted proposal).lookup x = some y → (accepted proposal).lookup y = some x) →
        (∀ x y, (accepted proposal).lookup x = some y →
          (occurrences (rename source (accepted proposal))).get? y = (occurrences source).get? x) ∧
        rename (rename source (accepted proposal)) (accepted proposal) = source) ∧
      ((∀ a b y, (a, y) ∈ accepted proposal → (b, y) ∈ accepted proposal → a = b) →
        (∀ p ∈ accepted proposal, ∀ l ∈ lexemes source.toList, l.kind = .name → l.text ≠ p.2) →
        rename (rename source (accepted proposal)) (accepted (inverse (accepted proposal)))
          = source) := by
  have husable := usable_accepted hbreaks
  have hvariables := variablesIn_rename husable hnumbers
  refine ⟨lexemes_rename husable hnumbers, fun y => ?_, fun hboth => ⟨fun x y hxy => ?_, ?_⟩,
    fun honce hnew => ?_⟩
  · rw [occurrences_eq, occurrences_eq, get?_tally, totalOf_tally, hvariables, List.count,
      countP_map]
    rfl
  · rw [occurrences_eq, occurrences_eq, get?_tally, get?_tally, hvariables, List.count,
      countP_map, List.count]
    congr 2
    exact funext fun z => sent_beq hboth hxy z
  · exact rename_rename husable hnumbers fun x _ => sent_sent hboth x
  · refine rename_rename husable hnumbers fun x hx => sent_inverse honce fun p hp heq => ?_
    obtain ⟨l, hl, hkind, htext⟩ := kind_of_mem_variablesIn hx
    exact hnew p hp l hl hkind (htext.trans heq.symm)

/-- A text in which the names of variables stand in a comment, in strings and as a field too. -/
def mixedText : String := "local a, b = 0x1F, [[a]] -- b\nobj.a = a .. 'b' .. b"

/-- Two names are exchanged, and a keyword is no name to rename to. -/
def exchangeProposal : List (String × Payload) :=
  [("obj", .text "end"), ("a", .text "b"), ("b", .text "a")]

def freshProposal : List (String × Payload) := [("obj", .text "self"), ("a", .text "count")]

theorem mixedText_renamed : rename mixedText (accepted exchangeProposal)
        = "local b, a = 0x1F, [[a]] -- b\nobj.a = b .. 'b' .. a" ∧
      (occurrences (rename mixedText (accepted exchangeProposal))).get? "a" = some 2 ∧
      rename (rename mixedText (accepted exchangeProposal)) (accepted exchangeProposal)
        = mixedText ∧
      rename mixedText (accepted freshProposal)
        = "local count, b = 0x1F, [[a]] -- b\nself.a = count .. 'b' .. b" ∧
      rename (rename mixedText (accepted freshProposal))
        (accepted (inverse (accepted freshProposal))) = mixedText := by
  have hnumbers : NumbersApart (lexemes mixedText.toList) := by decide +kernel
  have hexchange : accepted exchangeProposal = [("a", "b"), ("b", "a")] := by
    rw [accepted_of_sorted (by decide +kernel)]
    decide +kernel
  have hfresh : accepted freshProposal = [("obj", "self"), ("a", "count")] := by
    rw [accepted_of_sorted (by decide +kernel)]
    decide +kernel
  obtain ⟨-, -, hboth, -⟩ := rename_acts_on_variables mixedText exchangeProposal hnumbers
    (by rw [hexchange]; decide +kernel)
  obtain ⟨-, -, -, hback⟩ := rename_acts_on_variables mixedText freshProposal hnumbers
    (by rw [hfresh]; decide +kernel)
  obtain ⟨hcounts, hagain⟩ := hboth (by
    intro x y hlookup
    rw [hexchange] at hlookup ⊢
    have hmem := mem_of_lookup hlookup
    simp only [mem_cons, Prod.mk.injEq, not_mem_nil, or_false] at hmem
    rcases hmem with ⟨rfl, rfl⟩ | ⟨rfl, rfl⟩ <;> decide)
  refine ⟨by rw [hexchange]; decide +kernel, ?_, hagain, by rw [hfresh]; decide +kernel,
    hback ?_ ?_⟩
  · rw [hcounts "b" "a" (by rw [hexchange]; decide)]
    decide +kernel
  · intro a b y ha hb
    rw [hfresh] at ha hb
    simp only [mem_cons, Prod.mk.injEq, not_mem_nil, or_false] at ha hb
    grind
  · rw [hfresh]
    decide +kernel

end LuaRecovery.Lua

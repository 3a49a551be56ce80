/-
Texts without line breaks.

Texts of the payload get into recovered statements as string literals, as names that are made out
of them, or as they are.  Literals, numbers, made names and messages have no line break,
whatever the payload is, and an expression has none if its parts have none.  The text of a global
is the exception: the test for names lets one line break at the end through, so a name with a
line break behind it is written as it is (`oneLine_globalText`).
-/
import LuaRecovery.Proofs.FieldNames
import LuaRecovery.Proofs.Indentation
import LuaRecovery.Proofs.NumeralTexts

namespace LuaRecovery

open List

open Layout

instance : DecidablePred OneLine := fun s => inferInstanceAs (Decidable ('\n' ∉ s.toList))

theorem oneLine_ofList {cs : List Char} : OneLine (String.ofList cs) ↔ '\n' ∉ cs := by
  rw [OneLine, String.toList_ofList]

theorem OneLine.append {s t : String} (hs : OneLine s) (ht : OneLine t) : OneLine (s ++ t) :=
  oneLine_append.mpr ⟨hs, ht⟩

theorem oneLine_of_isWord {s : String} (h : Lua.IsWord s) : OneLine s := fun hmem =>
  absurd (h _ hmem) (by decide)

/-! ### Numerals -/

theorem oneLine_of_numeral {s : String} (h : Numeral s.toList) : OneLine s := h.not_mem rfl

theorem oneLine_toString_nat (n : Nat) : OneLine (toString n) :=
  oneLine_of_numeral (numeral_toString_nat n)

theorem oneLine_toString_int (n : Int) : OneLine (toString n) :=
  oneLine_of_numeral (numeral_toString_int n)

theorem oneLine_numberText (x : Float) : OneLine (Lua.numberText x) := by
  rcases Lua.numeral_numberText x with h | h
  · rw [h]
    decide
  · exact oneLine_of_numeral h

/-! ### Literals and names -/

namespace Lua

theorem oneLine_quote (s : String) : OneLine (quote s) := fun hmem =>
  not_isControl_of_mem_quote hmem (.inl (by decide))

theorem oneLine_constantText (c : Constant) : OneLine c.text := by
  cases c with
  | nil => exact (by decide : OneLine "nil")
  | bool b =>
    show OneLine (if b then "true" else "false")
    split <;> decide
  | number x => exact oneLine_numberText x
  | string s => exact oneLine_quote s

theorem mem_of_mem_collapse {x y z : Char} {cs : List Char} :
    ∀ c ∈ collapse x y z cs, c ∈ cs ∨ c = z := by
  fun_induction collapse x y z cs with
  | case1 d e rest _ ih =>
    intro c hc
    rcases mem_cons.mp hc with rfl | hc
    · exact .inr rfl
    · exact (ih c hc).imp_left fun h => mem_cons_of_mem _ (mem_cons_of_mem _ h)
  | case2 d e rest _ ih =>
    intro c hc
    rcases mem_cons.mp hc with rfl | hc
    · exact .inl mem_cons_self
    · exact (ih c hc).imp_left (mem_cons_of_mem _)
  | case3 short => exact fun c hc => .inl hc

/-- What a text in quotes stands for has no line break that the text does not have. -/
theorem oneLine_unquote? {text s : String} (htext : OneLine text) (h : unquote? text = some s) :
    OneLine s := by
  obtain ⟨cs, hcs, rfl⟩ := Option.map_eq_some_iff.mp h
  rw [oneLine_ofList]
  unfold unquoteChars? at hcs
  split at hcs
  · next rest htoList =>
      split at hcs
      · cases hcs
        rw [OneLine, htoList] at htext
        have hinner : '\n' ∉ rest.dropLast := fun hmem =>
          htext (mem_cons_of_mem _ ((dropLast_sublist rest).mem hmem))
        intro hmem
        rcases mem_of_mem_collapse _ hmem with hmem | hmem
        · rcases mem_of_mem_collapse _ hmem with hmem | hmem
          · exact hinner hmem
          · exact absurd hmem (by decide)
        · exact absurd hmem (by decide)
      · cases hcs
  · cases hcs

theorem oneLine_fieldAccess {base key : String} (hbase : OneLine base) (hkey : OneLine key) :
    OneLine (fieldAccess base key) := by
  have hbracketed : OneLine (base ++ "[" ++ key ++ "]") :=
    .append (.append (.append hbase (by decide)) hkey) (by decide)
  unfold fieldAccess
  split
  · next name hname =>
      split
      · exact .append (.append hbase (by decide)) (oneLine_unquote? hkey hname)
      · exact hbracketed
  · exact hbracketed

/-- A name with a line break behind it. -/
def TrailsBreak (s : String) : Prop :=
  ∃ first rest, s.toList = first :: (rest ++ ['\n']) ∧ IsLetter first ∧
    ∀ c ∈ rest, IsLetter c ∨ IsFigure c

theorem newline_not_letter : ¬ (IsLetter '\n' ∨ IsFigure '\n') :=
  mt (isNameChar_iff _).mpr (by decide)

theorem isNameTail_append_newline {rest : List Char} (h : ∀ c ∈ rest, isNameChar c = true) :
    isNameTail (rest ++ ['\n']) = true := by
  induction rest with
  | nil => rfl
  | cons c rest ih =>
    obtain ⟨hc, hrest⟩ := forall_mem_cons.mp h
    rw [cons_append, isNameTail, hc, ih hrest, Bool.and_self, Bool.or_true]

/-- Where the test lets a line break through, it is the last character. -/
theorem last_of_isNameTail {cs : List Char} (h : isNameTail cs = true) (hmem : '\n' ∈ cs) :
    ∃ rest, cs = rest ++ ['\n'] ∧ ∀ c ∈ rest, isNameChar c = true := by
  induction cs with
  | nil => cases hmem
  | cons c rest ih =>
    rw [isNameTail, Bool.or_eq_true, Bool.and_eq_true, Bool.and_eq_true, beq_iff_eq] at h
    rcases h with ⟨rfl, hrest⟩ | ⟨hc, hrest⟩
    · exact ⟨[], by rw [List.isEmpty_iff.mp hrest]; rfl, forall_mem_nil _⟩
    · rcases mem_cons.mp hmem with rfl | hmem
      · exact absurd ((isNameChar_iff _).mp hc) newline_not_letter
      · obtain ⟨before, rfl, hbefore⟩ := ih hrest hmem
        exact ⟨c :: before, rfl, forall_mem_cons.mpr ⟨hc, hbefore⟩⟩

variable {s : String}

theorem not_isKeyword_of_newline (h : ¬ OneLine s) : isKeyword s = false := by
  have hkeywords : ∀ word ∈ keywords, OneLine word := by decide +kernel
  refine Bool.eq_false_iff.mpr fun hkeyword => h (hkeywords s ?_)
  exact contains_iff_mem.mp hkeyword

/-- The test for names lets a text with a line break through exactly if that stands behind a
name. -/
theorem isName_and_not_oneLine : isName s = true ∧ ¬ OneLine s ↔ TrailsBreak s := by
  unfold TrailsBreak
  constructor
  · rintro ⟨hname, hbreak⟩
    unfold isName at hname
    split at hname
    · cases hname
    · next first rest hs =>
        simp only [Bool.and_eq_true] at hname
        obtain ⟨⟨hfirst, hrest⟩, -⟩ := hname
        have hletter := (isNameStart_iff first).mp hfirst
        have hmem : '\n' ∈ rest := by
          rw [OneLine, hs, Classical.not_not] at hbreak
          rcases mem_cons.mp hbreak with rfl | hmem
          · exact absurd (.inl hletter) newline_not_letter
          · exact hmem
        obtain ⟨before, rfl, hbefore⟩ := last_of_isNameTail hrest hmem
        exact ⟨first, before, hs, hletter, fun c hc => (isNameChar_iff c).mp (hbefore c hc)⟩
  · rintro ⟨first, rest, hs, hfirst, hrest⟩
    have hbreak : ¬ OneLine s := by
      rw [OneLine, hs]
      simp
    refine ⟨?_, hbreak⟩
    have htail := isNameTail_append_newline fun c hc => (isNameChar_iff c).mpr (hrest c hc)
    unfold isName
    rw [hs]
    dsimp only
    rw [(isNameStart_iff first).mpr hfirst, htail, not_isKeyword_of_newline hbreak]
    rfl

/-- The text of a global has a line break only if its name is one with a line break behind it. -/
theorem oneLine_globalText : OneLine (globalText s) ↔ ¬ TrailsBreak s := by
  rw [← isName_and_not_oneLine]
  unfold globalText
  split
  · next hname => simp [hname]
  · next hname =>
      have hquoted : OneLine ("_G[" ++ quote s ++ "]") :=
        .append (.append (by decide) (oneLine_quote s)) (by decide)
      simp [hname, hquoted]

/-! ### Expressions -/

theorem oneLine_wrap {text : String} (h : OneLine text) : OneLine (wrap text) := by
  unfold wrap
  split
  · exact .append (.append (by decide) h) (by decide)
  · exact h

theorem oneLine_callText {callee : String} {args : List String} (hcallee : OneLine callee)
    (hargs : ∀ t ∈ args, OneLine t) : OneLine (callText callee args) :=
  .append (.append (.append hcallee (by decide)) (oneLine_commaList args hargs)) (by decide)

end Lua

theorem oneLine_join {separator : String} (hseparator : OneLine separator) {parts : List String}
    (h : ∀ t ∈ parts, OneLine t) : OneLine (Text.join separator parts) := by
  fun_induction Text.join separator parts with
  | case1 => decide
  | case2 s => exact h s mem_cons_self
  | case3 s t rest ih =>
    obtain ⟨hs, hrest⟩ := forall_mem_cons.mp h
    exact .append (.append hs hseparator) (ih hrest)

theorem oneLine_operationText {sign left right : String} (hsign : OneLine sign)
    (hleft : OneLine left) (hright : OneLine right) :
    OneLine (operationText sign left right) :=
  .append (.append (.append (.append (Lua.oneLine_wrap hleft) (by decide)) hsign) (by decide))
    (Lua.oneLine_wrap hright)

theorem ArithOp.oneLine_sign (op : ArithOp) : OneLine op.sign := by
  cases op <;> decide

theorem Relation.oneLine_sign (rel : Relation) : OneLine rel.sign := by
  cases rel <;> decide

namespace Term

theorem oneLine_combine (op : ArithOp) {l r : Term} (hl : OneLine l.text) (hr : OneLine r.text) :
    OneLine (combine op l r).text := by
  unfold combine
  split
  · exact oneLine_numberText _
  · exact oneLine_operationText op.oneLine_sign hl hr

theorem oneLine_negate {t : Term} (h : OneLine t.text) : OneLine t.negate.text := by
  unfold negate
  split
  · exact oneLine_numberText _
  · exact .append (by decide) (Lua.oneLine_wrap h)

theorem oneLine_compare (rel : Relation) {l r : Term} (hl : OneLine l.text)
    (hr : OneLine r.text) : OneLine (compare rel l r).text := by
  unfold compare
  split
  · unfold Verdict.ofBool
    dsimp only
    split <;> decide
  · exact oneLine_operationText rel.oneLine_sign hl hr

end Term

theorem oneLine_negatedIf (a : Int) {condition : String} (h : OneLine condition) :
    OneLine (negatedIf a condition) := by
  unfold negatedIf
  split
  · exact .append (.append (by decide) h) (by decide)
  · exact h

theorem oneLine_conditionText (a : Int) (rel : Relation) {left right : String}
    (hleft : OneLine left) (hright : OneLine right) :
    OneLine (conditionText a rel left right) :=
  oneLine_negatedIf a (.append (.append (.append (.append hleft (by decide)) rel.oneLine_sign)
    (by decide)) hright)

namespace Slot

theorem oneLine_ofConstant (c : Constant) : OneLine (ofConstant c).text := by
  cases c <;> exact Lua.oneLine_constantText _

theorem oneLine_expression {text : String} (h : OneLine text) : OneLine (expression text).text := h

theorem oneLine_object {text : String} (h : OneLine text) (handle : Option Nat) :
    OneLine (object text handle).text := h

theorem oneLine_closure {name : String} (h : OneLine name) : OneLine (closure name).text := h

end Slot

/-! ### Messages -/

theorem newline_not_mem_hex (n : Nat) : '\n' ∉ (Nat.toDigits 16 n).map Char.toUpper := by
  have hdigit : ∀ d < 16, '\n' ≠ (Nat.digitChar d).toUpper := by decide
  induction n using Nat.strongRecOn with
  | ind n ih =>
    rw [Nat.toDigits_eq_if (by decide)]
    split
    · next hn => simpa using hdigit n hn
    · rw [map_append, mem_append, not_or]
      exact ⟨ih _ (by omega), by simpa using hdigit (n % 16) (Nat.mod_lt _ (by decide))⟩

theorem RawOpcode.oneLine_hex (raw : RawOpcode) : OneLine raw.hex := by
  have hfilled (n : Int) (ds : List Char) (hds : '\n' ∉ ds) :
      '\n' ∉ (if n < 0 then '-' :: ds else List.replicate (2 - ds.length) '0' ++ ds) := by
    split
    · exact not_mem_cons_of_ne_of_not_mem (by decide) hds
    · exact not_mem_append ((numeral_zeros _).not_mem rfl) hds
  cases raw <;> exact oneLine_ofList.mpr (hfilled _ _ (newline_not_mem_hex _))

theorem Opcode.oneLine_mnemonic (op : Opcode) : OneLine op.mnemonic := by
  cases op <;> decide

theorem Instruction.oneLine_mnemonic (i : Instruction) : OneLine i.mnemonic := by
  unfold Instruction.mnemonic
  split
  · exact .append (by decide) (RawOpcode.oneLine_hex _)
  · exact Opcode.oneLine_mnemonic _

theorem Code.oneLine_word (code : Code) : OneLine code.word := by
  cases code <;> decide

namespace Failure

/-- A failure whose message has no line break. -/
def Lined (f : Failure) : Prop := OneLine f.message

variable {f : Failure} {limits : Limits}

theorem lined_of_enter (h : limits.enter = .error f) : f.Lined := by
  unfold Limits.enter at h
  split at h <;> cases h
  exact .append (.append (by decide) (oneLine_toString_int _)) (by decide)

theorem lined_of_budgetFailure? {index : Int} (h : limits.budgetFailure? index = some f) :
    f.Lined := by
  obtain ⟨limit, -, rfl⟩ := Option.map_eq_some_iff.mp h
  exact .append (.append (by decide) (oneLine_toString_int _)) (by decide)

theorem lined_of_cancelFailure? {index : Int} (h : limits.cancelFailure? index = some f) :
    f.Lined := by
  unfold Limits.cancelFailure? at h
  split at h <;> cases h
  exact (by decide : OneLine "decompilation cancelled by caller")

theorem lined_of_pairedJump {code : List Instruction} {index : Nat}
    (h : pairedJump code index = .error f) : f.Lined := by
  unfold pairedJump checkPair at h
  split at h
  · cases h
    exact .append (.append (by decide) (oneLine_toString_int _)) (by decide)
  · split at h <;> cases h
    exact .append (.append (.append (.append (by decide) (oneLine_toString_int _)) (by decide))
      (Instruction.oneLine_mnemonic _)) (by decide)

end Failure

end LuaRecovery

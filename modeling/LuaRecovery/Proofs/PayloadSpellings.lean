/-
One prototype, many payloads.

A payload has more than one way to say the same thing.  Each part of a function has several field
names, an instruction is a list or an object, an opcode is a number or one of two names in any
letter case, the second operand has four names, and a constant is a plain value or an object that
tells its kind.  `SpelledBy` collects these ways: it says of a prototype and a payload that the
payload gives the prototype, part by part and without mention of how it is read.

The main result is that reading makes nothing of the difference: every payload that spells a
prototype is read as that prototype.  Spellings are chosen anew at each function and each row,
so the induction is over the tree of functions.
-/
import LuaRecovery.Proofs.ExpressionText
import LuaRecovery.Proofs.RejectedInputs
import Mathlib.Data.List.Forall2

namespace LuaRecovery

open List Payload Instruction Text

/-! ### Names of opcodes -/

namespace Opcode

/-- The letters of the two names of an opcode. -/
def letters (op : Opcode) : List (List Char) :=
  [op.mnemonic, op.longName].map fun name => name.toList.filter (· != '_')

/-- A text names an opcode: blanks around it, letter case and underscores apart, it is the
mnemonic or the longer name. -/
def NamedBy (op : Opcode) (s : String) : Prop :=
  ∃ before word behind, s.toList = before ++ word ++ behind ∧
    (∀ c ∈ before ++ behind, isBlank c = true) ∧
    (word.filter (· != '_')).map Char.toUpper ∈ op.letters

theorem mem_all (op : Opcode) : op ∈ all := by
  cases op <;> decide

variable {op : Opcode} {cs : List Char}

/-- No two opcodes share a name. -/
theorem eq_of_mem_letters {op op' : Opcode} (h : cs ∈ op.letters) (h' : cs ∈ op'.letters) :
    op = op' := by
  have htable : (all.all fun op => all.all fun op' =>
      op == op' || op.letters.all fun cs => !op'.letters.contains cs) = true := by
    decide +kernel
  have hpair := all_eq_true.mp (all_eq_true.mp htable op op.mem_all) op' op'.mem_all
  rcases Bool.or_eq_true _ _ ▸ hpair with hsame | hapart
  · exact beq_iff_eq.mp hsame
  · have hfree := all_eq_true.mp hapart cs h
    rw [contains_iff_mem.mpr h'] at hfree
    cases hfree

/-- The names have nothing but capitals and underscores, and the mnemonics no underscore. -/
theorem isUpper_of_mem_letters (h : cs ∈ op.letters) : cs ≠ [] ∧ cs.all Char.isUpper = true := by
  have htable : (all.all fun op => op.letters.all fun cs =>
      !cs.isEmpty && cs.all Char.isUpper) = true := by
    decide +kernel
  have hcs := all_eq_true.mp (all_eq_true.mp htable op op.mem_all) cs h
  rw [Bool.and_eq_true, Bool.not_eq_true', isEmpty_eq_false_iff] at hcs
  exact hcs

theorem filter_mnemonic (op : Opcode) :
    op.mnemonic.toList.filter (· != '_') = op.mnemonic.toList := by
  have htable : (all.all fun op => op.mnemonic.toList.all (· != '_')) = true := by
    decide +kernel
  exact filter_eq_self.mpr (all_eq_true.mp (all_eq_true.mp htable op op.mem_all))

/-- What a text in capitals names has the letters of the text. -/
theorem mem_letters_of_ofCapitals? {t : String} (h : ofCapitals? t = some op) :
    t.toList.filter (· != '_') ∈ op.letters := by
  have hname := find?_some h
  simp only [Bool.or_eq_true, beq_iff_eq] at hname
  rw [letters, mem_map]
  rcases hname with (rfl | rfl) | rfl
  · exact ⟨_, mem_cons_self, rfl⟩
  · exact ⟨_, mem_cons_of_mem _ mem_cons_self, rfl⟩
  · refine ⟨_, mem_cons_of_mem _ mem_cons_self, ?_⟩
    rw [withoutUnderscores, String.toList_ofList, filter_filter]
    simp only [Bool.and_self]

/-- The letters of a name are a name. -/
theorem ofCapitals?_letters (h : cs ∈ op.letters) : ofCapitals? (String.ofList cs) = some op := by
  have hkept : cs.filter (· != '_') = cs := by
    obtain ⟨name, -, rfl⟩ := mem_map.mp h
    rw [filter_filter]
    simp only [Bool.and_self]
  cases hfound : ofCapitals? (String.ofList cs) with
  | some found =>
    have hletters := mem_letters_of_ofCapitals? hfound
    rw [String.toList_ofList, hkept] at hletters
    rw [eq_of_mem_letters hletters h]
  | none =>
    refine absurd ?_ (find?_eq_none.mp hfound op op.mem_all)
    simp only [Bool.or_eq_true, beq_iff_eq]
    obtain ⟨name, hname, rfl⟩ := mem_map.mp h
    simp only [mem_cons, not_mem_nil, or_false] at hname
    rcases hname with rfl | rfl
    · exact .inl (.inl (by rw [filter_mnemonic, String.ofList_toList]))
    · exact .inr rfl

theorem namedBy_mnemonic (op : Opcode) : op.NamedBy op.mnemonic := by
  have htable : (all.all fun op => op.mnemonic.toList.map Char.toUpper == op.mnemonic.toList) =
      true := by
    decide +kernel
  refine ⟨[], op.mnemonic.toList, [], by rw [nil_append, append_nil], nofun,
    mem_map.mpr ⟨op.mnemonic, mem_cons_self, ?_⟩⟩
  rw [filter_mnemonic, beq_iff_eq.mp (all_eq_true.mp htable op op.mem_all)]

/-- A character whose capital is a letter from A to Z is one of ASCII. -/
theorem capital_of_isUpper {c : Char} (h : c.toUpper.isUpper = true) : capital c = [c.toUpper] := by
  unfold capital
  by_cases hsmall : 'a' ≤ c ∧ c ≤ 'z'
  · rw [if_pos hsmall]
  · have hself : c.toUpper = c := dif_neg hsmall
    rw [hself] at h
    have hrange : c.isUpper = decide (c.val ≥ 'A'.val ∧ c.val ≤ 'Z'.val) := rfl
    rw [hrange, decide_eq_true_iff, ge_iff_le, UInt32.le_iff_toNat_le, UInt32.le_iff_toNat_le] at h
    have hbound : c.toNat ≤ 90 := h.2
    rw [if_neg hsmall, hself]
    split
    all_goals first | rfl | omega

/-- A letter is no blank. -/
theorem not_isBlank_of_isUpper {c : Char} (h : c.toUpper.isUpper = true) : isBlank c = false := by
  refine Bool.eq_false_iff.mpr fun hblank => ?_
  have hclass : c.isAlpha = (c.isUpper || c.isLower) := rfl
  have hletter : c.isAlpha = true := by
    by_cases hsmall : 'a' ≤ c ∧ c ≤ 'z'
    · have hlower : c.isLower = true := by
        have hrange : c.isLower = (decide (c.val ≥ 'a'.val) && decide (c.val ≤ 'z'.val)) := rfl
        rw [hrange, Bool.and_eq_true, decide_eq_true_iff, decide_eq_true_iff]
        exact hsmall
      rw [hclass, hlower, Bool.or_true]
    · have hself : c.toUpper = c := dif_neg hsmall
      rw [hself] at h
      rw [hclass, h, Bool.true_or]
  have hstart := (Lua.isNameStart_of_isBlank hblank).1
  rw [Lua.isNameStart, hletter, Bool.true_or] at hstart
  cases hstart

/-- What is left of a text without the blanks around it. -/
theorem trim_eq {s : String} {before word behind : List Char}
    (hs : s.toList = before ++ word ++ behind)
    (hblank : ∀ c ∈ before ++ behind, isBlank c = true) (hne : word ≠ [])
    (hword : ∀ c ∈ word, isBlank c = false) : trim s = String.ofList word := by
  obtain ⟨hbefore, hbehind⟩ := forall_mem_append.mp hblank
  have hstop : ∀ cs rest : List Char, cs ≠ [] → (∀ c ∈ cs, isBlank c = false) →
      (cs ++ rest).dropWhile isBlank = cs ++ rest := by
    intro cs rest hcs hplain
    obtain ⟨c, more, rfl⟩ := exists_cons_of_ne_nil hcs
    rw [cons_append, dropWhile_cons_of_neg]
    rw [hplain c mem_cons_self]
    exact Bool.false_ne_true
  have hend : dropEndWhile isBlank (word ++ behind) = word := by
    have hfinal : ∀ c ∈ behind.reverse, isBlank c = true := fun c hc =>
      hbehind c (mem_reverse.mp hc)
    have hrest := hstop word.reverse [] (mt reverse_eq_nil_iff.mp hne)
      fun c hc => hword c (mem_reverse.mp hc)
    rw [append_nil] at hrest
    rw [dropEndWhile, reverse_append, dropWhile_append_of_pos hfinal, hrest, reverse_reverse]
  rw [trim, hs, append_assoc, dropWhile_append_of_pos hbefore, hstop _ _ hne hword, hend]

/-- Every name of an opcode is read as that opcode. -/
theorem ofName_of_namedBy {s : String} (h : op.NamedBy s) : ofName s = op := by
  obtain ⟨before, word, behind, hs, hblank, hword⟩ := h
  obtain ⟨hne, hupper⟩ := isUpper_of_mem_letters hword
  -- Each character of the word is an underscore or a letter.
  have hletter : ∀ c ∈ word, c = '_' ∨ c.toUpper.isUpper = true := by
    intro c hc
    by_cases hunderscore : c = '_'
    · exact .inl hunderscore
    · have hkept : c ∈ word.filter (· != '_') :=
        mem_filter.mpr ⟨hc, bne_iff_ne.mpr hunderscore⟩
      exact .inr (all_eq_true.mp hupper _ (mem_map_of_mem hkept))
  have hcapital : ∀ c ∈ word, capital c = [c.toUpper] := fun c hc =>
    (hletter c hc).elim (fun h => h ▸ rfl) capital_of_isUpper
  have hplain : ∀ c ∈ word, isBlank c = false := fun c hc =>
    (hletter c hc).elim (fun h => h ▸ rfl) not_isBlank_of_isUpper
  have hkeep : ∀ c ∈ word, (c.toUpper != '_') = (c != '_') := by
    intro c hc
    rcases hletter c hc with rfl | hupper
    · rfl
    · have hne : c.toUpper ≠ '_' := fun h => absurd (h ▸ hupper) (by decide)
      have hne' : c ≠ '_' := fun h => absurd (h ▸ hupper) (by decide)
      rw [bne_iff_ne.mpr hne, bne_iff_ne.mpr hne']
  have htrim : capitals (trim s) = String.ofList (word.map Char.toUpper) := by
    have hnonempty : word ≠ [] := by
      rintro rfl
      exact hne rfl
    rw [trim_eq hs hblank hnonempty hplain, capitals, String.toList_ofList,
      flatMap_congr hcapital, map_eq_flatMap]
  have hfilter : (word.map Char.toUpper).filter (· != '_') =
      (word.filter (· != '_')).map Char.toUpper := by
    rw [filter_map]
    exact congrArg (List.map Char.toUpper) (filter_congr hkeep)
  have hstripped : ofCapitals? (withoutUnderscores (capitals (trim s))) = some op := by
    rw [htrim, withoutUnderscores, String.toList_ofList, hfilter]
    exact ofCapitals?_letters hword
  unfold ofName
  dsimp only
  cases hfound : ofCapitals? (capitals (trim s)) with
  | none => rw [Option.none_or, hstripped, Option.getD_some]
  | some found =>
    have hletters := mem_letters_of_ofCapitals? hfound
    rw [htrim, String.toList_ofList, hfilter] at hletters
    rw [Option.some_or, Option.getD_some, eq_of_mem_letters hletters hword]

end Opcode

/-! ### Fields under several names -/

namespace Payload

/-- The value under the first of the names that has one. -/
def Leads (look : String → Option Payload) (ks : List String) (v : Payload) : Prop :=
  ∃ before k behind, ks = before ++ k :: behind ∧ (∀ j ∈ before, look j = none) ∧ look k = some v

variable {fields : List (String × Payload)} {ks : List String} {v : Payload} {n : Int}

/-- The integer under the first of the names that is present; zero may be left out. -/
def Counts (fields : List (String × Payload)) (ks : List String) (n : Int) : Prop :=
  Leads (field? fields) ks (.int n) ∨ (n = 0 ∧ ∀ k ∈ ks, field? fields k = none)

/-- The items under the first of the names that is given; an empty list may be left out. -/
def Lists (fields : List (String × Payload)) (ks : List String) (items : List Payload) : Prop :=
  Leads (given? fields) ks (.list items) ∨ (items = [] ∧ ∀ k ∈ ks, given? fields k = none)

theorem leads_singleton {look : String → Option Payload} {k : String} (h : Leads look [k] v) :
    look k = some v := by
  obtain ⟨before, j, behind, hkeys, -, hj⟩ := h
  cases before with
  | nil =>
    cases hkeys
    exact hj
  | cons first before => cases before <;> cases hkeys

theorem firstGiven?_eq_none (h : ∀ k ∈ ks, given? fields k = none) :
    firstGiven? fields ks = none := by
  induction ks with
  | nil => rfl
  | cons k ks ih =>
    obtain ⟨hk, hks⟩ := forall_mem_cons.mp h
    rw [firstGiven?, hk]
    exact ih hks

theorem firstGiven?_of_leads (h : Leads (given? fields) ks v) : firstGiven? fields ks = some v := by
  obtain ⟨before, k, behind, rfl, hbefore, hk⟩ := h
  induction before with
  | nil => rw [nil_append, firstGiven?, hk]
  | cons j before ih =>
    obtain ⟨hj, hbefore⟩ := forall_mem_cons.mp hbefore
    rw [cons_append, firstGiven?, hj]
    exact ih hbefore

theorem operand_eq_zero (h : ∀ k ∈ ks, field? fields k = none) : operand fields ks = .ok 0 := by
  induction ks with
  | nil => rfl
  | cons k ks ih =>
    obtain ⟨hk, hks⟩ := forall_mem_cons.mp h
    rw [operand, hk]
    exact ih hks

theorem operand_of_leads (h : Leads (field? fields) ks v) : operand fields ks = v.toInteger := by
  obtain ⟨before, k, behind, rfl, hbefore, hk⟩ := h
  induction before with
  | nil => rw [nil_append, operand, hk]
  | cons j before ih =>
    obtain ⟨hj, hbefore⟩ := forall_mem_cons.mp hbefore
    rw [cons_append, operand, hj]
    exact ih hbefore

theorem operand_of_counts (h : Counts fields ks n) : operand fields ks = .ok n := by
  rcases h with h | ⟨rfl, h⟩
  · exact operand_of_leads h
  · exact operand_eq_zero h

theorem count_eq_operand (k k' : String) :
    Prototype.count fields k k' = operand fields [k, k'] := by
  rw [Prototype.count, operand]
  cases field? fields k with
  | some v => rfl
  | none =>
    rw [operand]
    cases field? fields k' <;> rfl

theorem part_of_lists {items : List Payload} (h : Lists fields ks items) :
    Prototype.part fields ks = .list items := by
  rcases h with h | ⟨rfl, h⟩
  · rw [Prototype.part, firstGiven?_of_leads h]
    cases items <;> rfl
  · rw [Prototype.part, firstGiven?_eq_none h]

end Payload

/-- A list is read as the list of what its items are read as. -/
theorem mapM_of_forall₂ {α β ε : Type} {read : α → Except ε β} {ys : List β} {xs : List α}
    (h : List.Forall₂ (fun y x => read x = .ok y) ys xs) : xs.mapM read = .ok ys := by
  induction h with
  | nil => rfl
  | cons hx _ ih =>
    rw [mapM_cons, hx, ih]
    rfl

/-- What holds of the items in step, given where they come from. -/
theorem forall₂_of_mem {α β : Type} {R S : α → β → Prop} {xs : List α} {ys : List β}
    (h : List.Forall₂ R xs ys) (hstep : ∀ x ∈ xs, ∀ y, R x y → S x y) : List.Forall₂ S xs ys := by
  induction h with
  | nil => exact .nil
  | cons hxy _ ih =>
    obtain ⟨hfirst, hrest⟩ := forall_mem_cons.mp hstep
    exact .cons (hfirst _ hxy) (ih hrest)

/-! ### Instructions -/

namespace Instruction

open Payload (Leads Counts field? given?)

/-- A payload stands for the operation of an instruction: a text that names it, if no number is
kept, and otherwise that number. -/
inductive OperationSpelledBy (i : Instruction) : Payload → Prop
  | name {s : String} (named : i.opcode.NamedBy s) (unnumbered : i.raw = none) :
      OperationSpelledBy i (.text s)
  | number {n : Int} (opcode : i.opcode = Opcode.ofNumber n) (raw : i.raw = some (.number n)) :
      OperationSpelledBy i (.int n)

/-- A row of a payload stands for an instruction. -/
inductive SpelledBy (i : Instruction) : Payload → Prop
  /-- The operation and then the operands; zeros at the end may be left out. -/
  | list {op : Payload} (operands : List Int) (operation : i.OperationSpelledBy op)
      (a : operands.getD 0 0 = i.a) (b : operands.getD 1 0 = i.b) (c : operands.getD 2 0 = i.c) :
      SpelledBy i (.list (op :: operands.map .int))
  /-- Each under one of its names.  The operation has none beside the first, or the opcode is
  known; what the second operand is called otherwise is an integer too. -/
  | object {fields : List (String × Payload)} {op : Payload}
      (leads : Leads (given? fields) ["op", "mnemonic", "opcode", "opnum"] op)
      (operation : i.OperationSpelledBy op)
      (alone : i.opcode = .unknown →
        given? fields "opcode" = none ∨ given? fields "opcode" = some op)
      (a : Counts fields ["A", "a"] i.a)
      (b : Counts fields ["sBx", "B", "b", "Bx"] i.b)
      (plain : ∀ k ∈ ["B", "b"], ∀ v, field? fields k = some v → ∃ n, v = .int n)
      (c : Counts fields ["C", "c"] i.c) : SpelledBy i (.object fields)

variable {i : Instruction} {fields : List (String × Payload)}

theorem decodeOpcode_of_spelledBy {op : Payload} (h : i.OperationSpelledBy op) :
    decodeOpcode op = (i.opcode, i.raw) := by
  cases h with
  | name named unnumbered => rw [decodeOpcode, Opcode.ofName_of_namedBy named, unnumbered]
  | number opcode raw => rw [decodeOpcode, opcode, raw]

/-- The number that an unknown opcode takes from the field `opcode` is its own or none. -/
theorem opcodeOf_of_spelledBy {op : Payload}
    (leads : Leads (given? fields) ["op", "mnemonic", "opcode", "opnum"] op)
    (operation : i.OperationSpelledBy op)
    (alone : i.opcode = .unknown →
      given? fields "opcode" = none ∨ given? fields "opcode" = some op) :
    opcodeOf fields = (i.opcode, i.raw) := by
  rw [opcodeOf, firstGiven?_of_leads leads, Option.getD_some, decodeOpcode_of_spelledBy operation]
  split
  · next heq =>
      obtain ⟨hopcode, hraw⟩ := Prod.mk.inj heq
      have hfield : opcodeField? fields = none := by
        cases operation with
        | number _ raw => cases raw.symm.trans hraw
        | name _ _ =>
          unfold opcodeField?
          rcases alone hopcode with hnone | hsome
          · unfold given? at hnone
            split at hnone
            · next hnull => rw [hnull]
            · rw [hnone]
          · rw [field?_of_given? hsome]
      rw [hfield, hopcode, hraw]
  · rfl

/-- The second operand is read in the order of its names, if it can be read by the plain ones. -/
theorem operandB_of_counts (b : Counts fields ["sBx", "B", "b", "Bx"] i.b)
    (plain : ∀ k ∈ ["B", "b"], ∀ v, field? fields k = some v → ∃ n, v = .int n) :
    operandB fields = .ok i.b := by
  have hb := operand_of_counts b
  simp only [forall_mem_cons] at plain
  obtain ⟨hupper, hlower, -⟩ := plain
  unfold operandB
  simp only [operand] at hb ⊢
  cases hB : field? fields "B" with
  | some v =>
    obtain ⟨n, rfl⟩ := hupper v hB
    rw [hB] at hb
    cases hs : field? fields "sBx" <;> rw [hs] at hb <;> exact hb
  | none =>
    rw [hB] at hb
    cases hbSmall : field? fields "b" with
    | some v =>
      obtain ⟨n, rfl⟩ := hlower v hbSmall
      rw [hbSmall] at hb
      cases hs : field? fields "sBx" <;> rw [hs] at hb <;> exact hb
    | none =>
      rw [hbSmall] at hb
      cases hs : field? fields "sBx" with
      | some v =>
        rw [hs] at hb
        exact hb
      | none =>
        rw [hs] at hb
        cases hx : field? fields "Bx" <;> rw [hx] at hb <;> exact hb

/-- A row that spells an instruction is read as the instruction. -/
theorem ofRow_of_spelledBy {row : Payload} (h : i.SpelledBy row) : ofRow {} row = .ok i := by
  cases h with
  | list operands operation a b c =>
    have hitem : ∀ k, (operands.map int)[k]?.getD (int 0) = int (operands.getD k 0) := by
      intro k
      rw [getElem?_map, getD_eq_getElem?_getD]
      cases operands[k]? <;> rfl
    rw [ofRow]
    simp only [getElem?_cons_zero, getElem?_cons_succ, Option.getD_some, hitem,
      decodeOpcode_of_spelledBy operation, toInteger, a, b, c]
    rfl
  | object leads operation alone a b plain c =>
    rw [ofRow, opcodeOf_of_spelledBy leads operation alone, operandB_of_counts b plain,
      operand_of_counts a, operand_of_counts c]
    rfl

end Instruction

/-! ### Constants -/

namespace Constant

open Payload (Leads field? given?)

/-- An object tells its kind, under one of two names and in any letter case, by one of the words. -/
def Tells (fields : List (String × Payload)) (words : List String) : Prop :=
  ∃ s, Leads (given? fields) ["type", "kind"] (.text s) ∧
    String.ofList (s.toList.map Char.toLower) ∈ words

/-- A payload stands for a number: it is the float, or an integer with that float. -/
inductive NumberSpelledBy (x : Float) : Payload → Prop
  | float : NumberSpelledBy x (.float x)
  | int {n : Int} (rounds : Binary64.ofInt? n = some x) : NumberSpelledBy x (.int n)

/-- A payload stands for a constant: it is the plain value, with bytes for characters of one
byte, or an object with the kind and the value. -/
inductive SpelledBy : Constant → Payload → Prop
  | null : SpelledBy nil .null
  | bool (b : Bool) : SpelledBy (bool b) (.bool b)
  | number {x : Float} {v : Payload} (value : NumberSpelledBy x v) : SpelledBy (number x) v
  | text (s : String) : SpelledBy (string s) (.text s)
  | bytes (bs : List UInt8) :
      SpelledBy (string (String.ofList (bs.map fun b => Char.ofNat b.toNat))) (.bytes bs)
  | typedNil {fields : List (String × Payload)} (kind : Tells fields ["nil", "null"]) :
      SpelledBy nil (.object fields)
  | typedBool {fields : List (String × Payload)} {b : Bool}
      (kind : Tells fields ["bool", "boolean"]) (value : field? fields "value" = some (.bool b)) :
      SpelledBy (.bool b) (.object fields)
  | typedNumber {fields : List (String × Payload)} {x : Float} {v : Payload}
      (kind : Tells fields ["number", "num", "int", "float"])
      (value : field? fields "value" = some v) (spelled : NumberSpelledBy x v) :
      SpelledBy (number x) (.object fields)
  | typedString {fields : List (String × Payload)} {s : String}
      (kind : Tells fields ["string", "str"]) (value : field? fields "value" = some (.text s)) :
      SpelledBy (string s) (.object fields)

variable {fields : List (String × Payload)} {words : List String}

theorem filter_field?_of_given? {k : String} (h : given? fields k = none) :
    (field? fields k).filter isTruthy = none := by
  unfold given? at h
  split at h
  · next hnull =>
      rw [hnull]
      rfl
  · rw [h]
    rfl

/-- The kind that is told is the kind that is read. -/
theorem kindOf_mem (hwords : "" ∉ words) (h : Tells fields words) :
    ∃ kind ∈ words, kindOf {} fields = .ok kind := by
  obtain ⟨s, ⟨before, k, behind, hkeys, hbefore, hk⟩, hword⟩ := h
  have htruthy : (field? fields k).filter isTruthy = some (.text s) := by
    rw [field?_of_given? hk, Option.filter_some, if_pos]
    refine bne_iff_ne.mpr ?_
    rintro rfl
    exact hwords hword
  refine ⟨_, hword, ?_⟩
  unfold kindOf
  match before, hkeys with
  | [], hkeys =>
    cases hkeys
    dsimp only
    rw [htruthy]
    rfl
  | [_], hkeys =>
    cases hkeys
    dsimp only
    rw [filter_field?_of_given? (hbefore _ mem_cons_self), htruthy]
    rfl
  | [_, _], hkeys => cases hkeys
  | _ :: _ :: _ :: _, hkeys => cases hkeys

theorem toFloat_of_spelledBy {x : Float} {v : Payload} (h : NumberSpelledBy x v) :
    v.toFloat = .ok x := by
  cases h with
  | float => rfl
  | int rounds => rw [toFloat, floatOfInt, rounds]

/-- A constant that is told by its kind is read by it. -/
theorem ofPayload_of_tells {k : Constant} (hwords : "" ∉ words) (h : Tells fields words)
    (hread : ∀ kind ∈ words, ofKind {} kind ((field? fields "value").getD .null) = .ok (some k)) :
    ofPayload {} (.object fields) = .ok k := by
  obtain ⟨kind, hkind, hfound⟩ := kindOf_mem hwords h
  rw [ofPayload, ofTyped, hfound]
  show (ofKind {} kind _ >>= _) = _
  rw [hread kind hkind]
  rfl

/-- A payload that spells a constant is read as the constant. -/
theorem ofPayload_of_spelledBy {k : Constant} {v : Payload} (h : k.SpelledBy v) :
    ofPayload {} v = .ok k := by
  cases h with
  | null => rfl
  | bool b => rfl
  | text s => rfl
  | bytes bs => rfl
  | number value =>
    cases value with
    | float => rfl
    | int rounds =>
      rw [ofPayload, floatOfInt, rounds]
      rfl
  | typedNil kind => exact ofPayload_of_tells (by decide) kind fun _ hkind => if_pos hkind
  | typedBool kind value =>
    refine ofPayload_of_tells (by decide) kind fun _ hkind => ?_
    rw [ofKind, if_neg (not_mem_of_apart (by decide) hkind), if_pos hkind, value]
    rfl
  | typedNumber kind value spelled =>
    refine ofPayload_of_tells (by decide) kind fun _ hkind => ?_
    rw [ofKind_numeric hkind, value, Option.getD_some, toFloat_of_spelledBy spelled]
    rfl
  | typedString kind value =>
    refine ofPayload_of_tells (by decide) kind fun _ hkind => ?_
    rw [ofKind, if_neg (not_mem_of_apart (by decide) hkind),
      if_neg (not_mem_of_apart (by decide) hkind), if_neg (not_mem_of_apart (by decide) hkind),
      if_pos hkind, value]
    rfl

end Constant

/-! ### Prototypes -/

/-- An instruction keeps no number, or the number of its own opcode. -/
def Instruction.Plain (i : Instruction) : Prop :=
  i.raw = none ∨ ∃ n, i.raw = some (.number n) ∧ i.opcode = Opcode.ofNumber n

namespace Prototype

open Payload (Leads Counts Lists field? given?)

/-- All instructions of a function and of the functions inside are plain. -/
inductive Plain : Prototype → Prop
  | intro {p : Prototype} (instructions : ∀ i ∈ p.instructions, i.Plain)
      (children : ∀ child ∈ p.children, Plain child) : Plain p

/-- The fields of an object give everything of a prototype but its instructions, constants and
children.  What is empty, zero or the usual may be left out. -/
structure HeadSpelledBy (p : Prototype) (fields : List (String × Payload)) : Prop where
  name : field? fields "name" = some (.text p.name) ∨ (given? fields "name" = none ∧ p.name = "")
  paramCount : Counts fields ["num_params", "numparams"] p.paramCount
  vararg : field? fields "is_vararg" = some (.bool p.vararg) ∨
    (field? fields "is_vararg" = none ∧ p.vararg = true)
  upvalueCount : Counts fields ["upvalue_count", "nups"] p.upvalueCount
  upvalueNames : Lists fields ["upvalue_names"] (p.upvalueNames.map .text)

/-- A payload stands for a prototype. -/
inductive SpelledBy : Prototype → Payload → Prop
  | object {p : Prototype} {fields : List (String × Payload)} {rows values kids : List Payload}
      (head : p.HeadSpelledBy fields)
      (code : Lists fields ["instructions", "code", "bytecode"] rows)
      (instructions : List.Forall₂ Instruction.SpelledBy p.instructions rows)
      (pool : Lists fields ["constants", "consts"] values)
      (constants : List.Forall₂ Constant.SpelledBy p.constants values)
      (inside : Lists fields ["children", "prototypes", "functions"] kids)
      (children : List.Forall₂ SpelledBy p.children kids) : SpelledBy p (.object fields)

variable {fields : List (String × Payload)} {p : Prototype}

theorem nameOf_of_spelledBy (h : p.HeadSpelledBy fields) : nameOf {} fields = .ok p.name := by
  rw [nameOf]
  rcases h.name with hname | ⟨hname, hempty⟩
  · rw [hname]
    by_cases hempty : p.name = ""
    · rw [hempty]
      rfl
    · have htruthy : (text p.name).isTruthy = true := bne_iff_ne.mpr hempty
      rw [Option.filter_some, if_pos htruthy]
      rfl
  · rw [Constant.filter_field?_of_given? hname, hempty]

theorem varargOf_of_spelledBy (h : p.HeadSpelledBy fields) : varargOf fields = p.vararg := by
  rw [varargOf]
  rcases h.vararg with hvararg | ⟨hvararg, htrue⟩
  · rw [hvararg]
    rfl
  · rw [hvararg, htrue]

theorem upvalueNamesOf_of_spelledBy (h : p.HeadSpelledBy fields) :
    upvalueNamesOf {} fields = .ok p.upvalueNames := by
  have htexts : (p.upvalueNames.map .text).mapM (textOn {}) = .ok p.upvalueNames := by
    rw [mapM_map]
    exact mapM_pure.trans (congrArg Except.ok (map_id _))
  rw [upvalueNamesOf]
  rcases h.upvalueNames with hnames | ⟨hempty, hnames⟩
  · rw [field?_of_given? (leads_singleton hnames)]
    cases hlist : p.upvalueNames with
    | nil => rfl
    | cons first rest =>
      rw [hlist] at htexts
      exact htexts
  · rw [Constant.filter_field?_of_given? (hnames _ mem_cons_self), map_eq_nil_iff.mp hempty]

/-- A payload that spells a prototype is read as the prototype. -/
theorem load_eq_of_spelledBy (p : Prototype) :
    ∀ {payload : Payload}, p.SpelledBy payload → load payload = .ok p := by
  induction p using induct_children with
  | h p ih =>
    intro payload hspelled
    cases hspelled with
    | object head code instructions pool constants inside children =>
      have hrows := mapM_of_forall₂ (instructions.imp fun _ _ => ofRow_of_spelledBy)
      have hvalues := mapM_of_forall₂ (constants.imp fun _ _ => Constant.ofPayload_of_spelledBy)
      have hkids := mapM_of_forall₂ (forall₂_of_mem children fun child hchild _ hspelled =>
        ih child hchild hspelled)
      rw [load_object rfl, childrenOf, instructionKeys, constantKeys, childKeys,
        part_of_lists code, part_of_lists pool, part_of_lists inside,
        count_eq_operand, count_eq_operand,
        operand_of_counts head.paramCount, operand_of_counts head.upvalueCount,
        upvalueNamesOf_of_spelledBy head, nameOf_of_spelledBy head, varargOf_of_spelledBy head]
      have helements : ∀ items, (list items).elements = .ok items := fun _ => rfl
      have hinside : ({} : Host).insideFunction = {} := rfl
      simp only [helements, bind, Except.bind, hrows, hvalues, hinside, hkids]
      cases p
      rfl

/-! ### Spellings there are -/

theorem exists_instruction_spelledBy {i : Instruction} (h : i.Plain) : ∃ row, i.SpelledBy row := by
  have hoperation : ∃ op, i.OperationSpelledBy op := by
    rcases h with hnone | ⟨n, hraw, hopcode⟩
    · exact ⟨_, .name (Opcode.namedBy_mnemonic i.opcode) hnone⟩
    · exact ⟨_, .number hopcode hraw⟩
  obtain ⟨op, hop⟩ := hoperation
  exact ⟨_, .list [i.a, i.b, i.c] hop rfl rfl rfl⟩

theorem exists_constant_spelledBy (k : Constant) : ∃ v, k.SpelledBy v := by
  cases k with
  | nil => exact ⟨_, .null⟩
  | bool b => exact ⟨_, .bool b⟩
  | number x => exact ⟨_, .number .float⟩
  | string s => exact ⟨_, .text s⟩

theorem exists_forall₂ {α β : Type} {R : α → β → Prop} {xs : List α} (h : ∀ x ∈ xs, ∃ y, R x y) :
    ∃ ys, List.Forall₂ R xs ys := by
  induction xs with
  | nil => exact ⟨[], .nil⟩
  | cons x xs ih =>
    obtain ⟨⟨y, hy⟩, hrest⟩ := forall_mem_cons.mp h
    obtain ⟨ys, hys⟩ := ih hrest
    exact ⟨y :: ys, .cons hy hys⟩

/-- An object with every field of a prototype, each under its first name. -/
def spelledOut (p : Prototype) (rows values kids : List Payload) : List (String × Payload) :=
  [("instructions", .list rows), ("constants", .list values), ("children", .list kids),
    ("name", .text p.name), ("num_params", .int p.paramCount), ("is_vararg", .bool p.vararg),
    ("upvalue_count", .int p.upvalueCount), ("upvalue_names", .list (p.upvalueNames.map .text))]

theorem exists_spelledBy (h : p.Plain) : ∃ payload, p.SpelledBy payload := by
  induction h with
  | @intro p instructions children ih =>
    obtain ⟨rows, hrows⟩ := exists_forall₂ fun i hi =>
      exists_instruction_spelledBy (instructions i hi)
    obtain ⟨values, hvalues⟩ := exists_forall₂ fun k (_ : k ∈ p.constants) =>
      exists_constant_spelledBy k
    obtain ⟨kids, hkids⟩ := exists_forall₂ ih
    have hhead : p.HeadSpelledBy (spelledOut p rows values kids) :=
      { name := .inl rfl
        paramCount := .inl ⟨[], _, _, rfl, nofun, rfl⟩
        vararg := .inl rfl
        upvalueCount := .inl ⟨[], _, _, rfl, nofun, rfl⟩
        upvalueNames := .inl ⟨[], _, _, rfl, nofun, rfl⟩ }
    exact ⟨_, .object hhead (.inl ⟨[], _, _, rfl, nofun, rfl⟩) hrows
      (.inl ⟨[], _, _, rfl, nofun, rfl⟩) hvalues (.inl ⟨[], _, _, rfl, nofun, rfl⟩) hkids⟩

/-- A prototype whose instructions keep no number or the number of their opcode has spellings,
and whichever of them a payload is, it is read as the prototype. -/
theorem load_of_spelledBy (p : Prototype) (h : p.Plain) :
    (∃ payload, p.SpelledBy payload) ∧ ∀ payload, p.SpelledBy payload → load payload = .ok p :=
  ⟨exists_spelledBy h, fun _ => load_eq_of_spelledBy p⟩

/-- A function with one inside it. -/
def outer : Prototype where
  instructions := [{ opcode := .loadConstant, a := 1 }, { opcode := .jump, b := -1 },
    { opcode := .unknown, a := 1, c := 2, raw := some (.number 48) }]
  constants := [.string "a\n", .bool true]
  children := [{ instructions := [{ opcode := .ret, b := 1, raw := some (.number 30) }],
                 name := "inner", paramCount := 2, vararg := false }]

/-- A payload for it that takes another way at every turn. -/
def outerPayload : Payload :=
  .object [("code", .list [.list [.text " load_Const", .int 1],
          .object [("mnemonic", .text "jmp"), ("A", .int 0), ("sBx", .int (-1)), ("B", .int 7)],
          .object [("op", .null), ("opcode", .int 48), ("a", .int 1), ("c", .int 2)]]),
      ("consts", .list [.object [("kind", .text "STR"), ("value", .text "a\n")], .bool true]),
      ("children", .null),
      ("functions", .list [.object
          [("name", .text "inner"), ("numparams", .int 2), ("is_vararg", .bool false),
            ("bytecode", .list [.list [.int 30, .int 0, .int 1, .int 0]])]])]

theorem outer_plain : outer.Plain := by
  refine .intro ?_ (forall_mem_singleton.mpr (.intro ?_ (forall_mem_nil _)))
  · simp only [outer, forall_mem_cons]
    exact ⟨.inl rfl, .inl rfl, .inr ⟨48, rfl, by decide⟩, forall_mem_nil _⟩
  · exact forall_mem_singleton.mpr (.inr ⟨30, rfl, by decide⟩)

theorem none_of_all {look : String → Option Payload} {ks : List String}
    (h : ks.all (fun k => (look k).isNone) = true) : ∀ k ∈ ks, look k = none := fun k hk =>
  Option.isNone_iff_eq_none.mp (all_eq_true.mp h k hk)

theorem outer_spelledBy : outer.SpelledBy outerPayload := by
  have hload : Opcode.loadConstant.NamedBy " load_Const" :=
    ⟨[' '], "load_Const".toList, [], rfl, all_eq_true.mp (by decide),
      mem_cons_of_mem _ mem_cons_self⟩
  have hjump : Opcode.jump.NamedBy "jmp" :=
    ⟨[], "jmp".toList, [], rfl, nofun, mem_cons_self⟩
  refine .object
    ⟨.inr ⟨rfl, rfl⟩, .inr ⟨rfl, none_of_all rfl⟩, .inr ⟨rfl, rfl⟩, .inr ⟨rfl, none_of_all rfl⟩,
      .inr ⟨rfl, none_of_all rfl⟩⟩
    (.inl ⟨["instructions"], "code", ["bytecode"], rfl, none_of_all rfl, rfl⟩)
    (.cons ?_ (.cons ?_ (.cons ?_ .nil)))
    (.inl ⟨["constants"], "consts", [], rfl, none_of_all rfl, rfl⟩)
    (.cons ?_ (.cons (.bool true) .nil))
    (.inl ⟨["children", "prototypes"], "functions", [], rfl, none_of_all rfl, rfl⟩)
    (.cons ?_ .nil)
  · exact .list [1] (.name hload rfl) rfl rfl rfl
  · refine .object ⟨["op"], "mnemonic", ["opcode", "opnum"], rfl, none_of_all rfl, rfl⟩
      (.name hjump rfl) nofun (.inl ⟨[], "A", ["a"], rfl, nofun, rfl⟩)
      (.inl ⟨[], "sBx", ["B", "b", "Bx"], rfl, nofun, rfl⟩) ?_ (.inr ⟨rfl, none_of_all rfl⟩)
    simp only [forall_mem_cons]
    refine ⟨fun v hv => ⟨7, (Option.some.inj hv).symm⟩, fun v hv => ?_, nofun⟩
    cases hv
  · refine .object ⟨["op", "mnemonic"], "opcode", ["opnum"], rfl, none_of_all rfl, rfl⟩
      (.number rfl rfl) (fun _ => .inr rfl) (.inl ⟨["A"], "a", [], rfl, none_of_all rfl, rfl⟩)
      (.inr ⟨rfl, none_of_all rfl⟩) ?_ (.inl ⟨["C"], "c", [], rfl, none_of_all rfl, rfl⟩)
    simp only [forall_mem_cons]
    refine ⟨fun v hv => ?_, fun v hv => ?_, nofun⟩ <;> cases hv
  · exact .typedString ⟨"STR", ⟨["type"], "kind", [], rfl, none_of_all rfl, rfl⟩, by decide⟩ rfl
  · exact .object
      ⟨.inl rfl, .inl ⟨["num_params"], "numparams", [], rfl, none_of_all rfl, rfl⟩, .inl rfl,
        .inr ⟨rfl, none_of_all rfl⟩, .inr ⟨rfl, none_of_all rfl⟩⟩
      (.inl ⟨["instructions", "code"], "bytecode", [], rfl, none_of_all rfl, rfl⟩)
      (.cons (.list [0, 1, 0] (.number rfl rfl) rfl rfl rfl) .nil)
      (.inr ⟨rfl, none_of_all rfl⟩) .nil (.inr ⟨rfl, none_of_all rfl⟩) .nil

theorem load_outerPayload : outer.Plain ∧ outer.SpelledBy outerPayload ∧
    load outerPayload = .ok outer :=
  ⟨outer_plain, outer_spelledBy, (load_of_spelledBy outer outer_plain).2 _ outer_spelledBy⟩

end Prototype

end LuaRecovery

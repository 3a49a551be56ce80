/-
Inputs that give no function.

A payload that is no function is rejected: the recovery answers with a text that says so, with one
diagnostic, and with nothing recovered.  Two faults of payloads are not turned into such an answer.
If the first thing in a payload that cannot be read is a constant, given as an integer past the
range of floats, or is nested deeper than the stack of the host reaches, then the recovery has no
answer at all.  It also has none if the host cannot do what the walk of the function or its layout
asks for.  In all other cases there is one.
-/
import LuaRecovery.Proofs.FloatRange
import LuaRecovery.Proofs.Recoveries

namespace LuaRecovery

open List Payload Prototype

/-! ### The first fault -/

section Faults

variable {α β ε : Type}

variable {fault : ε}

theorem bind_eq_error_iff {x : Except ε α} {f : α → Except ε β} :
    (x >>= f) = .error fault ↔ x = .error fault ∨ ∃ a, x = .ok a ∧ f a = .error fault := by
  cases x with
  | error found =>
    constructor
    · intro h
      cases h
      exact .inl rfl
    · rintro (h | ⟨_, h, -⟩)
      · cases h
        rfl
      · cases h
  | ok a =>
    refine ⟨fun h => .inr ⟨a, rfl, h⟩, ?_⟩
    rintro (h | ⟨_, h, hf⟩)
    · cases h
    · cases h
      exact hf

theorem map_eq_error_iff {x : Except ε α} {f : α → β} :
    x.map f = .error fault ↔ x = .error fault := by
  cases x with
  | error found =>
    constructor
    · intro h
      cases h
      rfl
    · intro h
      cases h
      rfl
  | ok a => exact iff_of_false nofun nofun

/-- An item with `P` in a list, before which everything can be read. -/
def First (read : α → Except ε β) (P : α → Prop) (items : List α) : Prop :=
  ∃ before item behind, items = before ++ item :: behind ∧
    (∀ x ∈ before, ∃ y, read x = .ok y) ∧ P item

/-- A list is read item by item, up to the first fault. -/
theorem mapM_eq_error_iff {read : α → Except ε β} {items : List α} :
    items.mapM read = .error fault ↔ First read (read · = .error fault) items := by
  induction items with
  | nil =>
    refine iff_of_false nofun ?_
    rintro ⟨before, item, behind, heq, -⟩
    cases before <;> cases heq
  | cons x rest ih =>
    rw [mapM_cons, bind_eq_error_iff]
    constructor
    · rintro (hx | ⟨y, hx, hrest⟩)
      · exact ⟨[], x, rest, rfl, nofun, hx⟩
      · rcases bind_eq_error_iff.mp hrest with hrest | ⟨_, -, hpure⟩
        · obtain ⟨before, item, behind, rfl, hbefore, hitem⟩ := ih.mp hrest
          exact ⟨x :: before, item, behind, rfl, forall_mem_cons.mpr ⟨⟨y, hx⟩, hbefore⟩, hitem⟩
        · cases hpure
    · rintro ⟨before, item, behind, heq, hbefore, hitem⟩
      cases before with
      | nil =>
        cases heq
        exact .inl hitem
      | cons first before =>
        cases heq
        obtain ⟨⟨y, hx⟩, hbefore⟩ := forall_mem_cons.mp hbefore
        exact .inr ⟨y, hx, bind_eq_error_iff.mpr (.inl (ih.mpr
          ⟨before, item, behind, rfl, hbefore, hitem⟩))⟩

end Faults

variable {h host : Host} {fields : List (String × Payload)} {items : List Payload} {p : Payload}
  {fault : LoadFault} {n : Nat}

/-! ### Parts that are read without floats -/

namespace Payload

mutual

/-- The number of levels of lists and objects in each other. -/
def levels : Payload → Nat
  | list items => levelsAll items + 1
  | object fields => levelsFields fields + 1
  | _ => 0

/-- The levels of the items of a list. -/
def levelsAll : List Payload → Nat
  | [] => 0
  | p :: rest => max p.levels (levelsAll rest)

/-- The levels of the fields of an object. -/
def levelsFields : List (String × Payload) → Nat
  | [] => 0
  | (_, p) :: rest => max p.levels (levelsFields rest)

end

theorem levels_lt_of_mem_list (h : p ∈ items) : p.levels < (list items).levels := by
  rw [levels, Nat.lt_succ_iff]
  induction items with
  | nil => cases h
  | cons q rest ih =>
    rw [levelsAll]
    rcases mem_cons.mp h with rfl | h
    · exact Nat.le_max_left _ _
    · exact Nat.le_trans (ih h) (Nat.le_max_right _ _)

theorem levels_lt_of_mem_object {k : String} (h : (k, p) ∈ fields) :
    p.levels < (object fields).levels := by
  rw [levels, Nat.lt_succ_iff]
  induction fields with
  | nil => cases h
  | cons field rest ih =>
    rw [levelsFields]
    rcases mem_cons.mp h with rfl | h
    · exact Nat.le_max_left _ _
    · exact Nat.le_trans (ih h) (Nat.le_max_right _ _)

theorem levels_le_of_field? {k : String} (h : field? fields k = some p) :
    p.levels ≤ (object fields).levels :=
  Nat.le_of_lt (levels_lt_of_mem_object (mem_of_field? h))

theorem levels_le_of_elements {x : Payload} (h : p.elements = .ok items) (hx : x ∈ items) :
    x.levels ≤ p.levels := by
  unfold elements at h
  split at h
  · rename_i found hfound
    cases h
    cases p with
    | list items =>
      cases hfound
      exact Nat.le_of_lt (levels_lt_of_mem_list hx)
    | text s | bytes bs | object fields =>
      cases hfound
      obtain ⟨_, -, rfl⟩ := mem_map.mp hx
      exact Nat.zero_le _
    | _ => cases hfound
  · cases h

end Payload

/-- A fault in reading a payload of so many levels that is not about the size of a float.  If it
is about the nesting, then the stack does not reach one of the levels that there are. -/
def Host.Explains (h : Host) (levels : Nat) : LoadFault → Prop
  | .integerTooLarge => False
  | .tooNested => ∃ functions lists, functions + lists ≤ levels ∧ h.reads functions lists = false
  | _ => True

namespace Host.Explains

variable {levels levels' : Nat}

/-- A level that another host does not reach stands for one that the host does not reach. -/
theorem transfer {h' : Host} (hfault : h'.Explains levels fault)
    (hreads : ∀ functions lists, functions + lists ≤ levels → h'.reads functions lists = false →
      ∃ functions' lists', functions' + lists' ≤ levels' ∧ h.reads functions' lists' = false) :
    h.Explains levels' fault := by
  cases fault with
  | integerTooLarge => exact hfault
  | tooNested =>
    obtain ⟨functions, lists, hwithin, hrefuses⟩ := hfault
    exact hreads functions lists hwithin hrefuses
  | _ => trivial

theorem mono (hfault : h.Explains levels fault) (hle : levels ≤ levels') :
    h.Explains levels' fault :=
  hfault.transfer fun functions lists hwithin hrefuses =>
    ⟨functions, lists, Nat.le_trans hwithin hle, hrefuses⟩

theorem ofInsideList (hfault : h.insideList.Explains levels fault) :
    h.Explains (levels + 1) fault :=
  hfault.transfer fun functions lists hwithin hrefuses =>
    ⟨functions, lists + 1, Nat.succ_le_succ hwithin, hrefuses⟩

theorem ofInsideFunction (hfault : h.insideFunction.Explains levels fault) :
    h.Explains (levels + 1) fault :=
  hfault.transfer fun functions lists hwithin hrefuses =>
    ⟨functions + 1, lists, by omega, hrefuses⟩

end Host.Explains

/-- There is no room on the stack for what is read next. -/
theorem Host.explains_of_full (hfull : ¬h.hasRoom = true) (levels : Nat) :
    h.Explains levels .tooNested :=
  ⟨0, 0, Nat.zero_le _, Bool.eq_false_iff.mpr hfull⟩

section Reading

variable {α β : Type} {P P' : LoadFault → Prop}

/-- A reading has only faults with `P`. -/
def FailsOnly (P : LoadFault → Prop) (x : Except LoadFault α) : Prop :=
  ∀ fault, x = .error fault → P fault

theorem failsOnly_ok (a : α) : FailsOnly P (.ok a) := nofun

theorem failsOnly_error (h : P fault) : FailsOnly (α := α) P (.error fault) := by
  rintro _ ⟨⟩
  exact h

theorem FailsOnly.mono {x : Except LoadFault α} (hx : FailsOnly P x)
    (h : ∀ fault, P fault → P' fault) : FailsOnly P' x :=
  fun fault hfault => h fault (hx fault hfault)

theorem FailsOnly.map {x : Except LoadFault α} (hx : FailsOnly P x) (f : α → β) :
    FailsOnly P (x.map f) :=
  fun fault h => hx fault (map_eq_error_iff.mp h)

theorem FailsOnly.bind {x : Except LoadFault α} {f : α → Except LoadFault β} (hx : FailsOnly P x)
    (hf : ∀ a, x = .ok a → FailsOnly P (f a)) : FailsOnly P (x >>= f) := by
  intro fault h
  rcases bind_eq_error_iff.mp h with h | ⟨a, hok, h⟩
  · exact hx fault h
  · exact hf a hok fault h

theorem failsOnly_mapM {read : α → Except LoadFault β} {items : List α}
    (hread : ∀ x ∈ items, FailsOnly P (read x)) : FailsOnly P (items.mapM read) := by
  intro fault h
  obtain ⟨before, item, behind, rfl, -, hitem⟩ := mapM_eq_error_iff.mp h
  exact hread item (mem_append_right _ mem_cons_self) fault hitem

end Reading

namespace Payload

theorem elements_explained (p : Payload) : FailsOnly (h.Explains n) p.elements := by
  unfold elements
  split
  · exact failsOnly_ok _
  · exact failsOnly_error trivial

theorem readInteger_explained (s : String) : FailsOnly (h.Explains n) (readInteger s) := by
  intro fault hfault
  unfold readInteger at hfault
  dsimp only at hfault
  -- With a dash or without, the same faults are possible.
  split at hfault
  all_goals
    dsimp only at hfault
    split at hfault
    · cases hfault
      trivial
    · split at hfault <;> cases hfault
      trivial

theorem toInteger_explained (p : Payload) : FailsOnly (h.Explains n) p.toInteger := by
  unfold toInteger
  split
  · exact failsOnly_ok _
  · exact failsOnly_ok _
  · split
    · exact readInteger_explained _
    · exact failsOnly_ok _
  · exact failsOnly_ok _

mutual

theorem obstacle?_explained : ∀ {p : Payload} {h : Host} {fault : LoadFault},
    p.obstacle? h = some fault → h.Explains p.levels fault
  | list items, h, fault, hfound => by
    rw [obstacle?] at hfound
    split at hfound
    · exact (obstacleAll?_explained hfound).ofInsideList
    · cases hfound
      exact (Host.explains_of_full ‹_› _).ofInsideList
  | object fields, h, fault, hfound => by
    rw [obstacle?] at hfound
    split at hfound
    · exact (obstacleFields?_explained hfound).ofInsideList
    · cases hfound
      exact (Host.explains_of_full ‹_› _).ofInsideList
  | int n, h, fault, hfound => by
    rw [obstacle?] at hfound
    split at hfound <;> cases hfound
    trivial
  | null, _, _, hfound | bool _, _, _, hfound | float _, _, _, hfound | text _, _, _, hfound
  | bytes _, _, _, hfound => by cases hfound

theorem obstacleAll?_explained : ∀ {items : List Payload} {h : Host} {fault : LoadFault},
    obstacleAll? items h = some fault → h.Explains (levelsAll items) fault
  | p :: rest, h, fault, hfound => by
    rw [levelsAll]
    rcases Option.or_eq_some_iff.mp hfound with hfound | ⟨-, hfound⟩
    · exact (obstacle?_explained hfound).mono (Nat.le_max_left _ _)
    · exact (obstacleAll?_explained hfound).mono (Nat.le_max_right _ _)

theorem obstacleFields?_explained : ∀ {fields : List (String × Payload)} {h : Host}
    {fault : LoadFault}, obstacleFields? fields h = some fault →
      h.Explains (levelsFields fields) fault
  | (_, p) :: rest, h, fault, hfound => by
    rw [levelsFields]
    rcases Option.or_eq_some_iff.mp hfound with hfound | ⟨-, hfound⟩
    · exact (obstacle?_explained hfound).mono (Nat.le_max_left _ _)
    · exact (obstacleFields?_explained hfound).mono (Nat.le_max_right _ _)

end

theorem textOn_explained (p : Payload) : FailsOnly (h.Explains p.levels) (p.textOn h) := by
  unfold textOn
  split
  · exact failsOnly_error (obstacle?_explained ‹_›)
  · exact failsOnly_ok _

theorem refusal_explained (hfault : h.Explains p.levels fault) :
    h.Explains p.levels (p.refusal h fault) := by
  unfold refusal
  cases hfound : p.obstacle? h with
  | none => exact hfault
  | some found => exact obstacle?_explained hfound

end Payload

namespace Instruction

variable (fields)

theorem operand_explained (ks : List String) : FailsOnly (h.Explains n) (operand fields ks) := by
  induction ks with
  | nil => exact failsOnly_ok 0
  | cons k ks ih =>
    unfold operand
    split
    · exact toInteger_explained _
    · exact ih

theorem operandB_explained : FailsOnly (h.Explains n) (operandB fields) := by
  refine (operand_explained fields _).bind fun plain _ => ?_
  split
  · exact toInteger_explained _
  · split
    · exact toInteger_explained _
    · exact failsOnly_ok _

theorem ofRow_explained (row : Payload) : FailsOnly (h.Explains row.levels) (ofRow h row) := by
  unfold ofRow
  split
  · exact (operandB_explained _).bind fun _ _ => (operand_explained _ _).bind fun _ _ =>
      (operand_explained _ _).bind fun _ _ => failsOnly_ok _
  · exact (toInteger_explained _).bind fun _ _ => (toInteger_explained _).bind
      fun _ _ => (toInteger_explained _).bind fun _ _ => failsOnly_ok _
  · exact failsOnly_error (refusal_explained trivial)

end Instruction

namespace Prototype

theorem levels_part (fields : List (String × Payload)) (ks : List String) :
    (part fields ks).levels ≤ (object fields).levels := by
  have hempty : (list []).levels ≤ (object fields).levels :=
    Nat.succ_le_succ (Nat.zero_le _)
  unfold part
  split
  · rename_i hgiven
    split
    · obtain ⟨k, hk⟩ := mem_of_firstGiven? hgiven
      exact Nat.le_of_lt (levels_lt_of_mem_object hk)
    · exact hempty
  · exact hempty

theorem count_explained (k k' : String) : FailsOnly (h.Explains n) (count fields k k') :=
  toInteger_explained _

theorem nameOf_explained : FailsOnly (h.Explains (object fields).levels) (nameOf h fields) := by
  unfold nameOf
  split
  · rename_i p hp
    have hfield := (Option.filter_eq_some_iff.mp hp).1
    exact (textOn_explained p).mono fun _ h => h.mono (levels_le_of_field? hfield)
  · exact failsOnly_ok _

theorem upvalueNamesOf_explained :
    FailsOnly (h.Explains (object fields).levels) (upvalueNamesOf h fields) := by
  unfold upvalueNamesOf
  split
  · rename_i p hp
    have hfield := (Option.filter_eq_some_iff.mp hp).1
    refine (elements_explained p).bind fun items hitems => failsOnly_mapM fun x hx => ?_
    exact (textOn_explained x).mono fun _ h => h.mono
      (Nat.le_trans (levels_le_of_elements hitems hx) (levels_le_of_field? hfield))
  · exact failsOnly_ok _

end Prototype

/-! ### Constants -/

open Binary64 (IsPastRange)

theorem Payload.floatOfInt_fails (k : Int) :
    FailsOnly (fun fault => (fault = .integerTooLarge ∧ IsPastRange k) ∨ h.Explains n fault)
      (floatOfInt k) := by
  unfold floatOfInt
  split
  · exact failsOnly_ok _
  · exact failsOnly_error (.inl ⟨rfl, Binary64.ofInt?_eq_none_iff.mp ‹_›⟩)

theorem Payload.floatOfInt_of_past {n : Int} (h : IsPastRange n) :
    floatOfInt n = .error .integerTooLarge := by
  rw [floatOfInt, Binary64.ofInt?_eq_none_iff.mpr h]

/-- A float that is read has only faults that have an explanation, or is too large. -/
theorem Payload.toFloat_fails (p : Payload) :
    FailsOnly (fun fault => (fault = .integerTooLarge ∧ ∃ k, p = .int k ∧ IsPastRange k) ∨
      h.Explains n fault) p.toFloat := by
  unfold toFloat
  split
  · exact failsOnly_ok _
  · rename_i k
    exact (floatOfInt_fails k).mono fun _ => .imp_left fun h => ⟨h.1, k, rfl, h.2⟩
  · exact failsOnly_ok _
  · split
    · exact failsOnly_ok _
    · exact failsOnly_error (.inr trivial)
  · split
    · exact failsOnly_ok _
    · exact failsOnly_error (.inr trivial)
  · exact failsOnly_error (.inr trivial)

namespace Constant

/-- The kinds of constants that are read as a float. -/
def numericKinds : List String := ["number", "num", "int", "float"]

theorem kindOf_explained (fields : List (String × Payload)) :
    FailsOnly (h.Explains (object fields).levels) (kindOf h fields) := by
  refine FailsOnly.map ?_ _
  refine (textOn_explained _).mono fun _ hfault => hfault.mono ?_
  cases hfound : ((field? fields "type").filter isTruthy).or
      ((field? fields "kind").filter isTruthy) with
  | none => exact Nat.zero_le _
  | some p =>
    rcases Option.or_eq_some_iff.mp hfound with hp | ⟨-, hp⟩
    all_goals exact levels_le_of_field? (Option.filter_eq_some_iff.mp hp).1

/-- A word of one list is not one of another list. -/
theorem not_mem_of_apart {words others : List String} {word : String}
    (h : (words.all fun w => !others.contains w) = true) (hword : word ∈ words) :
    word ∉ others := by
  intro hother
  have hfree := all_eq_true.mp h word hword
  rw [contains_iff_mem.mpr hother] at hfree
  cases hfree

theorem ofKind_numeric {kind : String} (hkind : kind ∈ numericKinds) (inner : Payload) :
    ofKind h kind inner = inner.toFloat.map fun x => some (number x) := by
  rw [ofKind, if_neg (not_mem_of_apart (by decide) hkind),
    if_neg (not_mem_of_apart (by decide) hkind)]
  exact if_pos hkind

/-- Only a number can be too large. -/
theorem ofKind_fails (kind : String) (inner : Payload) :
    FailsOnly (fun fault => (fault = .integerTooLarge ∧ kind ∈ numericKinds ∧
        ∃ n, inner = .int n ∧ IsPastRange n) ∨ h.Explains inner.levels fault)
      (ofKind h kind inner) := by
  unfold ofKind
  split
  · exact failsOnly_ok _
  split
  · exact failsOnly_ok _
  split
  · rename_i hnumeric
    exact (inner.toFloat_fails.mono fun _ => .imp_left fun h => ⟨h.1, hnumeric, h.2⟩).map _
  split
  · exact ((textOn_explained inner).mono fun _ => .inr).map _
  · exact failsOnly_ok _

end Constant

/-- A constant that is given as an integer past the range of floats, plainly or by an object that
names its kind. -/
def Payload.IsHuge (h : Host) : Payload → Prop
  | .int n => IsPastRange n
  | .object fields => ∃ kind ∈ Constant.numericKinds, Constant.kindOf h fields = .ok kind ∧
      ∃ n, field? fields "value" = some (.int n) ∧ IsPastRange n
  | _ => False

namespace Constant

theorem ofPayload_fails (p : Payload) :
    FailsOnly (fun fault => (fault = .integerTooLarge ∧ p.IsHuge h) ∨ h.Explains p.levels fault)
      (ofPayload h p) := by
  cases p with
  | int n => exact (floatOfInt_fails n).map _
  | list items => exact failsOnly_error (.inr (refusal_explained trivial))
  | object fields =>
    have hvalue : ((field? fields "value").getD .null).levels ≤ (object fields).levels := by
      cases hfield : field? fields "value" with
      | none => exact Nat.zero_le _
      | some p => exact levels_le_of_field? hfield
    refine FailsOnly.bind (((kindOf_explained fields).mono fun _ => .inr).bind
      fun kind hkind => ?_) fun found _ => ?_
    · refine (ofKind_fails kind _).mono fun fault hfault => ?_
      refine hfault.imp ?_ fun hfault => hfault.mono hvalue
      rintro ⟨hlarge, hnumeric, n, hn, hpast⟩
      refine ⟨hlarge, kind, hnumeric, hkind, n, ?_, hpast⟩
      cases hfield : field? fields "value" with
      | none =>
        rw [hfield] at hn
        cases hn
      | some p =>
        rw [hfield] at hn
        exact congrArg some hn
    · cases found with
      | some c => exact failsOnly_ok _
      | none => exact failsOnly_error (.inr (refusal_explained trivial))
  | _ => exact failsOnly_ok _

theorem ofPayload_of_isHuge (hp : p.IsHuge h) : ofPayload h p = .error .integerTooLarge := by
  cases p with
  | int n => exact map_eq_error_iff.mpr (floatOfInt_of_past hp)
  | object fields =>
    obtain ⟨kind, hnumeric, hkind, n, hvalue, hpast⟩ := hp
    rw [ofPayload, ofTyped, hkind, hvalue]
    show (ofKind h kind (.int n) >>= _) = _
    rw [ofKind_numeric hnumeric, toFloat, floatOfInt_of_past hpast]
    rfl
  | _ => exact hp.elim

end Constant

/-! ### Whole payloads -/

namespace Prototype

/-- The functions inside, as a payload gives them. -/
def childrenOf (host : Host) (fields : List (String × Payload)) :
    Except LoadFault (List Prototype) :=
  match part fields childKeys with
  | .list items => items.mapM (load · host.insideFunction)
  | other => do
    match ← other.elements with
    | [] => pure []
    | c :: _ => throw (if host.insideFunction.hasRoom then .notAPrototype c.kind else .tooNested)

theorem mapM_attach_load (items : List Payload) :
    (items.attach.mapM fun c => load c.val host) = items.mapM (load · host) := by
  change items.attach.mapM ((load · host) ∘ Subtype.val) = _
  rw [← mapM_map, attach_map_subtype_val]

theorem load_of_full (hfull : ¬host.hasRoom = true) : load p host = .error .tooNested := by
  have hrefuses : (!host.hasRoom) = true := by simp [hfull]
  cases p with
  | object fields => rw [load, if_pos hrefuses]
  | _ =>
    rw [load, if_pos hrefuses]
    rintro _ ⟨⟩

theorem load_of_not_object (hroom : host.hasRoom = true) (h : ∀ fields, p ≠ .object fields) :
    load p host = .error (.notAPrototype p.kind) := by
  rw [load, hroom]
  · rfl
  · exact h

theorem load_object (hroom : host.hasRoom = true) (fields : List (String × Payload)) :
    load (.object fields) host = do
      let instructions ← (← (part fields instructionKeys).elements).mapM (Instruction.ofRow host)
      let constants ← (← (part fields constantKeys).elements).mapM (Constant.ofPayload host)
      let children ← childrenOf host fields
      let name ← nameOf host fields
      let paramCount ← count fields "num_params" "numparams"
      let upvalueCount ← count fields "upvalue_count" "nups"
      let upvalueNames ← upvalueNamesOf host fields
      return { instructions, constants, children, name, paramCount, vararg := varargOf fields,
               upvalueCount, upvalueNames } := by
  rw [load, hroom]
  unfold childrenOf
  cases hpart : part fields childKeys with
  | list items =>
    simp only [mapM_attach_load]
    rfl
  | _ =>
    simp only [bind_assoc]
    refine bind_congr fun rows => bind_congr fun _ => bind_congr fun items => bind_congr fun _ =>
      bind_congr fun children => ?_
    cases children <;> rfl

/-- The code of a function can be read, and the constants are given by these items. -/
structure ReadsCode (host : Host) (fields : List (String × Payload)) (items : List Payload) :
    Prop where
  room : host.hasRoom = true
  code : ∃ rows code, (part fields instructionKeys).elements = .ok rows ∧
    rows.mapM (Instruction.ofRow host) = .ok code
  constants : (part fields constantKeys).elements = .ok items

/-- The first thing in a payload that cannot be read is a constant past the range of floats, in
the function itself or in a function inside. -/
inductive Overflows : Host → Payload → Prop
  | constant {host : Host} {fields : List (String × Payload)} {items : List Payload}
      (reads : ReadsCode host fields items)
      (huge : First (Constant.ofPayload host) (Payload.IsHuge host) items) :
      Overflows host (.object fields)
  | inside {host : Host} {fields : List (String × Payload)} {items before behind : List Payload}
      {constants : List Constant} {child : Payload} (reads : ReadsCode host fields items)
      (read : items.mapM (Constant.ofPayload host) = .ok constants)
      (children : part fields childKeys = .list (before ++ child :: behind))
      (loads : ∀ x ∈ before, ∃ p, load x host.insideFunction = .ok p)
      (overflows : Overflows host.insideFunction child) : Overflows host (.object fields)

theorem sizeOf_lt_of_part {ks : List String} {c : Payload} (h : part fields ks = .list items)
    (hc : c ∈ items) : sizeOf c < sizeOf (object fields) := by
  obtain ⟨k, hk⟩ := mem_of_part h hc
  have h₁ := sizeOf_lt_of_mem hc
  have h₂ := sizeOf_lt_of_mem hk
  simp at h₂ ⊢
  omega

/-- Why a payload was not loaded. -/
def Accounts (host : Host) (p : Payload) (fault : LoadFault) : Prop :=
  (fault = .integerTooLarge ∧ Overflows host p) ∨ host.Explains p.levels fault

theorem constants_fail (hreads : ReadsCode host fields items) :
    FailsOnly (Accounts host (.object fields)) (items.mapM (Constant.ofPayload host)) := by
  intro fault h
  obtain ⟨before, item, behind, rfl, hbefore, hitem⟩ := mapM_eq_error_iff.mp h
  rcases Constant.ofPayload_fails item fault hitem with ⟨rfl, hhuge⟩ | hfault
  · exact .inl ⟨rfl, .constant hreads ⟨before, item, behind, rfl, hbefore, hhuge⟩⟩
  · have hitem := levels_le_of_elements hreads.constants
      (mem_append_right before (mem_cons_self (a := item)))
    exact .inr (hfault.mono (Nat.le_trans hitem (levels_part _ _)))

theorem children_fail {constants : List Constant} (hreads : ReadsCode host fields items)
    (hconstants : items.mapM (Constant.ofPayload host) = .ok constants)
    (ih : ∀ child, sizeOf child < sizeOf (object fields) →
      FailsOnly (Accounts host.insideFunction child) (load child host.insideFunction)) :
    FailsOnly (Accounts host (.object fields)) (childrenOf host fields) := by
  unfold childrenOf
  split
  · rename_i children hpart
    intro fault h
    obtain ⟨before, child, behind, rfl, hbefore, hchild⟩ := mapM_eq_error_iff.mp h
    have hmem : child ∈ before ++ child :: behind := mem_append_right _ mem_cons_self
    rcases ih child (sizeOf_lt_of_part hpart hmem) fault hchild with ⟨rfl, hover⟩ | hfault
    · exact .inl ⟨rfl, .inside hreads hconstants hpart hbefore hover⟩
    · have hlevels := levels_part fields childKeys
      rw [hpart] at hlevels
      exact .inr (hfault.ofInsideFunction.mono (Nat.le_trans (levels_lt_of_mem_list hmem) hlevels))
  · refine ((elements_explained _).mono fun _ => .inr).bind fun found _ => ?_
    cases found with
    | nil => exact failsOnly_ok _
    | cons c rest =>
      refine failsOnly_error (.inr ?_)
      split
      · trivial
      · exact (Host.explains_of_full ‹_› 0).ofInsideFunction.mono (Nat.le_add_left _ _)

/-- A payload that is not loaded overflows, or its fault has an explanation. -/
theorem load_fails (p : Payload) (host : Host) : FailsOnly (Accounts host p) (load p host) := by
  by_cases hroom : host.hasRoom = true
  · cases p with
    | object fields =>
      have hright {α : Type} {x : Except LoadFault α}
          (hx : FailsOnly (host.Explains (object fields).levels) x) :
          FailsOnly (Accounts host (.object fields)) x := hx.mono fun _ => .inr
      rw [load_object hroom]
      refine (hright (elements_explained _)).bind fun rows hrows => ?_
      refine (hright (failsOnly_mapM fun row hrow => ?_)).bind fun code hcode => ?_
      · exact (Instruction.ofRow_explained row).mono fun _ h => h.mono
          (Nat.le_trans (levels_le_of_elements hrows hrow) (levels_part _ _))
      refine (hright (elements_explained _)).bind fun items hitems => ?_
      have hreads : ReadsCode host fields items := ⟨hroom, ⟨rows, code, hrows, hcode⟩, hitems⟩
      refine (constants_fail hreads).bind fun constants hconstants => ?_
      refine (children_fail hreads hconstants fun child _ =>
        load_fails child host.insideFunction).bind fun _ _ => ?_
      refine (hright nameOf_explained).bind fun _ _ => ?_
      refine (hright (count_explained _ _)).bind fun _ _ => ?_
      refine (hright (count_explained _ _)).bind fun _ _ => ?_
      exact (hright upvalueNamesOf_explained).bind fun _ _ => failsOnly_ok _
    | _ =>
      rw [load_of_not_object hroom]
      · exact failsOnly_error (.inr trivial)
      · exact nofun
  · rw [load_of_full hroom]
    exact failsOnly_error (.inr (Host.explains_of_full hroom _))
termination_by sizeOf p
decreasing_by exact ‹_›

/-- A function whose code can be read fails with its constants. -/
theorem ReadsCode.load_constants (h : ReadsCode host fields items)
    (hconstants : items.mapM (Constant.ofPayload host) = .error fault) :
    load (.object fields) host = .error fault := by
  obtain ⟨rows, code, hrows, hcode⟩ := h.code
  rw [load_object h.room]
  simp only [hrows, hcode, h.constants, hconstants, bind, Except.bind]

/-- A function whose code and constants can be read fails with the functions inside. -/
theorem ReadsCode.load_children {constants : List Constant} (h : ReadsCode host fields items)
    (hconstants : items.mapM (Constant.ofPayload host) = .ok constants)
    (hchildren : childrenOf host fields = .error fault) :
    load (.object fields) host = .error fault := by
  obtain ⟨rows, code, hrows, hcode⟩ := h.code
  rw [load_object h.room]
  simp only [hrows, hcode, h.constants, hconstants, hchildren, bind, Except.bind]

theorem load_of_overflows (h : Overflows host p) : load p host = .error .integerTooLarge := by
  induction h with
  | @constant host fields items hreads hhuge =>
    obtain ⟨before, item, behind, hsplit, hbefore, hitem⟩ := hhuge
    exact hreads.load_constants (mapM_eq_error_iff.mpr ⟨before, item, behind, hsplit, hbefore,
      Constant.ofPayload_of_isHuge hitem⟩)
  | @inside host fields items before behind constants child hreads hconstants hpart hloads _ ih =>
    refine hreads.load_children hconstants ?_
    unfold childrenOf
    rw [hpart]
    exact mapM_eq_error_iff.mpr ⟨before, child, behind, rfl, hloads, ih⟩

/-- A payload ends its reading at an integer past the range of floats just if it overflows. -/
theorem load_eq_tooLarge_iff : load p host = .error .integerTooLarge ↔ Overflows host p :=
  ⟨fun h => ((load_fails p host _ h).resolve_right id).2, load_of_overflows⟩

end Prototype

namespace Recovery

open Prototype (Overflows)

variable {o : Options} {payload : Payload}

/-- A payload gives no function with code: it cannot be loaded, or there are no instructions. -/
def IsUnusable (host : Host) (payload : Payload) : Prop :=
  ∀ p, load payload host = .ok p → p.instructions = []

/-- The host cannot do what the recovery of a payload asks for.  The stack does not reach one of
the levels that the payload has, or a function was loaded and the host refuses an integer, a list
or a level that its walk comes to, or a line that its layout comes to.  What a walk comes to is
bounded by the operands, the code and the levels of the function, and by the budget. -/
inductive FallsShort (host : Host) (o : Options) : Payload → Fault → Prop
  | reading {fields : List (String × Payload)} {functions lists : Nat}
      (loads : load (.object fields) host = .error .tooNested)
      (within : functions + lists ≤ (object fields).levels)
      (refuses : host.reads functions lists = false) :
      FallsShort host o (.object fields) (.load .tooNested)
  | walking {payload : Payload} {p : Prototype} {limit : HostFault}
      (loads : load payload host = .ok p) (code : p.instructions.isEmpty = false)
      (walks : walked p (startContext p o host) = .error (.host limit))
      (within : limit.Within (max p.reach (o.budget.getD 0).natAbs) p.height)
      (refuses : host.Refuses limit) : FallsShort host o payload (.host limit)
  | indenting {payload : Payload} {p : Prototype} {r : Routine} {failure : Option Failure}
      {c : Context} {width : Nat} {line : Layout.Line}
      (loads : load payload host = .ok p) (code : p.instructions.isEmpty = false)
      (walks : walked p (startContext p o host) = .ok (r, failure, c))
      (level : o.levelWidth = .ok width) (mem : line ∈ Layout.routineLines 0 r)
      (first : Layout.indentFault? host width r = some (.indent (width * line.level)))
      (refuses : host.allots (width * line.level) = false) :
      FallsShort host o payload (.host (.indent (width * line.level)))

theorem accept_of_load {p : Prototype} (h : load payload host = .ok p) :
    accept payload host = .ok (.ok p) := by
  by_cases hroom : host.hasRoom = true
  · cases payload with
    | object fields => rw [accept, h]
    | _ =>
      rw [load_of_not_object hroom] at h
      · cases h
      · exact nofun
  · cases (load_of_full hroom).symm.trans h

/-- What becomes of a payload: there is no answer, it is rejected, or it is a function. -/
theorem accept_cases (payload : Payload) (host : Host) (o : Options) :
    Overflows host payload ∨ FallsShort host o payload (.load .tooNested) ∨
      ((∀ p, load payload host ≠ .ok p) ∧ ∃ why, accept payload host = .ok (.error why)) ∨
      ∃ p, load payload host = .ok p ∧ accept payload host = .ok (.ok p) := by
  cases hload : load payload host with
  | ok p => exact .inr (.inr (.inr ⟨p, rfl, accept_of_load hload⟩))
  | error fault =>
    cases payload with
    | object fields =>
      have hwhy := load_fails _ _ _ hload
      unfold accept
      rw [hload]
      cases fault with
      | integerTooLarge => exact .inl (load_eq_tooLarge_iff.mp hload)
      | tooNested =>
        obtain ⟨functions, lists, hwithin, hrefuses⟩ := hwhy.resolve_left nofun
        exact .inr (.inl (.reading hload hwithin hrefuses))
      | _ => exact .inr (.inr (.inl ⟨nofun, _, rfl⟩))
    | _ => exact .inr (.inr (.inl ⟨nofun, _, rfl⟩))

/-- A constant past the range of floats ends the recovery. -/
theorem ofPayload_of_overflows (h : Overflows host payload) (o : Options)
    (proposal : Option (List (String × Payload))) :
    ofPayload payload o proposal host = .error (.load .integerTooLarge) := by
  have hload := load_of_overflows h
  obtain ⟨fields, rfl⟩ : ∃ fields, payload = .object fields := by
    cases h <;> exact ⟨_, rfl⟩
  rw [ofPayload, accept, hload]
  rfl

/-- A host that falls short ends the recovery. -/
theorem ofPayload_of_fallsShort {fault : Fault} (h : FallsShort host o payload fault)
    (proposal : Option (List (String × Payload))) :
    ofPayload payload o proposal host = .error fault := by
  unfold ofPayload
  cases h with
  | reading hload =>
    rw [accept, hload]
    rfl
  | walking hload hcode hwalked =>
    rw [accept_of_load hload]
    show ofPrototype _ o proposal host = _
    rw [ofPrototype, hcode, if_neg Bool.false_ne_true, hwalked]
    rfl
  | indenting hload hcode hwalked hwidth _ hfirst =>
    rw [accept_of_load hload]
    show ofPrototype _ o proposal host = _
    rw [ofPrototype, hcode, if_neg Bool.false_ne_true, hwalked, hwidth]
    show (checkIndent host _ _ >>= fun _ => _) = _
    rw [checkIndent, hfirst]
    rfl

/-- A host without limits does not fall short. -/
theorem not_fallsShort (hreads : ∀ functions lists, host.reads functions lists = true)
    (hhost : host.Boundless) (fault : Fault) : ¬FallsShort host o payload fault := by
  intro h
  cases h with
  | reading _ _ hrefuses => cases (hreads _ _).symm.trans hrefuses
  | walking _ _ _ _ hrefuses => exact hhost _ hrefuses
  | @indenting _ _ _ _ _ width line _ _ _ _ _ _ hrefuses =>
    exact hhost (.indent (width * line.level)) hrefuses

/-- A function with code that was loaded is recovered, unless the host falls short. -/
theorem ofPrototype_of_load {p : Prototype} (hload : load payload host = .ok p)
    (hcode : p.instructions.isEmpty = false) (ho : o.Complete)
    (proposal : Option (List (String × Payload)))
    (hserves : ∀ fault, ¬FallsShort host o payload fault) :
    ∃ full r, ofPrototype p o proposal host = .ok full ∧ full.routine = some r := by
  obtain ⟨r, failure, c, hwalked⟩ | ⟨limit, hwalked, hrefuses, hwithin⟩ :=
    walked_of_complete p ho host
  · obtain ⟨width, hwidth⟩ := levelWidth_of_complete ho
    have hindent : checkIndent host width r = .ok () := by
      unfold checkIndent
      cases hfirst : Layout.indentFault? host width r with
      | none => rfl
      | some limit =>
        obtain ⟨line, hmem, hline⟩ := exists_of_findSome?_eq_some hfirst
        obtain ⟨hrefuses, rfl⟩ := Host.refuses_of_unless (h := host) hline id
        exact absurd (.indenting hload hcode hwalked hwidth hmem hfirst hrefuses) (hserves _)
    obtain ⟨body, -, hfull⟩ := ofPrototype_finished proposal hcode hwalked hwidth hindent
    exact ⟨_, r, hfull, rfl⟩
  · exact absurd (.walking hload hcode hwalked hwithin hrefuses) (hserves _)

/-- **Bad inputs.**  Let the options be given that have no reading if they are left open.  If the
first thing in a payload that cannot be read is a constant past the range of floats, there is no
answer, and so if the host falls short.  In all other cases there is one.  Nothing is recovered just
if the payload gives no function with code, and then the answer is a failure on the input, its
diagnostic, and a text that tells of it. -/
theorem ofPayload_answers (payload : Payload) {o : Options} (ho : o.Complete)
    (proposal : Option (List (String × Payload))) (host : Host) :
    (Overflows host payload → ofPayload payload o proposal host = .error (.load .integerTooLarge)) ∧
      (∀ fault, FallsShort host o payload fault →
        ofPayload payload o proposal host = .error fault) ∧
      (¬ Overflows host payload → (∀ fault, ¬ FallsShort host o payload fault) →
        ∃ full, ofPayload payload o proposal host = .ok full ∧
          (full.routine = none ↔ IsUnusable host payload) ∧
          (IsUnusable host payload → ∃ failure, full.failure = some failure ∧
            failure.code = .emptyOrInvalidInput ∧
            full.diagnostics = [failure.diagnostic rootName] ∧
            full.text = Text.join "\n" (header o ++ [partialLine failure]) ++ "\n")) := by
  refine ⟨fun hover => ofPayload_of_overflows hover o proposal,
    fun fault hshort => ofPayload_of_fallsShort hshort proposal, fun hover hserves => ?_⟩
  unfold ofPayload
  rcases accept_cases payload host o with
    hover' | hshort | ⟨hnone, why, haccept⟩ | ⟨p, hload, haccept⟩
  · exact absurd hover' hover
  · exact absurd hshort (hserves _)
  · rw [haccept]
    refine ⟨_, rfl, iff_of_true rfl fun p hp => absurd hp (hnone p), fun _ => ?_⟩
    exact ⟨_, rfl, rfl, rfl, rfl⟩
  · have husable : IsUnusable host payload ↔ p.instructions = [] := by
      refine ⟨fun h => h p hload, fun h q hq => ?_⟩
      cases hload.symm.trans hq
      exact h
    rw [haccept, husable]
    show ∃ full, ofPrototype p o proposal host = .ok full ∧ _
    cases hcode : p.instructions with
    | nil =>
      refine ⟨_, by rw [ofPrototype, hcode]; rfl, iff_of_true rfl rfl, fun _ => ?_⟩
      exact ⟨_, rfl, rfl, rfl, rfl⟩
    | cons i rest =>
      obtain ⟨full, r, hfull, hroutine⟩ :=
        ofPrototype_of_load hload (by rw [hcode]; rfl) ho proposal hserves
      have hcons : i :: rest ≠ [] := cons_ne_nil i rest
      rw [← hcode] at hcons ⊢
      exact ⟨full, hfull, iff_of_false (by simp [hroutine]) hcons, fun h => absurd h hcons⟩

/-- A function with a constant past the range of floats. -/
def hugeConstant : Payload :=
  .object [("instructions", .list [.list [.text "RETURN", .int 0, .int 1]]),
    ("constants", .list [.int (.ofNat (Nat.pow 10 400))])]

theorem hugeConstant_overflows : Overflows {} hugeConstant := by
  refine .constant ⟨rfl, ⟨_, _, rfl, rfl⟩, rfl⟩
    ⟨[], .int (.ofNat (Nat.pow 10 400)), [], rfl, nofun, ?_⟩
  show Binary64.rangeEnd ≤ _
  decide +kernel

/-- A constant past the range of floats is not rejected as bad input: there is no answer. -/
theorem hugeConstant_unanswered :
    ofPayload hugeConstant {} none = .error (.load .integerTooLarge) :=
  ofPayload_of_overflows hugeConstant_overflows {} none

/-- The fields of a function with two functions inside, of which the second is a number. -/
def numberInsideFields : List (String × Payload) :=
  [("instructions", .list [.list [.text "RETURN", .int 0, .int 1]]),
    ("children", .list [.object [], .int 3])]

/-- A function with two functions inside, of which the second is a number. -/
def numberInside : Payload := .object numberInsideFields

theorem load_numberInside : load numberInside = .error (.notAPrototype "int") := by
  have hempty : ∃ p, load (.object []) = .ok p := by
    rw [load_object rfl]
    exact ⟨_, rfl⟩
  have hnumber : load (.int 3) = .error (.notAPrototype "int") :=
    load_of_not_object rfl nofun
  have hchildren : childrenOf {} numberInsideFields = .error (.notAPrototype "int") :=
    mapM_eq_error_iff.mpr ⟨[.object []], .int 3, [], rfl, forall_mem_singleton.mpr hempty, hnumber⟩
  have hreads : Prototype.ReadsCode {} numberInsideFields [] := ⟨rfl, ⟨_, _, rfl, rfl⟩, rfl⟩
  exact hreads.load_children rfl hchildren

/-- With the default options `hugeConstant` has no answer and `numberInside` is rejected. -/
theorem numberInside_rejected : ofPayload hugeConstant {} none = .error (.load .integerTooLarge) ∧
      ∃ full failure, ofPayload numberInside {} none = .ok full ∧ full.routine = none ∧
        full.failure = some failure ∧ failure.code = .emptyOrInvalidInput ∧
        full.text = Text.join "\n" (headerLines ++ [partialLine failure]) ++ "\n" := by
  have hcomplete : Options.Complete {} := ⟨nofun, nofun⟩
  have hnot : ¬ Overflows {} numberInside := by
    rw [← load_eq_tooLarge_iff, load_numberInside]
    exact nofun
  have hunusable : IsUnusable {} numberInside := by
    intro p hp
    cases load_numberInside.symm.trans hp
  obtain ⟨full, hfull, hnone, hrejected⟩ :=
    (ofPayload_answers numberInside hcomplete none {}).2.2 hnot
      (not_fallsShort (fun _ _ => rfl) (Host.boundless_default _))
  obtain ⟨failure, hfailure, hcode, -, htext⟩ := hrejected hunusable
  exact ⟨(ofPayload_answers hugeConstant hcomplete none {}).1 hugeConstant_overflows,
    full, failure, hfull, hnone.mpr hunusable, hfailure, hcode, htext⟩

end Recovery

end LuaRecovery

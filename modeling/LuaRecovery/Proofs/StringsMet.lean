/-
The strings that are reported.

One report is shared by all functions.  A function adds the strings among its own constants before
its first instruction, and each closure adds, in the middle of the code around it, those of the
function that it makes.  It is shown here that this comes to a plain traversal: `stringsMet` lists
the strings of a function and then those of the functions that its closures make, in order, and
the report has the first of each that is worth reporting.

The induction is over the tree of functions, and within a function along its walk.  What is
carried is that the report accounts for what was met so far (`AccountsFor`); no other step touches
it.
-/
import LuaRecovery.Proofs.FunctionsInside
import LuaRecovery.Proofs.Recoveries

namespace LuaRecovery

open List

/-- The string that a constant is. -/
def Constant.string? : Constant → Option String
  | .string s => some s
  | _ => none

/-! ### The traversal -/

namespace Prototype

/-- The strings among the constants of a function. -/
def ownStrings (p : Prototype) : List String := p.constants.filterMap Constant.string?

mutual

/-- The strings that are met when a function is recovered: its own, and then at each closure
those of the function that it makes. -/
def stringsMet : Prototype → List String
  | ⟨instructions, constants, children, _, _, _, _, _⟩ =>
    constants.filterMap Constant.string? ++ instructions.flatMap fun i =>
      if i.opcode = .closure ∧ 0 ≤ i.b then (stringsMetIn children)[i.b.toNat]?.getD [] else []

/-- The strings that are met in each of some functions. -/
def stringsMetIn : List Prototype → List (List String)
  | [] => []
  | p :: rest => p.stringsMet :: stringsMetIn rest

end

/-- The functions that come of a function: itself, and what comes of those that its closures
make. -/
inductive ComesOf : Prototype → Prototype → Prop
  | self (p : Prototype) : ComesOf p p
  | inside {p q r : Prototype} (made : q ∈ p.made) (rest : ComesOf q r) : ComesOf p r

theorem mem_of_made {p q : Prototype} (h : q ∈ p.made) : q ∈ p.children := by
  obtain ⟨i, -, hi⟩ := mem_filterMap.mp h
  unfold made? at hi
  split at hi
  · exact mem_of_childAt? hi
  · cases hi

theorem stringsMetIn_eq (ps : List Prototype) : stringsMetIn ps = ps.map stringsMet := by
  induction ps with
  | nil => rw [stringsMetIn, map_nil]
  | cons p rest ih => rw [stringsMetIn, ih, map_cons]

/-- A function that no closure reaches has no part in it, one that several reach has several. -/
theorem stringsMet_eq (p : Prototype) :
    p.stringsMet = p.ownStrings ++ p.made.flatMap stringsMet := by
  have hpick : ∀ i : Instruction,
      (if i.opcode = .closure ∧ 0 ≤ i.b then (stringsMetIn p.children)[i.b.toNat]?.getD []
        else []) =
        (p.made? i).toList.flatMap stringsMet := by
    intro i
    rw [made?, childAt?, stringsMetIn_eq, getElem?_map]
    by_cases hop : i.opcode = .closure
    · by_cases hb : 0 ≤ i.b
      · rw [if_pos ⟨hop, hb⟩, if_pos hop, if_pos hb]
        cases p.children[i.b.toNat]? with
        | none => rfl
        | some q => exact (append_nil _).symm
      · rw [if_neg fun h => hb h.2, if_pos hop, if_neg hb]
        rfl
    · rw [if_neg fun h => hop h.1, if_neg hop]
      rfl
  have hflat : ∀ is : List Instruction, (is.flatMap fun i =>
        if i.opcode = .closure ∧ 0 ≤ i.b then (stringsMetIn p.children)[i.b.toNat]?.getD []
        else []) = (is.filterMap p.made?).flatMap stringsMet := by
    intro is
    induction is with
    | nil => rfl
    | cons i rest ih =>
      rw [flatMap_cons, ih, hpick, filterMap_cons]
      cases p.made? i with
      | none => rfl
      | some q => rw [Option.toList_some, flatMap_singleton, flatMap_cons]
  cases p
  rw [stringsMet, hflat]
  rfl

/-- What is met are the strings of the functions that come of it. -/
theorem mem_stringsMet {p : Prototype} {s : String} :
    s ∈ p.stringsMet ↔ ∃ q, p.ComesOf q ∧ s ∈ q.ownStrings := by
  constructor
  · intro h
    induction p using induct_children with
    | h p ih =>
      rw [stringsMet_eq, mem_append, mem_flatMap] at h
      rcases h with h | ⟨q, hq, h⟩
      · exact ⟨p, .self p, h⟩
      · obtain ⟨r, hr, hs⟩ := ih q (mem_of_made hq) h
        exact ⟨r, .inside hq hr, hs⟩
  · rintro ⟨q, hq, hs⟩
    induction hq with
    | self p =>
      rw [stringsMet_eq]
      exact mem_append_left _ hs
    | inside made _ ih =>
      rw [stringsMet_eq]
      exact mem_append_right _ (mem_flatMap.mpr ⟨_, made, ih hs⟩)

end Prototype

/-! ### The report -/

namespace Report

/-- Whether a string is worth reporting: it has a hint of its own, or is long. -/
def isNotable (least : Option Int) (s : String) : Bool :=
  (hint? s).isSome || least.any fun n => decide (n ≤ (s.length : Int))

/-- The reference to a string: its start, why it is reported, and its length. -/
def referenceTo (s : String) : StringReference :=
  ⟨preview previewLimit s, some ((hint? s).getD longHint), s.length⟩

theorem length_preview (s : String) : (preview previewLimit s).length ≤ 60 := by
  unfold preview
  split
  · next h => exact Int.ofNat_le.mp h
  · have hdots : "...".length = 3 := rfl
    have hlimit : (previewLimit - 3).toNat = 57 := rfl
    rw [String.length_append, hdots, hlimit, String.length_ofList, length_take]
    omega

namespace StringReport

/-- The strings that are reported when some were met. -/
def reported (least : Option Int) (met : List String) : List String :=
  (met.filter (isNotable least)).eraseDups

/-- A report accounts for the strings that were met. -/
structure AccountsFor (least : Option Int) (r : StringReport) (met : List String) : Prop where
  threshold : r.threshold = least
  seen : ∀ s, s ∈ r.seen ↔ s ∈ met.filter (isNotable least)
  references : r.references = (reported least met).map referenceTo

variable {least : Option Int} {r r' : StringReport} {met : List String} {s : String}

theorem filter_of_not_notable (h : isNotable least s = false) :
    (met ++ [s]).filter (isNotable least) = met.filter (isNotable least) := by
  rw [filter_append, filter_cons_of_neg (by rw [h]; exact Bool.false_ne_true),
    filter_nil, append_nil]

theorem reported_concat (met : List String) (h : isNotable least s = true) :
    reported least (met ++ [s]) = if s ∈ met.filter (isNotable least) then reported least met
      else reported least met ++ [s] := by
  unfold reported
  rw [filter_append, filter_cons_of_pos h, filter_nil, eraseDups_append,
    cons_removeAll, nil_removeAll]
  by_cases hmem : s ∈ met.filter (isNotable least)
  · rw [if_pos hmem, if_neg, eraseDups_nil, append_nil]
    rw [contains_iff_mem.mpr hmem]
    exact nofun
  · rw [if_neg hmem, if_pos]
    · rfl
    · exact Bool.eq_false_iff.mpr (mt contains_iff_mem.mp hmem)

/-- Why a string is reported. -/
theorem hintFor_ok {hint : Option String} (h : r.hintFor s = .ok hint) :
    hint = if isNotable r.threshold s then some ((hint? s).getD longHint) else none := by
  unfold hintFor at h
  unfold isNotable
  cases hown : hint? s with
  | some own =>
    rw [hown] at h
    exact (Except.ok.inj h).symm
  | none =>
    rw [hown] at h
    dsimp only at h
    unfold isLong at h
    cases hthreshold : r.threshold with
    | none =>
      rw [hthreshold] at h
      cases h
    | some least =>
      rw [hthreshold] at h
      exact (Except.ok.inj h).symm

/-- A string is accounted for when it is met. -/
theorem AccountsFor.observe (h : AccountsFor least r met) (hok : r.observe s = .ok r') :
    AccountsFor least r' (met ++ [s]) := by
  obtain ⟨hthreshold, hseen, hreferences⟩ := h
  unfold StringReport.observe reference at hok
  cases hhint : r.hintFor s with
  | error fault =>
    rw [hhint] at hok
    cases hok
  | ok hint =>
    rw [hhint] at hok
    obtain rfl : r.add s (r.newReference? s hint) = r' := Except.ok.inj hok
    have hwhy := hintFor_ok hhint
    rw [hthreshold] at hwhy
    cases hnotable : isNotable least s with
    | false =>
      rw [hnotable, if_neg Bool.false_ne_true] at hwhy
      subst hwhy
      refine ⟨hthreshold, ?_, ?_⟩
      · rw [filter_of_not_notable hnotable]
        exact hseen
      · rw [reported, filter_of_not_notable hnotable]
        exact hreferences
    | true =>
      rw [hnotable, if_pos rfl] at hwhy
      subst hwhy
      have hconcat := reported_concat met hnotable
      have hfilter : (met ++ [s]).filter (isNotable least) =
          met.filter (isNotable least) ++ [s] := by
        rw [filter_append, filter_cons_of_pos hnotable, filter_nil]
      by_cases hmem : s ∈ met.filter (isNotable least)
      · rw [newReference?, if_pos (contains_iff_mem.mpr ((hseen s).mpr hmem))]
        rw [if_pos hmem] at hconcat
        refine ⟨hthreshold, fun x => ?_, hreferences.trans (by rw [hconcat])⟩
        rw [hfilter, mem_append, mem_singleton]
        refine (hseen x).trans ⟨.inl, ?_⟩
        rintro (h | rfl)
        · exact h
        · exact hmem
      · rw [newReference?, if_neg (mt contains_iff_mem.mp (mt (hseen s).mp hmem))]
        rw [if_neg hmem] at hconcat
        refine ⟨hthreshold, fun x => ?_, ?_⟩
        · rw [hfilter, mem_append, mem_singleton, ← hseen, or_comm]
          exact mem_cons
        · rw [hconcat, map_append, ← hreferences]
          rfl

end StringReport

end Report

namespace Walking

open Report.StringReport (AccountsFor)

/-- The report was not added to. -/
def SameStrings (w w' : Walk) : Prop := w'.context.strings = w.context.strings

theorem sameStrings_contextual : Contextual fun c c' => c'.strings = c.strings where
  refl _ := rfl
  trans h₁ h₂ := h₂.trans h₁
  scene _ _ _ := rfl
  limits _ _ _ := rfl
  trace _ _ := rfl
  report _ _ := rfl

theorem sameStrings_fenced : Fenced SameStrings := sameStrings_contextual.fenced

/-- The strings among some constants are accounted for one after the other. -/
theorem observeStrings_accounts {least : Option Int} (constants : List Constant) :
    ∀ {w : Walk} {met : List String}, AccountsFor least w.context.strings met →
      Once (fun _ w' => AccountsFor least w'.context.strings
        (met ++ constants.filterMap Constant.string?))
        (observeStrings constants w) := by
  induction constants with
  | nil =>
    intro w met h
    rw [filterMap_nil, append_nil]
    exact h
  | cons c rest ih =>
    intro w met h
    cases c with
    | string s =>
      have hmet : met ++ (Constant.string s :: rest).filterMap Constant.string? =
          met ++ [s] ++ rest.filterMap Constant.string? := by
        rw [append_assoc]
        rfl
      rw [hmet]
      refine after_bind (after_queryStrings (fun strings hobserve => ?_) fun _ _ => trivial)
      exact after_bind (after_modify (ih (h.observe hobserve)))
    | _ => exact ih h

theorem opening_accounts {least : Option Int} {met : List String} (children : List Child) {w : Walk}
    (h : AccountsFor least w.context.strings met) :
    Once (fun _ w' => AccountsFor least w'.context.strings
      (met ++ w.frame.registers.constants.filterMap Constant.string?))
      (opening children w) :=
  after_state (after_bind (after_modify (observeStrings_accounts _ h)))

end Walking

namespace Job

open Walking
open Report.StringReport (AccountsFor)

variable {j : Job} {index taken : Nat} {i : Instruction} {w w' : Walk} {least : Option Int}
  {met : List String}

/-- A job that succeeds adds what is met in its function to the report. -/
def Accounts (least : Option Int) (j : Job) : Prop :=
  ∀ met r d, AccountsFor least j.context.strings met → j.result = .ok r d →
    AccountsFor least d.strings (met ++ j.source.stringsMet)

/-- A step adds what is met in the function that its instruction makes, if it makes one. -/
theorem Due.step_accounts (h : j.Due index i w)
    (hinside : ∀ q ∈ j.source.children, ∀ ready w', Accounts least (Job.inside q ready w'))
    (hmet : AccountsFor least w.context.strings met)
    (hstep : step j.children i index w = .ok taken w') :
    AccountsFor least w'.context.strings
      (met ++ (j.source.made? i).toList.flatMap Prototype.stringsMet) := by
  by_cases hop : i.opcode = .closure
  · have hmade : j.source.made? i = j.source.childAt? i.b := if_pos hop
    rw [hmade]
    cases hchild : j.source.childAt? i.b with
    | some q =>
      obtain ⟨ready, w₁, inner, c, -, hprepared, hinner, rfl⟩ := h.closure_ok hop hchild hstep
      have hsame := keeps_ok (sameStrings_contextual.prepare q.asChild i index) hprepared
      rw [← show w₁.context.strings = _ from hsame] at hmet
      rw [Option.toList_some, flatMap_singleton]
      exact hinside q (Prototype.mem_of_childAt? hchild) ready w₁ met inner c hmet hinner
    | none =>
      rw [Option.toList_none, flatMap_nil, append_nil,
        show w'.context.strings = _ from missing_step sameStrings_fenced.toTold hop hchild hstep]
      exact hmet
  · have hsame := fencedStep_keeps sameStrings_fenced (fun _ _ => rfl) (fun _ _ => rfl) j.children i
      index hop
    have hmade : j.source.made? i = none := if_neg hop
    rw [hmade, Option.toList_none, flatMap_nil, append_nil,
      show w'.context.strings = _ from keeps_ok hsame hstep]
    exact hmet

/-- When a walk gets to an index, the strings of the function itself and of the closures behind
the walk are accounted for. -/
theorem At.accounts (h : j.At index w)
    (hinside : ∀ q ∈ j.source.children, ∀ ready w', Accounts least (Job.inside q ready w'))
    (hmet : AccountsFor least j.context.strings met) :
    AccountsFor least w.context.strings (met ++ j.source.ownStrings ++
      ((j.source.instructions.take index).filterMap j.source.made?).flatMap
        Prototype.stringsMet) := by
  induction h with
  | @first limits w henter hopened =>
    have hconstants := (j.owns_entered limits).constants
    have hentered : AccountsFor least (j.entered limits).context.strings met := hmet
    have hopening := opening_accounts j.children hentered
    rw [hopened, hconstants] at hopening
    rw [take_zero, filterMap_nil, flatMap_nil, append_nil]
    exact hopening
  | @next index taken i w w' hreached hi hadvanced ih =>
    obtain ⟨w₁, w₂, mark, happroach, hstep, hconclude⟩ := ok_of_advance hadvanced
    have hdue : j.Due index i w₁ := ⟨hreached, hi, happroach⟩
    have hbefore :=
      keeps_ok (approach_keeps sameStrings_fenced (fun _ => trivial) index) happroach
    have hafter := keeps_ok (conclude_keeps sameStrings_fenced i index mark taken) hconclude
    rw [← show w₁.context.strings = _ from hbefore] at ih
    have hstepped := hdue.step_accounts hinside ih hstep
    rw [show w'.context.strings = _ from hafter, hdue.made_behind hstep, flatMap_append,
      ← append_assoc]
    exact hstepped

/-- **The report is that of the traversal**, whatever was in it before. -/
theorem accounts (least : Option Int) (j : Job) : Accounts least j := by
  refine induct_inside j fun j ih => ?_
  intro met r d hmet hok
  obtain ⟨w, v, hreached, hwound, -, rfl⟩ := end_of_ok hok
  have hend := keeps_ok (windUp_keeps sameStrings_fenced) hwound
  have haccounts := hreached.accounts (fun q hq ready w' => ih _ hq) hmet
  rw [take_length] at haccounts
  rw [show v.context.leave.strings = _ from hend, Prototype.stringsMet_eq, ← append_assoc]
  exact haccounts

end Job

/-- Nothing is left twice. -/
theorem nodup_eraseDups (xs : List String) : xs.eraseDups.Nodup := by
  induction hlength : xs.length using Nat.strongRecOn generalizing xs with
  | ind n ih =>
    cases xs with
    | nil => exact nodup_nil
    | cons x rest =>
      have hshorter : (rest.filter fun b => !b == x).length < n := by
        rw [← hlength, length_cons]
        exact Nat.lt_succ_of_le (length_filter_le _ _)
      rw [eraseDups_cons, nodup_cons]
      refine ⟨fun hmem => ?_, ih _ hshorter _ rfl⟩
      have hfilter := (mem_filter.mp (mem_eraseDups.mp hmem)).2
      rw [beq_self_eq_true] at hfilter
      cases hfilter

namespace Recovery

open Report.StringReport (AccountsFor reported)

theorem checkGrammar_strings (o : Options) (failure : Option Failure) (body : String)
    (c : Context) : (checkGrammar o failure body c).strings = c.strings := by
  unfold checkGrammar
  split <;> rfl

theorem strings_of_ok {p : Prototype} {o : Options} {proposal : Option (List (String × Payload))}
    {r : Recovery} (h : ofPrototype p o proposal = .ok r) (hfailure : r.failure = none) :
    r.strings = (reported o.longStringThreshold p.stringsMet).map Report.referenceTo := by
  rcases finished_of_ofPrototype h with
    ⟨-, rfl⟩ | ⟨-, width, routine, failure, c, body, -, hwalked, rfl⟩
  · cases hfailure
  · rcases result_of_walked hwalked with ⟨-, hresult⟩ | ⟨f, _, _, rfl, -⟩
    · have hstart : AccountsFor o.longStringThreshold (Job.root p o).context.strings [] :=
        ⟨rfl, fun _ => Iff.rfl, rfl⟩
      have haccounts := Job.accounts _ _ _ _ _ hstart hresult
      exact (congrArg (·.references) (checkGrammar_strings ..)).trans haccounts.references
    · cases hfailure

theorem mem_reported {p : Prototype} {least : Option Int} {s : String} :
    s ∈ reported least p.stringsMet ↔
      Report.isNotable least s = true ∧ ∃ q, p.ComesOf q ∧ .string s ∈ q.constants := by
  have hown : ∀ q : Prototype, s ∈ q.ownStrings ↔ .string s ∈ q.constants := by
    intro q
    rw [Prototype.ownStrings, mem_filterMap]
    constructor
    · rintro ⟨c, hc, hs⟩
      cases c with
      | string t =>
        cases hs
        exact hc
      | _ => cases hs
    · exact fun hc => ⟨_, hc, rfl⟩
  rw [reported, mem_eraseDups, mem_filter, Prototype.mem_stringsMet, and_comm]
  simp only [hown]

/-- **The strings reported are those of a plain traversal.**  A function that is recovered without
failure has one reference for each string that is met and is worth reporting, in the order in which
they are first met when the function is read before the functions that its closures make.  The
strings are different, they are those among the constants of the functions that come of it, and a
reference shows at most 60 characters. -/
theorem strings_of_traversal {p : Prototype} {o : Options}
    {proposal : Option (List (String × Payload))} {r : Recovery}
    (h : ofPrototype p o proposal = .ok r) (hfailure : r.failure = none) :
    r.strings = (reported o.longStringThreshold p.stringsMet).map Report.referenceTo ∧
      (reported o.longStringThreshold p.stringsMet).Nodup ∧
      (∀ s, s ∈ reported o.longStringThreshold p.stringsMet ↔
        Report.isNotable o.longStringThreshold s = true ∧
          ∃ q, p.ComesOf q ∧ .string s ∈ q.constants) ∧
      ∀ reference ∈ r.strings, reference.value.length ≤ 60 := by
  have hstrings := strings_of_ok h hfailure
  refine ⟨hstrings, nodup_eraseDups _, fun s => mem_reported, fun reference hreference => ?_⟩
  rw [hstrings] at hreference
  obtain ⟨s, -, rfl⟩ := mem_map.mp hreference
  exact Report.length_preview s

/-- A function with a child that nothing makes, and one that is made twice. -/
def stringBearer : Prototype where
  instructions := [{ opcode := .closure, b := 1 }, { opcode := .closure, b := 1 },
    { opcode := .closure, b := 2 }, { opcode := .closure, b := 9 }]
  constants := [.string "short", .string "http://a", .number 1.0]
  children :=
    [{ instructions := [{ opcode := .ret, b := 1 }], constants := [.string "http://never"] },
      { instructions := [{ opcode := .ret, b := 1 }],
        constants := [.string "rbxasset://b", .string "http://a"] },
      { instructions := [{ opcode := .ret, b := 1 }], constants := [.nil, .string "ten letters"] }]

/-- Its report has three entries: the child that nothing makes has no part in it. -/
theorem stringBearer_strings :
    ∃ r, ofPrototype stringBearer { longStringThreshold := some 10 } none = .ok r ∧
      r.failure = none ∧
      r.strings.map (·.value) = ["http://a", "rbxasset://b", "ten letters"] ∧
      r.strings = (reported (some 10) stringBearer.stringsMet).map Report.referenceTo := by
  obtain ⟨r, hr, hfailure, hvalues⟩ := ok_of_any
    (x := ofPrototype stringBearer { longStringThreshold := some 10 } none)
    (P := fun r => r.failure.isNone = true ∧
      r.strings.map (·.value) = ["http://a", "rbxasset://b", "ten letters"]) (by decide +kernel)
  have hnone := Option.isNone_iff_eq_none.mp hfailure
  exact ⟨r, hr, hnone, hvalues, (strings_of_traversal hr hnone).1⟩

end Recovery

end LuaRecovery

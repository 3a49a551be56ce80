/-
Where diagnostics point.

A diagnostic names the function in which it was found, by its path, and an index of its code.
Reports that are made while a function is walked do so truly, with one exception: a block that is
closed early is reported where that happens, and if a jump goes past the end of the code this may
be past the end too.  The diagnostic of a failure has the index at which the failure arose, but it
names the outermost function, whichever it arose in.
-/
import LuaRecovery.Proofs.Books
import LuaRecovery.Proofs.Recoveries

namespace LuaRecovery

open List

namespace Job

variable {j : Job} {ds new : List Diagnostic} {body : List Statement}

/-- A report points into the code of a function that was entered, or to where a jump of it
goes. -/
structure Finds (j k : Job) (d : Diagnostic) (index : Int) : Prop where
  runs : j.Runs k
  path : k.path = d.function
  place : 0 ≤ index ∧ index ≤ k.source.instructions.length ∨
    d.code = .unbalancedBlock ∧ k.source.JumpsTo index

theorem Ledger.finds (h : j.Ledger ds body) :
    ∀ d ∈ ds, ∃ index k, d.index = some index ∧ j.Finds k d index := by
  induction h with
  | nil => exact nofun
  | silent _ _ ih => exact ih
  | goto _ _ ih => exact ih
  | @anomaly j code message index _ _ hplace _ _ ih =>
    refine forall_mem_cons.mpr ⟨⟨index, j, rfl, .self, rfl, .inl ?_⟩, ih⟩
    omega
  | @block j _ _ index _ _ hplace _ _ ih =>
    refine forall_mem_cons.mpr ⟨⟨index, j, rfl, .self, rfl, ?_⟩, ih⟩
    exact hplace.imp_right fun hjumps => ⟨rfl, hjumps⟩
  | @guess j _ index _ _ _ hplace _ _ _ ih =>
    refine forall_mem_cons.mpr ⟨⟨index, j, rfl, .self, rfl, .inl ?_⟩, ih⟩
    omega
  | @held j _ index _ _ hheld _ ih =>
    obtain ⟨_, _, hi, -⟩ := hheld
    have hindex := (List.getElem?_eq_some_iff.mp hi).1
    refine forall_mem_cons.mpr ⟨⟨index, j, rfl, .self, rfl, .inl ?_⟩, ih⟩
    omega
  | inside hopens hrecovered _ _ ihinner ih =>
    refine forall_mem_append.mpr ⟨fun d hd => ?_, ih⟩
    obtain ⟨index, k, hindex, hfinds⟩ := ihinner d hd
    exact ⟨index, k, hindex, .inside hopens (entered_of_ok hrecovered) hfinds.runs, hfinds.path,
      hfinds.place⟩

theorem Broken.finds {failure : Failure} {r : Routine} (h : Broken failure j new r) :
    ∀ d ∈ new, ∃ index k, d.index = some index ∧ j.Finds k d index := by
  induction h with
  | here _ _ hledger hreports =>
    exact fun d hd => hledger.finds d (hreports.subset (mem_append_left _ hd))
  | inside hopens hfailed _ hledger hreports _ _ ih =>
    refine forall_mem_append.mpr ⟨fun d hd => ?_, fun d hd => ?_⟩
    · exact hledger.finds d (hreports.subset (mem_append_left _ hd))
    · obtain ⟨index, k, hindex, hfinds⟩ := ih d hd
      exact ⟨index, k, hindex, .inside hopens (entered_of_recovered hfailed) hfinds.runs,
        hfinds.path, hfinds.place⟩

/-- A function inside has a longer path. -/
theorem Runs.eq_or_longer {k : Job} (h : j.Runs k) : k = j ∨ j.path.length < k.path.length := by
  induction h with
  | self => exact .inl rfl
  | @inside j k index i q ready w hopens _ _ ih =>
    have hlonger : j.path.length < (Job.inside q ready w).path.length := by
      rw [hopens.path, String.length_append, String.length_append]
      exact Nat.lt_of_lt_of_le (Nat.lt_succ_self _) (Nat.le_add_right _ _)
    rcases ih with rfl | hlt
    · exact .inr hlonger
    · exact .inr (Nat.lt_trans hlonger hlt)

theorem Runs.eq_of_path {k : Job} (h : j.Runs k) (hpath : k.path = j.path) : k = j := by
  rcases h.eq_or_longer with heq | hlt
  · exact heq
  · rw [hpath] at hlt
    exact absurd hlt (Nat.lt_irrefl _)

end Job

namespace Recovery

variable {p : Prototype} {o : Options} {proposal : Option (List (String × Payload))}
  {full : Recovery} {d : Diagnostic} {index : Int}

/-- What is reported after the walk has no place. -/
theorem mem_finished {r : Routine} {failure : Option Failure} {body : String} {c : Context}
    (hd : d ∈ (finished o proposal r failure body c).diagnostics) (hindex : d.index = some index) :
    d ∈ c.diagnostics := by
  change d ∈ (checkGrammar o failure _ c).diagnostics at hd
  unfold checkGrammar at hd
  split at hd
  · rcases mem_append.mp hd with hc | hlast
    · exact hc
    · rw [mem_singleton.mp hlast] at hindex
      cases hindex
  · exact hd

/-- **Where diagnostics point.**  Let a recovery answer, and let one of its diagnostics have an
index.  Then it names a function that was entered, and the index lies in its code or at its end,
or it reports a block and a jump of the code goes there.  Or it is the diagnostic of the failure
that ended the run: then the index is that of an instruction of the function in which the failure
arose, whatever function the diagnostic names. -/
theorem diagnostics_point (h : ofPrototype p o proposal = .ok full) (hd : d ∈ full.diagnostics)
    (hindex : d.index = some index) :
    (∃ k, (Job.root p o).Finds k d index ∧ k.IsEntered) ∨
      ∃ failure k, full.failure = some failure ∧ d = failure.diagnostic rootName ∧
        (Job.root p o).Runs k ∧ k.Arises failure ∧
        0 ≤ index ∧ index < k.source.instructions.length := by
  rcases finished_of_ofPrototype h with ⟨-, rfl⟩ | ⟨-, _, r, failure, c, body, -, hwalked, rfl⟩
  · rw [mem_singleton.mp hd] at hindex
    cases hindex
  · have hc := mem_finished hd hindex
    have hsquares := (Job.root p o).squares
    rcases result_of_walked hwalked with ⟨rfl, hresult⟩ | ⟨f, recovered, c', rfl, hresult, -, rfl⟩
    · rw [hresult] at hsquares
      obtain ⟨new, ds, hnew, hledger, hperm⟩ := hsquares
      rw [hnew] at hc
      obtain ⟨_, k, heq, hfinds⟩ := hledger.finds d (hperm.subset hc)
      cases hindex.symm.trans heq
      exact .inl ⟨k, hfinds, hfinds.runs.entered (Job.entered_of_ok hresult)⟩
    · rw [hresult] at hsquares
      cases recovered with
      | none =>
        -- The outermost function could not be entered: no failure has a place then.
        obtain ⟨hnew, hnowhere⟩ := hsquares
        rcases mem_append.mp hc with hc' | hlast
        · rw [hnew] at hc'
          cases hc'
        · rw [mem_singleton.mp hlast] at hindex
          cases hnowhere.symm.trans hindex
      | some routine =>
        obtain ⟨new, hnew, hbroken⟩ := hsquares
        rcases mem_append.mp hc with hc' | hlast
        · rw [hnew] at hc'
          obtain ⟨_, k, heq, hfinds⟩ := hbroken.finds d hc'
          cases hindex.symm.trans heq
          exact .inl ⟨k, hfinds, hfinds.runs.entered (Job.entered_of_recovered hresult)⟩
        · obtain rfl := mem_singleton.mp hlast
          obtain ⟨k, hruns, harises, place, hplace, hlt⟩ := hbroken.arises hresult
          cases hindex.symm.trans hplace
          exact .inr ⟨f, k, rfl, rfl, hruns, harises, Int.natCast_nonneg place,
            Int.ofNat_lt.mpr hlt⟩

/-- A closure whose function ends with a compare. -/
def brokenClosure : Prototype where
  instructions := [{ opcode := .closure }]
  children := [{ instructions := [{ opcode := .nop }, { opcode := .nop }, { opcode := .nop },
    { opcode := .compareEq }] }]

/-- A branch that ends past the code, around a loop that is not closed. -/
def farBranch : Prototype where
  instructions := [{ opcode := .compareLt, c := 1 }, { opcode := .jump, b := 100 },
    { opcode := .compareLt, c := 1 }, { opcode := .jump, b := -1 }]

/-- A recovery answers with a diagnostic whose index is outside of every function that it could
name. -/
def Misplaces (p : Prototype) (o : Options) : Prop :=
  ∃ full d index, ofPrototype p o none = .ok full ∧ d ∈ full.diagnostics ∧
    d.index = some index ∧ ∀ k, (Job.root p o).Runs k → k.path = d.function →
      ¬ (0 ≤ index ∧ index ≤ k.source.instructions.length)

/-- A recovery answers, and reports something with this code, function and index. -/
def Reports (p : Prototype) (o : Options) (code : Code) (f : String) (index : Int) : Prop :=
  ∃ full d, ofPrototype p o none = .ok full ∧ d ∈ full.diagnostics ∧ d.code = code ∧
    d.function = f ∧ d.index = some index

theorem reports_of_eval {code : Code} {f : String}
    (h : (ofPrototype p o none).toOption.any (fun full => decide
      (full.diagnostics.map (fun d => (d.code, d.function, d.index)) =
        [(code, f, some index)])) = true) : Reports p o code f index := by
  obtain ⟨full, hfull, hview⟩ := ok_of_any h
  obtain ⟨d, hdiagnostics, heq⟩ := map_eq_singleton_iff.mp hview
  obtain ⟨hcode, heq⟩ := Prod.mk.inj heq
  obtain ⟨hfunction, hindex⟩ := Prod.mk.inj heq
  exact ⟨full, d, hfull, hdiagnostics ▸ mem_singleton_self d, hcode, hfunction, hindex⟩

theorem brokenClosure_reports : Reports brokenClosure {} .malformedControlFlow rootName 3 :=
  reports_of_eval (by decide +kernel)

theorem farBranch_reports : Reports farBranch {} .unbalancedBlock rootName 102 :=
  reports_of_eval (by decide +kernel)

/-- Only the outermost function has its path. -/
theorem Reports.misplaces {code : Code} (h : Reports p o code rootName index)
    (hindex : p.instructions.length < index) : Misplaces p o := by
  obtain ⟨full, d, hfull, hd, -, hfunction, hplace⟩ := h
  refine ⟨full, d, index, hfull, hd, hplace, fun k hruns hpath hin => ?_⟩
  obtain rfl := hruns.eq_of_path (hpath.trans hfunction)
  exact absurd hindex (Int.not_lt.mpr hin.2)

/-- The failure of a function inside is reported under the outermost function, which does not
have that many instructions, and a block can be reported past the end of the code. -/
theorem diagnostics_misplaced : Misplaces brokenClosure {} ∧ Misplaces farBranch {} :=
  ⟨brokenClosure_reports.misplaces (by decide), farBranch_reports.misplaces (by decide)⟩

/-- The failure inside `brokenClosure` has the index of an instruction of the function in which it
arose. -/
theorem brokenClosure_points : ∃ full failure k, ofPrototype brokenClosure {} none = .ok full ∧
      full.failure = some failure ∧ (Job.root brokenClosure {}).Runs k ∧ k.Arises failure ∧
      failure.index = some 3 ∧ 3 < k.source.instructions.length := by
  obtain ⟨full, d, hfull, hd, hcode, hfunction, hindex⟩ := brokenClosure_reports
  rcases diagnostics_point hfull hd hindex with
    ⟨k, hfinds, -⟩ | ⟨failure, k, hfailure, rfl, hruns, harises, -, hlt⟩
  · -- The outermost function is too short.
    obtain rfl := hfinds.runs.eq_of_path (hfinds.path.trans hfunction)
    rcases hfinds.place with ⟨-, hle⟩ | ⟨hblock, -⟩
    · exact absurd hle (by decide)
    · cases hcode.symm.trans hblock
  · exact ⟨full, failure, k, hfull, hfailure, hruns, harises, hindex, Int.ofNat_lt.mp hlt⟩

end Recovery

end LuaRecovery

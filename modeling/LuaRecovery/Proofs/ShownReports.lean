/-
Every report has something that shows it.

If a function is recovered whole then what was reported meanwhile can be seen in its body and in
the functions inside: an opcode or a constant that is not known by a remark with the message, a
block by a remark of the blocks, and a call whose number of arguments is not known by a comment on
a statement.  No two reports share what shows them, and it stands in the function that the report
names.

There is one exception.  A call with an open list of arguments, whose results are held open for
the next instruction, has no statement of its own, and neither has the report on it.
-/
import LuaRecovery.Proofs.Books
import LuaRecovery.Proofs.Recoveries

namespace LuaRecovery

open List

/-- A statement shows a report, by what it says. -/
def Diagnostic.ShownBy (d : Diagnostic) (s : Statement) : Prop :=
  match d.code with
  | .unknownOpcode | .constantIndexOutOfRange => s = .remark d.message
  | .unbalancedBlock => ∃ text, BlockNote d.message text ∧ s = .remark text
  | .ambiguousArgCount => s.comment? = some Walking.variableArgs
  | _ => False

/-- Reports, each with a place of its own in a body at which a statement shows it. -/
structure Shows (path : String) (body : List Statement)
    (shown : List (Diagnostic × List Nat)) : Prop where
  apart : (shown.map Prod.snd).Nodup
  visible : ∀ x ∈ shown, ∃ s, statementAt path body x.2 = some (x.1.function, s) ∧ x.1.ShownBy s

/-- A place, once a statement was put before the body. -/
def pushed : List Nat → List Nat
  | [] => []
  | n :: rest => (n + 1) :: rest

theorem pushed_inj {place place' : List Nat} (h : pushed place = pushed place') :
    place = place' := by
  cases place <;> cases place' <;> simp_all [pushed]

theorem pushed_ne (place rest : List Nat) : pushed place ≠ 0 :: rest := by
  cases place <;> simp [pushed]

theorem statementAt_pushed {path : String} {body : List Statement} (s : Statement)
    (place : List Nat) : statementAt path (s :: body) (pushed place) =
      statementAt path body place := by
  cases place with
  | nil => rfl
  | cons n rest => exact statementAt_succ

/-- A body of one statement without a function has that statement only. -/
theorem eq_of_statementAt_singleton {path f : String} {s t : Statement} (hs : s.inner? = none)
    {place : List Nat} (h : statementAt path [s] place = some (f, t)) : t = s := by
  match place with
  | [] => cases h
  | [0] =>
    cases h
    rfl
  | (_ + 1) :: rest => cases rest <;> cases h
  | 0 :: m :: rest =>
    change (s.inner?.bind _) = _ at h
    rw [hs] at h
    cases h

namespace Shows

variable {path : String} {body : List Statement} {s : Statement}
  {shown inner : List (Diagnostic × List Nat)}

theorem nil : Shows path [] [] := ⟨.nil, nofun⟩

/-- The reports that a body shows, once a statement was put before it. -/
theorem skip (h : Shows path body shown) (s : Statement) :
    Shows path (s :: body) (shown.map fun x => (x.1, pushed x.2)) where
  apart := by
    rw [map_map]
    have hapart := h.apart
    rw [nodup_iff_pairwise_ne, pairwise_map] at hapart ⊢
    exact hapart.imp fun hne heq => hne (pushed_inj heq)
  visible := by
    refine forall_mem_map.mpr fun x hx => ?_
    obtain ⟨t, ht, hshown⟩ := h.visible x hx
    exact ⟨t, (statementAt_pushed s x.2).trans ht, hshown⟩

/-- A statement at the head that shows a report. -/
theorem cons (h : Shows path body shown) {d : Diagnostic} (hpath : d.function = path)
    (hs : d.ShownBy s) :
    Shows path (s :: body) ((d, [0]) :: shown.map fun x => (x.1, pushed x.2)) where
  apart := by
    refine nodup_cons.mpr ⟨fun hmem => ?_, (h.skip s).apart⟩
    rw [map_map] at hmem
    obtain ⟨x, -, hx⟩ := mem_map.mp hmem
    exact pushed_ne x.2 [] hx
  visible := by
    refine forall_mem_cons.mpr ⟨⟨s, ?_, hs⟩, (h.skip s).visible⟩
    rw [hpath]
    rfl

/-- A statement at the head with a function, which has reports to show itself. -/
theorem inside (h : Shows path body shown) {name : String} {r : Routine}
    (hs : s.inner? = some (name, r)) (hinner : Shows (path ++ "/" ++ name) r.body inner) :
    Shows path (s :: body)
      ((inner.map fun x => (x.1, 0 :: x.2)) ++ shown.map fun x => (x.1, pushed x.2)) where
  apart := by
    rw [map_append]
    refine nodup_append.mpr ⟨?_, (h.skip s).apart, ?_⟩
    · have hapart := hinner.apart
      rw [map_map]
      rw [nodup_iff_pairwise_ne, pairwise_map] at hapart ⊢
      exact hapart.imp fun hne heq => hne (List.cons.inj heq).2
    · intro place hplace place' hplace' heq
      rw [map_map] at hplace hplace'
      obtain ⟨x, -, rfl⟩ := mem_map.mp hplace
      obtain ⟨y, -, rfl⟩ := mem_map.mp hplace'
      exact pushed_ne y.2 x.2 heq.symm
  visible := by
    refine forall_mem_append.mpr ⟨forall_mem_map.mpr fun x hx => ?_, (h.skip s).visible⟩
    obtain ⟨t, ht, hshown⟩ := hinner.visible x hx
    refine ⟨t, (statementAt_inner hs fun hnil => ?_).trans ht, hshown⟩
    rw [hnil] at ht
    cases ht

end Shows

namespace Job

open Walking

variable {j : Job} {ds : List Diagnostic} {body : List Statement}

/-- A report on a call whose results are held open, in a job or in a function inside. -/
structure Withholds (j : Job) (d : Diagnostic) : Prop where
  code : d.code = .ambiguousArgCount
  call : ∃ k index, j.Runs k ∧ k.path = d.function ∧ d.index = some (index : Nat) ∧
    k.source.HoldsOpen index

/-- Reports that a body shows, but for those that a job withholds. -/
def Displays (j : Job) (ds : List Diagnostic) (body : List Statement) : Prop :=
  ∃ shown held, ds.Perm (shown.map Prod.fst ++ held) ∧ Shows j.path body shown ∧
    ∀ d ∈ held, j.Withholds d

theorem map_fst_moved (shown : List (Diagnostic × List Nat)) (move : List Nat → List Nat) :
    (shown.map fun x => (x.1, move x.2)).map Prod.fst = shown.map Prod.fst := by
  rw [map_map]
  rfl

theorem Displays.skip (h : j.Displays ds body) (s : Statement) : j.Displays ds (s :: body) := by
  obtain ⟨shown, held, hperm, hshows, hheld⟩ := h
  exact ⟨_, held, by rwa [map_fst_moved], hshows.skip s, hheld⟩

theorem Displays.cons (h : j.Displays ds body) {d : Diagnostic} {s : Statement}
    (hpath : d.function = j.path) (hs : d.ShownBy s) : j.Displays (d :: ds) (s :: body) := by
  obtain ⟨shown, held, hperm, hshows, hheld⟩ := h
  refine ⟨_, held, ?_, hshows.cons hpath hs, hheld⟩
  rw [map_cons, map_fst_moved]
  exact hperm.cons d

theorem Displays.hold (h : j.Displays ds body) {d : Diagnostic} (hd : j.Withholds d) :
    j.Displays (d :: ds) body := by
  obtain ⟨shown, held, hperm, hshows, hheld⟩ := h
  exact ⟨shown, d :: held, (hperm.cons d).trans perm_middle.symm, hshows,
    forall_mem_cons.mpr ⟨hd, hheld⟩⟩

theorem Displays.inside {index : Nat} {i : Instruction} {q : Prototype} {ready : Prepared}
    {w : Walk} {r : Routine} {inner : List Diagnostic} {s : Statement} (h : j.Displays ds body)
    (hopens : j.Opens index i q ready w) (hentered : (Job.inside q ready w).IsEntered)
    (hinner : (Job.inside q ready w).Displays inner r.body)
    (hs : s.inner? = some (ready.name, r)) : j.Displays (inner ++ ds) (s :: body) := by
  obtain ⟨shown, held, hperm, hshows, hheld⟩ := h
  obtain ⟨shown', held', hperm', hshows', hheld'⟩ := hinner
  rw [hopens.path] at hshows'
  refine ⟨_, held' ++ held, ?_, hshows.inside hs hshows', ?_⟩
  · rw [map_append, map_fst_moved, map_fst_moved, append_assoc]
    calc
      List.Perm (inner ++ ds) ((shown'.map Prod.fst ++ held') ++ (shown.map Prod.fst ++ held)) :=
        hperm'.append hperm
      List.Perm _ (shown'.map Prod.fst ++ (shown.map Prod.fst ++ (held' ++ held))) := by
        rw [append_assoc]
        exact (perm_append_comm_assoc held' _ held).append_left _
  · refine forall_mem_append.mpr ⟨fun d hd => ?_, hheld⟩
    obtain ⟨hcode, k, n, hruns, hrest⟩ := hheld' d hd
    exact ⟨hcode, k, n, .inside hopens hentered hruns, hrest⟩

/-- The body shows what stands in its ledger. -/
theorem Ledger.displays (h : j.Ledger ds body) : j.Displays ds body := by
  induction h with
  | nil => exact ⟨[], [], .nil, .nil, nofun⟩
  | silent _ _ ih => exact ih.skip _
  | goto target _ ih => exact ih.skip _
  | anomaly _ hanomaly _ ih =>
    refine ih.cons rfl ?_
    cases hanomaly <;> rfl
  | block _ hnote _ ih =>
    refine ih.cons rfl ?_
    exact ⟨_, hnote, rfl⟩
  | guess _ _ hcomment _ ih =>
    refine ih.cons rfl ?_
    exact hcomment
  | held hopen _ ih => exact ih.hold ⟨rfl, _, _, .self, rfl, rfl, hopen⟩
  | inside hopens hrecovered _ _ ihinner ih =>
    exact ih.inside hopens (entered_of_ok hrecovered) ihinner rfl

/-- **Every report is shown.**  Let a function be recovered whole.  What was reported meanwhile,
on it and on the functions inside, falls into two parts.  Each report of the first has a place of
its own in the body: in the function that the report names there stands a statement that shows it.
The second are reports on calls whose results are held open. -/
theorem reports_shown {r : Routine} {c : Context} (h : j.result = .ok r c) :
    ∃ new shown held, c.diagnostics = j.context.diagnostics ++ new ∧
      new.Perm (shown.map Prod.fst ++ held) ∧ Shows j.path r.body shown ∧
      ∀ d ∈ held, j.Withholds d := by
  have hsquares := j.squares
  rw [h] at hsquares
  obtain ⟨new, ds, hnew, hledger, hperm⟩ := hsquares
  obtain ⟨shown, held, hds, hshows, hheld⟩ := hledger.displays
  exact ⟨new, shown, held, hnew, hperm.trans hds, hshows, hheld⟩

/-- Code with a report of every kind, also in a function inside. -/
def strangeCode : Prototype where
  instructions := [{ opcode := .unknown }, { opcode := .closure },
    { opcode := .loadConstant, a := 1, b := 7 }, { opcode := .call, a := 1, c := 1 },
    { opcode := .call, a := 1 }, { opcode := .ret, a := 1 }, { opcode := .compareLt, c := 1 },
    { opcode := .jump, b := -2 }]
  children := [{ instructions := [{ opcode := .unknown }, { opcode := .call, c := 2 }] }]

/-- A call with an open list of arguments whose results are returned. -/
def returnedCall : Prototype where
  instructions := [{ opcode := .call }, { opcode := .ret }]

/-- A whole recovery of the outermost function, from the evaluation of its walk. -/
theorem result_of_eval {p : Prototype} {o : Options} (P : Routine → Context → Prop)
    [∀ r c, Decidable (P r c)]
    (h : (Recovery.walked p (Recovery.startContext p o)).toOption.any
      (fun x => decide (x.2.1.isNone = true ∧ P x.1 x.2.2)) = true) :
    ∃ r c, (Job.root p o).result = .ok r c ∧ P r c := by
  obtain ⟨⟨r, failure, c⟩, hwalked, hnone, hholds⟩ := Recovery.ok_of_any h
  rcases Recovery.result_of_walked hwalked with ⟨-, hresult⟩ | ⟨f, _, _, rfl, -⟩
  · exact ⟨r, c, hresult, hholds⟩
  · cases hnone

/-- The seven reports on `strangeCode` are shown, or held open. -/
theorem strangeCode_reports_shown : ∃ r c shown held, (Job.root strangeCode {}).result = .ok r c ∧
      c.diagnostics.map (fun d => (d.code, d.function)) =
        [(.unknownOpcode, "main"), (.unknownOpcode, "main/func"),
          (.ambiguousArgCount, "main/func"), (.constantIndexOutOfRange, "main"),
          (.ambiguousArgCount, "main"), (.ambiguousArgCount, "main"),
          (.unbalancedBlock, "main")] ∧
      c.diagnostics.Perm (shown.map Prod.fst ++ held) ∧ Shows Recovery.rootName r.body shown ∧
      ∀ d ∈ held, (Job.root strangeCode {}).Withholds d := by
  obtain ⟨r, c, hresult, hcodes⟩ := result_of_eval (p := strangeCode) (o := {})
    (fun _ c => c.diagnostics.map (fun d => (d.code, d.function)) =
      [(.unknownOpcode, "main"), (.unknownOpcode, "main/func"),
        (.ambiguousArgCount, "main/func"), (.constantIndexOutOfRange, "main"),
        (.ambiguousArgCount, "main"), (.ambiguousArgCount, "main"),
        (.unbalancedBlock, "main")]) (by decide +kernel)
  obtain ⟨new, shown, held, hnew, hperm, hshows, hheld⟩ := reports_shown hresult
  obtain rfl : c.diagnostics = new := hnew
  exact ⟨r, c, shown, held, hresult, hcodes, hperm, hshows, hheld⟩

/-- The return of `returnedCall` has no comment, so the report on the call cannot be shown. -/
theorem returnedCall_not_shown : ∃ r c, (Job.root returnedCall {}).result = .ok r c ∧
      c.diagnostics.map Diagnostic.code = [.ambiguousArgCount] ∧
      ¬ ∃ shown, c.diagnostics.Perm (shown.map Prod.fst) ∧
        Shows Recovery.rootName r.body shown := by
  obtain ⟨r, c, hresult, hcodes, hbody⟩ := result_of_eval (p := returnedCall) (o := {})
    (fun r c => c.diagnostics.map Diagnostic.code = [.ambiguousArgCount] ∧
      r.body.map (fun s => (s.comment?, s.inner?.isNone)) = [(none, true)]) (by decide +kernel)
  refine ⟨r, c, hresult, hcodes, fun ⟨shown, hperm, hshows⟩ => ?_⟩
  obtain ⟨d, hd, hcode⟩ := map_eq_singleton_iff.mp hcodes
  obtain ⟨s, hs, hsilent⟩ := map_eq_singleton_iff.mp hbody
  obtain ⟨hcomment, hinner⟩ := Prod.mk.inj hsilent
  rw [hd] at hperm
  obtain ⟨x, hx, rfl⟩ := map_eq_singleton_iff.mp (singleton_perm.mp hperm).symm
  obtain ⟨t, ht, hshown⟩ := hshows.visible x (hx ▸ mem_singleton_self x)
  rw [hs] at ht
  obtain rfl := eq_of_statementAt_singleton (Option.isNone_iff_eq_none.mp hinner) ht
  unfold Diagnostic.ShownBy at hshown
  rw [hcode] at hshown
  cases hcomment.symm.trans hshown

end Job

end LuaRecovery

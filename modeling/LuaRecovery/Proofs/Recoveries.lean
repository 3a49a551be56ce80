/-
Whole recoveries.

After the walk of a function nothing fails, unless a line is indented further than the host can:
what the walk has recovered nests, so it is laid out as it is, and nothing is reported then but a
body that is not Lua.  And the walk itself answers if the options are given that it needs and the
host can go on, since no object is asked for that is not there.
-/
import LuaRecovery.Proofs.Jobs
import LuaRecovery.Proofs.Safety
import LuaRecovery.Proofs.WellNested

namespace LuaRecovery

/-- The options are given that have no reading if they are left open. -/
structure Options.Complete (o : Options) : Prop where
  threshold : o.longStringThreshold ≠ none
  width : o.indentWidth ≠ none

/-- The recovery of the outermost function. -/
def Job.root (p : Prototype) (o : Options) (host : Host := {}) : Job :=
  ⟨p, Recovery.rootName, Recovery.rootName, [], Recovery.startContext p o host⟩

namespace Recovery

theorem startContext_grounded (p : Prototype) (o : Options) (host : Host) :
    (startContext p o host).Grounded (p.bounds o host) :=
  { Context.start_grounded p o host with }

variable {o : Options} {failure : Option Failure} {p : Prototype} {r : Routine} {host : Host}

theorem nested_of_walked {c c' : Context} (h : walked p c = .ok (r, failure, c')) :
    Nested r.body := by
  have hnested := walked_nested p c
  rwa [h] at hnested

theorem ok_of_bind_ok {α β : Type} {x : Except Fault α} {f : α → Except Fault β} {b : β}
    (h : (x >>= f) = .ok b) : ∃ a, x = .ok a ∧ f a = .ok b := by
  cases x with
  | error fault => cases h
  | ok a => exact ⟨a, rfl, h⟩

/-- An answer with `P`, from an evaluation. -/
theorem ok_of_any {α : Type} {x : Except Fault α} {P : α → Prop} [DecidablePred P]
    (h : x.toOption.any (fun a => decide (P a)) = true) : ∃ a, x = .ok a ∧ P a := by
  cases x with
  | error fault => cases h
  | ok a => exact ⟨a, rfl, of_decide_eq_true h⟩

/-- What a recovery gives once the body is laid out. -/
def finished (o : Options) (proposal : Option (List (String × Payload))) (routine : Routine)
    (failure : Option Failure) (body : String) (c : Context) (host : Host := {}) : Recovery :=
  let renames := (proposal.map Lua.accepted).getD []
  let renamed := Lua.rename body renames
  let c := checkGrammar o failure renamed c host
  let c := c.log (endRecord c failure)
  { text := assemble o failure renamed c.scene.calls c.strings.references
    routine := some routine
    calls := c.scene.calls
    strings := c.strings.references
    diagnostics := c.diagnostics
    failure
    renames
    identifiers := proposal.map fun _ => Lua.occurrences body
    trace := c.trace }

/-- After the walk nothing fails, if the width of a level is given and the lines can be
indented. -/
theorem ofPrototype_finished (proposal : Option (List (String × Payload))) {c : Context}
    {width : Nat} (hcode : p.instructions.isEmpty = false)
    (hwalked : walked p (startContext p o host) = .ok (r, failure, c))
    (hwidth : o.levelWidth = .ok width) (hindent : checkIndent host width r = .ok ()) :
    ∃ body, ({ width } : Layout).bodyText r = .ok body ∧
      ofPrototype p o proposal host = .ok (finished o proposal r failure body c host) := by
  obtain ⟨body, hbody, hlay⟩ := layOut_nested (nested_of_walked hwalked) width c
  refine ⟨body, hbody, ?_⟩
  unfold ofPrototype
  rw [hcode, if_neg Bool.false_ne_true, hwalked, hwidth]
  show (checkIndent host width r >>= fun _ => layOut width r c >>= _) = _
  rw [hindent, hlay]
  rfl

/-- A recovery that answers has rejected a function without code, or has walked it. -/
theorem finished_of_ofPrototype {proposal : Option (List (String × Payload))} {full : Recovery}
    (h : ofPrototype p o proposal host = .ok full) :
    p.instructions.isEmpty = true ∧ full = rejected o .noInstructions ∨
      p.instructions.isEmpty = false ∧ ∃ width r failure c body, o.levelWidth = .ok width ∧
        walked p (startContext p o host) = .ok (r, failure, c) ∧
        full = finished o proposal r failure body c host := by
  cases hcode : p.instructions.isEmpty with
  | true =>
    rw [ofPrototype, if_pos hcode] at h
    exact .inl ⟨rfl, (Except.ok.inj h).symm⟩
  | false =>
    have hsteps := h
    rw [ofPrototype, hcode, if_neg Bool.false_ne_true] at hsteps
    obtain ⟨⟨r, failure, c⟩, hwalked, hrest⟩ := ok_of_bind_ok hsteps
    obtain ⟨width, hlevel, hrest⟩ := ok_of_bind_ok hrest
    obtain ⟨⟨⟩, hindent, -⟩ := ok_of_bind_ok hrest
    have hwidth : o.levelWidth = .ok width := by
      cases hlevelWidth : o.levelWidth with
      | error fault =>
        rw [hlevelWidth] at hlevel
        cases hlevel
      | ok found =>
        rw [hlevelWidth] at hlevel
        exact congrArg Except.ok (Except.ok.inj hlevel)
    obtain ⟨body, -, hrun⟩ := ofPrototype_finished proposal hcode hwalked hwidth hindent
    exact .inr ⟨rfl, width, r, failure, c, body, hwidth, hwalked, Except.ok.inj (h.symm.trans hrun)⟩

/-! ### Recoveries answer -/

/-- What a walk leaves comes from what the job of the outermost function ends in. -/
theorem result_of_walked {c : Context}
    (h : walked p (startContext p o host) = .ok (r, failure, c)) :
    failure = none ∧ (Job.root p o host).result = .ok r c ∨ ∃ f recovered d, failure = some f ∧
        (Job.root p o host).result = .error (.failed f recovered) d ∧
        r = recovered.getD { name := rootName } ∧ c = d.report (f.diagnostic rootName) := by
  unfold walked EStateM.run at h
  cases hresult : (Job.root p o host).result with
  | ok r' c' =>
    change p.build rootName rootName [] (startContext p o host) = _ at hresult
    rw [hresult] at h
    cases h
    exact .inl ⟨rfl, rfl⟩
  | error stop d =>
    change p.build rootName rootName [] (startContext p o host) = _ at hresult
    rw [hresult] at h
    cases stop with
    | failed f recovered =>
      cases h
      exact .inr ⟨f, recovered, d, rfl, rfl, rfl, rfl⟩
    | scene | option | host => cases h

theorem walked_of_complete (p : Prototype) (ho : o.Complete) (host : Host) :
    (∃ r failure c, walked p (startContext p o host) = .ok (r, failure, c)) ∨
      ∃ fault, walked p (startContext p o host) = .error (.host fault) ∧ host.Refuses fault ∧
        fault.Within (max p.reach (o.budget.getD 0).natAbs) p.height := by
  unfold walked EStateM.run
  rcases p.build_ends rootName rootName (startContext_grounded p o host) rfl with
    ⟨r, c, h⟩ | ⟨failure, recovered, c, h⟩ | ⟨hopen, -⟩ | ⟨fault, c, h, hrefuses⟩
  · exact .inl ⟨r, none, c, by rw [h]⟩
  · exact .inl ⟨_, some failure, _, by rw [h]⟩
  · exact absurd hopen ho.threshold
  · exact .inr ⟨fault, by rw [h], hrefuses⟩

theorem levelWidth_of_complete (ho : o.Complete) : ∃ width, o.levelWidth = .ok width := by
  obtain ⟨width, hwidth⟩ := Option.ne_none_iff_exists'.mp ho.width
  exact ⟨width.toNat, by rw [Options.levelWidth, hwidth]⟩

end Recovery

end LuaRecovery

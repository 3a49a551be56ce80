/-
Runs under limits.

Two consequences of the walk beside the one without limits.  If a run is stopped, what it
hands back is the full result, cut short where it was stopped.  And limits on the
instructions and on the depth are exact: a run gets through if and only if they allow for
what the run without limits uses, and its result is then the same in everything but the
trace, which shows the limits.
-/
import LuaRecovery.Proofs.Metered
import LuaRecovery.Proofs.SceneIndependence

namespace LuaRecovery

/-- The options with other limits. -/
def Options.under (o : Options) (maxDepth budget : Option Int) (cancel : Nat → Bool) : Options :=
  { o with maxDepth, budget, cancel }

/-- Nothing was used yet. -/
theorem Limits.ofOptions_obeyed (o : Options) : (Limits.ofOptions o).Obeyed :=
  ⟨fun _ _ hpos => hpos, fun _ _ hpos => hpos⟩

/-- Runs that differ in their limits only start side by side. -/
theorem Context.start_meters {o : Options} (hfree : (Limits.ofOptions o).Free)
    (maxDepth budget : Option Int) (cancel : Nat → Bool) :
    (Context.start (o.under maxDepth budget cancel)).Meters
      (Limits.ofOptions (o.under maxDepth budget cancel)) (Context.start o) :=
  ⟨⟨rfl, rfl, rfl, rfl⟩, Limits.ofOptions_obeyed _, hfree, ⟨rfl, rfl, rfl⟩, rfl, rfl, rfl, rfl⟩

theorem Context.Meters.log {l : Limits} {c d : Context} (h : c.Meters l d)
    (record record' : String) : (c.log record).Meters l (d.log record') :=
  { h with }

/-! ### Stopped runs -/

/-- **What a stopped run hands back is the full result, cut short.**  Let the run on a function
without limits recover `full`.  Under any limits on depth and instructions, and whenever the
caller stops it, the run recovers `full` too, or it is stopped by a failure and what it
hands back truncates `full`, or the function could not even be entered. -/
theorem stopped_run_truncates (p : Prototype) (name path : String) (upvalues : List Upvalue)
    (o : Options) (maxDepth budget : Option Int) (cancel : Nat → Bool)
    (hfree : (Limits.ofOptions o).Free) {full : Routine} {d : Context}
    (hfull : p.build name path upvalues (Context.start o) = .ok full d) :
    let start := Context.start (o.under maxDepth budget cancel)
    (∃ c, p.build name path upvalues start = .ok full c) ∨
      (∃ failure r c, p.build name path upvalues start = .error (.failed failure (some r)) c ∧
        Truncates failure.cause r full) ∨
      ∃ failure c, p.build name path upvalues start = .error (.failed failure none) c ∧
        start.limits.enter = .error failure := by
  intro start
  have hresult := (p.build_fair name path upvalues _ start _
    (Context.start_meters hfree maxDepth budget cancel) full d hfull).2
  cases hrun : p.build name path upvalues start with
  | ok r c =>
    rw [hrun] at hresult
    exact .inl ⟨c, by rw [hresult.1]⟩
  | error stop c =>
    rw [hrun] at hresult
    match stop, hresult with
    | .failed failure (some r), h => exact .inr (.inl ⟨failure, r, c, rfl, h.2⟩)
    | .failed failure none, _ =>
      exact .inr (.inr ⟨failure, c, rfl, enter_of_nothing_recovered hrun⟩)
    | .scene _, h => exact h.elim
    | .option _, h => exact h.elim
    | .host fault, h => exact absurd h (Host.boundless_default _ fault)

/-- A function that makes a table, and a function inside that makes two. -/
def tableMaker : Prototype where
  instructions := [{ opcode := .newTable, a := 0 }, { opcode := .closure, a := 1, b := 0 },
    { opcode := .ret, a := 1, b := 2 }]
  children := [{ instructions := [{ opcode := .newTable, a := 0 }, { opcode := .newTable, a := 1 },
    { opcode := .ret, a := 0, b := 3 }] }]

/-- Whether what a builder hands back is the whole routine, if it hands one back. -/
def isWhole? : EStateM.Result Stop Context Routine → Option Bool
  | .ok _ _ => some true
  | .error stop _ => stop.recovered?.map fun _ => false

/-- The options of a run without limits. -/
def unlimited : Options := { maxDepth := none }

theorem unlimited_free : (Limits.ofOptions unlimited).Free :=
  ⟨⟨rfl, fun _ => rfl, Host.boundless_default _⟩, nofun⟩

/-- Stopped by a budget of three instructions, the run has made the table outside and the first
one inside. -/
theorem tableMaker_truncates : ∃ full d failure r c, (Limits.ofOptions unlimited).Free ∧
      tableMaker.build "main" "main" [] (Context.start unlimited) = .ok full d ∧
      tableMaker.build "main" "main" []
          (Context.start (unlimited.under none (some 3) unlimited.cancel))
        = .error (.failed failure (some r)) c ∧
      Truncates failure.cause r full := by
  cases hfull : tableMaker.build "main" "main" [] (Context.start unlimited) with
  | error stop d =>
    have hwhole : isWhole? (tableMaker.build "main" "main" [] (Context.start unlimited))
        = some true := by decide +kernel
    rw [hfull] at hwhole
    cases hrecovered : stop.recovered? <;> rw [isWhole?, hrecovered] at hwhole <;> cases hwhole
  | ok full d =>
    have hpart : isWhole? (tableMaker.build "main" "main" []
        (Context.start (unlimited.under none (some 3) unlimited.cancel))) = some false := by
      decide +kernel
    rcases stopped_run_truncates tableMaker "main" "main" [] unlimited none (some 3)
      unlimited.cancel unlimited_free hfull with
      ⟨c, h⟩ | ⟨failure, r, c, h, hcut⟩ | ⟨failure, c, h, -⟩
    · rw [h] at hpart
      cases hpart
    · exact ⟨full, d, failure, r, c, unlimited_free, rfl, h, hcut⟩
    · rw [h] at hpart
      cases hpart

namespace Recovery

/-! ### Exact limits -/

variable {o : Options}

/-- A walk under limits gets through like the one without, or breaks one of them. -/
theorem walked_limited {p : Prototype} (hfree : (Limits.ofOptions o).Free)
    (maxDepth budget : Option Int) (cancel : Nat → Bool) {full : Routine} {d : Context}
    (hfull : walked p (startContext p o) = .ok (full, none, d)) :
    (∃ c, walked p (startContext p (o.under maxDepth budget cancel)) = .ok (full, none, c) ∧
        c.Meters (Limits.ofOptions (o.under maxDepth budget cancel)) d) ∨
      ∃ r failure c,
        walked p (startContext p (o.under maxDepth budget cancel)) = .ok (r, some failure, c) ∧
        (Limits.ofOptions (o.under maxDepth budget cancel)).Breaks failure.cause c.limits
          d.limits := by
  have hfull' : p.build rootName rootName [] (startContext p o) = .ok full d := by
    unfold walked EStateM.run at hfull
    generalize p.build rootName rootName [] (startContext p o) = result at hfull ⊢
    rcases result with ⟨_, _⟩ | ⟨_ | _ | _ | _, _⟩ <;> cases hfull
    rfl
  have hmeters := (Context.start_meters hfree maxDepth budget cancel).log
    (startRecord p (o.under maxDepth budget cancel)) (startRecord p o)
  have hresult := (p.build_fair rootName rootName [] _ _ _ hmeters full d hfull').2
  unfold walked startContext EStateM.run
  generalize p.build rootName rootName [] _ = result at hresult ⊢
  match result, hresult with
  | .ok r c, h => exact .inl ⟨c, by rw [h.1], h.2⟩
  | .error (.failed failure none) c, h => exact .inr ⟨_, failure, _, rfl, h⟩
  | .error (.failed failure (some r)) c, h => exact .inr ⟨_, failure, _, rfl, h.1⟩
  | .error (.scene _) _, h => exact h.elim
  | .error (.option _) _, h => exact h.elim
  | .error (.host fault) _, h => exact absurd h (Host.boundless_default _ fault)

/-- A recovery that ends without a failure comes from a walk that does. -/
theorem walked_of_ofPrototype {p : Prototype} {proposal : Option (List (String × Payload))}
    {full : Recovery} (h : ofPrototype p o proposal = .ok full) (hok : full.failure = none) :
    p.instructions.isEmpty = false ∧ (∃ width, o.levelWidth = .ok width) ∧
      ∃ r c, walked p (startContext p o) = .ok (r, none, c) := by
  rcases finished_of_ofPrototype h with ⟨-, rfl⟩ | ⟨hcode, width, r, failure, c, body, hwidth,
    hwalked, rfl⟩
  · cases hok
  · obtain rfl : failure = none := hok
    exact ⟨hcode, ⟨width, hwidth⟩, r, c, hwalked⟩

/-- What comes after the walk shows the limits in the trace only. -/
theorem finished_meters {maxDepth budget : Option Int} {cancel : Nat → Bool} {l : Limits}
    {c d : Context} (h : c.Meters l d) (proposal : Option (List (String × Payload))) (r : Routine)
    (body : String) :
    { finished (o.under maxDepth budget cancel) proposal r none body c with
      trace := (finished o proposal r none body d).trace } = finished o proposal r none body d := by
  have hchecked : ∀ text, (checkGrammar (o.under maxDepth budget cancel) none text c).Meters l
      (checkGrammar o none text d) := by
    intro text
    have hsame : (o.under maxDepth budget cancel).validateSyntax = o.validateSyntax := rfl
    rw [checkGrammar, checkGrammar, hsame]
    split
    · exact { h with diagnostics := congrArg (· ++ _) h.diagnostics }
    · exact h
  have hlast := hchecked (Lua.rename body ((proposal.map Lua.accepted).getD []))
  unfold finished
  dsimp only [Context.log]
  rw [hlast.scene, hlast.strings, hlast.diagnostics]
  rfl

end Recovery

/-- The options with a limit on the instructions and one on the depth. -/
def Options.limited (o : Options) (n m : Nat) : Options :=
  o.under (some (m : Int)) (some (n : Int)) o.cancel

/-- A walk that gets through has kept within its limits. -/
theorem Context.Meters.within {o : Options} {n m : Nat} {c d : Context}
    (h : c.Meters (Limits.ofOptions (o.limited n m)) d) :
    d.limits.instructions ≤ n ∧ d.limits.maxDepthSeen ≤ m := by
  have hn := h.obeyed.budget n h.bounds.budget (Int.natCast_nonneg n)
  have hm := h.obeyed.depth m h.bounds.maxDepth (Int.natCast_nonneg m)
  rw [h.use.instructions] at hn
  rw [h.use.maxDepthSeen] at hm
  exact ⟨Int.ofNat_le.mp hn, Int.ofNat_le.mp hm⟩

/-- A walk that is stopped has broken one of its limits, which the walk without them breaks
as well. -/
theorem Limits.Breaks.exceeds {o : Options} (hfree : (Limits.ofOptions o).Free) {n m : Nat}
    {cause : Cause} {used full : Limits}
    (h : (Limits.ofOptions (o.limited n m)).Breaks cause used full) :
    (cause.code = .budgetExceeded ∧ used.instructions = n + 1 ∧ n < full.instructions) ∨
      (cause.code = .depthExceeded ∧ m < full.maxDepthSeen) := by
  cases cause with
  | overBudget limit =>
    obtain ⟨hlimit, hused, hfull⟩ := h
    obtain rfl : (n : Int) = limit := Option.some.inj hlimit
    have hnext := hused (Int.natCast_nonneg n)
    exact .inl ⟨rfl, by omega, by omega⟩
  | tooDeep limit =>
    obtain ⟨hlimit, -, hfull⟩ := h
    obtain rfl : (m : Int) = limit := Option.some.inj hlimit
    exact .inr ⟨rfl, by omega⟩
  | cancelled =>
    obtain ⟨k, hk⟩ := h
    have hnever : o.cancel k = false := hfree.cancel k
    exact absurd (hk.symm.trans hnever) Bool.false_ne_true.symm
  | trailingCompare | unpairedCompare | rejected => exact h.elim

namespace Recovery

/-- **Limits are exact and change nothing else.**  Let the run on a function without limits
succeed.  It uses a number of instructions and reaches a depth, and under a limit on each the
run succeeds if and only if both are within their limit.  Its result is then the same in
everything but the trace.  If not, it fails for exceeding the budget, at the first instruction
past it, or for nesting too deep. -/
theorem limits_exact (p : Prototype) (o : Options) (proposal : Option (List (String × Payload)))
    (hfree : (Limits.ofOptions o).Free) {full : Recovery}
    (hfull : ofPrototype p o proposal = .ok full) (hok : full.failure = none) :
    ∃ routine d, walked p (startContext p o) = .ok (routine, none, d) ∧ ∀ n m : Nat,
      ∃ r rest c, ofPrototype p (o.limited n m) proposal = .ok r ∧
        walked p (startContext p (o.limited n m)) = .ok (rest, r.failure, c) ∧
        (r.failure = none ↔ d.limits.instructions ≤ n ∧ d.limits.maxDepthSeen ≤ m) ∧
        (r.failure = none → { r with trace := full.trace } = full) ∧
        ∀ failure, r.failure = some failure →
          (failure.code = .budgetExceeded ∧ c.limits.instructions = n + 1) ∨
            failure.code = .depthExceeded := by
  obtain ⟨hcode, ⟨width, hwidth⟩, routine, d, hwalked⟩ := walked_of_ofPrototype hfull hok
  refine ⟨routine, d, hwalked, fun n m => ?_⟩
  have hindent (r : Routine) := checkIndent_run (Host.boundless_default Lua.isChunk) width r
  obtain ⟨body, hbody, hrun⟩ := ofPrototype_finished proposal hcode hwalked hwidth (hindent _)
  obtain rfl := Except.ok.inj (hfull.symm.trans hrun)
  have hwidth' : (o.limited n m).levelWidth = .ok width := hwidth
  rcases walked_limited hfree (some (m : Int)) (some (n : Int)) o.cancel hwalked with
    ⟨c, hlimited, hmeters⟩ | ⟨rest, failure, c, hlimited, hbroken⟩
  · obtain ⟨body', hbody', hrun'⟩ := ofPrototype_finished proposal hcode hlimited hwidth'
      (hindent _)
    obtain rfl := Except.ok.inj (hbody.symm.trans hbody')
    refine ⟨_, _, c, hrun', hlimited, ⟨fun _ => hmeters.within, fun _ => rfl⟩, fun _ => ?_, nofun⟩
    exact finished_meters hmeters proposal routine body
  · obtain ⟨body', -, hrun'⟩ := ofPrototype_finished proposal hcode hlimited hwidth' (hindent _)
    have hexceeds := hbroken.exceeds hfree
    refine ⟨_, _, c, hrun', hlimited, ⟨nofun, fun hwithin => ?_⟩, nofun, ?_⟩
    · rcases hexceeds with ⟨-, -, hn⟩ | ⟨-, hm⟩
      · exact absurd hwithin.1 (Nat.not_le.mpr hn)
      · exact absurd hwithin.2 (Nat.not_le.mpr hm)
    · intro _ hfailure
      obtain rfl := Option.some.inj hfailure
      exact hexceeds.imp (fun h => ⟨h.1, h.2.1⟩) And.left

/-- The table maker takes six instructions and goes two functions deep.  So a budget of six and
a depth of two suffice, and no less of either. -/
theorem tableMaker_limits_exact :
    ∃ full, ofPrototype tableMaker unlimited none = .ok full ∧ full.failure = none ∧
      (∃ r, ofPrototype tableMaker (unlimited.limited 6 2) none = .ok r ∧
        { r with trace := full.trace } = full) ∧
      (∃ r, ofPrototype tableMaker (unlimited.limited 5 2) none = .ok r ∧ r.failure ≠ none) ∧
      ∃ r, ofPrototype tableMaker (unlimited.limited 6 1) none = .ok r ∧ r.failure ≠ none := by
  have hsucceeds : (ofPrototype tableMaker unlimited none).toOption.map (·.failure.isNone)
      = some true := by decide +kernel
  have huse : (walked tableMaker (startContext tableMaker unlimited)).toOption.map
      (fun x => (x.2.2.limits.instructions, x.2.2.limits.maxDepthSeen)) = some (6, 2) := by
    decide +kernel
  cases hfull : ofPrototype tableMaker unlimited none with
  | error fault =>
    rw [hfull] at hsucceeds
    cases hsucceeds
  | ok full =>
    rw [hfull] at hsucceeds
    have hok : full.failure = none := Option.isNone_iff_eq_none.mp (Option.some.inj hsucceeds)
    obtain ⟨routine, d, hwalked, hexact⟩ := limits_exact tableMaker unlimited none
      unlimited_free hfull hok
    rw [hwalked] at huse
    have hused : d.limits.instructions = 6 := congrArg Prod.fst (Option.some.inj huse)
    have hseen : d.limits.maxDepthSeen = 2 := congrArg Prod.snd (Option.some.inj huse)
    obtain ⟨r, _, _, hr, -, hiff, hsame, -⟩ := hexact 6 2
    obtain ⟨r₁, _, _, hr₁, -, hiff₁, -⟩ := hexact 5 2
    obtain ⟨r₂, _, _, hr₂, -, hiff₂, -⟩ := hexact 6 1
    refine ⟨full, rfl, hok, ⟨r, hr, hsame (hiff.mpr ⟨Nat.le_of_eq hused, Nat.le_of_eq hseen⟩)⟩,
      ⟨r₁, hr₁, fun h => ?_⟩, r₂, hr₂, fun h => ?_⟩
    · have hwithin := hiff₁.mp h
      omega
    · have hwithin := hiff₂.mp h
      omega

end Recovery

end LuaRecovery

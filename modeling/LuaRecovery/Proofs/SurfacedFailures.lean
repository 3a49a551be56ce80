/-
Failures come to the surface, once.

A failure ends the walk of the function in which it arose and of all functions around it.  The
first leaves a remark on it in what it has recovered; the others keep what was recovered of the
function inside, and only close their blocks.  So one remark on the failure stands in the whole
body, and the way to it leads through the last functions of each body.

No other remark can be taken for it: a failure is named by its code, in capitals, and all other
remarks begin with a small letter.
-/
import LuaRecovery.Proofs.Books
import LuaRecovery.Proofs.Recoveries

namespace LuaRecovery

/-! ### What remarks begin with -/

/-- A text begins with a small letter. -/
def StartsSmall (text : String) : Prop := ∃ c rest, text.toList = c :: rest ∧ 'a'.toNat ≤ c.toNat

theorem StartsSmall.append {text : String} (h : StartsSmall text) (more : String) :
    StartsSmall (text ++ more) := by
  obtain ⟨c, rest, htext, hc⟩ := h
  exact ⟨c, rest ++ more.toList, by rw [String.toList_append, htext]; rfl, hc⟩

theorem Code.word_starts (code : Code) : ∃ c rest, code.word.toList = c :: rest ∧
    c.toNat < 'a'.toNat := by
  cases code <;> exact ⟨_, _, rfl, by decide⟩

/-- A remark by which a failure is shown, whichever. -/
def Statement.IsAlarm (s : Statement) : Prop :=
  ∃ (code : Code) (message : String), s = .remark (code.word ++ ": " ++ message)

theorem Failure.remark_isAlarm (f : Failure) : f.remark.IsAlarm := ⟨f.code, f.message, rfl⟩

theorem Statement.remark_not_isAlarm {text : String} (h : StartsSmall text) :
    ¬ (Statement.remark text).IsAlarm := by
  rintro ⟨code, message, heq⟩
  obtain ⟨c, rest, htext, hc⟩ := h
  obtain ⟨c', rest', hword, hc'⟩ := code.word_starts
  have hlists := congrArg String.toList (Statement.verbatim.inj heq)
  simp only [String.toList_append, htext, hword, List.append_assoc, List.cons_append] at hlists
  have hsame := List.append_cancel_left hlists
  rw [(List.cons.inj hsame).1] at hc
  exact absurd hc' (Nat.not_lt.mpr hc)

theorem Statement.IsSilent.not_isAlarm {s : Statement} (h : s.IsSilent) : ¬ s.IsAlarm := by
  rintro ⟨code, message, rfl⟩
  exact h

theorem Blocks.describe_startsSmall (block : Block) : StartsSmall (describe block) := by
  have hkind : StartsSmall block.kind.word := by
    cases block.kind <;> exact ⟨_, _, rfl, by decide⟩
  exact (hkind.append _).append _

theorem Blocks.goto_startsSmall (target : Int) : StartsSmall s!"goto {target}" := by
  have hgoto : StartsSmall "goto " := ⟨_, _, rfl, by decide⟩
  exact hgoto.append _

theorem BlockNote.startsSmall {message text : String} (h : BlockNote message text) :
    StartsSmall text := by
  cases h with
  | early block => exact (Blocks.describe_startsSmall block).append _
  | leftOpen block =>
    have hword : StartsSmall "unterminated " := ⟨_, _, rfl, by decide⟩
    exact hword.append _
  | backEdge index target => exact Blocks.goto_startsSmall target

theorem Anomaly.startsSmall {code : Code} {message : String} (h : Anomaly code message) :
    StartsSmall message := by
  cases h with
  | opcode i =>
    have hword : StartsSmall "unknown opcode " := ⟨_, _, rfl, by decide⟩
    simp only [String.append_assoc]
    exact hword.append _
  | constant index size =>
    have hword : StartsSmall "constant index " := ⟨_, _, rfl, by decide⟩
    simp only [String.append_assoc]
    exact hword.append _
  | closure index count =>
    have hword : StartsSmall "closure prototype index " := ⟨_, _, rfl, by decide⟩
    simp only [String.append_assoc]
    exact hword.append _

/-! ### Bodies without a failure -/

/-- No statement of a body shows a failure, also in the functions inside. -/
def Calm (body : List Statement) : Prop :=
  ∀ path place f s, statementAt path body place = some (f, s) → ¬ s.IsAlarm

namespace Calm

variable {body : List Statement} {s : Statement}

theorem nil : Calm [] := by
  intro path place f s h
  match place with
  | [] => cases h
  | [_] => cases h
  | _ :: _ :: _ => cases h

theorem cons (hs : ¬ s.IsAlarm) (hinner : ∀ name r, s.inner? = some (name, r) → Calm r.body)
    (h : Calm body) : Calm (s :: body) := by
  intro path place f t ht
  match place with
  | [] => cases ht
  | [0] =>
    cases ht
    exact hs
  | (n + 1) :: rest => exact h _ _ _ _ (statementAt_succ.symm.trans ht)
  | 0 :: m :: rest =>
    cases hfound : s.inner? with
    | none =>
      change (s.inner?.bind _) = _ at ht
      rw [hfound] at ht
      cases ht
    | some found =>
      rw [statementAt_inner hfound (List.cons_ne_nil m rest)] at ht
      exact hinner _ _ hfound _ _ _ _ ht

/-- A statement without a function that shows no failure. -/
theorem plain (hs : ¬ s.IsAlarm) (hinner : s.inner? = none) (h : Calm body) : Calm (s :: body) :=
  cons hs (fun _ _ hfound => by cases hinner.symm.trans hfound) h

theorem remark {text : String} (htext : StartsSmall text) (h : Calm body) :
    Calm (.remark text :: body) :=
  plain (Statement.remark_not_isAlarm htext) rfl h

end Calm

theorem Statement.IsSilent.inner {s : Statement} (h : s.IsSilent) : s.inner? = none := by
  cases s with
  | define => exact h.elim
  | function => exact h.elim
  | _ => rfl

theorem Utters.calm {P : Int → Prop} {notes : List (Int × String)} {nodes : List Statement}
    (h : Utters P notes nodes) : Calm nodes := by
  induction h with
  | nil => exact .nil
  | marker text role _ ih =>
    have hsilent : (Statement.marker text role).IsSilent := trivial
    exact ih.plain hsilent.not_isAlarm rfl
  | goto target _ ih => exact ih.remark (Blocks.goto_startsSmall target)
  | noted _ hnote _ ih => exact ih.remark hnote.startsSmall

theorem Job.Ledger.calm {j : Job} {ds : List Diagnostic} {body : List Statement}
    (h : j.Ledger ds body) : Calm body := by
  induction h with
  | nil => exact .nil
  | silent hs _ ih => exact ih.plain hs.not_isAlarm hs.inner
  | goto target _ ih => exact ih.remark (Blocks.goto_startsSmall target)
  | anomaly _ hanomaly _ ih => exact ih.remark hanomaly.startsSmall
  | block _ hnote _ ih => exact ih.remark hnote.startsSmall
  | guess _ hs _ _ ih => exact ih.plain hs.not_isAlarm hs.inner
  | held _ _ ih => exact ih
  | inside _ _ _ _ ihinner ih =>
    refine ih.cons ?_ fun _ _ hfound => ?_
    · rintro ⟨_, _, heq⟩
      cases heq
    · cases hfound
      exact ihinner

/-! ### The way to a failure -/

/-- The only statement of a body that shows a failure: where it stands, in which function, and
what it is. -/
def OnlyAlarm (path : String) (body : List Statement) (place : List Nat) (f : String)
    (s : Statement) : Prop :=
  ∀ place' f' s', (statementAt path body place' = some (f', s') ∧ s'.IsAlarm) ↔
    (place' = place ∧ f' = f ∧ s' = s)

namespace OnlyAlarm

variable {path f : String} {body nodes : List Statement} {s t : Statement} {rest : List Nat}

/-- If a failure is shown in one statement only, then other statements around it that show none
change nothing. -/
theorem middle (h : OnlyAlarm path [s] (0 :: rest) f t) (hbody : Calm body) (hnodes : Calm nodes) :
    OnlyAlarm path (body ++ s :: nodes) (body.length :: rest) f t := by
  have hmiddle (rest : List Nat) : statementAt path (body ++ s :: nodes) (body.length :: rest) =
      statementAt path [s] (0 :: rest) := statementAt_congr (by simp)
  intro place' f' s'
  constructor
  · rintro ⟨hs, halarm⟩
    cases place' with
    | nil => cases hs
    | cons n rest' =>
      rcases Nat.lt_trichotomy n body.length with hlt | rfl | hgt
      · rw [statementAt_congr (List.getElem?_append_left hlt)] at hs
        exact absurd halarm (hbody _ _ _ _ hs)
      · rw [hmiddle] at hs
        obtain ⟨hplace, hf, ht⟩ := (h _ _ _).mp ⟨hs, halarm⟩
        exact ⟨congrArg (body.length :: ·) (List.cons.inj hplace).2, hf, ht⟩
      · have hbehind : (body ++ s :: nodes)[n]? = nodes[n - body.length - 1]? := by
          rw [List.getElem?_append_right (Nat.le_of_lt hgt), List.getElem?_cons,
            if_neg (Nat.sub_ne_zero_of_lt hgt)]
        rw [statementAt_congr hbehind] at hs
        exact absurd halarm (hnodes _ _ _ _ hs)
  · rintro ⟨rfl, rfl, rfl⟩
    rw [hmiddle]
    exact (h _ _ _).mpr ⟨rfl, rfl, rfl⟩

theorem remark (failure : Failure) : OnlyAlarm path [failure.remark] [0] path failure.remark := by
  intro place' f' s'
  constructor
  · rintro ⟨hs, -⟩
    match place' with
    | [] => cases hs
    | [0] =>
      cases hs
      exact ⟨rfl, rfl, rfl⟩
    | (_ + 1) :: rest => cases rest <;> cases hs
    | 0 :: _ :: _ => cases hs
  · rintro ⟨rfl, rfl, rfl⟩
    exact ⟨rfl, failure.remark_isAlarm⟩

/-- A failure that is shown in a function is shown in the statement with the function. -/
theorem inside {name : String} {r : Routine} {declares : Bool} {place : List Nat}
    (h : OnlyAlarm (path ++ "/" ++ name) r.body place f t) :
    OnlyAlarm path [.define name r declares none] (0 :: place) f t := by
  intro place' f' s'
  constructor
  · rintro ⟨hs, halarm⟩
    match place' with
    | [] => cases hs
    | [0] =>
      cases hs
      obtain ⟨_, _, heq⟩ := halarm
      cases heq
    | (_ + 1) :: rest => cases rest <;> cases hs
    | 0 :: m :: rest =>
      rw [statementAt_inner rfl (List.cons_ne_nil m rest)] at hs
      obtain ⟨hplace, hf, ht⟩ := (h _ _ _).mp ⟨hs, halarm⟩
      exact ⟨congrArg (0 :: ·) hplace, hf, ht⟩
  · rintro ⟨rfl, rfl, rfl⟩
    obtain ⟨hs, halarm⟩ := (h place f' s').mpr ⟨rfl, rfl, rfl⟩
    refine ⟨?_, halarm⟩
    rw [statementAt_inner rfl]
    · exact hs
    · rintro rfl
      cases hs

end OnlyAlarm

namespace Job

open Walking

variable {j k : Job} {failure : Failure} {r : Routine} {place : List Nat}

/-- The way from a job that failed to the one in which the failure arose, and to the remark that
shows it.  It leads through functions behind which there are only markers and comments. -/
inductive Surfaces (failure : Failure) : Job → Routine → Job → List Nat → Prop
  | here {j : Job} {r : Routine} {c : Context} {body nodes : List Statement}
      (failed : j.result = .error (.failed failure (some r)) c)
      (shown : r.body = body ++ failure.remark :: nodes) (rest : Scaffold nodes) :
      Surfaces failure j r j [body.length]
  | inside {j k : Job} {index : Nat} {i : Instruction} {q : Prototype} {ready : Prepared}
      {w : Walk} {r inner : Routine} {c : Context} {body nodes : List Statement}
      {place : List Nat} (failed : j.result = .error (.failed failure (some r)) c)
      (opens : j.Opens index i q ready w)
      (shown : r.body = body ++ .define ready.name inner ready.declares none :: nodes)
      (rest : Scaffold nodes)
      (deeper : Surfaces failure (Job.inside q ready w) inner k place) :
      Surfaces failure j r k (body.length :: place)

theorem Surfaces.failed (h : j.Surfaces failure r k place) :
    ∃ c, j.result = .error (.failed failure (some r)) c := by
  cases h with
  | here hfailed => exact ⟨_, hfailed⟩
  | inside hfailed => exact ⟨_, hfailed⟩

theorem Broken.surfaces {new : List Diagnostic} (h : Broken failure j new r) :
    ∀ {c : Context}, j.result = .error (.failed failure (some r)) c →
      ∃ k place, j.Surfaces failure r k place ∧ k.Arises failure ∧
        OnlyAlarm j.path r.body place k.path failure.remark := by
  induction h with
  | @here j new dropped ds body nodes notes r hwhole _ hledger _ hrest hshown =>
    intro c hresult
    have honly : OnlyAlarm j.path r.body [body.length] j.path failure.remark := by
      rw [hshown]
      exact (OnlyAlarm.remark failure).middle hledger.calm hrest.calm
    exact ⟨j, _, .here hresult hshown hrest.scaffold,
      ⟨entered_of_recovered hresult, ⟨_, _, hresult⟩, hwhole⟩, honly⟩
  | @inside j index i q ready w inner r c new dropped ds more body nodes notes hopens hfailed _
      hledger _ hrest hshown ih =>
    intro c' hresult
    obtain ⟨k, place, hsurfaces, harises, honly⟩ := ih hfailed
    rw [hopens.path] at honly
    refine ⟨k, _, .inside hresult hopens hshown hrest.scaffold hsurfaces, harises, ?_⟩
    rw [hshown]
    exact honly.inside.middle hledger.calm hrest.calm

end Job

namespace Recovery

/-- Nothing is reported after a failure. -/
theorem diagnostics_of_failed {o : Options} {proposal : Option (List (String × Payload))}
    {r : Routine} {failure : Failure} {body : String} {c : Context} :
    (finished o proposal r (some failure) body c).diagnostics = c.diagnostics := by
  show (checkGrammar o (some failure) _ c).diagnostics = _
  unfold checkGrammar
  rw [if_neg (by simp)]

/-- **Failures come to the surface, once.**  Let the outermost function have code and be entered,
and let a failure end its walk.  The recovery answers all the same, if the width of a level is
given, with what was recovered.  In it a way leads to the function in which the failure arose,
through functions behind which there are only markers and comments, and in this function stands
the remark on the failure.  No other statement, in any function, shows a failure.  The failure is
the last thing reported, and it is what the recovery says it has ended with. -/
theorem failure_surfaces {p : Prototype} {o : Options} {failure : Failure}
    {recovered : Option Routine} {c : Context} (proposal : Option (List (String × Payload)))
    (hcode : p.instructions ≠ []) (hwidth : o.indentWidth ≠ none)
    (hentered : (Job.root p o).IsEntered)
    (hfailed : p.build rootName rootName [] (startContext p o) =
      .error (.failed failure recovered) c) :
    ∃ full routine k place, ofPrototype p o proposal = .ok full ∧ full.routine = some routine ∧
      (Job.root p o).Surfaces failure routine k place ∧ k.Arises failure ∧
      OnlyAlarm rootName routine.body place k.path failure.remark ∧
      full.diagnostics.getLast? = some (failure.diagnostic rootName) ∧
      full.failure = some failure := by
  have hresult : (Job.root p o).result = .error (.failed failure recovered) c := hfailed
  have hsquares := (Job.root p o).squares
  rw [hresult] at hsquares
  cases recovered with
  | none => exact absurd hresult hentered.recovers
  | some routine =>
    obtain ⟨new, -, hbroken⟩ := hsquares
    obtain ⟨k, place, hsurfaces, harises, honly⟩ := hbroken.surfaces hresult
    have hwalked : walked p (startContext p o) =
        .ok (routine, some failure, c.report (failure.diagnostic rootName)) := by
      unfold walked EStateM.run
      rw [hfailed]
      rfl
    obtain ⟨width, hlevel⟩ := Option.ne_none_iff_exists'.mp hwidth
    obtain ⟨body, -, hfull⟩ := ofPrototype_finished proposal
      (by simpa using hcode) hwalked (by rw [Options.levelWidth, hlevel])
      (checkIndent_run (Host.boundless_default _) _ _)
    refine ⟨_, routine, k, place, hfull, rfl, hsurfaces, harises, honly, ?_, rfl⟩
    rw [diagnostics_of_failed]
    exact List.getLast?_concat

/-- A function in a function in a function. -/
def nestedClosures : Prototype where
  instructions := [{ opcode := .closure }, { opcode := .nop }]
  children := [{
    instructions := [{ opcode := .closure }, { opcode := .nop }]
    children := [{ instructions := [{ opcode := .nop }, { opcode := .nop }] }] }]

/-- The text of a line that stands as it is. -/
def lineOf : Statement → Option String
  | .verbatim text => some text
  | _ => none

theorem eq_of_lineOf {s : Statement} {text : String} (h : lineOf s = some text) :
    s = .verbatim text := by
  cases s with
  | verbatim found => exact congrArg Statement.verbatim (Option.some.inj h)
  | _ => cases h

/-- With a budget of three instructions the innermost function of `nestedClosures` is not walked to
its end, and it is there that this is shown. -/
theorem nestedClosures_failure_surfaces : ∃ full routine failure k place,
      ofPrototype nestedClosures { budget := some 3 } none = .ok full ∧
      full.routine = some routine ∧ full.failure = some failure ∧
      failure.code = .budgetExceeded ∧ failure.index = some 1 ∧
      (Job.root nestedClosures { budget := some 3 }).Surfaces failure routine k place ∧
      k.Arises failure ∧ place = [0, 0, 0] ∧ k.path = "main/func/func_2" ∧
      OnlyAlarm rootName routine.body place k.path failure.remark := by
  have heval : (walked nestedClosures
      (startContext nestedClosures { budget := some 3 })).toOption.any (fun x => decide
        (x.2.1.map (fun f => (f.code, f.index)) = some (.budgetExceeded, some 1) ∧
          (statementAt rootName x.1.body [0, 0, 0]).map (fun found => (found.1, lineOf found.2)) =
            some ("main/func/func_2", some ("-- " ++ (Code.budgetExceeded.word ++ ": "
              ++ "instruction budget of 3 exceeded"))))) = true := by
    decide +kernel
  obtain ⟨⟨r, found, c⟩, hwalked, hfailure, hremark⟩ := ok_of_any heval
  rcases result_of_walked hwalked with ⟨rfl, -⟩ | ⟨failure, recovered, d, rfl, hfailed, hr, -⟩
  · cases hfailure
  · obtain ⟨hcode, hindex⟩ := Prod.mk.inj (Option.some.inj hfailure)
    obtain ⟨full, routine, k, place, hfull, hroutine, hsurfaces, harises, honly, -, hends⟩ :=
      failure_surfaces none (by decide) (by decide) ⟨_, rfl⟩ hfailed
    obtain ⟨_, hsame⟩ := hsurfaces.failed
    cases hfailed.symm.trans hsame
    obtain rfl : r = routine := hr
    obtain ⟨⟨f, s⟩, hplace, hs⟩ := Option.map_eq_some_iff.mp hremark
    obtain ⟨rfl, hline⟩ := Prod.mk.inj hs
    obtain ⟨rfl, hpath, -⟩ := (honly _ _ _).mp ⟨hplace, _, _, eq_of_lineOf hline⟩
    exact ⟨full, r, failure, k, [0, 0, 0], hfull, hroutine, hends, hcode, hindex, hsurfaces,
      harises, rfl, hpath.symm, honly⟩

end Recovery

end LuaRecovery

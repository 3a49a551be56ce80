/-
Functions that are being recovered.

A job is the recovery of one function: under a name and a path, with upvalues, in a context.
Its walk gets from instruction to instruction (`At`), and at a closure it opens a job for a
function inside (`Opens`), for which it waits.  So at any moment of a run there is a row of
functions that are being recovered, from the outermost to the one whose walk goes on (`Live`).

Two things are shown of jobs.  Whatever a job hands back has what its walk had recovered at any
of its instructions, and has what the jobs that it opened handed back.  And a job that succeeds
has got to every instruction that its code reads.
-/
import LuaRecovery.Proofs.DeclaredNames

namespace LuaRecovery

open List Prototype

theorem getElem?_prefix_mono {α : Type} {xs ys : List α} (h : xs <+: ys) {k : Nat} {a : α}
    (ha : xs[k]? = some a) : ys[k]? = some a := by
  obtain ⟨rest, rfl⟩ := h
  rw [getElem?_append_left (List.getElem?_eq_some_iff.mp ha).1]
  exact ha

/-! ### How code is read -/

namespace Prototype

/-- The function inside at an index. -/
def childAt? (p : Prototype) (index : Int) : Option Prototype :=
  if 0 ≤ index then p.children[index.toNat]? else none

theorem mem_of_childAt? {p q : Prototype} {index : Int} (h : p.childAt? index = some q) :
    q ∈ p.children := by
  unfold childAt? at h
  split at h
  · exact mem_of_getElem? h
  · cases h

/-- A function as one that is written inside another. -/
def asChild (p : Prototype) : Child := ⟨p.name, p.upvalueCount, p.build⟩

/-- The instructions behind a closure that name the upvalues of its function. -/
def captures (p q : Prototype) (index : Nat) : List Instruction :=
  ((p.instructions.drop (index + 1)).take q.upvalueCount.toNat).takeWhile Instruction.isCapture

/-- The number of instructions that the step of an instruction takes. -/
def width (p : Prototype) (i : Instruction) (index : Nat) : Nat :=
  match i.opcode with
  | .closure =>
    match p.childAt? i.b with
    | some q => 1 + (p.captures q index).length
    | none => 1
  | .compareEq | .compareLt | .compareLe => 2
  | _ => 1

/-- An index at which an instruction of a function is read, and not taken by the one before. -/
inductive Reads (p : Prototype) : Nat → Prop
  | first : p.Reads 0
  | next {index : Nat} {i : Instruction} (before : p.Reads index)
      (instruction : p.instructions[index]? = some i) : p.Reads (index + p.width i index)

theorem width_pos (p : Prototype) (i : Instruction) (index : Nat) : 0 < p.width i index := by
  unfold width
  split
  · split <;> omega
  all_goals omega

theorem childAt?_builders (p : Prototype) (index : Int) :
    Walking.childAt? (builders p.children) index = (p.childAt? index).map asChild := by
  unfold Walking.childAt? childAt?
  rw [builders_eq]
  split
  · exact getElem?_map
  · rfl

end Prototype

namespace Walking

variable {w w' : Walk}

/-! ### The upvalues of a closure -/

/-- An upvalue that an instruction behind a closure names: the local of a register, or an
upvalue of the function around, which refers to it by this. -/
inductive Hands (w : Walk) (i : Instruction) (u : Upvalue) : Prop
  | register (opcode : i.opcode = .move) (name : w.frame.locals.get? i.b = some u.name)
  | upvalue (opcode : i.opcode = .getUpvalue)
      (same : ∀ (k : Nat) v, i.b = k → w.frame.upvalues[k]? = some v → u = v)
      (captured : u.name ∈ w.frame.captured)

variable {i : Instruction} {p : Prototype}

theorem Hands.onward {u : Upvalue} (h : Hands w i u) (hw : Onward w w') : Hands w' i u := by
  cases h with
  | register opcode name => exact .register opcode (hw.locals _ _ name)
  | upvalue opcode same captured =>
    exact .upvalue opcode (by rw [hw.upvalues]; exact same) (hw.captured.subset captured)

theorem captureRegister_hands {target : Int} {name : String}
    (htarget : w.frame.locals.get? target = some name) (hi : i.opcode = .move) :
    Once (fun u w' => Onward w w' ∧ Hands w' i u) (captureRegister target name i.b w) := by
  have hR := onward_blocked
  unfold captureRegister
  by_cases hreg : i.b = target
  · rw [if_pos hreg]
    exact ⟨hR.refl w, .register hi (hreg ▸ htarget)⟩
  · rw [if_neg hreg]
    refine after_seq (after_loose (readRegister_keeps hR.toCarried trivial w)) fun _ w₁ hread => ?_
    refine after_seq (after_loose (ensureNamed_after hR.toCarried trivial w₁)) ?_
    rintro found w₂ ⟨hnamed, hlocal⟩
    exact ⟨hR.trans _ _ _ hread hnamed, .register hi hlocal⟩

theorem upvalueAt_hands (hi : i.opcode = .getUpvalue) (w : Walk) :
    Once (fun u w' => Onward w w' ∧ Hands w' i u) (upvalueAt i.b w) := by
  have hsame : ∀ (k : Nat) v, i.b = k → w.frame.upvalues[k]? = some v →
      (knownUpvalue? w.frame.upvalues i.b).getD { name := "upval" ++ toString i.b } = v := by
    intro k v hk hv
    rw [knownUpvalue?, hk, if_pos (Int.natCast_nonneg k), Int.toNat_natCast, hv]
    rfl
  have hhands : Once (fun u w' => Hands w' i u) (upvalueAt i.b w) := by
    refine after_bind (after_askHost (after_state ?_) fun _ _ => trivial)
    dsimp only
    generalize (knownUpvalue? w.frame.upvalues i.b).getD _ = upvalue at hsame ⊢
    by_cases hnew : (!w.frame.captured.contains upvalue.name) = true
    · rw [if_pos hnew]
      exact after_bind (after_modify (.upvalue hi hsame (mem_append_right _ mem_cons_self)))
    · rw [if_neg hnew]
      exact .upvalue hi hsame (by simpa using hnew)
  exact after_loose (after_and (upvalueAt_keeps (T := fun _ => True) onward_blocked.toCarried i.b w)
    hhands)

/-- The upvalues of a closure whose register has the local `name` are those that the
instructions behind it name, as far as they do. -/
theorem captures_hands {target : Int} {name : String} (instructions : List Instruction)
    (htarget : w.frame.locals.get? target = some name) :
    Once (fun us w' => Onward w w' ∧
        us.length = (instructions.takeWhile Instruction.isCapture).length ∧
        ∀ (k : Nat) i u, instructions[k]? = some i → us[k]? = some u → Hands w' i u)
      (captures target name instructions w) :=
  captures_each (S := fun _ _ => True) (I := fun w => w.frame.locals.get? target = some name)
    (K := fun i u w => Hands w i u) onward_blocked.refl Onward.trans (fun _ _ => trivial)
    (fun hw h => hw.locals _ _ h) (fun hw h => h.onward hw)
    (fun hop h => captureRegister_hands h hop) (fun hop _ => upvalueAt_hands hop _)
    instructions htarget

/-- What a closure has when its function is recovered: a local for its register, and the
upvalues that the instructions behind it name. -/
theorem prepare_hands (q : Prototype) (hcode : w.frame.code = p.instructions) (i : Instruction)
    (index : Nat) :
    Once (fun ready w' => Onward w w' ∧ w'.frame.locals.get? i.a = some ready.name ∧
        ready.upvalues.length = (p.captures q index).length ∧
        ∀ (k : Nat) i' u, (p.captures q index)[k]? = some i' → ready.upvalues[k]? = some u →
          Hands w' i' u) (prepare q.asChild i index w) := by
  refine after_bind (after_mono (takeLocal_after i.a (uniqueName_after _ w)) ?_ fun _ _ h => h.elim)
  rintro ⟨name, declares⟩ _ ⟨scene, objects, locals, rfl, -, hbinds, hname, -⟩
  have htaken : Onward w { w with
      frame.locals := locals
      frame.objectLocals := objects
      context.scene := scene } := takeLocal_onward hbinds
  refine after_state (after_bind (after_imp (captures_hands _ hname) ?_))
  rintro upvalues w' ⟨honward, hlength, hhands⟩
  refine after_bind (after_askHost ?_ fun _ _ => trivial)
  refine ⟨Onward.trans _ _ _ htaken honward, honward.locals _ _ hname, ?_, fun k i' u hi' hu => ?_⟩
  · rw [hlength, Prototype.captures, ← hcode]
    rfl
  · refine hhands k i' u ?_ hu
    rw [Prototype.captures, ← hcode] at hi'
    exact getElem?_prefix_mono ( takeWhile_prefix _) hi'

/-! ### How many instructions a step takes -/

/-- An action and the number of instructions that it takes. -/
theorem taking_after {α : Type} (m : Walking α) (taken : Nat) (w : Walk) :
    Once (fun a _ => a = taken) ((m >>= fun _ => pure taken) w) :=
  after_seq (after_any (m w)) fun _ _ _ => rfl

theorem closure_taken (hcode : w.frame.code = p.instructions) (hi : i.opcode = .closure)
    (index : Nat) :
    Once (fun taken _ => 1 + taken = p.width i index)
      (closure (builders p.children) i index w) := by
  have hchild := p.childAt?_builders i.b
  unfold width
  rw [hi]
  dsimp only
  cases hfound : p.childAt? i.b with
  | none =>
    rw [hfound] at hchild
    unfold closure
    rw [hchild]
    exact after_seq (after_any _) fun _ _ _ => after_seq (after_any _) fun _ _ _ =>
      after_seq (after_any _) fun _ _ _ =>
        after_imp (taking_after _ 0 _) (fun _ _ h => by rw [h])
  | some q =>
    rw [hfound] at hchild
    rw [closure_eq hchild]
    refine after_bind (after_imp (prepare_hands q hcode i index) ?_)
    rintro ready w' ⟨-, -, hlength, -⟩
    refine after_seq (after_any _) fun _ w₂ _ => ?_
    exact after_imp (taking_after _ _ _) (fun _ _ h => by rw [h, hlength])

theorem step_taken (hcode : w.frame.code = p.instructions) (i : Instruction) (index : Nat) :
    Once (fun taken _ => taken = p.width i index) (step (builders p.children) i index w) := by
  by_cases hi : i.opcode = .closure
  · unfold step
    rw [hi]
    exact after_seq (closure_taken hcode hi index) fun _ _ h => h
  · unfold step width
    cases hop : i.opcode with
    | closure => exact absurd hop hi
    | nop => exact rfl
    | move => exact after_seq (after_any _) fun _ w _ => taking_after _ 1 w
    | compareEq | compareLt | compareLe => exact taking_after _ 2 w
    | _ => exact taking_after _ 1 w

theorem approach_onward (i : Instruction) (index : Nat) (w : Walk) :
    After (fun _ w' => Onward w w') (fun _ w' => Onward w w') (approach i index w) :=
  (onward_preserved w).approach i index (onward_blocked.refl w)

theorem advance_taken (hcode : w.frame.code = p.instructions) {index taken : Nat}
    (h : advance (builders p.children) i index w = .ok taken w') :
    taken = p.width i index := by
  obtain ⟨w₁, w₂, mark, happroach, hstep, -⟩ := ok_of_advance h
  have honward := approach_onward i index w
  rw [happroach] at honward
  have htaken := step_taken (p := p) (honward.code.trans hcode) i index
  rw [hstep] at htaken
  exact htaken

end Walking

/-! ### Jobs -/

/-- The recovery of one function. -/
structure Job where
  source : Prototype
  name : String
  path : String
  upvalues : List Upvalue
  context : Context

namespace Job

open Walking

/-- The recovery of a function in a fresh context. -/
def fresh (p : Prototype) (name path : String) (o : Options) (host : Host := {}) : Job :=
  ⟨p, name, path, [], Context.start o host⟩

/-- What a job ends in. -/
def result (j : Job) : EStateM.Result Stop Context Routine :=
  j.source.build j.name j.path j.upvalues j.context

/-- The functions inside. -/
def children (j : Job) : List Child := builders j.source.children

theorem childAt?_children (j : Job) (index : Int) :
    childAt? j.children index = (j.source.childAt? index).map asChild :=
  j.source.childAt?_builders index

/-- What a job has if the jobs of the functions inside have it, all jobs have. -/
theorem induct_inside {P : Job → Prop} (j : Job)
    (h : ∀ j : Job, (∀ k : Job, k.source ∈ j.source.children → P k) → P j) : P j := by
  obtain ⟨p, hp⟩ : ∃ p, p = j.source := ⟨_, rfl⟩
  induction p using induct_children generalizing j with
  | h p ih =>
    subst hp
    exact h j fun k hk => ih _ hk k rfl

theorem forall_children {X : Builder → Prop} (h : ∀ q : Prototype, X q.build) (j : Job) :
    ∀ child ∈ j.children, X child.build := by
  intro child hchild
  rw [children, builders_eq] at hchild
  obtain ⟨q, -, rfl⟩ := mem_map.mp hchild
  exact h q

/-- The state of a job whose function has been entered. -/
def entered (j : Job) (limits : Limits) : Walk :=
  ⟨(Frame.start j.source j.name j.path j.upvalues j.context.scene).1,
    { j.context with
      scene := (Frame.start j.source j.name j.path j.upvalues j.context.scene).2
      limits }⟩

/-- The states in which the walk of a job gets to an index of the code. -/
inductive At (j : Job) : Nat → Walk → Prop
  | first {limits : Limits} {w : Walk} (entered : j.context.limits.enter = .ok limits)
      (opened : opening j.children (j.entered limits) = .ok () w) : j.At 0 w
  | next {index taken : Nat} {i : Instruction} {w w' : Walk} (before : j.At index w)
      (instruction : w.frame.code[index]? = some i)
      (advanced : advance j.children i index w = .ok taken w') : j.At (index + taken) w'

/-- The states in which the step of an instruction is carried out. -/
inductive Due (j : Job) (index : Nat) (i : Instruction) (w : Walk) : Prop
  | intro {before : Walk} (reached : j.At index before)
      (instruction : before.frame.code[index]? = some i)
      (approached : approach i index before = .ok () w) : j.Due index i w

variable {j : Job} {index : Nat} {i : Instruction} {w : Walk}

/-- What holds of a function that has been entered, and is kept by every instruction, holds
wherever its walk gets to. -/
theorem At.invariant {I : Walk → Prop} {E : Stop → Walk → Prop}
    (hentered : ∀ limits, j.context.limits.enter = .ok limits → I (j.entered limits))
    (hopening : ∀ w, I w → After (fun _ w' => I w') E (opening j.children w))
    (hadvance : ∀ i index w, w.frame.code[index]? = some i → I w →
      After (fun _ w' => I w') E (advance j.children i index w))
    (h : j.At index w) : I w := by
  induction h with
  | first henter hopened =>
    have h := hopening _ (hentered _ henter)
    rwa [hopened] at h
  | @next index _ i w _ _ hi hadvanced ih =>
    have h := hadvance i index w hi ih
    rwa [hadvanced] at h

section

variable {R : Walk → Walk → Prop} {I : Walk → Prop} {E : Stop → Walk → Prop}
  (hkept : Preserved R I E) (hentered : ∀ limits, I (j.entered limits))
  (hclosure : ∀ i index w, I w → After (fun _ w' => I w') E (closure j.children i index w))

include hkept hentered hclosure

theorem At.preserved (h : j.At index w) : I w :=
  h.invariant (fun limits _ => hentered limits) (fun _ hw => hkept.opening j.children hw)
    fun i index _ _ hw => hkept.advance (fun w hw _ => hclosure i index w hw) hw

theorem Due.preserved (h : j.Due index i w) : I w := by
  obtain @⟨before, hreached, -, happroached⟩ := h
  have hafter := hkept.approach i index (hreached.preserved hkept hentered hclosure)
  rwa [happroached] at hafter

end

/-- A frame of the walk of a job: it has the code, the constants, the path and the upvalues of the
job, no upvalue is noted twice, and what binds registers stands in the body. -/
structure Owns (j : Job) (f : Frame) : Prop where
  code : f.code = j.source.instructions
  constants : f.registers.constants = j.source.constants
  path : f.path = j.path
  upvalues : f.upvalues = Frame.allUpvalues j.upvalues j.source.upvalueNames
  nodup : f.captured.Nodup
  placed : ∀ b ∈ f.bindings, b.place < f.body.length

theorem Owns.onward {w' : Walk} (h : j.Owns w.frame) (hw : Onward w w') : j.Owns w'.frame where
  code := hw.code.trans h.code
  constants := hw.constants.trans h.constants
  path := hw.path.trans h.path
  upvalues := hw.upvalues.trans h.upvalues
  nodup := hw.nodup h.nodup
  placed b hb := by
    obtain ⟨more, hmore⟩ := hw.bindings
    have hplaces := hw.places b
    rw [← hmore, drop_left] at hplaces
    rw [← hmore, mem_append] at hb
    rcases hb with hb | hb
    · exact Nat.lt_of_lt_of_le (h.placed b hb) hw.body.length_le
    · exact (hplaces hb).2

theorem Owns.addParams (count : Nat) : ∀ {f : Frame} (scene : Scene) (index : Nat), j.Owns f →
    j.Owns (f.addParams scene index count).1 := by
  induction count with
  | zero => exact fun _ _ h => h
  | succ count ih => exact fun _ _ h => ih _ _ { h with }

theorem owns_entered (j : Job) (limits : Limits) : j.Owns (j.entered limits).frame :=
  Owns.addParams _ _ _ ⟨rfl, rfl, rfl, rfl, nodup_nil, nofun⟩

theorem owns_preserved (j : Job) :
    Preserved Onward (fun w => j.Owns w.frame) fun _ w => j.Owns w.frame where
  blocked := onward_blocked
  keeps hw h := h.onward hw
  stops _ hw h := h.onward hw
  located _ h := h

theorem At.owns (h : j.At index w) : j.Owns w.frame :=
  h.preserved j.owns_preserved j.owns_entered fun i index _ hw =>
    j.owns_preserved.after (closure_onward j.children i index) hw

theorem Due.owns (h : j.Due index i w) : j.Owns w.frame :=
  h.preserved j.owns_preserved j.owns_entered fun i index _ hw =>
    j.owns_preserved.after (closure_onward j.children i index) hw

/-! ### What a job hands back -/

/-- A job hands back what its walk ends in, once its function has been entered. -/
theorem result_of_enter {limits : Limits} (h : j.context.limits.enter = .ok limits) :
    j.result = handBack (walk j.children (j.entered limits)) := by
  unfold Job.result
  rw [build_eq, buildWith_entered h]
  rfl

/-- The walk of a job goes on from every index to which it gets. -/
theorem At.walk (h : j.At index w) : ∃ limits fuel, j.context.limits.enter = .ok limits ∧
    w.frame.code.length ≤ index + fuel ∧
    walk j.children (j.entered limits)
      = (walkFrom j.children fuel index >>= fun _ => windUp) w := by
  induction h with
  | @first limits w henter hopened =>
    have hcode := (At.first henter hopened).owns.code.trans (j.owns_entered limits).code.symm
    refine ⟨limits, (j.entered limits).frame.code.length, henter, ?_, ?_⟩
    · exact Nat.le_of_eq (by rw [hcode, Nat.zero_add])
    · exact (walk_eq _ _).trans (run_bind hopened _)
  | @next index taken i w w' hbefore hi hadvanced ih =>
    obtain ⟨limits, fuel, henter, hfuel, hwalk⟩ := ih
    have hlt := (List.getElem?_eq_some_iff.mp hi).1
    have htaken := advance_taken hbefore.owns.code hadvanced
    have hpos := j.source.width_pos i index
    have hcode := (At.next hbefore hi hadvanced).owns.code.trans hbefore.owns.code.symm
    obtain ⟨fuel, rfl⟩ := Nat.exists_eq_succ_of_ne_zero (n := fuel) (by omega)
    refine ⟨limits, fuel, henter, by rw [hcode]; omega, hwalk.trans ?_⟩
    exact run_congr (walkFrom_run hi hadvanced fuel) _

/-- What a job ends in once its function has been entered: the end of the walk from an index to
which it gets. -/
theorem At.result (h : j.At index w) : ∃ fuel, w.frame.code.length ≤ index + fuel ∧
    j.result = handBack ((walkFrom j.children fuel index >>= fun _ => windUp) w) := by
  obtain ⟨limits, fuel, henter, hfuel, hwalk⟩ := h.walk
  exact ⟨fuel, hfuel, (result_of_enter henter).trans (congrArg handBack hwalk)⟩

/-- The walk of a job goes on from the step of an instruction. -/
theorem Due.walk (h : j.Due index i w) : ∃ limits mark fuel,
    j.context.limits.enter = .ok limits ∧ walk j.children (j.entered limits) =
      (locating index (step j.children i index) >>= fun taken => conclude i index mark taken >>=
        fun taken => walkFrom j.children fuel (index + taken) >>= fun _ => windUp) w := by
  obtain @⟨before, hreached, hi, happroached⟩ := h
  obtain ⟨limits, fuel, henter, hfuel, hwalk⟩ := hreached.walk
  obtain ⟨mark, hadvance⟩ := advance_of_approach happroached j.children
  have hlt := (List.getElem?_eq_some_iff.mp hi).1
  obtain ⟨fuel, rfl⟩ := Nat.exists_eq_succ_of_ne_zero (n := fuel) (by omega)
  refine ⟨limits, mark, fuel, henter, hwalk.trans ?_⟩
  rw [walkFrom, bind_assoc, run_get, hi]
  refine (run_congr (run_congr hadvance _) _).trans ?_
  simp only [bind_assoc]

/-- What a job ends in from the step of an instruction on. -/
theorem Due.result (h : j.Due index i w) : ∃ mark fuel, j.result = handBack
    ((locating index (step j.children i index) >>= fun taken => conclude i index mark taken >>=
      fun taken => walkFrom j.children fuel (index + taken) >>= fun _ => windUp) w) := by
  obtain ⟨limits, mark, fuel, henter, hwalk⟩ := h.walk
  exact ⟨mark, fuel, (result_of_enter henter).trans (congrArg handBack hwalk)⟩

variable {result : EStateM.Result Stop Context Routine} {E : Stop → Walk → Prop}
  {P Q : Routine → Prop}

/-- What every instruction keeps to which a job gets, its walk keeps. -/
theorem walk_after {I : Nat → Walk → Prop} {Q : Unit → Walk → Prop} {limits : Limits}
    (henter : j.context.limits.enter = .ok limits)
    (hopening : After (fun _ w => I 0 w) E (opening j.children (j.entered limits)))
    (hadvance : ∀ index i w, j.At index w → w.frame.code[index]? = some i → I index w →
      After (fun taken w' => I (index + taken) w') E (advance j.children i index w))
    (hend : ∀ index w, j.At index w → I index w → After Q E (windUp w)) :
    After Q E (walk j.children (j.entered limits)) := by
  have hrun : ∀ fuel index w, j.At index w → I index w →
      After Q E ((walkFrom j.children fuel index >>= fun _ => windUp) w) := by
    intro fuel
    induction fuel with
    | zero => exact hend
    | succ fuel ih =>
      intro index w hreached hw
      rw [walkFrom, bind_assoc, run_get]
      cases hi : w.frame.code[index]? with
      | none => exact hend index w hreached hw
      | some i =>
        show After Q E (((advance j.children i index >>= _) >>= _ : Walking Unit) w)
        rw [bind_assoc]
        refine after_seq_run (hadvance index i w hreached hi hw) ?_
        intro taken w' hadvanced hw'
        exact ih (index + taken) w' (.next hreached hi hadvanced) hw'
  rw [walk_eq]
  exact after_seq_run hopening fun _ w hopened hw => hrun _ 0 w (.first henter hopened) hw

/-- A property of what a function hands back that has been entered: the routine, or what was
recovered of it before a failure. -/
def Returned (P : Routine → Prop) : EStateM.Result Stop Context Routine → Prop
  | .ok r _ => P r
  | .error (.failed _ recovered) _ => ∃ r, recovered = some r ∧ P r
  | .error _ _ => True

theorem Returned.handsBack {P : Routine → Prop} (h : Returned P result) : HandsBack P result := by
  match result, h with
  | .ok _ _, h => exact h
  | .error (.failed _ (some _)) _, ⟨_, rfl, h⟩ => exact h
  | .error (.failed _ none) _, _ => trivial
  | .error (.scene _) _, _ => trivial
  | .error (.option _) _, _ => trivial
  | .error (.host _) _, _ => trivial

theorem Returned.mono (h : Returned P result) (hPQ : ∀ r, P r → Q r) : Returned Q result := by
  match result, h with
  | .ok r _, h => exact hPQ r h
  | .error (.failed _ _) _, h => exact h.imp fun r => And.imp_right (hPQ r)
  | .error (.scene _) _, _ => trivial
  | .error (.option _) _, _ => trivial
  | .error (.host _) _, _ => trivial

theorem Returned.and (h : Returned P result) (h' : HandsBack Q result) :
    Returned (fun r => P r ∧ Q r) result := by
  match result, h, h' with
  | .ok _ _, h, h' => exact ⟨h, h'⟩
  | .error (.failed _ _) _, ⟨r, rfl, h⟩, h' => exact ⟨r, rfl, h, h'⟩
  | .error (.scene _) _, _, _ => trivial
  | .error (.option _) _, _, _ => trivial
  | .error (.host _) _, _, _ => trivial

theorem returned_of_after {P : Routine → Prop} {r : EStateM.Result Stop Walk Unit}
    (h : After (fun _ w => P w.frame.routine)
      (fun stop w => ∀ failure recovered, stop = .failed failure recovered →
        P (w.frame.abandon failure recovered).routine) r) : Returned P (handBack r) := by
  match r, h with
  | .ok _ _, h => exact h
  | .error (.failed failure recovered) _, h => exact ⟨_, rfl, h failure recovered rfl⟩
  | .error (.scene _) _, _ => trivial
  | .error (.option _) _, _ => trivial
  | .error (.host _) _, _ => trivial

/-- What follows for a job from a property that closures keep and that holds after the step of
an instruction. -/
theorem Due.returned {P : Routine → Prop} {R : Walk → Walk → Prop} {I : Walk → Prop}
    (h : j.Due index i w) (hkept : Preserved R I E)
    (hclosure : ∀ i index w, I w → After (fun _ w' => I w') E (closure j.children i index w))
    (hstep : After (fun _ w' => I w') E (step j.children i index w))
    (hend : ∀ w, I w → P w.frame.routine)
    (hstop : ∀ failure recovered w, E (.failed failure recovered) w →
      P (w.frame.abandon failure recovered).routine) : Returned P j.result := by
  obtain ⟨mark, fuel, hresult⟩ := h.result
  rw [hresult]
  have hrest : After (fun _ w' => I w') E
      ((locating index (step j.children i index) >>= fun taken => conclude i index mark taken >>=
        fun taken => walkFrom j.children fuel (index + taken) >>= fun _ => windUp) w) := by
    refine after_seq (after_locating index hstep fun _ _ _ h' => hkept.located index h') ?_
    intro taken w₁ hw₁
    refine after_seq (hkept.conclude i index mark taken hw₁) fun taken w₂ hw₂ => ?_
    exact hkept.rest hclosure fuel (index + taken) hw₂
  refine returned_of_after (after_mono hrest (fun _ w' hw' => hend w' hw') ?_)
  rintro _ w' hw' failure recovered rfl
  exact hstop failure recovered w' hw'

/-! ### What a walk had recovered -/

/-- What a walk had recovered is the first part of a routine. -/
structure Begins (f : Frame) (r : Routine) : Prop where
  params : r.params = f.params
  captured : f.captured <+: r.captured
  nodup : f.captured.Nodup → r.captured.Nodup
  body : f.body <+: r.body
  bindings : f.bindings <+: r.bindings

theorem begins_of_onward {w w' : Walk} (h : Onward w w') : Begins w.frame w'.frame.routine :=
  ⟨h.params, h.captured, h.nodup, h.body, h.bindings⟩

theorem begins_of_abandon {w w' : Walk} (h : Onward w w') (failure : Failure)
    (recovered : Option Routine) : Begins w.frame (w'.frame.abandon failure recovered).routine := by
  refine ⟨h.params, h.captured, h.nodup, h.body.trans ?_, h.bindings⟩
  exact (prefix_append _ _).trans (prefix_append _ _)

/-- There is a state with a property from which the walk has gone on. -/
def Past (P : Walk → Prop) (w : Walk) : Prop := ∃ w₁, P w₁ ∧ Onward w₁ w

theorem past_preserved (P : Walk → Prop) :
    Preserved Onward (Past P) fun stop w => stop.IsMute ∨ Past P w where
  blocked := onward_blocked
  keeps hw := Exists.imp fun _ => And.imp_right fun h => Onward.trans _ _ _ h hw
  stops _ hw hI := .inr (hI.imp fun _ => And.imp_right fun h => Onward.trans _ _ _ h hw)
  located _ h := h

theorem Past.begins {P : Walk → Prop} (h : Past P w) :
    ∃ w₁, P w₁ ∧ Begins w₁.frame w.frame.routine :=
  h.imp fun _ => And.imp_right begins_of_onward

theorem Past.begins_abandon {P : Walk → Prop} {failure : Failure} {recovered : Option Routine}
    (h : Stop.IsMute (.failed failure recovered) ∨ Past P w) :
    ∃ w₁, P w₁ ∧ Begins w₁.frame (w.frame.abandon failure recovered).routine := by
  obtain ⟨w₁, hP, hw₁⟩ := h.resolve_left id
  exact ⟨w₁, hP, begins_of_abandon hw₁ failure recovered⟩

/-- What a job hands back begins with what was recovered after the step of an instruction. -/
theorem Due.begins {P : Walk → Prop} (h : j.Due index i w)
    (hstep : After (fun _ w' => Past P w') (fun stop w' => stop.IsMute ∨ Past P w')
      (step j.children i index w)) :
    Returned (fun r => ∃ w₁, P w₁ ∧ Begins w₁.frame r) j.result := by
  have hkept := past_preserved P
  refine h.returned hkept (fun i index w hw => ?_) hstep (fun w hw => hw.begins)
    fun _ _ w hw => Past.begins_abandon hw
  exact hkept.after (closure_onward j.children i index) hw

/-! ### Functions inside -/

/-- A job has prepared a closure and is about to recover its function. -/
inductive Opens (j : Job) (index : Nat) (i : Instruction) (q : Prototype) (ready : Prepared)
    (w : Walk) : Prop
  | intro {before : Walk} (due : j.Due index i before) (opcode : i.opcode = .closure)
      (child : j.source.childAt? i.b = some q)
      (prepared : prepare q.asChild i index before = .ok ready w) : j.Opens index i q ready w

/-- The job for the function of a closure. -/
def inside (q : Prototype) (ready : Prepared) (w : Walk) : Job where
  source := q
  name := ready.name
  path := w.frame.path ++ "/" ++ ready.name
  upvalues := ready.upvalues
  context := w.context

variable {q : Prototype} {ready : Prepared}

/-- What is known of a closure that was prepared. -/
theorem Opens.hands (h : j.Opens index i q ready w) :
    j.Owns w.frame ∧ w.frame.locals.get? i.a = some ready.name ∧
      ready.upvalues.length = (j.source.captures q index).length ∧
      ∀ (k : Nat) c u, (j.source.captures q index)[k]? = some c → ready.upvalues[k]? = some u →
        Hands w c u := by
  obtain @⟨before, hdue, -, -, hprepared⟩ := h
  have hhands := prepare_hands q hdue.owns.code i index
  rw [hprepared] at hhands
  obtain ⟨honward, hname, hlength, hhands⟩ := hhands
  exact ⟨hdue.owns.onward honward, hname, hlength, hhands⟩

/-- Every instruction behind a closure that names an upvalue gives it one. -/
theorem Opens.upvalue (h : j.Opens index i q ready w) {k : Nat} {c : Instruction}
    (hc : (j.source.captures q index)[k]? = some c) :
    ∃ u, ready.upvalues[k]? = some u ∧ Hands w c u := by
  obtain ⟨-, -, hlength, hhands⟩ := h.hands
  have hlt : k < ready.upvalues.length := hlength ▸ (List.getElem?_eq_some_iff.mp hc).1
  have hu := getElem?_eq_getElem hlt
  exact ⟨_, hu, hhands k c _ hc hu⟩

/-- The step of a closure, once it was prepared. -/
theorem Opens.step (h : j.Opens index i q ready w) : ∃ before, j.Due index i before ∧
    step j.children i index before = (buildChild q.asChild i.a ready.name ready.upvalues
      ready.declares >>= fun _ => setRegister i.a (.closure ready.name) >>= fun _ =>
      pure (1 + ready.upvalues.length)) w := by
  obtain @⟨before, hdue, hop, hchild, hprepared⟩ := h
  have hfound : childAt? j.children i.b = some q.asChild := by
    rw [childAt?_children, hchild, Option.map_some]
  refine ⟨before, hdue, ?_⟩
  unfold Walking.step
  rw [hop]
  show (closure j.children i index >>= fun taken => pure (1 + taken)) before = _
  rw [closure_eq hfound, bind_assoc, run_bind hprepared]
  simp only [bind_assoc, pure_bind]

/-- What follows for a job from a property that closures keep, that holds once the function of
a closure is defined. -/
theorem Opens.returned {R : Walk → Walk → Prop} {I : Walk → Prop} (h : j.Opens index i q ready w)
    (hkept : Preserved R I E)
    (hclosure : ∀ i index w, I w → After (fun _ w' => I w') E (closure j.children i index w))
    (hmute : ∀ stop w, stop.IsMute → E stop w) (hinner : Returned Q (inside q ready w).result)
    (hdefine : ∀ inner, Q inner → I (bound
      { w with context := lastContext (inside q ready w).result } [i.a]
      (.define ready.name inner ready.declares none) w.frame.locals))
    (hend : ∀ w, I w → P w.frame.routine)
    (hstop : ∀ failure recovered w, E (.failed failure recovered) w →
      P (w.frame.abandon failure recovered).routine) : Returned P j.result := by
  obtain ⟨before, hdue, hstep⟩ := h.step
  refine hdue.returned hkept hclosure ?_ hend hstop
  rw [hstep]
  have hbuilt : After (fun _ w' => I w') E
      (buildChild q.asChild i.a ready.name ready.upvalues ready.declares w) := by
    refine buildChild_after (fun inner c hrun => ?_) (fun failure inner c hrun => ?_)
      fun stop c hrun hnone => ?_
    all_goals
      have hresult : (inside q ready w).result = _ := hrun
      rw [hresult] at hinner hdefine
    · exact hdefine inner hinner
    · obtain ⟨_, heq, hQ⟩ := hinner
      cases heq
      exact hkept.stops _ (hkept.blocked.refl _) (hdefine inner hQ)
    · cases stop with
      | failed failure recovered =>
        obtain ⟨inner, rfl, -⟩ := hinner
        cases hnone
      | scene | option | host => exact hmute _ _ trivial
  refine after_seq hbuilt fun _ w₁ hw₁ => ?_
  exact after_bind (hkept.after (setRegister_keeps hkept.blocked.toCarried trivial _) hw₁)

/-- What a job hands back has what the job of a function inside handed back. -/
theorem Opens.begins {Q : Routine → Prop} (h : j.Opens index i q ready w)
    (hinner : Returned Q (inside q ready w).result) :
    Returned (fun r => ∃ inner, Q inner ∧ Begins (bound w [i.a]
      (.define ready.name inner ready.declares none) w.frame.locals).frame r) j.result := by
  have hkept := past_preserved fun w₁ => ∃ inner, Q inner ∧ w₁.frame = (bound w [i.a]
    (.define ready.name inner ready.declares none) w.frame.locals).frame
  refine h.returned hkept (fun i index w hw => ?_) (fun _ _ hmute => .inl hmute) hinner
    (fun inner hQ => ⟨_, ⟨inner, hQ, rfl⟩, .of_same rfl rfl rfl rfl rfl rfl⟩) (fun w' hw' => ?_) ?_
  · exact hkept.after (closure_onward j.children i index) hw
  · obtain ⟨_, ⟨inner, hQ, hframe⟩, hbegins⟩ := hw'.begins
    exact ⟨inner, hQ, hframe ▸ hbegins⟩
  · intro failure recovered w' hw'
    obtain ⟨_, ⟨inner, hQ, hframe⟩, hbegins⟩ := Past.begins_abandon hw'
    exact ⟨inner, hQ, hframe ▸ hbegins⟩

/-! ### The functions that are being recovered at a moment -/

/-- The frames of the functions that are being recovered, from that of the job on, and the
context that they share. -/
inductive Live : Job → List Frame → Context → Prop
  | here {j : Job} {index : Nat} {w : Walk} (reached : j.At index w) : Live j [w.frame] w.context
  | inside {j : Job} {index : Nat} {i : Instruction} {q : Prototype} {ready : Prepared} {w : Walk}
      {frames : List Frame} {c : Context} (opens : j.Opens index i q ready w)
      (rest : Live (Job.inside q ready w) frames c) : Live j (w.frame :: frames) c

section

variable {S I : Context → Context → Prop} (hS : Enclosed S I)

include hS

theorem At.enclosed (h : j.At index w) : I j.context w.context := by
  have hkept := hS.preserved j.context
  refine h.invariant (I := fun w => I j.context w.context)
    (fun _ henter => hS.entered j.source j.name j.path j.upvalues henter)
    (fun _ hw => hkept.opening j.children hw) fun i index w _ hw => hkept.advance ?_ hw
  exact fun w hw _ => hkept.after (hS.closure (j.forall_children hS.build) i index) hw

theorem Due.enclosed (h : j.Due index i w) : I j.context w.context := by
  obtain @⟨before, hreached, -, happroached⟩ := h
  have hafter := (hS.preserved j.context).approach i index (hreached.enclosed hS)
  rwa [happroached] at hafter

theorem Opens.enclosed (h : j.Opens index i q ready w) : I j.context w.context := by
  obtain @⟨before, hdue, -, -, hprepared⟩ := h
  exact hS.inside (hdue.enclosed hS) (keeps_ok (hS.prepare q.asChild i index) hprepared)

end

theorem At.later (h : j.At index w) : Later j.context w.context := h.enclosed later_enclosed

theorem Due.later (h : j.Due index i w) : Later j.context w.context := h.enclosed later_enclosed

theorem Opens.later (h : j.Opens index i q ready w) : Later j.context w.context :=
  h.enclosed later_enclosed

theorem Live.later {frames : List Frame} {c : Context} (h : j.Live frames c) :
    Later j.context c := by
  induction h with
  | here hreached => exact hreached.later
  | inside hopens _ ih => exact hopens.later.trans ih

/-! ### Jobs that succeed -/

variable {r : Routine} {d : Context}

theorem at_zero (hok : j.result = .ok r d) : ∃ w, j.At 0 w := by
  unfold result at hok
  rw [build_eq] at hok
  cases henter : j.context.limits.enter with
  | error failure =>
    rw [buildWith_refused henter] at hok
    cases hok
  | ok limits =>
    rw [buildWith_entered henter] at hok
    obtain ⟨v, hwalk, -, -⟩ := ok_of_handBack hok
    rw [walk_eq] at hwalk
    obtain ⟨_, w, hopened, -⟩ := ok_of_bind hwalk
    exact ⟨w, .first henter hopened⟩

/-- A job that succeeds gets past every instruction that it gets to. -/
theorem At.advances (h : j.At index w) (hok : j.result = .ok r d)
    (hi : w.frame.code[index]? = some i) :
    ∃ w', advance j.children i index w = .ok (j.source.width i index) w' := by
  obtain ⟨fuel, hfuel, hresult⟩ := h.result
  have hlt := (List.getElem?_eq_some_iff.mp hi).1
  obtain ⟨fuel, rfl⟩ := Nat.exists_eq_succ_of_ne_zero (n := fuel) (by omega)
  obtain ⟨v, hrun, -, -⟩ := ok_of_handBack (hresult.symm.trans hok)
  obtain ⟨_, w₁, hwalk, -⟩ := ok_of_bind hrun
  rw [walkFrom, run_get, hi] at hwalk
  obtain ⟨taken, w', hadvance, -⟩ := ok_of_bind hwalk
  rw [advance_taken h.owns.code hadvance] at hadvance
  exact ⟨w', hadvance⟩

/-- A job that succeeds gets to every index that its code reads. -/
theorem at_of_reads (hok : j.result = .ok r d) (h : j.source.Reads index) : ∃ w, j.At index w := by
  induction h with
  | first => exact at_zero hok
  | next _ hi ih =>
    obtain ⟨w, hw⟩ := ih
    rw [← hw.owns.code] at hi
    obtain ⟨w', hadvance⟩ := hw.advances hok hi
    exact ⟨w', .next hw hi hadvance⟩

/-- A job that succeeds carries out every instruction that its code reads. -/
theorem due_of_reads (hok : j.result = .ok r d) (h : j.source.Reads index)
    (hi : j.source.instructions[index]? = some i) :
    ∃ w taken w', j.Due index i w ∧ Walking.step j.children i index w = .ok taken w' := by
  obtain ⟨before, hreached⟩ := at_of_reads hok h
  rw [← hreached.owns.code] at hi
  obtain ⟨_, hadvance⟩ := hreached.advances hok hi
  obtain ⟨w, w', mark, happroach, hstep, -⟩ := ok_of_advance hadvance
  exact ⟨w, _, w', ⟨hreached, hi, happroach⟩, hstep⟩

/-- The step of a closure whose function is missing does no more than report that. -/
theorem missing_step {R : Walk → Walk → Prop} (hR : Told R) {w' : Walk} {taken : Nat}
    (hop : i.opcode = .closure) (hchild : j.source.childAt? i.b = none)
    (hstep : Walking.step j.children i index w = .ok taken w') : R w w' := by
  have hfound : childAt? j.children i.b = none := by
    rw [childAt?_children, hchild, Option.map_none]
  refine keeps_ok (T := fun _ => True) ?_ hstep
  unfold Walking.step Walking.closure
  rw [hop, hfound]
  exact keeps_bind hR.trans (keeps_any (missingChild_keeps hR _ i index)) fun _ => hR.refl

/-- The state after a closure whose function was recovered. -/
def closed (w : Walk) (reg : Int) (ready : Prepared) (inner : Routine) (c : Context) : Walk :=
  { bound { w with context := c } [reg] (.define ready.name inner ready.declares none)
      w.frame.locals with
    frame.registers := w.frame.registers.set reg (.closure ready.name) }

/-- The step of a closure that succeeds: it was prepared, and its function was recovered. -/
theorem Due.closure_ok {before w' : Walk} {taken : Nat} (h : j.Due index i before)
    (hop : i.opcode = .closure) (hchild : j.source.childAt? i.b = some q)
    (hstep : Walking.step j.children i index before = .ok taken w') :
    ∃ ready w inner c, j.Opens index i q ready w ∧ prepare q.asChild i index before = .ok ready w ∧
      (inside q ready w).result = .ok inner c ∧ w' = closed w i.a ready inner c := by
  have hfound : childAt? j.children i.b = some q.asChild := by
    rw [childAt?_children, hchild, Option.map_some]
  unfold Walking.step at hstep
  rw [hop] at hstep
  obtain ⟨_, _, hclosure, hlast⟩ := ok_of_bind hstep
  cases hlast
  rw [closure_eq hfound] at hclosure
  obtain ⟨ready, w, hprepared, hrest⟩ := ok_of_bind hclosure
  obtain ⟨_, w₁, hbuilt, hset⟩ := ok_of_bind hrest
  have hinner : Once (fun _ w₁ => ∃ inner c, (inside q ready w).result = .ok inner c ∧
        w₁ = bound { w with context := c } [i.a] (.define ready.name inner ready.declares none)
          w.frame.locals) (buildChild q.asChild i.a ready.name ready.upvalues ready.declares w) :=
    buildChild_after (fun inner c hrun => ⟨inner, c, hrun, rfl⟩) (fun _ _ _ _ => trivial)
      fun _ _ _ _ => trivial
  rw [hbuilt] at hinner
  obtain ⟨inner, c, hinner, rfl⟩ := hinner
  cases hset
  exact ⟨ready, w, inner, c, ⟨h, hop, hchild, hprepared⟩, hprepared, hinner, rfl⟩

/-- A job that succeeds recovers the function of every closure that its code reads. -/
theorem opens_of_reads (hok : j.result = .ok r d) (h : j.source.Reads index)
    (hi : j.source.instructions[index]? = some i) (hop : i.opcode = .closure)
    (hchild : j.source.childAt? i.b = some q) :
    ∃ ready w inner c, j.Opens index i q ready w ∧ (inside q ready w).result = .ok inner c := by
  obtain ⟨before, taken, w', hdue, hstep⟩ := due_of_reads hok h hi
  obtain ⟨ready, w, inner, c, hopens, -, hinner, -⟩ := hdue.closure_ok hop hchild hstep
  exact ⟨ready, w, inner, c, hopens, hinner⟩

/-- A job that succeeds gets to the end of its code. -/
theorem at_end (hok : j.result = .ok r d) :
    ∃ index w, j.At index w ∧ j.source.instructions.length ≤ index := by
  have hgo : ∀ left index w, j.At index w → j.source.instructions.length ≤ index + left →
      ∃ index w, j.At index w ∧ j.source.instructions.length ≤ index := by
    intro left
    induction left with
    | zero => exact fun index w h hle => ⟨index, w, h, hle⟩
    | succ left ih =>
      intro index w h hle
      rcases Nat.lt_or_ge index j.source.instructions.length with hlt | hge
      · obtain ⟨i, hi⟩ : ∃ i, j.source.instructions[index]? = some i :=
          ⟨_, getElem?_eq_getElem hlt⟩
        rw [← h.owns.code] at hi
        obtain ⟨w', hadvance⟩ := h.advances hok hi
        have hpos := j.source.width_pos i index
        exact ih _ w' (.next h hi hadvance) (by omega)
      · exact ⟨index, w, h, hge⟩
  obtain ⟨w, hw⟩ := at_zero hok
  exact hgo j.source.instructions.length 0 w hw (by omega)

end Job

end LuaRecovery

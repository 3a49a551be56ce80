/-
Different registers have different locals.

The locals of a function get their names from several places: its parameters and closures ask for
new ones, other registers may take the name of the object that they hold.  At no point of its walk
do two registers have a local of one name, each name is an identifier that is in use, and a
register keeps the local that it has.  The functions inside choose names from the same scene while
a function waits for them, so what is carried along is a property of the locals and of the scene
together, and scenes only grow.
-/
import LuaRecovery.Proofs.BoundNames
import LuaRecovery.Proofs.BranchTargets
import LuaRecovery.Proofs.NameCapture
import LuaRecovery.Proofs.NameHistories
import LuaRecovery.Proofs.Stretches

namespace LuaRecovery

/-! ### Names in use -/

/-- All names in use are identifiers. -/
def Scene.Identifiers (s : Scene) : Prop := ∀ x ∈ s.names.used, Lua.isIdentifier x = true

theorem Scene.Identifiers.grows {s s' : Scene} (h : s.Identifiers) (hs : s.Grows s') :
    s'.Identifiers := by
  intro x hx
  rcases hs.coined x hx with hold | ⟨hint, k, rfl⟩
  · exact h x hold
  · exact NameSupply.candidate_isIdentifier (Lua.sanitize_isIdentifier hint) k

theorem Context.start_identifiers (o : Options) : (Context.start o).scene.Identifiers := by
  have hused : ∀ x ∈ (Context.start o).scene.names.used, x = "game" := by
    unfold Context.start
    by_cases hon : o.simulate.isOn = true
    · rw [if_pos hon]
      exact fun x hx => List.mem_singleton.mp hx
    · rw [if_neg hon]
      exact nofun
  intro x hx
  rw [hused x hx]
  decide +kernel

theorem Context.Reached.identifiers {o : Options} {c : Context} (h : Reached o c) :
    c.scene.Identifiers :=
  (Context.start_identifiers o).grows h.later.grows

theorem Context.Reached.objects {o : Options} {c : Context} (h : Reached o c) :
    ∀ x ∈ c.scene.objects, x.name ∈ c.scene.names.used :=
  ((Context.start_registered o).grows h.later.grows).objects

namespace Walking

variable {w w' : Walk}

/-! ### Moves -/

/-- Different registers of the function at hand have different locals, and all names in use are
identifiers. -/
structure Unmixed (w : Walk) : Prop where
  apart : Apart w.frame.locals w.context.scene
  identifiers : w.context.scene.Identifiers

theorem Unmixed.grows (h : Unmixed w) (hlocals : w'.frame.locals = w.frame.locals)
    (hscene : w.context.scene.Grows w'.context.scene) : Unmixed w' :=
  ⟨hlocals ▸ h.apart.grows hscene, h.identifiers.grows hscene⟩

/-- A walk that was unmixed still is. -/
def KeepsUnmixed (w w' : Walk) : Prop := Unmixed w → Unmixed w'

theorem keepsUnmixed_of_same (hlocals : w'.frame.locals = w.frame.locals)
    (hscene : w'.context.scene = w.context.scene) : KeepsUnmixed w w' :=
  fun h => h.grows hlocals (hscene ▸ .refl _)

theorem keepsUnmixed_blocked : Blocked KeepsUnmixed where
  refl _ h := h
  trans _ _ _ h₁ h₂ h := h₂ (h₁ h)
  registers _ _ _ := keepsUnmixed_of_same rfl rfl
  scene _ _ hstages h := h.grows rfl hstages.grows
  objects _ _ := keepsUnmixed_of_same rfl rfl
  captured _ _ _ _ := keepsUnmixed_of_same rfl rfl
  assign _ _ _ _ := keepsUnmixed_of_same rfl rfl
  bind _ _ _ _ _ _ _ _ hstages _ _ hnames h :=
    ⟨hnames.apart h.apart, h.identifiers.grows hstages.grows⟩
  note _ _ := keepsUnmixed_of_same rfl rfl
  report _ _ := keepsUnmixed_of_same rfl rfl
  top _ _ := keepsUnmixed_of_same rfl rfl
  log w records h := h.grows rfl (w.context.scene.grows_logged records)
  emit _ _ _ := keepsUnmixed_of_same rfl rfl
  limits _ _ _ := keepsUnmixed_of_same rfl rfl
  strings _ _ := keepsUnmixed_of_same rfl rfl
  trace _ _ := keepsUnmixed_of_same rfl rfl
  drainRegisters _ := keepsUnmixed_of_same rfl rfl
  drainBlocks _ := keepsUnmixed_of_same rfl rfl
  blocks _ _ _ _ := keepsUnmixed_of_same rfl rfl

theorem unmixed_preserved : Preserved KeepsUnmixed Unmixed fun _ => Unmixed where
  blocked := keepsUnmixed_blocked
  keeps hw h := hw h
  stops _ hw h := hw h
  located _ h := h

/-! ### Closures -/

/-- A closure asks for a new name if its register has no local. -/
theorem prepare_unmixed (child : Child) (i : Instruction) (index : Nat) :
    Keeps KeepsUnmixed (prepare child i index) := by
  intro w
  refine after_bind (after_mono (takeLocal_after i.a (uniqueName_after _ w)) ?_ fun _ _ h => h.elim)
  rintro ⟨name, declares⟩ _ ⟨scene, objects, locals, rfl, hstages, -, -, hnew⟩
  have htaken (h : Unmixed w) : Apart locals scene := h.apart.take_fresh hstages.grows hnew
  refine after_state ?_
  have hR := keepsUnmixed_blocked.toCarried
  have hrest (code : List Instruction) : Keeps KeepsUnmixed (do
      let upvalues ← captures i.a name code
      descend
      return ({ name, declares, upvalues } : Prepared)) :=
    hR.seq (captures_keeps hR name fun _ _ _ _ => trivial) <|
      hR.seq (askHost_keeps hR.refl _) (hR.done _)
  refine after_mono (hrest _ _) (fun _ _ hrest h => ?_) fun _ _ hrest => ⟨hrest.1, fun h => ?_⟩
  · exact hrest ⟨htaken h, h.identifiers.grows hstages.grows⟩
  · exact hrest.2 ⟨htaken h, h.identifiers.grows hstages.grows⟩

/-- While a function inside is recovered the scene only grows. -/
theorem buildChild_unmixed {child : Child} (hchild : Relates Later child.build) (reg : Int)
    (name : String) (upvalues : List Upvalue) (declares : Bool) :
    Keeps KeepsUnmixed (buildChild child reg name upvalues declares) := by
  intro w
  have hgrown := hchild name (w.frame.path ++ "/" ++ name) upvalues w.context
  refine buildChild_after (fun _ _ hrun => ?_) (fun _ _ _ hrun => ⟨trivial, ?_⟩)
    fun _ _ hrun _ => ⟨trivial, ?_⟩
  all_goals
    rw [hrun] at hgrown
    exact fun h => h.grows rfl hgrown.grows

theorem closure_unmixed {children : List Child}
    (hchildren : ∀ child ∈ children, Relates Later child.build)
    (i : Instruction) (index : Nat) :
    Keeps KeepsUnmixed (closure children i index) :=
  closure_keeps keepsUnmixed_blocked.toTold (fun child => prepare_unmixed child i index)
    fun child hchild => buildChild_unmixed (hchildren child hchild) i.a

/-! ### The start of a walk -/

/-- Every parameter has a new name. -/
theorem Unmixed.addParams (count : Nat) : ∀ {f : Frame} {c : Context} (index : Nat),
    Unmixed ⟨f, c⟩ → Unmixed ⟨(f.addParams c.scene index count).1,
      { c with scene := (f.addParams c.scene index count).2 }⟩ := by
  induction count with
  | zero => exact fun _ h => h
  | succ count ih =>
    intro f c index h
    have hgrows := c.scene.uniqueName_grows s!"arg{index}"
    have hnew : ∀ reg name,
        (f.locals.insert index (c.scene.uniqueName s!"arg{index}").1).get? reg = some name →
        f.locals.get? reg = some name ∨ reg = (index : Int) ∧
          c.scene.Gives (c.scene.uniqueName s!"arg{index}").2 s!"arg{index}" name := by
      intro reg name hname
      rw [Table.get?_insert] at hname
      split at hname
      · rename_i hreg
        cases hname
        exact .inr ⟨hreg.symm, c.scene.uniqueName_gives _⟩
      · exact .inl hname
    have hfirst : Unmixed ⟨{ f with
          params := f.params ++ [(c.scene.uniqueName s!"arg{index}").1]
          locals := f.locals.insert index (c.scene.uniqueName s!"arg{index}").1
          registers := f.registers.set index (.expression (c.scene.uniqueName s!"arg{index}").1) },
        { c with scene := (c.scene.uniqueName s!"arg{index}").2 }⟩ :=
      ⟨h.apart.take_fresh hgrows hnew, h.identifiers.grows hgrows⟩
    exact ih (index + 1) hfirst

end Walking

/-- The locals of a function: different registers have different ones, and their names are
identifiers that are in use. -/
structure Frame.Separate (f : Frame) (scene : Scene) : Prop where
  injective : ∀ reg reg' name, f.locals.get? reg = some name → f.locals.get? reg' = some name →
    reg = reg'
  legal : ∀ reg name, f.locals.get? reg = some name → Lua.isIdentifier name = true
  known : ∀ reg name, f.locals.get? reg = some name → name ∈ scene.names.used

theorem Frame.Separate.grows {f : Frame} {s s' : Scene} (h : f.Separate s) (hs : s.Grows s') :
    f.Separate s' where
  injective := h.injective
  legal := h.legal
  known reg name hname := hs.used name (h.known reg name hname)

theorem Walking.Unmixed.separate {w : Walk} (h : Unmixed w) : w.frame.Separate w.context.scene where
  injective := h.apart.injective
  legal reg name hname := h.identifiers name (h.apart.known reg name hname)
  known := h.apart.known

namespace Job

open Walking

variable {j k : Job} {start index : Nat} {i : Instruction} {q : Prototype} {ready : Prepared}
  {v w : Walk}

/-- The state in which the walk of a job ends, whether it gets to the end of the code or stops
before. -/
def Ends (j : Job) (w : Walk) : Prop :=
  ∃ limits, j.context.limits.enter = .ok limits ∧ (walk j.children (j.entered limits) = .ok () w ∨
      ∃ stop, walk j.children (j.entered limits) = .error stop w)

/-- A moment of a walk: an instruction comes up, then its step is carried out, and while that of a
closure is, its function is recovered. -/
structure Moment where
  index : Nat
  stage : Nat

/-- One moment is not after another. -/
def Moment.upTo (m m' : Moment) : Prop :=
  m.index < m'.index ∨ m.index = m'.index ∧ m.stage ≤ m'.stage

/-- The states through which the walk of a job goes. -/
inductive Visits (j : Job) : Moment → Walk → Prop
  | reached {index : Nat} {w : Walk} (h : j.At index w) : Visits j ⟨index, 0⟩ w
  | due {index : Nat} {i : Instruction} {w : Walk} (h : j.Due index i w) : Visits j ⟨index, 1⟩ w
  | opens {index : Nat} {i : Instruction} {q : Prototype} {ready : Prepared} {w : Walk}
      (h : j.Opens index i q ready w) : Visits j ⟨index, 2⟩ w
  | ended {w : Walk} (h : j.Ends w) : Visits j ⟨j.source.instructions.length + 1, 0⟩ w

/-- What holds wherever a walk may stop holds where it ends. -/
theorem Ends.of_after {I : Walk → Prop} (h : j.Ends w)
    (hwalk : ∀ limits, j.context.limits.enter = .ok limits →
      After (fun _ => I) (fun _ => I) (walk j.children (j.entered limits))) : I w := by
  obtain ⟨limits, henter, hend⟩ := h
  have hafter := hwalk limits henter
  rcases hend with hok | ⟨stop, herror⟩
  · rwa [hok] at hafter
  · rwa [herror] at hafter

/-! ### States that are unmixed -/

/-- A job whose scene names its objects, by identifiers. -/
structure Starts (j : Job) : Prop where
  objects : ∀ o ∈ j.context.scene.objects, o.name ∈ j.context.scene.names.used
  identifiers : j.context.scene.Identifiers

theorem entered_unmixed (hj : j.Starts) (limits : Limits) : Unmixed (j.entered limits) := by
  have hbare : Unmixed ⟨Frame.bare j.source j.name j.path j.upvalues, { j.context with limits }⟩ :=
    ⟨⟨nofun, nofun, hj.objects⟩, hj.identifiers⟩
  exact hbare.addParams j.source.paramCount.toNat 0

theorem closures_unmixed (j : Job) (i : Instruction) (index : Nat) (w : Walk) (hw : Unmixed w) :
    After (fun _ => Unmixed) (fun _ => Unmixed) (closure j.children i index w) :=
  unmixed_preserved.after (closure_unmixed (j.forall_children Prototype.build_grows) i index) hw

theorem Due.unmixed (h : j.Due index i w) (hj : j.Starts) : Unmixed w :=
  h.preserved unmixed_preserved (entered_unmixed hj) j.closures_unmixed

theorem Opens.unmixed (h : j.Opens index i q ready w) (hj : j.Starts) : Unmixed w := by
  obtain @⟨before, hdue, -, -, hprepared⟩ := h
  have hafter := prepare_unmixed q.asChild i index before
  rw [hprepared] at hafter
  exact hafter (hdue.unmixed hj)

theorem Visits.unmixed {m : Moment} (h : j.Visits m w) (hj : j.Starts) : Unmixed w := by
  cases h with
  | reached h => exact h.preserved unmixed_preserved (entered_unmixed hj) j.closures_unmixed
  | due h => exact h.unmixed hj
  | opens h => exact h.unmixed hj
  | ended h =>
    refine h.of_after fun limits _ => ?_
    exact unmixed_preserved.walk j.closures_unmixed (entered_unmixed hj limits)

theorem Opens.starts (h : j.Opens index i q ready w) (hj : j.Starts) : (inside q ready w).Starts :=
  ⟨(h.unmixed hj).apart.objects, (h.unmixed hj).identifiers⟩

theorem Runs.starts (h : j.Runs k) (hj : j.Starts) : k.Starts := by
  induction h with
  | self => exact hj
  | inside hopens _ _ ih => exact ih (hopens.starts hj)

theorem Live.separate {frames : List Frame} {c : Context} (h : j.Live frames c) (hj : j.Starts) :
    ∀ f ∈ frames, f.Separate c.scene := by
  induction h with
  | here hreached =>
    intro f hf
    rw [List.mem_singleton.mp hf]
    exact ((Visits.reached hreached).unmixed hj).separate
  | inside hopens hrest ih =>
    intro f hf
    rcases List.mem_cons.mp hf with rfl | hf
    · exact (hopens.unmixed hj).separate.grows hrest.later.grows
    · exact ih (hopens.starts hj) f hf

/-! ### From one moment to another -/

theorem closures_onward (j : Job) (v : Walk) (i : Instruction) (index : Nat) (w : Walk)
    (hw : Onward v w) :
    After (fun _ => Onward v) (fun _ => Onward v) (closure j.children i index w) :=
  (onward_preserved v).after (closure_onward j.children i index) hw

/-- A state in the middle of an instruction: the rest of the instruction takes nothing back. -/
def Midway (j : Job) (index : Nat) (v : Walk) : Prop :=
  ∃ i before, j.At index before ∧ before.frame.code[index]? = some i ∧
    After (fun _ => Onward v) (fun _ => Onward v) (advance j.children i index before)

theorem midway_of_step (hreached : j.At index w) (hi : w.frame.code[index]? = some i) {u : Walk}
    (happroach : approach i index w = .ok () u)
    (hstep : After (fun _ => Onward v) (fun _ => Onward v) (step j.children i index u)) :
    j.Midway index v := by
  obtain ⟨mark, hadvance⟩ := advance_of_approach happroach j.children
  refine ⟨i, w, hreached, hi, ?_⟩
  rw [hadvance]
  refine after_seq (after_locating index hstep fun _ _ _ h => h) fun taken w₁ hw₁ => ?_
  exact (onward_preserved v).conclude i index mark taken hw₁

theorem Due.midway (h : j.Due index i v) : j.Midway index v := by
  have hrefl := onward_blocked.refl v
  obtain ⟨hreached, hi, happroach⟩ := h
  refine midway_of_step hreached hi happroach ?_
  exact (onward_preserved v).step (fun _ => j.closures_onward v i index v hrefl) hrefl

theorem Opens.midway (h : j.Opens index i q ready v) : j.Midway index v := by
  have hkept := onward_preserved v
  obtain ⟨before, hdue, hstep⟩ := h.step
  obtain ⟨hreached, hi, happroach⟩ := hdue
  refine midway_of_step hreached hi happroach ?_
  rw [hstep]
  refine after_seq (hkept.after (buildChild_onward _ _ _ _ _) (onward_blocked.refl v))
    fun _ w hw => ?_
  exact after_bind (hkept.after (setRegister_keeps onward_blocked.toCarried trivial _) hw)

theorem Midway.at_onward (h : j.Midway index v) {index' : Nat} (h' : j.At index' w)
    (hlt : index < index') : Onward v w := by
  obtain ⟨i, before, hreached, hi, hrest⟩ := h
  rcases (hreached.stretch h' (Nat.le_of_lt hlt)).head with ⟨heq, -⟩ |
    ⟨i', taken, after, hi', hadvance, hstretch⟩
  · omega
  · rw [hi] at hi'
    cases hi'
    rw [hadvance] at hrest
    exact hrest.trans _ _ _ ((At.next hreached hi hadvance).onward h' hstretch.le)

theorem At.ends_onward (h : j.At index v) (hend : j.Ends w) : Onward v w := by
  obtain ⟨limits, fuel, henter, -, hwalk⟩ := h.walk
  refine hend.of_after fun limits' henter' => ?_
  rw [henter] at henter'
  cases henter'
  rw [hwalk]
  exact (onward_preserved v).rest (j.closures_onward v) fuel index (onward_blocked.refl v)

theorem Midway.ends_onward (h : j.Midway index v) (hend : j.Ends w) : Onward v w := by
  obtain ⟨i, before, hreached, hi, hrest⟩ := h
  obtain ⟨limits, fuel, henter, hfuel, hwalk⟩ := hreached.walk
  have hlt := (List.getElem?_eq_some_iff.mp hi).1
  obtain ⟨fuel, rfl⟩ := Nat.exists_eq_succ_of_ne_zero (n := fuel) (by omega)
  refine hend.of_after fun limits' henter' => ?_
  rw [henter] at henter'
  cases henter'
  rw [hwalk, walkFrom, bind_assoc, run_get, hi]
  show After _ _ (((advance j.children i index >>= _) >>= _ : Walking Unit) before)
  rw [bind_assoc]
  refine after_seq hrest fun taken w₁ hw₁ => ?_
  exact (onward_preserved v).rest (j.closures_onward v) fuel (index + taken) hw₁

theorem Ends.unique (h : j.Ends v) (h' : j.Ends w) : v = w := by
  refine h'.of_after fun limits henter => ?_
  obtain ⟨limits', henter', h⟩ := h
  rw [henter] at henter'
  cases henter'
  rcases h with hok | ⟨stop, herror⟩
  · rw [hok]
    exact rfl
  · rw [herror]
    exact rfl

variable {m m' : Moment}

/-- A moment up to a stage is at that stage, or is up to the one before it. -/
theorem Moment.upTo_succ {stage : Nat} (h : m.upTo ⟨index, stage + 1⟩) :
    m.upTo ⟨index, stage⟩ ∨ m = ⟨index, stage + 1⟩ := by
  obtain ⟨k, s⟩ := m
  unfold upTo at *
  simp only [Moment.mk.injEq]
  dsimp only at *
  omega

theorem Visits.at_onward (h : j.Visits m v) (h' : j.At index w) (hle : m.upTo ⟨index, 0⟩) :
    Onward v w := by
  unfold Moment.upTo at hle
  cases h with
  | reached h => exact h.onward h' (by dsimp only at hle; omega)
  | due h => exact h.midway.at_onward h' (by dsimp only at hle; omega)
  | opens h => exact h.midway.at_onward h' (by dsimp only at hle; omega)
  | ended h =>
    have hlength := h'.le_length
    dsimp only at hle
    omega

theorem Visits.due_onward (h : j.Visits m v) (h' : j.Due index i w) (hle : m.upTo ⟨index, 1⟩) :
    Onward v w := by
  rcases Moment.upTo_succ hle with hle | rfl
  · obtain @⟨before, hreached, hi, happroach⟩ := h'
    have hafter := (onward_preserved v).approach i index (h.at_onward hreached hle)
    rwa [happroach] at hafter
  · cases h with
    | due h =>
      obtain ⟨-, rfl⟩ := h.unique h'
      exact onward_blocked.refl _

theorem Opens.unique {i' : Instruction} {q' : Prototype} {ready' : Prepared}
    (h : j.Opens index i q ready v) (h' : j.Opens index i' q' ready' w) : v = w := by
  obtain @⟨before, hdue, -, hchild, hprepared⟩ := h
  obtain @⟨before', hdue', -, hchild', hprepared'⟩ := h'
  obtain ⟨rfl, rfl⟩ := hdue.unique hdue'
  rw [hchild] at hchild'
  cases hchild'
  rw [hprepared] at hprepared'
  exact (EStateM.Result.ok.inj hprepared').2

theorem Visits.opens_onward (h : j.Visits m v) (h' : j.Opens index i q ready w)
    (hle : m.upTo ⟨index, 2⟩) : Onward v w := by
  rcases Moment.upTo_succ hle with hle | rfl
  · obtain @⟨before, hdue, -, -, hprepared⟩ := h'
    have hafter := (onward_preserved v).after (prepare_onward q.asChild i index)
      (h.due_onward hdue hle)
    rwa [hprepared] at hafter
  · cases h with
    | opens h =>
      obtain rfl := h.unique h'
      exact onward_blocked.refl _

/-- From every moment of a walk to a later one nothing is taken back. -/
theorem Visits.onward (h : j.Visits m v) (h' : j.Visits m' w) (hle : m.upTo m') : Onward v w := by
  cases h' with
  | reached h' => exact h.at_onward h' hle
  | due h' => exact h.due_onward h' hle
  | opens h' => exact h.opens_onward h' hle
  | ended hend =>
    cases h with
    | reached h => exact h.ends_onward hend
    | due h => exact h.midway.ends_onward hend
    | opens h => exact h.midway.ends_onward hend
    | ended h =>
      obtain rfl := h.unique hend
      exact onward_blocked.refl _

/-! ### Locals -/

theorem starts_of_reached {o : Options} (hj : Context.Reached o j.context) : j.Starts :=
  ⟨hj.objects, hj.identifiers⟩

end Job

/-- **Registers do not share locals.**  In a context that was fresh or in which only functions were
recovered, at every moment of the walk of a function and of each function inside, different
registers have different locals, whose names are identifiers that are in use, and a register keeps
its local.  The same holds of the functions that wait while one inside is recovered. -/
theorem locals_stay_separate {o : Options} {j : Job} (hj : Context.Reached o j.context) :
    (∀ k m w, j.Runs k → k.Visits m w → w.frame.Separate w.context.scene) ∧
    (∀ k m m' w w', j.Runs k → k.Visits m w → k.Visits m' w' → m.upTo m' →
      ∀ reg name, w.frame.locals.get? reg = some name → w'.frame.locals.get? reg = some name) ∧
    ∀ frames c, j.Live frames c → ∀ f ∈ frames, f.Separate c.scene := by
  have hstarts := Job.starts_of_reached hj
  refine ⟨fun k m w hruns hvisits => ?_, fun k m m' w w' _ hvisits hvisits' hle => ?_,
    fun frames c hlive => hlive.separate hstarts⟩
  · exact (hvisits.unmixed (hruns.starts hstarts)).separate
  · exact (hvisits.onward hvisits' hle).locals

/-- Two registers that hold the same object, after a parameter and before a closure. -/
def twoServices : Job :=
  .fresh {
    instructions := [{ opcode := .getGlobal, a := 1, b := 0 },
      { opcode := .selfIndex, a := 1, b := 1, c := 257 },
      { opcode := .loadConstant, a := 3, b := 2 }, { opcode := .call, a := 1, b := 3, c := 2 },
      { opcode := .getGlobal, a := 2, b := 0 }, { opcode := .selfIndex, a := 2, b := 2, c := 257 },
      { opcode := .loadConstant, a := 4, b := 2 }, { opcode := .call, a := 2, b := 3, c := 2 },
      { opcode := .closure, a := 5 }]
    constants := [.string "game", .string "GetService", .string "Players"]
    children := [{ instructions := [{ opcode := .ret, b := 1 }] }]
    paramCount := 1 } "main" "main" {}

/-- In `twoServices` only one of the two registers gets the name of the object, and it has that name
at the end of the code as well. -/
theorem twoServices_separate : ∃ w w', twoServices.At 4 w ∧ twoServices.At 9 w' ∧
      w.frame.locals.get? 1 = some "Players" ∧ w'.frame.locals.get? 1 = some "Players" ∧
      [0, 2, 5].map w'.frame.locals.get? = [some "arg0", some "Players_2", some "func"] ∧
      w'.frame.Separate w'.context.scene := by
  have hfirst : (twoServices.stateAt? 4).any
      (fun w => w.frame.locals.get? 1 = some "Players") = true := by
    decide +kernel
  have hlast : (twoServices.stateAt? 9).any (fun w => [0, 2, 5].map w.frame.locals.get? =
      [some "arg0", some "Players_2", some "func"]) = true := by
    decide +kernel
  cases hstate : twoServices.stateAt? 4 with
  | none => simp [hstate] at hfirst
  | some w =>
    cases hstate' : twoServices.stateAt? 9 with
    | none => simp [hstate'] at hlast
    | some w' =>
      simp only [hstate, hstate', Option.any_some, decide_eq_true_eq] at hfirst hlast
      have hreached := Job.at_of_stateAt? hstate
      have hreached' := Job.at_of_stateAt? hstate'
      obtain ⟨hseparate, hkept, -⟩ := locals_stay_separate (j := twoServices) (o := {}) .start
      exact ⟨w, w', hreached, hreached', hfirst,
        hkept _ _ _ _ _ .self (.reached hreached) (.reached hreached') (.inl (by decide)) 1 _
          hfirst, hlast, hseparate _ _ _ .self (.reached hreached')⟩

end LuaRecovery

/-
The moves that steps are made of.

Writing values down changes the state of a walk in a handful of ways: a register is
written or read, the scene grows, an assignment is added, a register gets a local.  A
relation between states that is reflexive, transitive and holds across each of these
moves is `Carried`, and then it holds across every action that is made of them.  What is
to be known of these actions is therefore checked once for each move and not once for
each action.

The set `A` has the registers that may be read, written or bound.  A closure gives its register
a local before it is bound, and what it does in between concerns other registers only.
-/
import LuaRecovery.Proofs.FreshNames
import LuaRecovery.Proofs.Outcome
import LuaRecovery.Proofs.RegisterTables

namespace LuaRecovery

open List

/-- An assignment of an expression. -/
def Statement.IsAssign : Statement → Prop
  | .assign _ _ _ _ => True
  | _ => False

/-- Whether an assignment declares its target. -/
def Statement.declares? : Statement → Option Bool
  | .assign _ _ declares _ => some declares
  | .define _ _ declares _ => some declares
  | _ => none

theorem Table.mem_values {κ α : Type} [DecidableEq κ] {t : Table κ α} {k : κ} {v : α}
    (h : t.get? k = some v) : v ∈ t.values := mem_map_of_mem (mem_of_find h)

namespace Walking

/-- Registers are bound: each has a local afterwards, and something is declared exactly if
one of them had none. -/
structure Binds (before : Table Int String) (registers : List Int)
    (after : Table Int String) (declares : Bool) : Prop where
  declares_iff : declares = true ↔ ∃ reg ∈ registers, before.get? reg = none
  named_iff : ∀ reg, (after.get? reg).isSome = true ↔
    (before.get? reg).isSome = true ∨ reg ∈ registers
  kept : ∀ reg name, before.get? reg = some name → after.get? reg = some name

theorem binds_nil (locals : Table Int String) : Binds locals [] locals false :=
  ⟨by simp, by simp, fun _ _ h => h⟩

variable {reg : Int} {E : Stop → Walk → Prop} {name : String} {w : Walk} {R : Walk → Walk → Prop}
  {s s' : Scene} {α : Type} {T : Stop → Prop}

/-- Registers are bound one after the other. -/
theorem binds_cons {before middle after : Table Int String} {rest : List Int} {declares more : Bool}
    (h₁ : Binds before [reg] middle declares) (h₂ : Binds middle rest after more) :
    Binds before (reg :: rest) after (declares || more) := by
  have hmiddle : ∀ r, middle.get? r = none ↔ before.get? r = none ∧ r ≠ reg := by
    intro r
    have := h₁.named_iff r
    rw [mem_singleton, Option.isSome_iff_ne_none, Option.isSome_iff_ne_none] at this
    grind
  refine ⟨?_, ?_, fun r name h => h₂.kept r name (h₁.kept r name h)⟩
  · rw [Bool.or_eq_true, h₁.declares_iff, h₂.declares_iff]
    constructor
    · rintro (⟨r, hr, hnone⟩ | ⟨r, hr, hnone⟩)
      · exact ⟨r, by simpa using Or.inl (mem_singleton.mp hr), hnone⟩
      · exact ⟨r, mem_cons_of_mem _ hr, ((hmiddle r).mp hnone).1⟩
    · rintro ⟨r, hr, hnone⟩
      by_cases hreg : r = reg
      · exact Or.inl ⟨r, by simp [hreg], hnone⟩
      · rcases mem_cons.mp hr with h | h
        · exact absurd h hreg
        · exact Or.inr ⟨r, h, (hmiddle r).mpr ⟨hnone, hreg⟩⟩
  · intro r
    rw [h₂.named_iff, h₁.named_iff, mem_singleton, mem_cons, or_assoc]

/-- The state after an assignment was added that binds registers. -/
def bound (w : Walk) (registers : List Int) (s : Statement) (locals : Table Int String) : Walk :=
  { w with
    frame.locals := locals
    frame.bindings := w.frame.bindings ++ [⟨w.frame.body.length, registers⟩]
    frame.body := w.frame.body ++ [s] }

/-- The scene may be followed by another: it has only grown, without a simulation no object was
added, and no call was recorded. -/
structure Stages (w : Walk) (scene : Scene) : Prop where
  grows : w.context.scene.Grows scene
  idle : w.context.options.simulate.isOn = false → scene.objects = w.context.scene.objects
  calls : scene.calls = w.context.scene.calls

/-- The name of a local of a register is chosen between two scenes: a new one for the register,
that of an object, or a new one after an object. -/
inductive Chosen (scene scene' : Scene) (reg : Int) (name : String) : Prop
  | register : scene.Gives scene' s!"v{reg}" name → Chosen scene scene' reg name
  | object (o : Scene.Object) : o ∈ scene'.objects → name = o.name → Chosen scene scene' reg name
  | after (o : Scene.Object) : o ∈ scene'.objects → scene.Gives scene' o.name name →
      Chosen scene scene' reg name

/-- Different registers have different locals, and the names of locals and of objects are in
use. -/
structure Apart (locals : Table Int String) (scene : Scene) : Prop where
  injective : ∀ reg reg' name, locals.get? reg = some name → locals.get? reg' = some name →
    reg = reg'
  known : ∀ reg name, locals.get? reg = some name → name ∈ scene.names.used
  objects : ∀ o ∈ scene.objects, o.name ∈ scene.names.used

/-- The names of the locals of registers: those that were not there before are chosen, and keep
different registers apart. -/
structure Names (before : Table Int String) (scene : Scene) (registers : List Int)
    (names : List String) (after : Table Int String) (scene' : Scene) : Prop where
  names : registers.map after.get? = names.map some
  chosen : ∀ reg name, after.get? reg = some name →
    before.get? reg = some name ∨ Chosen scene scene' reg name
  apart : Apart before scene → Apart after scene'

/-- A name by which a function may refer to an upvalue: one that it was given, or one for an
index beyond those. -/
def Refers (w : Walk) (name : String) : Prop :=
  (∃ upvalue ∈ w.frame.upvalues, upvalue.name = name) ∨
    ∃ index : Int, name = "upval" ++ toString index

/-- A relation that holds across the moves by which values are written down. -/
structure Carried (R : Walk → Walk → Prop) (A : Int → Prop := fun _ => True) : Prop where
  refl : ∀ w, R w w
  trans : ∀ w₁ w₂ w₃, R w₁ w₂ → R w₂ w₃ → R w₁ w₃
  registers : ∀ w r, w.frame.registers.ChangesAt A r → R w { w with frame.registers := r }
  scene : ∀ w scene, Stages w scene → R w { w with context.scene := scene }
  objects : ∀ w t, R w { w with frame.objectLocals := t }
  captured : ∀ w name, Refers w name → name ∉ w.frame.captured →
    R w { w with frame.captured := w.frame.captured ++ [name] }
  assign : ∀ w target value comment,
    R w { w with frame.body := w.frame.body ++ [.assign target value false comment] }
  bind : ∀ w scene registers names locals value declares comment, Stages w scene →
    (∀ reg ∈ registers, A reg) → Binds w.frame.locals registers locals declares →
    Names w.frame.locals w.context.scene registers names locals scene →
    R w (bound { w with context.scene := scene } registers
      (.assign (Text.commaList names) value declares comment) locals)

/-- Fewer registers may be concerned. -/
theorem Carried.restrict {A A' : Int → Prop} (hR : Carried R A) (hA : ∀ reg, A' reg → A reg) :
    Carried R A' where
  refl := hR.refl
  trans := hR.trans
  registers w r h := hR.registers w r (h.mono hA)
  scene := hR.scene
  objects := hR.objects
  captured := hR.captured
  assign := hR.assign
  bind w scene registers names locals value declares comment hstages hregisters :=
    hR.bind w scene registers names locals value declares comment hstages
      fun reg hreg => hA reg (hregisters reg hreg)

/-! ### Names -/

theorem stages_self (w : Walk) : Stages w w.context.scene :=
  ⟨.refl _, fun _ => rfl, rfl⟩

theorem Stages.trans {scene scene' : Scene} {frame : Frame} (h₁ : Stages w scene)
    (h₂ : Stages ⟨frame, { w.context with scene }⟩ scene') : Stages w scene' :=
  ⟨h₁.grows.trans h₂.grows, fun h => (h₂.idle h).trans (h₁.idle h), h₂.calls.trans h₁.calls⟩

/-- Only the scene differs. -/
def Offstage (w w' : Walk) : Prop := ∃ s, Stages w s ∧ w' = { w with context.scene := s }

theorem Offstage.refl (w : Walk) : Offstage w w := ⟨w.context.scene, stages_self w, rfl⟩

theorem Offstage.trans (w₁ w₂ w₃ : Walk) (h₁ : Offstage w₁ w₂) (h₂ : Offstage w₂ w₃) :
    Offstage w₁ w₃ := by
  obtain ⟨s, hs, rfl⟩ := h₁
  obtain ⟨t, ht, rfl⟩ := h₂
  exact ⟨t, hs.trans ht, rfl⟩

theorem Carried.offstage {A : Int → Prop} (hR : Carried R A) {w w' : Walk} (h : Offstage w w') :
    R w w' := by
  obtain ⟨s, hs, rfl⟩ := h
  exact hR.scene w s hs

theorem Carried.keeps {A : Int → Prop} (hR : Carried R A) {m : Walking α}
    (h : Keeps Offstage m T) : Keeps R m T :=
  keeps_mono h (fun _ h => h) fun _ _ h => hR.offstage h

section

variable {A : Int → Prop} (hR : Carried R A)

include hR

theorem Carried.done (a : α) : Keeps R (pure a : Walking α) T := keeps_pure hR.refl a

theorem Carried.chain {β : Type} {m : Walking α} {f : α → Walking β} (hm : Keeps R m T)
    (hf : ∀ a, Keeps R (f a) T) : Keeps R (m >>= f) T := keeps_bind hR.trans hm hf

theorem Carried.seq {β : Type} {m : Walking α} {f : α → Walking β} (hm : Keeps R m T)
    (hf : ∀ {a}, Keeps R (f a) T) : Keeps R (m >>= f) T := hR.chain hm fun _ => hf

end

theorem after_localOf? {Q : Option String → Walk → Prop} (h : Q (w.frame.locals.get? reg) w) :
    After Q E (localOf? reg w) := h

theorem after_simulating {Q : Bool → Walk → Prop} (h : Q w.context.options.simulate.isOn w) :
    After Q E (simulating w) := h

theorem simulating_offstage : Keeps Offstage simulating T := fun w => Offstage.refl w

theorem after_query {f : Scene → Except Scene.Fault α} {Q : α → Walk → Prop}
    (hok : ∀ a, f w.context.scene = .ok a → Q a w) (hfault : ∀ fault, E (.scene fault) w) :
    After Q E (query f w) := by
  refine after_state ?_
  cases hf : f w.context.scene with
  | ok a => exact hok a hf
  | error fault => exact hfault fault

theorem query_offstage [Stop.Covers T] (f : Scene → Except Scene.Fault α) :
    Keeps Offstage (query f) T :=
  fun w => after_query (fun _ _ => Offstage.refl w) fun _ =>
    ⟨Stop.Covers.fault _ trivial, Offstage.refl w⟩

/-- A change of the scene while it is simulated. -/
theorem modifyScene_offstage {f : Scene → Except Scene.Fault (α × Scene)}
    (hf : ∀ s a s', f s = .ok (a, s') → s.Grows s' ∧ s'.calls = s.calls)
    (hsimulate : w.context.options.simulate.isOn = true) :
    After (fun _ w' => Offstage w w') (fun stop w' => stop.IsFault ∧ Offstage w w')
      (modifyScene f w) := by
  refine after_bind (after_query ?_ fun _ => ⟨trivial, Offstage.refl w⟩)
  rintro ⟨a, scene⟩ hok
  refine ⟨scene, ⟨(hf _ _ _ hok).1, fun hoff => ?_, (hf _ _ _ hok).2⟩, rfl⟩
  rw [hsimulate] at hoff
  cases hoff

/-- There is always a new name. -/
theorem uniqueName_after (hint : String) (w : Walk) : After
      (fun name w' => ∃ scene, Stages w scene ∧ w.context.scene.Gives scene hint name ∧
        w' = { w with context.scene := scene })
      (fun _ _ => False) (uniqueName hint w) :=
  ⟨_, ⟨w.context.scene.uniqueName_grows hint, fun _ => rfl, rfl⟩,
    w.context.scene.uniqueName_gives hint, rfl⟩

/-- No register has a local of a name. -/
def Unused (locals : Table Int String) (name : String) : Prop := ∀ reg, locals.get? reg ≠ some name

theorem Apart.unused {locals : Table Int String} {scene : Scene} (h : Apart locals scene)
    (hfresh : name ∉ scene.names.used) : Unused locals name :=
  fun reg hreg => hfresh (h.known reg name hreg)

/-- A register gets a new name, unless its number cannot be written. -/
theorem numberedName_after (reg : Int) (w : Walk) : After
      (fun name w' => ∃ scene, Stages w scene ∧ w.context.scene.Gives scene s!"v{reg}" name ∧
        w' = { w with context.scene := scene })
      (fun stop w' => stop.IsFault ∧ w' = w) (numberedName reg w) := by
  refine after_bind (after_askHost ?_ fun _ _ => ⟨trivial, rfl⟩)
  exact after_fault (uniqueName_after _ w) fun _ _ h => h.elim

theorem chooseName_after (reg : Int) (value : Slot) (w : Walk) : After
      (fun name w' => ∃ scene, Stages w scene ∧ (Chosen w.context.scene scene reg name ∧
          (Apart w.frame.locals w.context.scene → Unused w.frame.locals name)) ∧
        w' = { w with context.scene := scene })
      (fun stop w' => stop.IsFault ∧ Offstage w w') (chooseName reg value w) := by
  have hregister : After
      (fun name w' => ∃ scene, Stages w scene ∧ (Chosen w.context.scene scene reg name ∧
          (Apart w.frame.locals w.context.scene → Unused w.frame.locals name)) ∧
        w' = { w with context.scene := scene })
      (fun stop w' => stop.IsFault ∧ Offstage w w') (numberedName reg w) := by
    refine after_mono (numberedName_after reg w) ?_ fun _ _ h => ⟨h.1, h.2 ▸ Offstage.refl w⟩
    rintro name _ ⟨scene, hstages, hgives, rfl⟩
    exact ⟨scene, hstages, ⟨.register hgives, fun h => h.unused hgives.fresh⟩, rfl⟩
  refine after_bind (after_simulating ?_)
  cases value.handle with
  | none => exact hregister
  | some handle =>
    cases w.context.options.simulate.isOn with
    | false => exact hregister
    | true =>
      refine after_bind (after_query ?_ fun _ => ⟨trivial, Offstage.refl w⟩)
      intro display hdisplay
      obtain ⟨o, ho, rfl⟩ : ∃ o ∈ w.context.scene.objects, o.name = display := by
        unfold Scene.nameOf Scene.object at hdisplay
        split at hdisplay
        · rename_i o hfound
          cases hdisplay
          exact ⟨o, mem_of_getElem? hfound, rfl⟩
        · cases hdisplay
      refine after_state ?_
      split
      · refine after_mono (uniqueName_after _ w) ?_ fun _ _ h => h.elim
        rintro name _ ⟨scene, hstages, hgives, rfl⟩
        exact ⟨scene, hstages, ⟨.after o (hstages.grows.objects o ho) hgives,
          fun h => h.unused hgives.fresh⟩, rfl⟩
      · rename_i hfree
        refine ⟨_, stages_self w, ⟨.object o ho rfl, fun _ r hr => hfree ?_⟩, rfl⟩
        exact contains_iff_mem.mpr (Table.mem_values hr)

theorem servesHandle_offstage [Stop.Covers T] (handle : Option Nat) :
    Keeps Offstage (servesHandle handle) T := by
  refine keeps_bind Offstage.trans simulating_offstage fun simulated => ?_
  exact keeps_ite (query_offstage _) (keeps_pure Offstage.refl false)

theorem namesHandle_offstage [Stop.Covers T] (text : String) (handle : Option Nat) :
    Keeps Offstage (namesHandle text handle) T := by
  refine keeps_bind Offstage.trans simulating_offstage fun simulated => ?_
  cases handle with
  | none => exact keeps_pure Offstage.refl false
  | some handle =>
    cases simulated with
    | false => exact keeps_pure Offstage.refl false
    | true =>
      exact keeps_bind Offstage.trans (query_offstage _) fun _ => keeps_pure Offstage.refl _

/-- What taking a local for a register changes.  `C` is what is known of a name that was
chosen. -/
theorem takeLocal_after {choose : Walking String} {C : Scene → String → Prop} (reg : Int)
    (hchoose : After
      (fun name w' => ∃ scene, Stages w scene ∧ C scene name ∧
        w' = { w with context.scene := scene })
      E (choose w)) :
    After
      (fun a w' => ∃ scene objects locals, w' = { w with
          frame.locals := locals
          frame.objectLocals := objects
          context.scene := scene } ∧ Stages w scene ∧ Binds w.frame.locals [reg] locals a.2 ∧
        locals.get? reg = some a.1 ∧
        ∀ r name, locals.get? r = some name →
          w.frame.locals.get? r = some name ∨ r = reg ∧ C scene name)
      E (takeLocal reg choose w) := by
  refine after_bind (after_localOf? ?_)
  cases hreg : w.frame.locals.get? reg with
  | some name =>
    refine ⟨w.context.scene, _, w.frame.locals, rfl, stages_self w,
      ⟨by simp [hreg], ?_, fun _ _ h => h⟩, hreg, fun _ _ h => .inl h⟩
    intro r
    constructor
    · exact Or.inl
    · rintro (h | h)
      · exact h
      · rw [mem_singleton.mp h, hreg]
        rfl
  | none =>
    refine after_seq hchoose ?_
    rintro name w' ⟨scene, hstages, hname, rfl⟩
    refine ⟨scene, w.frame.objectLocals, w.frame.locals.insert reg name, rfl, hstages,
      ⟨?_, ?_, ?_⟩, ?_, ?_⟩
    · simp [hreg]
    · intro r
      by_cases hr : reg = r
      · simp [hr]
      · simp [hr, Ne.symm hr]
    · intro r n hn
      by_cases hr : reg = r
      · rw [← hr, hreg] at hn
        cases hn
      · simpa [hr] using hn
    · simp
    · intro r n hn
      rw [Table.get?_insert] at hn
      split at hn
      · rename_i hr
        cases hn
        exact .inr ⟨hr.symm, hname⟩
      · exact .inl hn

/-! ### Registers -/

theorem Chosen.used (h : Chosen s s' reg name) (hs : ∀ o ∈ s'.objects, o.name ∈ s'.names.used) :
    name ∈ s'.names.used := by
  cases h with
  | register hgives => exact hgives.used
  | object o ho hname => exact hname ▸ hs o ho
  | after o _ hgives => exact hgives.used

theorem Apart.grows {locals : Table Int String} (h : Apart locals s) (hs : s.Grows s') :
    Apart locals s' where
  injective := h.injective
  known reg name hname := hs.used name (h.known reg name hname)
  objects o ho := (hs.named o ho).elim (fun hold => hs.used _ (h.objects o hold)) id

/-- A register that gets a local of a name that none has stays apart from the others. -/
theorem Apart.take {before after : Table Int String} (h : Apart before s) (hs : s.Grows s')
    (hnew : ∀ r name, after.get? r = some name →
      before.get? r = some name ∨ r = reg ∧ name ∈ s'.names.used ∧ Unused before name) :
    Apart after s' where
  injective r r' name hr hr' := by
    rcases hnew r name hr with hold | ⟨rfl, -, hfree⟩ <;>
      rcases hnew r' name hr' with hold' | ⟨rfl, -, hfree'⟩
    · exact h.injective r r' name hold hold'
    · exact absurd hold (hfree' r)
    · exact absurd hold' (hfree r')
    · rfl
  known r name hr := (hnew r name hr).elim (fun hold => hs.used name (h.known r name hold))
    fun hnew => hnew.2.1
  objects := (h.grows hs).objects

theorem Apart.take_fresh {before after : Table Int String} {hint : String} (h : Apart before s)
    (hs : s.Grows s')
    (hnew : ∀ r name, after.get? r = some name →
      before.get? r = some name ∨ r = reg ∧ s.Gives s' hint name) : Apart after s' :=
  h.take hs fun r name hr => (hnew r name hr).imp_right fun ⟨hreg, hgives⟩ =>
    ⟨hreg, hgives.used, h.unused hgives.fresh⟩

theorem Chosen.of_grows {s s' s'' : Scene} (hs : s.Grows s') (h : Chosen s' s'' reg name) :
    Chosen s s'' reg name := by
  cases h with
  | register hgives => exact .register (hgives.of_grows hs)
  | object o ho hname => exact .object o ho hname
  | after o ho hgives => exact .after o ho (hgives.of_grows hs)

theorem Chosen.grows {s s' s'' : Scene} (h : Chosen s s' reg name) (hs : s'.Grows s'') :
    Chosen s s'' reg name := by
  cases h with
  | register hgives => exact .register (hgives.grows hs)
  | object o ho hname => exact .object o (hs.objects o ho) hname
  | after o ho hgives => exact .after o (hs.objects o ho) (hgives.grows hs)

theorem names_nil (locals : Table Int String) (scene : Scene) :
    Names locals scene [] [] locals scene :=
  ⟨rfl, fun _ _ h => .inl h, id⟩

/-- Registers get their locals one after the other. -/
theorem names_cons {before middle after : Table Int String} {s s' s'' : Scene} {rest : List Int}
    {names : List String} (hs : s.Grows s') (hs' : s'.Grows s'')
    (hname : after.get? reg = some name)
    (hfirst : ∀ r n, middle.get? r = some n → before.get? r = some n ∨ Chosen s s' r n)
    (hapart : Apart before s → Apart middle s') (hrest : Names middle s' rest names after s'') :
    Names before s (reg :: rest) (name :: names) after s'' := by
  refine ⟨?_, fun r n hn => ?_, fun h => hrest.apart (hapart h)⟩
  · rw [map_cons, map_cons, hname, hrest.names]
  · rcases hrest.chosen r n hn with hmiddle | hchosen
    · exact (hfirst r n hmiddle).imp_right fun h => h.grows hs'
    · exact .inr (hchosen.of_grows hs)

/-- What taking locals for several registers changes.  If it stops, some may be taken. -/
theorem bindTargets_after : ∀ (regs : List Int) (w : Walk), After
      (fun a w' => ∃ scene objects locals registers, w' = { w with
          frame.locals := locals
          frame.objectLocals := objects
          frame.registers := registers
          context.scene := scene } ∧ Stages w scene ∧ Binds w.frame.locals regs locals a.2 ∧
        Names w.frame.locals w.context.scene regs a.1 locals scene ∧
        w.frame.registers.ChangesAt (· ∈ regs) registers)
      (fun stop w' => stop.IsFault ∧ Offstage w { w' with frame := w.frame })
      (bindTargets regs w) := by
  intro regs
  induction regs with
  | nil =>
    exact fun w => ⟨_, _, _, _, rfl, stages_self w, binds_nil _, names_nil _ _, .refl _⟩
  | cons reg rest ih =>
    intro w
    refine after_seq (takeLocal_after reg (after_fault (numberedName_after reg w) fun _ w' h =>
        ⟨h.1, h.2 ▸ Offstage.refl w⟩)) ?_
    rintro ⟨name, declares⟩ w' ⟨scene₁, objects₁, locals₁, rfl, hstages₁, hfirst, hname, hnew⟩
    refine after_bind (after_modify (after_seq (after_fault (ih _) ?_) ?_))
    · rintro stop w' ⟨hmute, scene, hstages, hw'⟩
      refine ⟨hmute, scene, hstages₁.trans hstages, ?_⟩
      exact congrArg (fun v : Walk => { v with frame := w.frame }) hw'
    rintro ⟨names, more⟩ w'
      ⟨scene, objects, locals, registers, rfl, hstages, hrest, hnames, hregisters⟩
    refine ⟨scene, objects, locals, registers, rfl, hstages₁.trans hstages,
      binds_cons hfirst hrest, names_cons hstages₁.grows hstages.grows
        (hrest.kept reg name hname) ?_ (fun h => h.take_fresh hstages₁.grows hnew) hnames, ?_⟩
    · intro r n hn
      refine (hnew r n hn).imp_right ?_
      rintro ⟨rfl, hgives⟩
      exact .register hgives
    · exact (w.frame.registers.changesAt_set mem_cons_self _).trans
        (hregisters.mono fun _ => mem_cons_of_mem reg)

/-- The value of a register is written down as one assignment at the end of the body. -/
theorem bindLocal_writes (reg : Int) (value : Slot) (comment : Option String) (w : Walk) : After
      (fun name w' => ∃ scene objects locals declares, w' = { bound
          { w with context.scene := scene } [reg] (.assign name value.text declares comment) locals
          with
          frame.objectLocals := objects
          frame.registers := w.frame.registers.set reg (value.renamed name) } ∧ Stages w scene ∧
        Binds w.frame.locals [reg] locals declares ∧
        Names w.frame.locals w.context.scene [reg] [name] locals scene)
      (fun stop w' => stop.IsFault ∧ Offstage w w') (bindLocal reg value comment w) := by
  refine after_bind (after_imp (takeLocal_after reg (chooseName_after reg value w)) ?_)
  rintro ⟨name, declares⟩ _ ⟨scene, objects, locals, rfl, hstages, hbinds, hname, hnew⟩
  have hnames : Names w.frame.locals w.context.scene [reg] [name] locals scene := by
    refine ⟨by rw [map_singleton, map_singleton, hname], fun r n hn => ?_, fun h => ?_⟩
    · refine (hnew r n hn).imp_right ?_
      rintro ⟨rfl, hchosen, -⟩
      exact hchosen
    · exact h.take hstages.grows fun r n hn => (hnew r n hn).imp_right fun ⟨hr, hchosen, hfree⟩ =>
        ⟨hr, hchosen.used (h.grows hstages.grows).objects, hfree h⟩
  refine after_bind (after_modify (after_bind (after_modify ?_)))
  cases value.handle with
  | none => exact ⟨scene, _, locals, declares, rfl, hstages, hbinds, hnames⟩
  | some handle =>
    exact after_bind (after_modify ⟨scene, _, locals, declares, rfl, hstages, hbinds, hnames⟩)

/-- The results of a call are written down as one assignment at the end of the body. -/
theorem bindMany_writes (regs : List Int) (expression : String) (comment : Option String)
    (w : Walk) :
    After
      (fun _ w' => ∃ scene objects locals registers targets declares, w' = { bound
          { w with context.scene := scene } regs
          (.assign (Text.commaList targets) expression declares comment) locals with
          frame.objectLocals := objects
          frame.registers := registers } ∧ Stages w scene ∧
        Binds w.frame.locals regs locals declares ∧
        Names w.frame.locals w.context.scene regs targets locals scene ∧
        w.frame.registers.ChangesAt (· ∈ regs) registers)
      (fun stop w' => stop.IsFault ∧ Offstage w w') (bindMany regs expression comment w) := by
  refine after_bind (after_keepingFrame (after_imp (bindTargets_after regs w) ?_))
  rintro ⟨targets, declares⟩ _
    ⟨scene, objects, locals, registers, rfl, hstages, hbinds, hnames, hchanges⟩
  exact ⟨scene, objects, locals, registers, targets, declares, rfl, hstages, hbinds, hnames,
    hchanges⟩

section

variable {A : Int → Prop} {R : Walk → Walk → Prop} (hR : Carried R A)

include hR

theorem modifyRegisters_keeps {f : Registers → Registers}
    (hf : ∀ r, Registers.ChangesAt A r (f r)) : Keeps R (modifyRegisters f) T :=
  fun w => hR.registers w _ (hf _)

variable {reg : Int} {indexes : List Int} {index : Int}

theorem setRegister_keeps (h : A index) (slot : Slot) : Keeps R (setRegister index slot) T :=
  modifyRegisters_keeps hR fun r => r.changesAt_set h slot

theorem setRegisters_keeps (h : ∀ reg ∈ indexes, A reg) (slot : Slot) :
    Keeps R (setRegisters slot indexes) T := by
  induction indexes with
  | nil => exact hR.done ()
  | cons index rest ih =>
    obtain ⟨hindex, hrest⟩ := forall_mem_cons.mp h
    exact hR.seq (setRegister_keeps hR hindex slot) <| ih hrest

theorem clearRegisters_keeps (h : ∀ reg ∈ indexes, A reg) : Keeps R (clearRegisters indexes) T :=
  modifyRegisters_keeps hR fun r => r.changesAt_clearAll h

variable [Stop.Covers T]

theorem readRegister_keeps (h : A index) : Keeps R (readRegister index) T :=
  hR.chain (askHost_keeps hR.refl _) fun _ w =>
    hR.registers w _ (w.frame.registers.changesAt_touch h)

theorem readText_keeps (h : A index) : Keeps R (readText index) T :=
  hR.seq (readRegister_keeps hR h) (hR.done _)

theorem readTexts_keeps (h : ∀ reg ∈ indexes, A reg) : Keeps R (readTexts indexes) T := by
  induction indexes with
  | nil => exact hR.done []
  | cons index rest ih =>
    obtain ⟨hindex, hrest⟩ := forall_mem_cons.mp h
    refine hR.seq (readText_keeps hR hindex) ?_
    exact hR.seq (ih hrest) (hR.done _)

/-! ### Locals -/

/-- The value of a register is written down, and the answer is its local. -/
theorem bindLocal_after (value : Slot) (comment : Option String) (hreg : A reg) (w : Walk) :
    After (fun name w' => R w w' ∧ w'.frame.locals.get? reg = some name)
      (fun stop w' => T stop ∧ R w w') (bindLocal reg value comment w) := by
  refine after_mono (bindLocal_writes reg value comment w) ?_
    fun _ _ h => ⟨Stop.Covers.fault _ h.1, hR.offstage h.2⟩
  rintro name _ ⟨scene, objects, locals, declares, rfl, hstages, hbinds, hnames⟩
  have hbind := hR.bind w scene [reg] [name] locals value.text declares comment hstages
    (fun r hr => mem_singleton.mp hr ▸ hreg) hbinds hnames
  have hset := hR.trans _ _ _ hbind
    (hR.registers _ _ (w.frame.registers.changesAt_set hreg (value.renamed name)))
  refine ⟨hR.trans _ _ _ hset (hR.objects _ objects), ?_⟩
  exact singleton_inj.mp hnames.names

theorem bindLocal_keeps (value : Slot) (comment : Option String) (hreg : A reg) :
    Keeps R (bindLocal reg value comment) T :=
  fun w => after_imp (bindLocal_after hR value comment hreg w) (fun _ _ h => h.1)

theorem bindMany_keeps {regs : List Int} (expression : String) (comment : Option String)
    (hregs : ∀ reg ∈ regs, A reg) : Keeps R (bindMany regs expression comment) T := by
  intro w
  refine after_mono (bindMany_writes regs expression comment w) ?_
    fun _ _ h => ⟨Stop.Covers.fault _ h.1, hR.offstage h.2⟩
  rintro _ _ ⟨scene, objects, locals, registers, targets, declares, rfl, hstages, hbinds, hnames,
    hchanges⟩
  have hbind := hR.bind w scene regs targets locals expression declares comment hstages hregs
    hbinds hnames
  have hset := hR.trans _ _ _ hbind (hR.registers _ registers (hchanges.mono hregs))
  exact hR.trans _ _ _ hset (hR.objects _ objects)

theorem ensureNamed_after (hreg : A reg) (w : Walk) :
    After (fun name w' => R w w' ∧ w'.frame.locals.get? reg = some name)
      (fun stop w' => T stop ∧ R w w') (ensureNamed reg w) := by
  refine after_seq (readRegister_keeps hR hreg w) fun value w₁ hread => ?_
  have hbind : After (fun name w' => R w w' ∧ w'.frame.locals.get? reg = some name)
      (fun stop w' => T stop ∧ R w w') (bindLocal reg value none w₁) :=
    after_mono (bindLocal_after hR value none hreg w₁)
      (fun _ _ h => ⟨hR.trans _ _ _ hread h.1, h.2⟩)
      fun _ _ h => ⟨h.1, hR.trans _ _ _ hread h.2⟩
  refine after_bind (after_localOf? ?_)
  cases hfound : w₁.frame.locals.get? reg with
  | none => exact hbind
  | some name =>
    show After _ _ ((if value.text = name then pure name else bindLocal reg value none) w₁)
    split
    · exact ⟨hread, hfound⟩
    · exact hbind

theorem ensureNamed_keeps (hreg : A reg) : Keeps R (ensureNamed reg) T :=
  fun w => after_imp (ensureNamed_after hR hreg w) (fun _ _ h => h.1)

theorem flushUnread_keeps (hreg : A reg) : Keeps R (flushUnread reg) T := by
  intro w
  refine after_state ?_
  show After _ _ ((if w.frame.registers.isUnread reg then
    bindLocal reg (w.frame.registers.peek reg) none >>= fun _ => pure () else pure ()) w)
  split
  · exact after_seq (bindLocal_keeps hR _ none hreg w) fun _ _ h => h
  · exact hR.refl w

theorem flushAll_keeps (hall : ∀ reg, A reg) : ∀ regs, Keeps R (flushAll regs) T := by
  intro regs
  induction regs with
  | nil => exact hR.done ()
  | cons reg rest ih => exact hR.seq (flushUnread_keeps hR (hall reg)) ih

theorem upvalueAt_after (index : Int) (w : Walk) :
    After (fun upvalue w' => R w w' ∧ Refers w upvalue.name)
      (fun stop w' => T stop ∧ R w w') (upvalueAt index w) := by
  have hrefers : Refers w ((knownUpvalue? w.frame.upvalues index).getD
      { name := "upval" ++ toString index }).name := by
    unfold knownUpvalue?
    split
    · cases hknown : w.frame.upvalues[index.toNat]? with
      | none => exact .inr ⟨index, rfl⟩
      | some upvalue => exact .inl ⟨upvalue, mem_of_getElem? hknown, rfl⟩
    · exact .inr ⟨index, rfl⟩
  refine after_bind (after_askHost ?_ fun _ _ => ⟨Stop.Covers.fault _ trivial, hR.refl w⟩)
  refine after_state ?_
  dsimp only
  generalize Option.getD _ _ = upvalue at hrefers ⊢
  by_cases hnew : (!w.frame.captured.contains upvalue.name) = true
  · have hfresh : upvalue.name ∉ w.frame.captured := by simpa using hnew
    simp only [hnew, if_true]
    exact after_bind (after_modify ⟨hR.captured w _ hrefers hfresh, hrefers⟩)
  · simp only [hnew]
    exact ⟨hR.refl w, hrefers⟩

theorem upvalueAt_keeps (index : Int) : Keeps R (upvalueAt index) T :=
  fun w => after_imp (upvalueAt_after hR index w) (fun _ _ h => h.1)

theorem holdObject_keeps (text : String) (handle : Option Nat) (hreg : A reg) :
    Keeps R (holdObject reg text handle) T := by
  intro w
  refine after_state ?_
  have hset := setRegister_keeps (T := T) hR hreg (.object text handle)
  cases handle.bind w.frame.objectLocals.get? with
  | some name => exact setRegister_keeps hR hreg _ w
  | none =>
    refine keeps_at (R := R) ?_ w
    refine hR.chain (hR.keeps (servesHandle_offstage handle)) fun isService => ?_
    refine keeps_ite ?_ hset
    refine hR.chain (hR.keeps (namesHandle_offstage text handle)) fun named => ?_
    refine keeps_ite hset ?_
    exact hR.seq (bindLocal_keeps hR _ none hreg) (hR.done ())

end

end Walking

end LuaRecovery

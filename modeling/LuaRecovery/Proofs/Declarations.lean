/-
Which assignments declare.

A routine records its bindings: the assignments that bind registers, with the registers.  A
register has a name once it holds a parameter or was bound, and the walk declares a binding
exactly if one of its registers has no name yet.  For a binding of one register this is the
rule that the first write declares and no other does.  A call with several results binds
all their registers at once, and where some of them have a name and others do not, the
declaration takes in those that have one.  So the rule holds of a routine exactly if no
binding of it is mixed in this way.
-/
import LuaRecovery.Proofs.Invariants
import LuaRecovery.Proofs.WellNested

namespace LuaRecovery

open List LuaRecovery.Frame

/-- A register has a name: it holds a parameter, or it is bound by one of some bindings. -/
def Named (params : List String) (bindings : List Binding) (reg : Int) : Prop :=
  (0 ≤ reg ∧ reg < params.length) ∨ ∃ b ∈ bindings, reg ∈ b.registers

/-- Whether the assignment of a binding declares its target. -/
def Binding.declares? (b : Binding) (body : List Statement) : Option Bool :=
  body[b.place]?.bind Statement.declares?

/-- A binding declares exactly if one of its registers has no name before it, and nothing
but bindings declares. -/
structure DeclaresNew (params : List String) (body : List Statement) (bindings : List Binding) :
    Prop where
  flags : ∀ (k : Nat) (b : Binding), bindings[k]? = some b →
    ∃ declares, b.declares? body = some declares ∧
      (declares = true ↔ ∃ reg ∈ b.registers, ¬ Named params (bindings.take k) reg)
  recorded : ∀ (place : Nat) (s : Statement), body[place]? = some s → s.declares? = some true →
    ∃ b ∈ bindings, b.place = place

/-- A property of a routine and of every routine inside it. -/
inductive Throughout (P : Routine → Prop) : Routine → Prop
  | intro {r : Routine} : P r →
      (∀ s ∈ r.body, ∀ inner, s.routine? = some inner → Throughout P inner) → Throughout P r

theorem Throughout.mono {P P' : Routine → Prop} (hP : ∀ r, P r → P' r) {r : Routine}
    (h : Throughout P r) : Throughout P' r := by
  induction h with
  | intro hr _ ih => exact .intro (hP _ hr) ih

/-! ### Adding to a body -/

/-- Statements that declare nothing and hold no routine. -/
def Hollow (nodes : List Statement) : Prop :=
  ∀ s ∈ nodes, s.routine? = none ∧ s.declares? ≠ some true

theorem Hollow.append {xs ys : List Statement} (hx : Hollow xs) (hy : Hollow ys) :
    Hollow (xs ++ ys) := by
  intro s hs
  rcases mem_append.mp hs with hs | hs
  · exact hx s hs
  · exact hy s hs

theorem hollow_singleton {s : Statement} (hr : s.routine? = none)
    (hd : s.declares? ≠ some true) : Hollow [s] := by
  intro t ht
  rw [mem_singleton.mp ht]
  exact ⟨hr, hd⟩

theorem Scaffold.hollow {nodes : List Statement} (h : Scaffold nodes) : Hollow nodes := by
  intro s hs
  rcases h s hs with ⟨text, role, rfl⟩ | ⟨text, rfl⟩ <;> exact ⟨rfl, nofun⟩

theorem named_append {params : List String} {bindings : List Binding} {b : Binding} {reg : Int} :
    Named params (bindings ++ [b]) reg ↔ Named params bindings reg ∨ reg ∈ b.registers := by
  simp only [Named, mem_append, mem_singleton, or_and_right, exists_or, exists_eq_left, or_assoc]

theorem Binding.declares?_append {b : Binding} {body : List Statement} {declares : Bool}
    (h : b.declares? body = some declares) (more : List Statement) :
    b.declares? (body ++ more) = some declares := by
  unfold Binding.declares? at h ⊢
  cases hs : body[b.place]? with
  | none =>
    rw [hs] at h
    cases h
  | some s =>
    have hlt : b.place < body.length := (List.getElem?_eq_some_iff.mp hs).1
    rw [getElem?_append_left hlt, hs]
    rwa [hs] at h

namespace DeclaresNew

variable {params : List String} {body : List Statement} {bindings : List Binding}

theorem append (h : DeclaresNew params body bindings) {more : List Statement}
    (hmore : ∀ s ∈ more, s.declares? ≠ some true) : DeclaresNew params (body ++ more) bindings := by
  refine ⟨fun k b hb => ?_, fun place s hs hdeclares => ?_⟩
  · obtain ⟨declares, hdeclares, hiff⟩ := h.flags k b hb
    exact ⟨declares, Binding.declares?_append hdeclares more, hiff⟩
  · rcases Nat.lt_or_ge place body.length with hlt | hge
    · rw [getElem?_append_left hlt] at hs
      exact h.recorded place s hs hdeclares
    · rw [getElem?_append_right hge] at hs
      exact absurd hdeclares (hmore s (mem_of_getElem? hs))

/-- One more binding at the end of the body. -/
theorem bind {registers : List Int} {s : Statement} {declares : Bool}
    (h : DeclaresNew params body bindings) (hs : s.declares? = some declares)
    (hiff : declares = true ↔ ∃ reg ∈ registers, ¬ Named params bindings reg) :
    DeclaresNew params (body ++ [s]) (bindings ++ [⟨body.length, registers⟩]) := by
  refine ⟨fun k b hb => ?_, fun place t ht hdeclares => ?_⟩
  · rcases Nat.lt_or_ge k bindings.length with hk | hk
    · rw [getElem?_append_left hk] at hb
      rw [take_append_of_le_length (Nat.le_of_lt hk)]
      obtain ⟨declares, hdeclares, hiff⟩ := h.flags k b hb
      exact ⟨declares, Binding.declares?_append hdeclares [s], hiff⟩
    · rw [getElem?_append_right hk, getElem?_singleton] at hb
      split at hb
      · rename_i hzero
        cases hb
        refine ⟨declares, by simp [Binding.declares?, hs], ?_⟩
        rw [show k = bindings.length by omega, take_left' rfl]
        exact hiff
      · cases hb
  · rcases Nat.lt_or_ge place body.length with hlt | hge
    · rw [getElem?_append_left hlt] at ht
      obtain ⟨b, hb, hplace⟩ := h.recorded place t ht hdeclares
      exact ⟨b, mem_append_left _ hb, hplace⟩
    · have hlast : place = body.length := by
        have := (List.getElem?_eq_some_iff.mp ht).1
        rw [length_append, length_singleton] at this
        omega
      exact ⟨_, mem_append_right _ (mem_singleton_self _), hlast.symm⟩

end DeclaresNew

/-- Whatever a builder hands back declares what is new. -/
def Builder.Declares (build : Builder) : Prop :=
  build.Yields (Throughout fun r => DeclaresNew r.params r.body r.bindings)

namespace Walking

/-! ### What a walk keeps -/

/-- The bindings recorded so far are declared as they should be, also in the routines
inside. -/
structure Recorded (w : Walk) : Prop where
  declares : DeclaresNew w.frame.params w.frame.body w.frame.bindings
  inner : ∀ s ∈ w.frame.body, ∀ r, s.routine? = some r →
    Throughout (fun r => DeclaresNew r.params r.body r.bindings) r

theorem Recorded.routine {w : Walk} (h : Recorded w) :
    Throughout (fun r => DeclaresNew r.params r.body r.bindings) w.frame.routine :=
  .intro h.declares h.inner

/-- Moreover, apart from the registers in `E`, exactly the registers with a name have a
local. -/
structure Settled (E : Int → Prop) (w : Walk) : Prop extends Recorded w where
  locals : ∀ reg, ¬ E reg →
    ((w.frame.locals.get? reg).isSome = true ↔ Named w.frame.params w.frame.bindings reg)

/-- What is settled stays so, and the registers in `E` are not bound. -/
structure Booked (E : Int → Prop) (w w' : Walk) : Prop where
  settled : Settled E w → Settled E w'
  params : w'.frame.params = w.frame.params
  named : ∀ reg, E reg → (Named w'.frame.params w'.frame.bindings reg ↔
    Named w.frame.params w.frame.bindings reg)
  locals : ∀ reg, E reg → (w'.frame.locals.get? reg).isSome = (w.frame.locals.get? reg).isSome

variable {E : Int → Prop} {w w' : Walk}

theorem Booked.trans (w₁ w₂ w₃ : Walk) (h₁ : Booked E w₁ w₂) (h₂ : Booked E w₂ w₃) :
    Booked E w₁ w₃ where
  settled h := h₂.settled (h₁.settled h)
  params := h₂.params.trans h₁.params
  named reg hreg := (h₂.named reg hreg).trans (h₁.named reg hreg)
  locals reg hreg := (h₂.locals reg hreg).trans (h₁.locals reg hreg)

section

variable (hparams : w'.frame.params = w.frame.params)
  (hbindings : w'.frame.bindings = w.frame.bindings) (hlocals : w'.frame.locals = w.frame.locals)

include hparams hbindings hlocals

/-- Statements without routines were added to the body. -/
theorem Booked.of_append {more : List Statement}
    (hbody : w'.frame.body = w.frame.body ++ more) (hmore : Hollow more) :
    Booked E w w' := by
  refine ⟨fun h => ⟨⟨?_, ?_⟩, ?_⟩, hparams, fun _ _ => ?_, fun _ _ => ?_⟩
  · rw [hparams, hbindings, hbody]
    exact h.declares.append fun s hs => (hmore s hs).2
  · intro s hs r hr
    rw [hbody, mem_append] at hs
    rcases hs with hs | hs
    · exact h.inner s hs r hr
    · rw [(hmore s hs).1] at hr
      cases hr
  · rw [hparams, hbindings, hlocals]
    exact h.locals
  · rw [hparams, hbindings]
  · rw [hlocals]

theorem Booked.of_same (hbody : w'.frame.body = w.frame.body) : Booked E w w' :=
  .of_append hparams hbindings hlocals
    (show w'.frame.body = w.frame.body ++ [] by rw [hbody, append_nil]) nofun

end

variable {declares : Bool} {s : Statement}

theorem routine?_of_isAssign (hs : s.IsAssign) : s.routine? = none := by
  cases s with
  | assign => rfl
  | _ => exact hs.elim

theorem hollow_of_isLine (hs : s.IsLine) : Hollow [s] := by
  cases s with
  | call | ret | verbatim => exact hollow_singleton rfl nofun
  | _ => exact hs.elim

/-- Registers outside of `E` are bound. -/
theorem Booked.of_bind {registers : List Int} {locals : Table Int String}
    (hregisters : ∀ reg ∈ registers, ¬ E reg) (hs : s.IsAssign)
    (hdeclares : s.declares? = some declares)
    (hbinds : Binds w.frame.locals registers locals declares) :
    Booked E w (bound w registers s locals) := by
  have hnamed : ∀ reg, Named w.frame.params (bound w registers s locals).frame.bindings reg ↔
      Named w.frame.params w.frame.bindings reg ∨ reg ∈ registers := fun reg => named_append
  refine ⟨fun h => ⟨⟨?_, ?_⟩, ?_⟩, rfl, fun reg hreg => ?_, fun reg hreg => ?_⟩
  · refine h.declares.bind hdeclares (hbinds.declares_iff.trans ?_)
    constructor
    · rintro ⟨reg, hreg, hnone⟩
      refine ⟨reg, hreg, fun hname => ?_⟩
      have := (h.locals reg (hregisters reg hreg)).mpr hname
      rw [hnone] at this
      cases this
    · rintro ⟨reg, hreg, hname⟩
      refine ⟨reg, hreg, Option.eq_none_iff_forall_ne_some.mpr fun name hsome => hname ?_⟩
      exact (h.locals reg (hregisters reg hreg)).mp (by rw [hsome]; rfl)
  · intro t ht r hr
    rcases mem_append.mp ht with ht | ht
    · exact h.inner t ht r hr
    · rw [mem_singleton.mp ht, routine?_of_isAssign hs] at hr
      cases hr
  · intro reg hreg
    rw [show (bound w registers s locals).frame.locals = locals from rfl, hbinds.named_iff,
      h.locals reg hreg]
    exact (hnamed reg).symm
  · refine (hnamed reg).trans ⟨fun hor => hor.resolve_right fun hmem => ?_, Or.inl⟩
    exact hregisters reg hmem hreg
  · rw [Bool.eq_iff_iff, show (bound w registers s locals).frame.locals = locals from rfl,
      hbinds.named_iff]
    exact ⟨fun hor => hor.resolve_right fun hmem => hregisters reg hmem hreg, Or.inl⟩

theorem booked_carried (E : Int → Prop) : Carried (Booked E) (fun reg => ¬ E reg) where
  refl _ := .of_same rfl rfl rfl rfl
  trans := Booked.trans
  registers _ _ _ := .of_same rfl rfl rfl rfl
  scene _ _ _ := .of_same rfl rfl rfl rfl
  objects _ _ := .of_same rfl rfl rfl rfl
  captured _ _ _ _ := .of_same rfl rfl rfl rfl
  assign _ _ _ _ := .of_append rfl rfl rfl rfl (hollow_singleton rfl nofun)
  bind w scene _ _ _ _ _ _ _ hregisters hbinds _ :=
    Booked.trans w { w with context.scene := scene } _ (.of_same rfl rfl rfl rfl)
      (.of_bind hregisters trivial rfl hbinds)

/-- All registers are settled. -/
def Kept : Walk → Walk → Prop := Booked fun _ => False

theorem kept_blocked : Blocked Kept where
  refl := (booked_carried _).refl
  trans := (booked_carried _).trans
  registers w r h := (booked_carried _).registers w r (h.mono fun _ _ => id)
  scene := (booked_carried _).scene
  objects := (booked_carried _).objects
  captured := (booked_carried _).captured
  assign := (booked_carried _).assign
  bind w scene registers names locals value declares comment hstages _ hbinds hnames :=
    (booked_carried _).bind w scene registers names locals value declares comment hstages
      (fun _ _ h => h) hbinds hnames
  note _ _ := .of_same rfl rfl rfl rfl
  report _ _ := .of_same rfl rfl rfl rfl
  top _ _ := .of_same rfl rfl rfl rfl
  log _ _ := .of_same rfl rfl rfl rfl
  emit _ _ hs := .of_append rfl rfl rfl rfl (hollow_of_isLine hs)
  limits _ _ _ := .of_same rfl rfl rfl rfl
  strings _ _ := .of_same rfl rfl rfl rfl
  trace _ _ := .of_same rfl rfl rfl rfl
  drainRegisters _ := .of_same rfl rfl rfl rfl
  drainBlocks _ := .of_same rfl rfl rfl rfl
  blocks _ _ _ h := .of_append rfl rfl rfl rfl h.hollow

theorem settled_preserved : Preserved Kept (Settled fun _ => False) fun _ w => Recorded w where
  blocked := kept_blocked
  keeps hw h := hw.settled h
  stops _ hw h := (hw.settled h).toRecorded
  located _ h := h

/-! ### Closures -/

/-- A closure takes its local first: all other registers stay settled. -/
theorem Settled.takeLocal {target : Int} {locals : Table Int String}
    (h : Settled (fun _ => False) w) (scene : Scene) (objects : Table Nat String)
    (hbinds : Binds w.frame.locals [target] locals declares) :
    Settled (· = target) { w with
      frame.locals := locals
      frame.objectLocals := objects
      context.scene := scene } ∧
      (declares = true ↔ ¬ Named w.frame.params w.frame.bindings target) := by
  refine ⟨⟨⟨h.declares, h.inner⟩, fun reg hreg => ?_⟩, hbinds.declares_iff.trans ?_⟩
  · refine (hbinds.named_iff reg).trans (Iff.trans ?_ (h.locals reg id))
    rw [mem_singleton]
    exact ⟨fun hor => hor.resolve_right hreg, Or.inl⟩
  · have hlocal := h.locals target id
    rw [← hlocal, Bool.not_eq_true, Option.isSome_eq_false_iff, Option.isNone_iff_eq_none]
    simp

/-- The function inside is bound to the register of the closure. -/
theorem Settled.define {target : Int} {routine : Routine} (h : Settled (· = target) w)
    (name : String) (c : Context)
    (hdeclares : declares = true ↔ ¬ Named w.frame.params w.frame.bindings target)
    (hlocal : (w.frame.locals.get? target).isSome = true)
    (hroutine : Throughout (fun r => DeclaresNew r.params r.body r.bindings) routine) :
    Settled (fun _ => False) (bound { w with context := c } [target]
      (.define name routine declares none) w.frame.locals) := by
  refine ⟨⟨h.declares.bind rfl (hdeclares.trans (by simp)), ?_⟩, fun reg _ => ?_⟩
  · intro s hs r hr
    rcases mem_append.mp hs with hs | hs
    · exact h.inner s hs r hr
    · rw [mem_singleton.mp hs] at hr
      cases hr
      exact hroutine
  · show (w.frame.locals.get? reg).isSome = true ↔
      Named w.frame.params (w.frame.bindings ++ [⟨w.frame.body.length, [target]⟩]) reg
    rw [named_append]
    by_cases hreg : reg = target
    · simpa [hreg] using hlocal
    · simpa [hreg] using h.locals reg hreg

theorem closure_settled {children : List Child}
    (hchildren : ∀ child ∈ children, child.build.Declares) (i : Instruction) (index : Nat)
    (hw : Settled (fun _ => False) w) :
    After (fun _ w' => Settled (fun _ => False) w') (fun _ w' => Recorded w')
      (closure children i index w) := by
  have hkept := settled_preserved
  unfold closure
  cases hfound : childAt? children i.b with
  | none => exact hkept.after (missingChild_keeps hkept.blocked.toTold _ i index) hw
  | some child =>
    have hchild := hchildren child (mem_of_childAt? hfound)
    refine after_bind (after_mono (takeLocal_after i.a (uniqueName_after _ w)) ?_
      fun _ _ h => h.elim)
    rintro ⟨name, declares⟩ _ ⟨scene, objects, locals, rfl, -, hbinds, hname, -⟩
    obtain ⟨hsettled, hdeclares⟩ := hw.takeLocal scene objects hbinds
    refine after_state ?_
    -- The upvalues bind other registers only, so nothing changes for that of the closure.
    have hcarried := booked_carried (· = i.a)
    refine after_bind (after_mono (captures_keeps (T := fun _ => True) hcarried name
      (fun _ _ _ h => h) _) ?_ fun _ _ h => (h.2.settled hsettled).toRecorded)
    intro upvalues w₂ hbooked
    have hsettled₂ := hbooked.settled hsettled
    refine after_bind (after_askHost ?_ fun _ _ => hsettled₂.toRecorded)
    have hdeclares₂ : declares = true ↔ ¬ Named w₂.frame.params w₂.frame.bindings i.a :=
      hdeclares.trans (not_congr (hbooked.named i.a rfl).symm)
    have hlocal₂ : (w₂.frame.locals.get? i.a).isSome = true := by
      rw [hbooked.locals i.a rfl]
      show (locals.get? i.a).isSome = true
      rw [hname]
      rfl
    have hbuilt := hchild name (w₂.frame.path ++ "/" ++ name) upvalues w₂.context
    refine after_bind (buildChild_after ?_ ?_ ?_)
    · intro routine c hbuild
      rw [hbuild] at hbuilt
      have hdefine := hsettled₂.define name c hdeclares₂ hlocal₂ hbuilt
      exact after_bind (hkept.after (setRegister_keeps hkept.blocked.toCarried trivial _) hdefine)
    · intro failure routine c hbuild
      rw [hbuild] at hbuilt
      exact (hsettled₂.define name c hdeclares₂ hlocal₂ hbuilt).toRecorded
    · exact fun stop c _ _ => ⟨hsettled₂.declares, hsettled₂.inner⟩

end Walking

/-! ### Builders -/

/-- Exactly the registers of the parameters have a local before the walk. -/
theorem Frame.addParams_locals (count : Nat) : ∀ (f : Frame) (scene : Scene),
    (∀ reg : Int, (f.locals.get? reg).isSome = true ↔ 0 ≤ reg ∧ reg < f.params.length) →
    ∀ reg : Int, ((f.addParams scene f.params.length count).1.locals.get? reg).isSome = true ↔
      0 ≤ reg ∧ reg < (f.addParams scene f.params.length count).1.params.length := by
  induction count with
  | zero => exact fun f scene h => h
  | succ count ih =>
    intro f scene h
    have hnext := ih { f with
      params := f.params ++ [(scene.uniqueName s!"arg{f.params.length}").1]
      locals := f.locals.insert f.params.length (scene.uniqueName s!"arg{f.params.length}").1
      registers := f.registers.set f.params.length
        (.expression (scene.uniqueName s!"arg{f.params.length}").1) }
      (scene.uniqueName s!"arg{f.params.length}").2 ?_
    · rw [length_append] at hnext
      exact hnext
    · intro reg
      rw [Table.get?_insert, length_append, length_singleton]
      split
      · simp
        omega
      · rw [h reg]
        omega

theorem Frame.addParams_bindings (count : Nat) : ∀ (f : Frame) (scene : Scene) (index : Nat),
    (f.addParams scene index count).1.bindings = f.bindings := by
  induction count with
  | zero => exact fun _ _ _ => rfl
  | succ count ih => exact fun _ _ _ => ih _ _ _

theorem Frame.start_settled (p : Prototype) (name path : String) (passed : List Upvalue)
    (scene : Scene) (c : Context) :
    Walking.Settled (fun _ => False) ⟨(start p name path passed scene).1, c⟩ := by
  have hlocals := addParams_locals p.paramCount.toNat (bare p name path passed) scene
    (by intro reg; simp [bare, Table.get?, Table.find])
  have hbindings := addParams_bindings p.paramCount.toNat (bare p name path passed) scene 0
  obtain ⟨-, hbody⟩ := addParams_blocks p.paramCount.toNat (bare p name path passed) scene 0
  show Walking.Settled _ ⟨((bare p name path passed).addParams scene 0 _).1, c⟩
  refine ⟨⟨?_, ?_⟩, fun reg _ => (hlocals reg).trans ?_⟩
  · dsimp only
    rw [hbindings, hbody]
    exact ⟨by simp [bare], by simp [bare]⟩
  · dsimp only
    rw [hbody]
    simp [bare]
  · dsimp only
    rw [hbindings]
    simp [Named, bare]

theorem Frame.abandon_recorded {w : Walk} (hw : Walking.Recorded w) (failure : Failure)
    (recovered : Option Routine) :
    Throughout (fun r => DeclaresNew r.params r.body r.bindings)
      (w.frame.abandon failure recovered).routine := by
  have hmore : ∀ shown : List Statement, Hollow shown →
      Throughout (fun r => DeclaresNew r.params r.body r.bindings)
        { w.frame.routine with
          body := w.frame.body ++ shown ++ (w.frame.blocks.finish w.frame.code.length).1 } := by
    intro shown hshown
    have hnodes := hshown.append (Blocks.finish_scaffold w.frame.blocks w.frame.code.length).hollow
    rw [append_assoc]
    refine .intro (hw.declares.append fun s hs => (hnodes s hs).2) fun s hs r hr => ?_
    rcases mem_append.mp hs with hs | hs
    · exact hw.inner s hs r hr
    · rw [(hnodes s hs).1] at hr
      cases hr
  cases recovered with
  | none => exact hmore [.remark _] (hollow_singleton rfl nofun)
  | some _ => exact hmore [] nofun

theorem Prototype.build_declares (p : Prototype) : p.build.Declares := by
  refine Prototype.build_yields (fun p children hchildren => buildWith_yields p children ?_) p
  intro name path upvalues scene c
  have hstart := start_settled p name path upvalues scene c
  have hwalk := Walking.settled_preserved.walk
    (fun i index _ hw => Walking.closure_settled hchildren i index hw) hstart
  refine Walking.after_mono hwalk (fun _ _ h => h.toRecorded.routine) ?_
  exact fun _ _ h failure recovered => abandon_recorded h failure recovered

/-! ### The rule of the first write -/

/-- The first write of a register declares and no other does; a register of a parameter is
never declared. -/
def FirstWriteDeclares (r : Routine) : Prop :=
  ∀ (k : Nat) (b : Binding), r.bindings[k]? = some b → ∀ reg ∈ b.registers,
    ∃ declares, b.declares? r.body = some declares ∧
      (declares = true ↔ ¬ Named r.params (r.bindings.take k) reg)

/-- A binding takes in a register that has a name and one that has none. -/
def BindsMixed (r : Routine) : Prop :=
  ∃ (k : Nat) (b : Binding), r.bindings[k]? = some b ∧
    (∃ reg ∈ b.registers, Named r.params (r.bindings.take k) reg) ∧
    ∃ reg ∈ b.registers, ¬ Named r.params (r.bindings.take k) reg

theorem firstWriteDeclares_iff {r : Routine} (h : DeclaresNew r.params r.body r.bindings) :
    FirstWriteDeclares r ↔ ¬ BindsMixed r := by
  constructor
  · rintro hfirst ⟨k, b, hb, ⟨old, hold, hnamed⟩, new, hnew, hunnamed⟩
    obtain ⟨d₁, hd₁, hiff₁⟩ := hfirst k b hb old hold
    obtain ⟨d₂, hd₂, hiff₂⟩ := hfirst k b hb new hnew
    have hsame : d₁ = d₂ := Option.some.inj (hd₁.symm.trans hd₂)
    exact hiff₁.mp (hsame ▸ hiff₂.mpr hunnamed) hnamed
  · intro hmixed k b hb reg hreg
    obtain ⟨declares, hdeclares, hiff⟩ := h.flags k b hb
    refine ⟨declares, hdeclares, hiff.trans ⟨?_, fun hunnamed => ⟨reg, hreg, hunnamed⟩⟩⟩
    rintro ⟨new, hnew, hunnamed⟩ hnamed
    exact hmixed ⟨k, b, hb, ⟨reg, hreg, hnamed⟩, new, hnew, hunnamed⟩

/-- **What declares is what binds a new register.**  In a recovered function and in every
function inside, an assignment declares exactly if it is a binding with a register that has
no name yet.  So the first write of each register declares and no other does, exactly if no
binding takes in registers with and without a name. -/
theorem declaration_exactly_of_new_register (p : Prototype) (name path : String)
    (upvalues : List Upvalue) (c : Context) :
    HandsBack (Throughout fun r =>
        DeclaresNew r.params r.body r.bindings ∧ (FirstWriteDeclares r ↔ ¬ BindsMixed r))
      (p.build name path upvalues c) := by
  refine (p.build_declares name path upvalues c).mono fun r hr => ?_
  exact hr.mono fun r h => ⟨h, firstWriteDeclares_iff h⟩

/-- A function with one parameter that calls it for two results. -/
def pairCall : Prototype :=
  { instructions := [{ opcode := .call, a := 0, b := 1, c := 3 }], paramCount := 1 }

/-- The results go to the parameter and to a new local, and the parameter is declared
again. -/
theorem parameter_redeclared_by_pairCall :
    ∃ r c, pairCall.build "main" "main" [] (Context.start {}) = .ok r c ∧
      ¬ FirstWriteDeclares r := by
  have hrun : (EStateM.run' (pairCall.build "main" "main" []) (Context.start {})).map
      (fun r => (r.params.length, r.bindings.map fun b => (b.registers, b.declares? r.body))) =
      some (1, [([0, 1], some true)]) := by
    decide +kernel
  unfold EStateM.run' EStateM.run at hrun
  cases hbuild : pairCall.build "main" "main" [] (Context.start {}) with
  | error stop c =>
    rw [hbuild] at hrun
    cases hrun
  | ok r c =>
    rw [hbuild] at hrun
    obtain ⟨hparams, hbindings⟩ := Prod.mk.inj (Option.some.inj hrun)
    obtain ⟨b, hb, hflag⟩ := map_eq_singleton_iff.mp hbindings
    obtain ⟨hregisters, hdeclares⟩ := Prod.mk.inj hflag
    refine ⟨r, c, rfl, fun hfirst => ?_⟩
    obtain ⟨declares, hsome, hiff⟩ := hfirst 0 b (by rw [hb]; rfl) 0 (by rw [hregisters]; simp)
    rw [hdeclares] at hsome
    cases hsome
    exact hiff.mp rfl (Or.inl ⟨Int.le_refl 0, by rw [hparams]; decide⟩)

end LuaRecovery

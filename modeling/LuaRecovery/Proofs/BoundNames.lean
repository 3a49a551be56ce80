/-
The names that registers are bound to.

A register of a function is bound to a name as a parameter, or by an assignment that has the
register among those of its binding, at the place that the name has among the targets.  The
walk keeps one local for each register, so all bindings of a register have one name; and a
local is given out together with a declaration, except that a closure gives its register a
local first and declares it only when its function has been recovered.

`Titled` is this as an invariant of the walk.  The set `E` has the registers whose local is not
declared yet.
-/
import LuaRecovery.Proofs.Jobs

namespace LuaRecovery

open List

/-- The names that a statement assigns to. -/
def Statement.targets : Statement → List String
  | .assign target _ _ _ => targetNames target
  | .define target _ _ _ => targetNames target
  | _ => []

/-- A binding binds a register to a name: the name is the target at the place of the
register. -/
def Binding.Gives (b : Binding) (body : List Statement) (reg : Int) (x : String) : Prop :=
  ∃ (k : Nat) (s : Statement),
    b.registers[k]? = some reg ∧ body[b.place]? = some s ∧ s.targets[k]? = some x

/-- A register is bound to a name, as a parameter or by an assignment. -/
def RoutineOf.BindsAs (r : Routine) (reg : Int) (x : String) : Prop :=
  (∃ k : Nat, reg = k ∧ r.params[k]? = some x) ∨ ∃ b ∈ r.bindings, b.Gives r.body reg x

/-- A register is bound to a name that is declared before a place of the body, as a parameter or
by an assignment. -/
def RoutineOf.DeclaresBefore (r : Routine) (place : Nat) (reg : Int) (x : String) : Prop :=
  (∃ k : Nat, reg = k ∧ r.params[k]? = some x) ∨
    ∃ b ∈ r.bindings, b.place < place ∧ b.Gives r.body reg x ∧
      ∃ s, r.body[b.place]? = some s ∧ x ∈ s.declared

/-- Every register is bound to one name at most. -/
def RoutineOf.OneName (r : Routine) : Prop :=
  ∀ reg x y, r.BindsAs reg x → r.BindsAs reg y → x = y

/-! ### Adding to a body -/

section

variable {b : Binding} {body body' : List Statement} {reg : Int} {x : String}

theorem Binding.Gives.grow (h : b.Gives body reg x) (hbody : body <+: body') :
    b.Gives body' reg x := by
  obtain ⟨k, s, hreg, hs, hx⟩ := h
  exact ⟨k, s, hreg, getElem?_prefix_mono hbody hs, hx⟩

theorem Binding.Gives.of_append {more : List Statement} (h : b.Gives (body ++ more) reg x)
    (hplace : b.place < body.length) : b.Gives body reg x := by
  obtain ⟨k, s, hreg, hs, hx⟩ := h
  rw [getElem?_append_left hplace] at hs
  exact ⟨k, s, hreg, hs, hx⟩

theorem RoutineOf.DeclaresBefore.bindsAs {r : Routine} {place : Nat}
    (h : r.DeclaresBefore place reg x) : r.BindsAs reg x := by
  rcases h with h | ⟨b, hb, -, hgives, -⟩
  · exact .inl h
  · exact .inr ⟨b, hb, hgives⟩

/-- What was declared is still so when more was recovered. -/
theorem RoutineOf.DeclaresBefore.grow {r r' : Routine} {place place' : Nat}
    (h : r.DeclaresBefore place reg x) (hparams : r'.params = r.params)
    (hbody : r.body <+: r'.body) (hbindings : r.bindings <+: r'.bindings)
    (hplace : place ≤ place') : r'.DeclaresBefore place' reg x := by
  rcases h with ⟨k, hk, hx⟩ | ⟨b, hb, hlt, hgives, s, hs, hx⟩
  · exact .inl ⟨k, hk, hparams ▸ hx⟩
  · exact .inr ⟨b, hbindings.subset hb, Nat.lt_of_lt_of_le hlt hplace, hgives.grow hbody, s,
      getElem?_prefix_mono hbody hs, hx⟩

end

namespace Walking

/-! ### The invariant -/

/-- The bindings of a register have the name of its local, and the locals of registers out of
`E` are declared. -/
structure Titled (E : Int → Prop) (w : Walk) : Prop where
  registered : w.context.scene.Registered
  used : ∀ reg x, w.frame.locals.get? reg = some x → x ∈ w.context.scene.names.used
  placed : ∀ b ∈ w.frame.bindings, b.place < w.frame.body.length
  only : ∀ reg x, w.frame.routine.BindsAs reg x → w.frame.locals.get? reg = some x
  named : ∀ reg x, w.frame.locals.get? reg = some x → ¬ E reg →
    w.frame.routine.DeclaresBefore w.frame.body.length reg x

variable {E E' : Int → Prop} {w w' : Walk}

theorem Titled.mono (h : Titled E w) (hE : ∀ reg, E reg → E' reg) : Titled E' w :=
  { h with named := fun reg x hx hreg => h.named reg x hx fun h' => hreg (hE reg h') }

theorem Titled.oneName (h : Titled E w) : w.frame.routine.OneName := by
  intro reg x y hx hy
  have hsame := (h.only reg x hx).symm.trans (h.only reg y hy)
  exact Option.some.inj hsame

section

variable (h : Titled E w) (hscene : w.context.scene.Grows w'.context.scene)
  (hparams : w'.frame.params = w.frame.params)

include h hscene hparams

/-- Statements were added that bind nothing, and the scene has grown. -/
theorem Titled.append {more : List Statement} (hbindings : w'.frame.bindings = w.frame.bindings)
    (hlocals : w'.frame.locals = w.frame.locals)
    (hbody : w'.frame.body = w.frame.body ++ more) : Titled E w' := by
  have hprefix : w.frame.body <+: w'.frame.body := hbody ▸ prefix_append _ _
  have hsame : w.frame.bindings <+: w'.frame.bindings := hbindings ▸ prefix_rfl
  refine ⟨h.registered.grows hscene, fun reg x hx => ?_, fun b hb => ?_, fun reg x hx => ?_,
    fun reg x hx hreg => ?_⟩
  · rw [hlocals] at hx
    exact hscene.used x (h.used reg x hx)
  · rw [hbindings] at hb
    exact Nat.lt_of_lt_of_le (h.placed b hb) hprefix.length_le
  · rw [hlocals]
    refine h.only reg x ?_
    rcases hx with ⟨k, hk, hx⟩ | ⟨b, hb, hgives⟩
    · have hx' : w'.frame.params[k]? = some x := hx
      rw [hparams] at hx'
      exact .inl ⟨k, hk, hx'⟩
    · have hb' : b ∈ w.frame.bindings := hbindings ▸ hb
      have hgives' : b.Gives (w.frame.body ++ more) reg x := hbody ▸ hgives
      exact .inr ⟨b, hb', hgives'.of_append (h.placed b hb')⟩
  · rw [hlocals] at hx
    exact (h.named reg x hx hreg).grow hparams hprefix hsame hprefix.length_le

theorem Titled.same (hbindings : w'.frame.bindings = w.frame.bindings)
    (hlocals : w'.frame.locals = w.frame.locals) (hbody : w'.frame.body = w.frame.body) :
    Titled E w' :=
  h.append hscene hparams hbindings hlocals
    (show w'.frame.body = w.frame.body ++ [] by rw [hbody, append_nil])

end

/-- A binding was added whose targets are the locals of its registers, and what was not declared
before it declares. -/
theorem Titled.bind {registers : List Int} {s : Statement} {locals : Table Int String}
    {c : Context} (h : Titled E w) (hscene : w.context.scene.Grows c.scene)
    (hkept : ∀ reg x, w.frame.locals.get? reg = some x → locals.get? reg = some x)
    (hused : ∀ reg x, locals.get? reg = some x → x ∈ c.scene.names.used)
    (htargets : ∀ (k : Nat) reg x, registers[k]? = some reg → s.targets[k]? = some x →
      locals.get? reg = some x)
    (hnew : ∀ reg x, locals.get? reg = some x → ¬ E' reg →
      (w.frame.locals.get? reg = some x ∧ ¬ E reg) ∨
        x ∈ s.declared ∧ ∃ k : Nat, registers[k]? = some reg ∧ s.targets[k]? = some x) :
    Titled E' (bound { w with context := c } registers s locals) := by
  have hlast : (w.frame.body ++ [s])[w.frame.body.length]? = some s := getElem?_concat_length
  have hlength : (w.frame.body ++ [s]).length = w.frame.body.length + 1 := length_append
  refine ⟨h.registered.grows hscene, hused, fun b hb => ?_, fun reg x hx => ?_,
    fun reg x hx hreg => ?_⟩
  · show b.place < (w.frame.body ++ [s]).length
    rw [hlength]
    rcases mem_append.mp hb with hb | hb
    · exact Nat.lt_succ_of_lt (h.placed b hb)
    · rw [mem_singleton.mp hb]
      exact Nat.lt_succ_self _
  · rcases hx with hx | ⟨b, hb, hgives⟩
    · exact hkept reg x (h.only reg x (.inl hx))
    · rcases mem_append.mp hb with hb | hb
      · exact hkept reg x (h.only reg x (.inr ⟨b, hb, hgives.of_append (h.placed b hb)⟩))
      · rw [mem_singleton.mp hb] at hgives
        obtain ⟨k, t, hk, ht, hx⟩ := hgives
        cases hlast.symm.trans ht
        exact htargets k reg x hk hx
  · rcases hnew reg x hx hreg with ⟨hold, hE⟩ | ⟨hdeclared, k, hk, hx⟩
    · exact (h.named reg x hold hE).grow rfl (prefix_append _ _) (prefix_append _ _)
        (Nat.le_of_lt (hlength ▸ Nat.lt_succ_self _))
    · exact .inr ⟨_, mem_append_right _ (mem_singleton_self _),
        hlength ▸ Nat.lt_succ_self _, ⟨k, s, hk, hlast, hx⟩, s, hlast, hdeclared⟩

theorem Titled.abandon (h : Titled E w) (failure : Failure) (recovered : Option Routine) :
    Titled E { w with frame := w.frame.abandon failure recovered } :=
  h.append (.refl _) rfl rfl rfl (append_assoc _ _ _)

/-! ### What the moves keep -/

section

variable {registers : List Int} {names : List String} {locals : Table Int String} {value : String}
  {declares : Bool} {comment : Option String}

/-- The names of an assignment are the locals of its registers, one by one. -/
theorem local_of_names (hnames : registers.map locals.get? = names.map some) {k : Nat} {reg : Int}
    (hreg : registers[k]? = some reg) : locals.get? reg = names[k]? := by
  have hk := congrArg (·[k]?) hnames
  simp only [getElem?_map, hreg, Option.map_some] at hk
  cases hx : names[k]? with
  | none =>
    rw [hx] at hk
    cases hk
  | some x =>
    rw [hx] at hk
    exact Option.some.inj hk

theorem targets_of_names (hnames : registers.map locals.get? = names.map some)
    (hwords : ∀ x ∈ names, Lua.IsWord x) (hne : registers ≠ []) :
    (Statement.assign (Text.commaList names) value declares comment).targets = names := by
  cases names with
  | nil => exact absurd (map_eq_nil_iff.mp hnames) hne
  | cons first rest => exact targetNames_commaList first rest hwords

theorem Titled.bindNames {scene : Scene} (h : Titled E w) (hstages : Stages w scene)
    (hbinds : Binds w.frame.locals registers locals declares)
    (hnames : Names w.frame.locals w.context.scene registers names locals scene) :
    Titled E (bound { w with context.scene := scene } registers
      (.assign (Text.commaList names) value declares comment) locals) := by
  have hused : ∀ reg x, locals.get? reg = some x → x ∈ scene.names.used := by
    intro reg x hx
    rcases hnames.chosen reg x hx with hold | hchosen
    · exact hstages.grows.used x (h.used reg x hold)
    · exact hchosen.used (h.registered.grows hstages.grows).objects
  have hwords : ∀ x ∈ names, Lua.IsWord x := by
    intro x hx
    have hsome : some x ∈ registers.map locals.get? := by
      rw [hnames.names]
      exact mem_map_of_mem hx
    obtain ⟨reg, -, hreg⟩ := mem_map.mp hsome
    exact (h.registered.grows hstages.grows).words x (hused reg x hreg)
  have htargets : ∀ (k : Nat) reg, registers[k]? = some reg →
      (Statement.assign (Text.commaList names) value declares comment).targets[k]? =
        locals.get? reg := by
    intro k reg hreg
    have hne : registers ≠ [] := by
      rintro rfl
      cases hreg
    rw [targets_of_names hnames.names hwords hne, local_of_names hnames.names hreg]
  refine h.bind hstages.grows hbinds.kept hused (fun k reg x hreg hx => ?_) fun reg x hx hreg => ?_
  · rw [← htargets k reg hreg]
    exact hx
  · cases hold : w.frame.locals.get? reg with
    | some y =>
      cases (hbinds.kept reg y hold).symm.trans hx
      exact .inl ⟨rfl, hreg⟩
    | none =>
      have hmem : reg ∈ registers := by
        have hnamed := (hbinds.named_iff reg).mp (by rw [hx]; rfl)
        rw [hold] at hnamed
        exact hnamed.resolve_left nofun
      obtain ⟨k, hk⟩ := mem_iff_getElem?.mp hmem
      have hx' := (htargets k reg hk).trans hx
      obtain rfl : declares = true := hbinds.declares_iff.mpr ⟨reg, hmem, hold⟩
      exact .inr ⟨mem_of_getElem? hx', k, hk, hx'⟩

end

/-- The names stay as they should be. -/
def Titles (w w' : Walk) : Prop := ∀ E, Titled E w → Titled E w'

theorem titles_blocked : Blocked Titles where
  refl _ _ h := h
  trans _ _ _ h₁ h₂ E h := h₂ E (h₁ E h)
  registers _ _ _ _ h := h.same (.refl _) rfl rfl rfl rfl
  scene _ _ hstages _ h := h.same hstages.grows rfl rfl rfl rfl
  objects _ _ _ h := h.same (.refl _) rfl rfl rfl rfl
  captured _ _ _ _ _ h := h.same (.refl _) rfl rfl rfl rfl
  assign _ _ _ _ _ h := h.append (.refl _) rfl rfl rfl rfl
  bind _ _ _ _ _ _ _ _ hstages _ hbinds hnames _ h := h.bindNames hstages hbinds hnames
  note _ _ _ h := h.same (.refl _) rfl rfl rfl rfl
  report _ _ _ h := h.same (.refl _) rfl rfl rfl rfl
  top _ _ _ h := h.same (.refl _) rfl rfl rfl rfl
  log w records _ h := h.same (w.context.scene.grows_logged records) rfl rfl rfl rfl
  emit _ _ _ _ h := h.append (.refl _) rfl rfl rfl rfl
  limits _ _ _ _ h := h.same (.refl _) rfl rfl rfl rfl
  strings _ _ _ h := h.same (.refl _) rfl rfl rfl rfl
  trace _ _ _ h := h.same (.refl _) rfl rfl rfl rfl
  drainRegisters _ _ h := h.same (.refl _) rfl rfl rfl rfl
  drainBlocks _ _ h := h.same (.refl _) rfl rfl rfl rfl
  blocks _ _ _ _ _ h := h.append (.refl _) rfl rfl rfl rfl

/-- All locals are declared. -/
abbrev AllTitled : Walk → Prop := Titled fun _ => False

/-- What holds of the names where a walk stops: all locals may be undeclared. -/
def TitledStop (stop : Stop) (w : Walk) : Prop := stop.IsMute ∨ Titled (fun _ => True) w

theorem titled_preserved : Preserved Titles AllTitled TitledStop where
  blocked := titles_blocked
  keeps hw h := hw _ h
  stops _ hw h := .inr ((hw _ h).mono fun _ => False.elim)
  located _ h := h

/-! ### Closures -/

/-- A closure takes a local for its register, and has to declare it if it is new. -/
theorem Titled.takeLocal {reg : Int} {scene : Scene} {locals : Table Int String}
    {objects : Table Nat String} {declares : Bool} (h : AllTitled w) (hstages : Stages w scene)
    (hbinds : Binds w.frame.locals [reg] locals declares)
    (hused : ∀ r x, locals.get? r = some x →
      w.frame.locals.get? r = some x ∨ x ∈ scene.names.used) :
    Titled (fun r => declares = true ∧ r = reg) { w with
      frame.locals := locals
      frame.objectLocals := objects
      context.scene := scene } := by
  refine ⟨h.registered.grows hstages.grows, fun r x hx => ?_, h.placed,
    fun r x hx => hbinds.kept r x (h.only r x hx), fun r x hx hr => ?_⟩
  · exact (hused r x hx).elim (fun hold => hstages.grows.used x (h.used r x hold)) id
  · cases hold : w.frame.locals.get? r with
    | some y =>
      cases (hbinds.kept r y hold).symm.trans hx
      exact h.named r x hold id
    | none =>
      have hnamed := (hbinds.named_iff r).mp (by
        have hx' : locals.get? r = some x := hx
        rw [hx']
        rfl)
      rw [hold] at hnamed
      have hreg := mem_singleton.mp (hnamed.resolve_left nofun)
      exact absurd ⟨hbinds.declares_iff.mpr ⟨r, mem_singleton.mpr hreg, hold⟩, hreg⟩ hr

/-- The names when a closure has been prepared. -/
theorem prepare_titled (child : Child) (i : Instruction) (index : Nat) (hw : AllTitled w) : After
      (fun ready w' => Titled (fun r => ready.declares = true ∧ r = i.a) w' ∧
        w'.frame.locals.get? i.a = some ready.name)
      (fun stop _ => stop.IsFault) (prepare child i index w) := by
  have htitles := prepare_after (T := Stop.IsFault) (i := i)
    (titles_blocked.restrict fun _ _ => trivial) child index w
  have honward := prepare_after (T := Stop.IsFault) (i := i)
    (onward_blocked.restrict fun _ _ => trivial) child index w
  refine after_mono (after_and htitles honward) ?_ fun _ _ h => h.1.1
  rintro ready w' ⟨⟨scene, objects, locals, hstages, hbinds, -, hused, h⟩,
    _, _, _, -, -, hname, -, h'⟩
  exact ⟨h _ (hw.takeLocal hstages hbinds hused), h'.locals _ _ hname⟩

/-- The function of a closure is bound to the local of its register, which is declared then. -/
theorem Titled.define {reg : Int} {name : String} {declares : Bool} {routine : Routine}
    {c : Context} (h : Titled (fun r => declares = true ∧ r = reg) w)
    (hname : w.frame.locals.get? reg = some name) (hlater : Later w.context c) :
    AllTitled (bound { w with context := c } [reg] (.define name routine declares none)
      w.frame.locals) := by
  have htargets : targetNames (Text.commaList [name]) = [name] := by
    refine targetNames_commaList name [] fun x hx => ?_
    rw [mem_singleton.mp hx]
    exact h.registered.words name (h.used reg name hname)
  refine h.bind hlater.grows (fun _ _ hx => hx)
    (fun r x hx => hlater.grows.used x (h.used r x hx)) (fun k r x hk hx => ?_)
    fun r x hx _ => ?_
  · have hx' : [name][k]? = some x := htargets ▸ hx
    cases k with
    | zero =>
      cases hk
      cases hx'
      exact hname
    | succ k => cases hk
  · by_cases hr : declares = true ∧ r = reg
    · obtain ⟨rfl, rfl⟩ := hr
      cases hname.symm.trans hx
      have hdeclared : name ∈ targetNames (Text.commaList [name]) := by
        rw [htargets]
        exact mem_singleton_self name
      exact .inr ⟨hdeclared, 0, rfl, (congrArg (·[0]?) htargets)⟩
    · exact .inl ⟨hx, hr⟩

theorem closure_titled {children : List Child}
    (hchildren : ∀ child ∈ children, Relates Later child.build)
    (i : Instruction) (index : Nat) (hw : AllTitled w) :
    After (fun _ w' => AllTitled w') TitledStop (closure children i index w) := by
  have hkept := titled_preserved
  cases hfound : childAt? children i.b with
  | none =>
    unfold closure
    rw [hfound]
    exact hkept.after (missingChild_keeps hkept.blocked.toTold _ i index) hw
  | some child =>
    rw [closure_eq hfound]
    refine after_seq (after_fault (prepare_titled child i index hw) fun _ _ h => .inl h.mute) ?_
    rintro ready w₁ ⟨hw₁, hname⟩
    have hgrown := hchildren child (mem_of_childAt? hfound) ready.name
      (w₁.frame.path ++ "/" ++ ready.name) ready.upvalues w₁.context
    refine after_bind (buildChild_after (fun routine c hrun => ?_)
      (fun failure routine c hrun => ?_) fun stop c hrun _ => ?_)
    all_goals
      rw [hrun] at hgrown
    · have hdefined : AllTitled (bound { w₁ with context := c } [i.a]
          (.define ready.name routine ready.declares none) w₁.frame.locals) :=
        hw₁.define hname hgrown
      exact after_bind (hkept.after (setRegister_keeps hkept.blocked.toCarried trivial _) hdefined)
    · exact .inr ((hw₁.define hname hgrown).mono fun _ => False.elim)
    · have hsame : Titled _ { w₁ with context := c } := hw₁.same hgrown.grows rfl rfl rfl rfl
      exact .inr (hsame.mono fun _ _ => trivial)

/-! ### The start of a walk -/

/-- A parameter is held under its name, which is new. -/
theorem Titled.addParam {f : Frame} {c : Context} (h : AllTitled ⟨f, c⟩)
    (hbindings : f.bindings = []) (hint : String) (registers : Registers) :
    AllTitled ⟨{ f with
        params := f.params ++ [(c.scene.uniqueName hint).1]
        locals := f.locals.insert f.params.length (c.scene.uniqueName hint).1
        registers },
      { c with scene := (c.scene.uniqueName hint).2 }⟩ := by
  have hgives := c.scene.uniqueName_gives hint
  have hgrows := c.scene.uniqueName_grows hint
  have hlast : (f.params ++ [(c.scene.uniqueName hint).1])[f.params.length]? =
      some (c.scene.uniqueName hint).1 := getElem?_concat_length
  refine ⟨h.registered.grows hgrows, fun reg x hx => ?_, h.placed, fun reg x hx => ?_,
    fun reg x hx _ => ?_⟩
  · rw [Table.get?_insert] at hx
    split at hx
    · cases hx
      exact hgives.used
    · exact hgrows.used x (h.used reg x hx)
  · show (f.locals.insert f.params.length (c.scene.uniqueName hint).1).get? reg = some x
    rw [Table.get?_insert]
    rcases hx with ⟨k, rfl, hx⟩ | ⟨b, hb, -⟩
    · rcases Nat.lt_trichotomy k f.params.length with hk | hk | hk
      · rw [if_neg (by omega)]
        have hx' : (f.params ++ [(c.scene.uniqueName hint).1])[k]? = some x := hx
        rw [getElem?_append_left hk] at hx'
        exact h.only k x (.inl ⟨k, rfl, hx'⟩)
      · rw [if_pos (by omega)]
        rw [hk] at hx
        exact hlast.symm.trans hx
      · have hlt := (List.getElem?_eq_some_iff.mp hx).1
        have hlength : (f.params ++ [(c.scene.uniqueName hint).1]).length = f.params.length + 1 :=
          length_append
        exact absurd (hlength ▸ hlt) (by omega)
    · exact absurd (hbindings ▸ hb) not_mem_nil
  · rw [Table.get?_insert] at hx
    split at hx
    · rename_i hreg
      cases hx
      exact .inl ⟨f.params.length, hreg.symm, hlast⟩
    · rcases h.named reg x hx id with ⟨k, hk, hx⟩ | ⟨b, hb, -⟩
      · exact .inl ⟨k, hk, getElem?_prefix_mono (prefix_append _ _) hx⟩
      · have hb' : b ∈ f.bindings := hb
        exact absurd (hbindings ▸ hb') not_mem_nil

theorem Titled.addParams (count : Nat) : ∀ {f : Frame} {c : Context}, AllTitled ⟨f, c⟩ →
    f.bindings = [] → AllTitled ⟨(f.addParams c.scene f.params.length count).1,
      { c with scene := (f.addParams c.scene f.params.length count).2 }⟩ := by
  induction count with
  | zero => exact fun h _ => h
  | succ count ih =>
    intro f c h hbindings
    have hparam := h.addParam hbindings s!"arg{f.params.length}" (f.registers.set f.params.length
        (.expression (c.scene.uniqueName s!"arg{f.params.length}").1))
    have hrest := ih hparam hbindings
    simp only [length_append, length_singleton] at hrest
    exact hrest

end Walking

namespace Job

open Walking

variable {j : Job} {index : Nat} {i : Instruction} {q : Prototype} {ready : Prepared} {w : Walk}

theorem entered_titled (hscene : j.context.scene.Registered) (limits : Limits) :
    AllTitled (j.entered limits) := by
  have hbare : AllTitled ⟨Frame.bare j.source j.name j.path j.upvalues,
      { j.context with limits }⟩ := by
    refine ⟨hscene, nofun, nofun, fun reg x hx => ?_, nofun⟩
    rcases hx with ⟨k, -, hx⟩ | ⟨b, hb, -⟩
    · cases hx
    · cases hb
  exact hbare.addParams j.source.paramCount.toNat rfl

theorem closures_titled (j : Job) (i : Instruction) (index : Nat) (w : Walk) (hw : AllTitled w) :
    After (fun _ w' => AllTitled w') TitledStop (closure j.children i index w) :=
  closure_titled (j.forall_children Prototype.build_grows) i index hw

theorem Due.titled (h : j.Due index i w) (hscene : j.context.scene.Registered) : AllTitled w :=
  h.preserved titled_preserved (entered_titled hscene) j.closures_titled

/-- The names of a function that waits for one inside. -/
theorem Opens.titled (h : j.Opens index i q ready w) (hscene : j.context.scene.Registered) :
    Titled (fun r => ready.declares = true ∧ r = i.a) w := by
  obtain @⟨before, hdue, -, -, hprepared⟩ := h
  have hafter := prepare_titled q.asChild i index (hdue.titled hscene)
  rw [hprepared] at hafter
  exact hafter.1

/-- In whatever a job hands back every register is bound to one name at most. -/
theorem oneName (j : Job) (hscene : j.context.scene.Registered) :
    HandsBack RoutineOf.OneName j.result := by
  unfold result
  rw [Prototype.build_eq]
  cases henter : j.context.limits.enter with
  | error failure =>
    rw [buildWith_refused henter]
    trivial
  | ok limits =>
    rw [buildWith_entered henter]
    have hrun := titled_preserved.walk j.closures_titled (entered_titled hscene limits)
    refine (returned_of_after (after_mono hrun (fun _ _ hw => hw.oneName) ?_)).handsBack
    rintro _ w hw failure recovered rfl
    exact (hw.resolve_left id).abandon failure recovered |>.oneName

end Job

end LuaRecovery

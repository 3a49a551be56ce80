/-
The names that a function declares.

The names of locals are made of a few hints: the places of the parameters, the numbers of the
registers, and the names of the functions inside.  While the scene is simulated a local may
also have the name of an object, or a new one after it.  A name that is made of a hint is not
in use before, and the names of the functions around are in use.  So of the names by which a
function refers to its upvalues, it declares none that a function around handed down, unless
that is the name of an object.  What is left are the names that come from elsewhere: those in
the debug information, and the ones for indexes without a name.

`Spelled` is this as an invariant of the walk, and the last theorem here is that it is kept
wherever values are written down.
-/
import LuaRecovery.Proofs.ContextRelations
import LuaRecovery.Proofs.Nesting

namespace LuaRecovery

open List

/-! ### Declared names -/

/-- The parts of a text between commas. -/
def splitCommas : List Char → List (List Char)
  | [] => [[]]
  | c :: cs =>
    if c = ',' then [] :: splitCommas cs
    else match splitCommas cs with
      | first :: rest => (c :: first) :: rest
      | [] => [[c]]

/-- The names in the target of an assignment, which has commas and spaces between them. -/
def targetNames (target : String) : List String :=
  (splitCommas (target.toList.filter (· != ' '))).map String.ofList

/-- The names that a statement declares. -/
def Statement.declared : Statement → List String
  | .assign target _ true _ => targetNames target
  | .define target _ true _ => targetNames target
  | _ => []

/-- A name that a function declares, as a parameter or as a local. -/
def RoutineOf.Declares (r : Routine) (x : String) : Prop :=
  x ∈ r.params ∨ ∃ s ∈ r.body, x ∈ s.declared

/-- A name that is declared after statements were added was so before, or they declare it. -/
theorem Frame.declares_of_append {f f' : Frame} {more : List Statement} {x : String}
    (h : f'.routine.Declares x) (hparams : f'.params = f.params)
    (hbody : f'.body = f.body ++ more) :
    f.routine.Declares x ∨ ∃ s ∈ more, x ∈ s.declared := by
  rcases h with hx | ⟨s, hs, hx⟩
  · have hx' : x ∈ f'.params := hx
    rw [hparams] at hx'
    exact .inl (.inl hx')
  · have hs' : s ∈ f'.body := hs
    rw [hbody] at hs'
    rcases mem_append.mp hs' with hs' | hs'
    · exact .inl (.inr ⟨s, hs', hx⟩)
    · exact .inr ⟨s, hs', hx⟩

theorem splitCommas_word {cs : List Char} (h : ',' ∉ cs) : splitCommas cs = [cs] := by
  induction cs with
  | nil => rfl
  | cons c cs ih =>
    rw [mem_cons, not_or] at h
    rw [splitCommas, if_neg (Ne.symm h.1), ih h.2]

theorem splitCommas_append {cs : List Char} (h : ',' ∉ cs) (rest : List Char) :
    splitCommas (cs ++ ',' :: rest) = cs :: splitCommas rest := by
  induction cs with
  | nil => rfl
  | cons c cs ih =>
    rw [mem_cons, not_or] at h
    rw [cons_append, splitCommas, if_neg (Ne.symm h.1), ih h.2]

namespace Lua.IsWord

variable {x : String}

theorem comma_not_mem (h : IsWord x) : ',' ∉ x.toList := fun hmem => absurd (h _ hmem) (by decide)

theorem filter_eq (h : IsWord x) : x.toList.filter (· != ' ') = x.toList := by
  refine filter_eq_self.mpr fun c hc => ?_
  rw [bne_iff_ne]
  rintro rfl
  exact absurd (h _ hc) (by decide)

end Lua.IsWord

/-- The names in a list of words are the words. -/
theorem targetNames_commaList (first : String) (rest : List String)
    (h : ∀ x ∈ first :: rest, Lua.IsWord x) :
    targetNames (Text.commaList (first :: rest)) = first :: rest := by
  unfold targetNames
  induction rest generalizing first with
  | nil =>
    have hfirst := h first mem_cons_self
    show (splitCommas (first.toList.filter _)).map String.ofList = _
    rw [hfirst.filter_eq, splitCommas_word hfirst.comma_not_mem, map_singleton,
      String.ofList_toList]
  | cons second rest ih =>
    have hfirst := h first mem_cons_self
    have hrest := ih second fun x hx => h x (mem_cons_of_mem _ hx)
    have hchars : (Text.commaList (first :: second :: rest)).toList.filter (· != ' ') =
        first.toList ++ ',' :: (Text.commaList (second :: rest)).toList.filter (· != ' ') := by
      show (first ++ ", " ++ Text.commaList (second :: rest)).toList.filter (· != ' ') = _
      rw [String.toList_append, String.toList_append, filter_append, filter_append,
        hfirst.filter_eq, append_assoc]
      rfl
    rw [hchars, splitCommas_append hfirst.comma_not_mem, map_cons, hrest, String.ofList_toList]

/-! ### Where names come from -/

/-- The hints for the locals of a function: its parameters, its registers, and the functions
inside it. -/
inductive Prototype.Hints (p : Prototype) : String → Prop
  | param (index : Nat) : index < p.paramCount.toNat → p.Hints s!"arg{index}"
  | register (reg : Int) : p.Hints s!"v{reg}"
  | function (q : Prototype) : q ∈ p.children → p.Hints (if q.name = "" then "func" else q.name)

/-- A name that may be made for a local of a function. -/
def Prototype.Coins (p : Prototype) (x : String) : Prop :=
  ∃ hint, p.Hints hint ∧ ∃ k, x = NameSupply.candidate (Lua.sanitize hint) k

/-- A name of an upvalue that no function hands down: it is in the debug information, or it
stands for an index. -/
inductive Prototype.Foreign (x : String) : Prototype → Prop
  | given {p : Prototype} : x ∈ p.upvalueNames → Foreign x p
  | index {p : Prototype} (i : Int) : x = "upval" ++ toString i → Foreign x p
  | inside {p q : Prototype} : q ∈ p.children → Foreign x q → Foreign x p

/-- The name of the global at the index of a constant. -/
def Prototype.globalName (p : Prototype) (index : Int) : String :=
  match ({ constants := p.constants } : Registers).constant? index with
  | some (.string s) => s
  | some c => c.text
  | none => s!"unknown_global_{index}"

theorem Walking.globalName_after {p : Prototype} {w : Walk}
    (hconstants : w.frame.registers.constants = p.constants) (index : Int) :
    After (fun name _ => name = p.globalName index) (fun stop _ => stop.IsFault)
      (globalName index w) := by
  have hconstant : w.frame.registers.constant? index =
      ({ constants := p.constants } : Registers).constant? index := by
    unfold Registers.constant?
    rw [hconstants]
  refine after_bind (after_askHost ?_ fun _ _ => trivial)
  refine after_state (after_bind (after_modify ?_))
  unfold Prototype.globalName
  rw [hconstant]
  cases ({ constants := p.constants } : Registers).constant? index with
  | none => rfl
  | some c => cases c <;> rfl

/-- A global that a function reads or assigns, and that is written as a bare name. -/
def Prototype.UsesGlobal (p : Prototype) (x : String) : Prop :=
  ∃ i ∈ p.instructions, (i.opcode = .getGlobal ∨ i.opcode = .setGlobal) ∧
    p.globalName i.b = x ∧ Lua.isName x = true

/-- The name of the upvalue at an index of a function to which upvalues were passed. -/
def Prototype.upvalueName (p : Prototype) (passed : List Upvalue) (index : Int) : String :=
  let known := if 0 ≤ index then (Frame.allUpvalues passed p.upvalueNames)[index.toNat]? else none
  (known.getD { name := "upval" ++ toString index }).name

theorem Walking.upvalueAt_name {p : Prototype} {passed : List Upvalue} {w : Walk}
    (hupvalues : w.frame.upvalues = Frame.allUpvalues passed p.upvalueNames) (index : Int) :
    After (fun upvalue _ => upvalue.name = p.upvalueName passed index) (fun stop _ => stop.IsFault)
      (upvalueAt index w) := by
  have hname : p.upvalueName passed index = ((knownUpvalue? w.frame.upvalues index).getD
      { name := "upval" ++ toString index }).name := by
    rw [hupvalues]
    rfl
  rw [hname]
  refine after_bind (after_askHost (after_state ?_) fun _ _ => trivial)
  dsimp only
  generalize (knownUpvalue? w.frame.upvalues index).getD _ = upvalue
  by_cases hnew : (!w.frame.captured.contains upvalue.name) = true
  · rw [if_pos hnew]
    exact after_bind (after_modify (show upvalue.name = upvalue.name from rfl))
  · rw [if_neg hnew]
    rfl

/-- A name of an upvalue that a function reads or assigns. -/
def Prototype.UsesUpvalue (p : Prototype) (passed : List Upvalue) (x : String) : Prop :=
  ∃ i ∈ p.instructions, (i.opcode = .getUpvalue ∨ i.opcode = .setUpvalue) ∧
    p.upvalueName passed i.b = x

namespace Scene

/-- The name of an object. -/
def NamesObject (s : Scene) (x : String) : Prop := ∃ o ∈ s.objects, o.name = x

/-- A name that may be made after that of an object. -/
def CoinsAfterObject (s : Scene) (x : String) : Prop :=
  ∃ o ∈ s.objects, ∃ k, x = NameSupply.candidate (Lua.sanitize o.name) k

variable {s s' : Scene} {x : String}

theorem NamesObject.grows (h : s.NamesObject x) (hs : s.Grows s') : s'.NamesObject x := by
  obtain ⟨o, ho, hname⟩ := h
  exact ⟨o, hs.objects o ho, hname⟩

theorem CoinsAfterObject.grows (h : s.CoinsAfterObject x) (hs : s.Grows s') :
    s'.CoinsAfterObject x := by
  obtain ⟨o, ho, hname⟩ := h
  exact ⟨o, hs.objects o ho, hname⟩

/-- The names in use are words, and those of the objects are in use. -/
structure Registered (s : Scene) : Prop where
  words : ∀ x ∈ s.names.used, Lua.IsWord x
  objects : ∀ o ∈ s.objects, o.name ∈ s.names.used

theorem Registered.grows (h : s.Registered) (hs : s.Grows s') : s'.Registered where
  words x hx := (hs.words x hx).elim (h.words x) id
  objects o ho := (hs.named o ho).elim (fun h' => hs.used _ (h.objects o h')) id

end Scene

/-! ### Functions and what they are recovered as -/

/-- A property of a function and of what it is recovered as, and of all functions inside. -/
inductive Alongside (P : Prototype → Routine → Prop) : Prototype → Routine → Prop
  | intro {p : Prototype} {r : Routine} (source : Routine → Prototype) : P p r →
      (∀ s ∈ r.body, ∀ inner, s.routine? = some inner → source inner ∈ p.children) →
      (∀ s ∈ r.body, ∀ inner, s.routine? = some inner → Alongside P (source inner) inner) →
      Alongside P p r

variable {p : Prototype} {r : Routine}

theorem Alongside.mono {P P' : Prototype → Routine → Prop} (hP : ∀ p r, P p r → P' p r)
    (h : Alongside P p r) : Alongside P' p r := by
  induction h with
  | intro source hr hmem _ ih => exact .intro source (hP _ _ hr) hmem ih

open Classical in
theorem Alongside.of_inner {P : Prototype → Routine → Prop} (h : P p r)
    (hinner : ∀ s ∈ r.body, ∀ inner, s.routine? = some inner →
      ∃ q ∈ p.children, Alongside P q inner) : Alongside P p r := by
  have hsource : ∀ inner : Routine, ∃ q, (∃ s ∈ r.body, s.routine? = some inner) →
      q ∈ p.children ∧ Alongside P q inner := by
    intro inner
    by_cases hmem : ∃ s ∈ r.body, s.routine? = some inner
    · obtain ⟨s, hs, hroutine⟩ := hmem
      obtain ⟨q, hq, hq'⟩ := hinner s hs inner hroutine
      exact ⟨q, fun _ => ⟨hq, hq'⟩⟩
    · exact ⟨p, fun hmem' => absurd hmem' hmem⟩
  refine .intro (fun inner => (hsource inner).choose) h (fun s hs inner hroutine => ?_)
    fun s hs inner hroutine => ?_
  · exact ((hsource inner).choose_spec ⟨s, hs, hroutine⟩).1
  · exact ((hsource inner).choose_spec ⟨s, hs, hroutine⟩).2

/-- What is known of the names of a function that is recovered, where `F` has the foreign
names: they are made for the function or after objects, and a name of an upvalue among them
is foreign or that of an object. -/
structure Clean (F : String → Prop) (scene : Scene) (p : Prototype) (r : Routine) : Prop where
  coined : ∀ x, r.Declares x → p.Coins x ∨ scene.NamesObject x ∨ scene.CoinsAfterObject x
  captured : ∀ x, r.Declares x → x ∈ r.captured → F x ∨ scene.NamesObject x
  built : ∃ name path upvalues c c', p.build name path upvalues c = .ok r c' ∧
    ∀ x, r.Declares x → p.UsesUpvalue upvalues x → F x ∨ scene.NamesObject x

theorem Clean.grows {F : String → Prop} {s s' : Scene} (h : Clean F s p r) (hs : s.Grows s') :
    Clean F s' p r where
  coined x hx := (h.coined x hx).imp_right fun h' =>
    h'.imp (fun h' => h'.grows hs) fun h' => h'.grows hs
  captured x hx hmem := (h.captured x hx hmem).imp_right fun h' => h'.grows hs
  built := by
    obtain ⟨name, path, upvalues, c, c', hbuild, huses⟩ := h.built
    exact ⟨name, path, upvalues, c, c', hbuild, fun x hx hmem =>
      (huses x hx hmem).imp_right fun h' => h'.grows hs⟩

namespace Walking

/-! ### The invariant -/

/-- A name of a local of a function: one that was not taken when the function was entered, or
that of an object. -/
def Own (taken : List String) (p : Prototype) (scene : Scene) (x : String) : Prop :=
  (x ∉ taken ∧ (p.Coins x ∨ scene.CoinsAfterObject x)) ∨ scene.NamesObject x

variable {x : String}

theorem Own.grows {taken : List String} {p : Prototype} {s s' : Scene} (h : Own taken p s x)
    (hs : s.Grows s') : Own taken p s' x :=
  h.imp (fun h' => h'.imp_right fun h' => h'.imp_right fun h' => h'.grows hs) fun h' => h'.grows hs

/-- The names of a function so far.  The names in `taken` were in use when it was entered. -/
structure Spelled (F : String → Prop) (taken : List String) (p : Prototype) (w : Walk) :
    Prop where
  registered : w.context.scene.Registered
  used : ∀ x ∈ taken, x ∈ w.context.scene.names.used
  upvalues : ∀ upvalue ∈ w.frame.upvalues, upvalue.name ∈ taken ∨ F upvalue.name
  captured : ∀ x ∈ w.frame.captured, x ∈ taken ∨ F x
  locals : ∀ reg x, w.frame.locals.get? reg = some x →
    x ∈ w.context.scene.names.used ∧ Own taken p w.context.scene x
  declared : ∀ x, w.frame.routine.Declares x → Own taken p w.context.scene x
  inner : ∀ s ∈ w.frame.body, ∀ r, s.routine? = some r →
    ∃ q ∈ p.children, Alongside (Clean F w.context.scene) q r

variable {F : String → Prop} {taken : List String} {p : Prototype} {w w' : Walk}

/-- The names stay spelled if only such names are added. -/
theorem Spelled.add (h : Spelled F taken p w) (hscene : w.context.scene.Grows w'.context.scene)
    (hupvalues : w'.frame.upvalues = w.frame.upvalues)
    (hcaptured : ∀ x ∈ w'.frame.captured, x ∈ w.frame.captured ∨ x ∈ taken ∨ F x)
    (hlocals : ∀ reg x, w'.frame.locals.get? reg = some x → w.frame.locals.get? reg = some x ∨
      x ∈ w'.context.scene.names.used ∧ Own taken p w'.context.scene x)
    (hdeclared : ∀ x, w'.frame.routine.Declares x →
      w.frame.routine.Declares x ∨ Own taken p w'.context.scene x)
    (hinner : ∀ s ∈ w'.frame.body, ∀ r, s.routine? = some r → s ∈ w.frame.body ∨
      ∃ q ∈ p.children, Alongside (Clean F w'.context.scene) q r) : Spelled F taken p w' where
  registered := h.registered.grows hscene
  used x hx := hscene.used x (h.used x hx)
  upvalues := by rw [hupvalues]; exact h.upvalues
  captured x hx := (hcaptured x hx).elim (h.captured x) id
  locals reg x hx := by
    rcases hlocals reg x hx with hold | hnew
    · obtain ⟨hused, hown⟩ := h.locals reg x hold
      exact ⟨hscene.used x hused, hown.grows hscene⟩
    · exact hnew
  declared x hx := (hdeclared x hx).elim (fun hold => (h.declared x hold).grows hscene) id
  inner s hs r hr := by
    rcases hinner s hs r hr with hold | hnew
    · obtain ⟨q, hq, hclean⟩ := h.inner s hold r hr
      exact ⟨q, hq, hclean.mono fun _ _ hc => hc.grows hscene⟩
    · exact hnew

/-! ### What the moves keep -/

/-- What is spelled stays so, and locals are kept. -/
structure Spells (F : String → Prop) (taken : List String) (p : Prototype) (w w' : Walk) :
    Prop where
  spelled : Spelled F taken p w → Spelled F taken p w'
  locals : ∀ reg x, w.frame.locals.get? reg = some x → w'.frame.locals.get? reg = some x
  later : Later w.context w'.context

theorem Spells.trans (w₁ w₂ w₃ : Walk) (h₁ : Spells F taken p w₁ w₂)
    (h₂ : Spells F taken p w₂ w₃) : Spells F taken p w₁ w₃ where
  spelled h := h₂.spelled (h₁.spelled h)
  locals reg x hx := h₂.locals reg x (h₁.locals reg x hx)
  later := h₁.later.trans h₂.later

/-- Statements that declare nothing and hold no functions. -/
def Silent (nodes : List Statement) : Prop := ∀ s ∈ nodes, s.declared = [] ∧ s.routine? = none

theorem silent_singleton {s : Statement} (hd : s.declared = []) (hr : s.routine? = none) :
    Silent [s] := by
  intro t ht
  rw [mem_singleton.mp ht]
  exact ⟨hd, hr⟩

theorem silent_of_isLine {s : Statement} (hs : s.IsLine) : Silent [s] := by
  cases s with
  | call | ret | verbatim => exact silent_singleton rfl rfl
  | _ => exact hs.elim

theorem silent_of_scaffold {nodes : List Statement} (h : Scaffold nodes) : Silent nodes := by
  intro s hs
  rcases h s hs with ⟨text, role, rfl⟩ | ⟨text, rfl⟩ <;> exact ⟨rfl, rfl⟩

section

variable (hupvalues : w'.frame.upvalues = w.frame.upvalues)
  (hcaptured : w'.frame.captured = w.frame.captured) (hlocals : w'.frame.locals = w.frame.locals)

include hupvalues hcaptured hlocals

/-- Silent statements were added to the body. -/
theorem Spells.of_append {more : List Statement} (hparams : w'.frame.params = w.frame.params)
    (hbody : w'.frame.body = w.frame.body ++ more) (hlater : Later w.context w'.context)
    (hmore : Silent more) : Spells F taken p w w' := by
  refine ⟨fun h => ?_, fun reg x hx => by rw [hlocals]; exact hx, hlater⟩
  refine h.add hlater.grows hupvalues (fun x hx => .inl (hcaptured ▸ hx))
    (fun reg x hx => .inl (hlocals ▸ hx)) (fun x hx => .inl ?_) fun s hs r hr => ?_
  · rcases Frame.declares_of_append hx hparams hbody with hold | ⟨s, hs, hx⟩
    · exact hold
    · rw [(hmore s hs).1] at hx
      cases hx
  · rw [hbody] at hs
    rcases mem_append.mp hs with hs | hs
    · exact .inl hs
    · rw [(hmore s hs).2] at hr
      cases hr

theorem Spells.of_same (hparams : w'.frame.params = w.frame.params)
    (hbody : w'.frame.body = w.frame.body) (hlater : Later w.context w'.context) :
    Spells F taken p w w' :=
  .of_append hupvalues hcaptured hlocals hparams
    (show w'.frame.body = w.frame.body ++ [] by rw [hbody, append_nil]) hlater nofun

end

/-- A name that was chosen is one of the function. -/
theorem Chosen.own {s s' : Scene} {reg : Int} (h : Chosen s s' reg x)
    (htaken : ∀ x ∈ taken, x ∈ s.names.used) (hs : s'.Registered) :
    x ∈ s'.names.used ∧ Own taken p s' x := by
  cases h with
  | register hgives =>
    refine ⟨hgives.used, .inl ⟨fun hmem => hgives.fresh (htaken x hmem), .inl ?_⟩⟩
    exact ⟨_, .register reg, hgives.candidate⟩
  | object o ho hname =>
    rw [hname]
    exact ⟨hs.objects o ho, .inr ⟨o, ho, rfl⟩⟩
  | after o ho hgives =>
    refine ⟨hgives.used, .inl ⟨fun hmem => hgives.fresh (htaken x hmem), .inr ?_⟩⟩
    exact ⟨o, ho, hgives.candidate⟩

/-- The names that an assignment declares are the locals of its registers. -/
theorem mem_of_declared {registers : List Int} {names : List String} {locals : Table Int String}
    {value : String} {declares : Bool} {comment : Option String}
    (hnames : registers.map locals.get? = names.map some) (hwords : ∀ x ∈ names, Lua.IsWord x)
    (hdeclares : declares = true → registers ≠ [])
    (hx : x ∈ (Statement.assign (Text.commaList names) value declares comment).declared) :
    ∃ reg ∈ registers, locals.get? reg = some x := by
  cases declares with
  | false => cases hx
  | true =>
    cases names with
    | nil => exact absurd (map_eq_nil_iff.mp hnames) (hdeclares rfl)
    | cons first rest =>
      have hmem : x ∈ first :: rest := by
        rw [← targetNames_commaList first rest hwords]
        exact hx
      have hsome : some x ∈ registers.map locals.get? := by
        rw [hnames]
        exact mem_map_of_mem hmem
      exact mem_map.mp hsome

theorem Spells.of_bind {scene : Scene} {registers : List Int} {names : List String}
    {locals : Table Int String} {value : String} {declares : Bool} {comment : Option String}
    (hstages : Stages w scene) (hbinds : Binds w.frame.locals registers locals declares)
    (hnames : Names w.frame.locals w.context.scene registers names locals scene) :
    Spells F taken p w (bound { w with context.scene := scene } registers
      (.assign (Text.commaList names) value declares comment) locals) := by
  refine ⟨fun h => ?_, hbinds.kept, hstages.later⟩
  have hregistered := h.registered.grows hstages.grows
  have hlocals : ∀ reg x, locals.get? reg = some x →
      x ∈ scene.names.used ∧ Own taken p scene x := by
    intro reg x hx
    rcases hnames.chosen reg x hx with hold | hchosen
    · obtain ⟨hused, hown⟩ := h.locals reg x hold
      exact ⟨hstages.grows.used x hused, hown.grows hstages.grows⟩
    · exact hchosen.own h.used hregistered
  have hwords : ∀ x ∈ names, Lua.IsWord x := by
    intro x hx
    have hsome : some x ∈ registers.map locals.get? := by
      rw [hnames.names]
      exact mem_map_of_mem hx
    obtain ⟨reg, -, hreg⟩ := mem_map.mp hsome
    exact hregistered.words x (hlocals reg x hreg).1
  have hdeclares : declares = true → registers ≠ [] := by
    rintro hd rfl
    obtain ⟨reg, hreg, -⟩ := hbinds.declares_iff.mp hd
    cases hreg
  refine h.add hstages.grows rfl (fun x hx => .inl hx) (fun reg x hx => .inr (hlocals reg x hx))
    (fun x hx => ?_) fun s hs r hr => ?_
  · rcases Frame.declares_of_append (f := w.frame) hx rfl rfl with hold | ⟨s, hs, hx⟩
    · exact .inl hold
    · rw [mem_singleton.mp hs] at hx
      obtain ⟨reg, -, hreg⟩ := mem_of_declared hnames.names hwords hdeclares hx
      exact .inr (hlocals reg x hreg).2
  · rcases mem_append.mp hs with hs | hs
    · exact .inl hs
    · rw [mem_singleton.mp hs] at hr
      cases hr

/-- A name by which a function refers to an upvalue is taken or foreign. -/
theorem Spelled.refers (h : Spelled F taken p w) (hF : ∀ i : Int, F ("upval" ++ toString i))
    (hx : Refers w x) : x ∈ taken ∨ F x := by
  rcases hx with ⟨upvalue, hmem, rfl⟩ | ⟨index, rfl⟩
  · exact h.upvalues upvalue hmem
  · exact .inr (hF index)

theorem spells_blocked (taken : List String) (p : Prototype)
    (hF : ∀ i : Int, F ("upval" ++ toString i)) : Blocked (Spells F taken p) where
  refl _ := .of_same rfl rfl rfl rfl rfl (.refl _)
  trans := Spells.trans
  registers _ _ _ := .of_same rfl rfl rfl rfl rfl (.refl _)
  scene _ _ h := .of_same rfl rfl rfl rfl rfl h.later
  objects _ _ := .of_same rfl rfl rfl rfl rfl (.refl _)
  captured w x hx _ := by
    refine ⟨fun h => ?_, fun _ _ h => h, .refl _⟩
    refine h.add (.refl _) rfl (fun y hy => ?_) (fun _ _ hy => .inl hy) (fun _ hy => .inl hy)
      fun _ hs _ _ => .inl hs
    rcases mem_append.mp hy with hy | hy
    · exact .inl hy
    · rw [mem_singleton.mp hy]
      exact .inr (h.refers hF hx)
  assign _ _ _ _ := .of_append rfl rfl rfl rfl rfl (.refl _) (silent_singleton rfl rfl)
  bind _ _ _ _ _ _ _ _ hstages _ hbinds hnames := .of_bind hstages hbinds hnames
  note _ _ := .of_same rfl rfl rfl rfl rfl (.refl _)
  report _ _ := .of_same rfl rfl rfl rfl rfl (later_enclosed.report _ _)
  top _ _ := .of_same rfl rfl rfl rfl rfl (.refl _)
  log w records := .of_same rfl rfl rfl rfl rfl (later_enclosed.calls w.context records)
  emit _ _ hs := .of_append rfl rfl rfl rfl rfl (.refl _) (silent_of_isLine hs)
  limits w _ h := .of_same rfl rfl rfl rfl rfl (later_enclosed.limits w.context _ h)
  strings _ _ := .of_same rfl rfl rfl rfl rfl (later_enclosed.strings _ _)
  trace _ _ := .of_same rfl rfl rfl rfl rfl (later_enclosed.trace _ _)
  drainRegisters _ := .of_same rfl rfl rfl rfl rfl (.refl _)
  drainBlocks _ := .of_same rfl rfl rfl rfl rfl (.refl _)
  blocks _ _ _ h := .of_append rfl rfl rfl rfl rfl (.refl _) (silent_of_scaffold h)

end Walking

end LuaRecovery

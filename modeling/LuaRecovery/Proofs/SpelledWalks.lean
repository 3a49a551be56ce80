/-
Walks keep the names of a function as they should be.

The opcodes that only write values down do so by the moves.  A closure takes a new local, hands
down names that are in use or foreign, and its function is recovered in a scene that has only
grown.  So by induction over the functions inside, what a function is recovered as is clean,
and the last theorem here says so of every function.
-/
import LuaRecovery.Proofs.DeclaredNames

namespace LuaRecovery

open List

namespace Walking

variable {F : String → Prop} {taken : List String} {p : Prototype} {w : Walk} {c : Context}

theorem spelled_preserved (taken : List String) (p : Prototype)
    (hF : ∀ i : Int, F ("upval" ++ toString i)) :
    Preserved (Spells F taken p) (Spelled F taken p) fun _ _ => True where
  blocked := spells_blocked taken p hF
  keeps hw h := hw.spelled h
  stops _ _ _ := trivial
  located _ _ := trivial

/-! ### Closures -/

/-- The names of upvalues are in use or foreign. -/
def Known (F : String → Prop) (scene : Scene) (upvalues : List Upvalue) : Prop :=
  ∀ upvalue ∈ upvalues, upvalue.name ∈ scene.names.used ∨ F upvalue.name

section

variable (hF : ∀ i : Int, F ("upval" ++ toString i)) {name : String}

include hF

theorem captureRegister_spells (target reg : Int) (hw : Spelled F taken p w)
    (hname : name ∈ w.context.scene.names.used) :
    Once (fun upvalue w' => Spells F taken p w w' ∧ Known F w'.context.scene [upvalue])
      (captureRegister target name reg w) := by
  have hR := (spells_blocked taken p hF).toCarried
  unfold captureRegister
  by_cases hreg : reg = target
  · rw [if_pos hreg]
    refine ⟨hR.refl w, fun upvalue hmem => .inl ?_⟩
    rw [mem_singleton.mp hmem]
    exact hname
  · rw [if_neg hreg]
    refine after_seq (after_loose (readRegister_keeps hR trivial w)) fun _ w₁ hread => ?_
    refine after_seq (after_loose (ensureNamed_after hR trivial w₁)) ?_
    rintro found w₂ ⟨hnamed, hlocal⟩
    have hspells := hR.trans _ _ _ hread hnamed
    refine ⟨hspells, fun upvalue hmem => .inl ?_⟩
    rw [mem_singleton.mp hmem]
    exact ((hspells.spelled hw).locals reg found hlocal).1

theorem upvalueAt_spells (index : Int) (hw : Spelled F taken p w) :
    Once (fun upvalue w' => Spells F taken p w w' ∧ Known F w'.context.scene [upvalue])
      (upvalueAt index w) := by
  have hR := (spells_blocked taken p hF).toCarried
  refine after_mono (upvalueAt_after (T := fun _ => True) hR index w) ?_ fun _ _ _ => trivial
  rintro upvalue w₁ ⟨hspells, hrefers⟩
  refine ⟨hspells, fun u hmem => ?_⟩
  rw [mem_singleton.mp hmem]
  exact (hw.refers hF hrefers).imp_left ((hspells.spelled hw).used _)

/-- The upvalues of a closure that has the local `name`. -/
theorem captures_spells (target : Int) (instructions : List Instruction)
    (hw : Spelled F taken p w) (hname : name ∈ w.context.scene.names.used) :
    Once (fun upvalues w' => Spells F taken p w w' ∧ Known F w'.context.scene upvalues)
      (captures target name instructions w) := by
  have hR := (spells_blocked taken p hF).toCarried
  have hone : ∀ {w : Walk} {m : Walking Upvalue},
      Once (fun u w' => Spells F taken p w w' ∧ Known F w'.context.scene [u]) (m w) →
      Once (fun u w' => Spells F taken p w w' ∧ (u.name ∈ w'.context.scene.names.used ∨ F u.name))
        (m w) := fun hm =>
    after_imp hm (fun u _ h => ⟨h.1, h.2 u mem_cons_self⟩)
  have heach := captures_each (S := fun _ _ => True)
    (I := fun w => Spelled F taken p w ∧ name ∈ w.context.scene.names.used)
    (K := fun _ u w => u.name ∈ w.context.scene.names.used ∨ F u.name) hR.refl hR.trans
    (fun _ _ => trivial)
    (fun hw h => ⟨hw.spelled h.1, hw.later.grows.used _ h.2⟩)
    (fun hw h => h.imp_left (hw.later.grows.used _))
    (fun _ h => hone (captureRegister_spells hF target _ h.1 h.2))
    (fun _ h => hone (upvalueAt_spells hF _ h.1)) instructions ⟨hw, hname⟩
  refine after_imp heach ?_
  rintro upvalues w' ⟨hspells, hlength, hknown⟩
  refine ⟨hspells, fun u hu => ?_⟩
  obtain ⟨k, hk⟩ := mem_iff_getElem?.mp hu
  have hlt : k < instructions.length := by
    have hprefix := ( takeWhile_prefix (l := instructions) Instruction.isCapture).length_le
    have := (List.getElem?_eq_some_iff.mp hk).1
    omega
  exact hknown k _ u (getElem?_eq_getElem hlt) hk

end

end Walking

/-- A function is recovered as one with the names that it should have, if the upvalues that it is
given have. -/
structure Prototype.Tame (F : String → Prop) (p : Prototype) (name path : String)
    (upvalues : List Upvalue) (c : Context) : Prop where
  clean : ∀ r c', p.build name path upvalues c = .ok r c' → Alongside (Clean F c'.scene) p r

/-- Builders for the functions inside a function, all of them tame. -/
def TameChildren (F : String → Prop) (p : Prototype) (children : List Child) : Prop :=
  ∀ child ∈ children, ∃ q ∈ p.children, child.name = q.name ∧ child.build = q.build ∧
    ∀ name path upvalues c, c.scene.Registered → Walking.Known F c.scene upvalues →
      q.Tame F name path upvalues c

namespace Walking

variable {passed : List Upvalue} {q : Prototype} {target : Int}

/-- A closure takes its local first, which may get a new name. -/
theorem Spelled.takeLocal {scene : Scene} {locals : Table Int String} (h : Spelled F taken p w)
    (hq : q ∈ p.children) (hstages : Stages w scene) (objects : Table Nat String)
    (hnew : ∀ r x, locals.get? r = some x → w.frame.locals.get? r = some x ∨
      r = target ∧ w.context.scene.Gives scene (if q.name = "" then "func" else q.name) x) :
    Spelled F taken p { w with
      frame.locals := locals
      frame.objectLocals := objects
      context.scene := scene } := by
  refine h.add hstages.grows rfl (fun _ hx => .inl hx) (fun r x hx => ?_) (fun _ hx => .inl hx)
    fun _ hs _ _ => .inl hs
  refine (hnew r x hx).imp_right ?_
  rintro ⟨-, hgives⟩
  refine ⟨hgives.used, .inl ⟨fun hmem => hgives.fresh (h.used x hmem), .inl ?_⟩⟩
  exact ⟨_, .function q hq, hgives.candidate⟩

/-- The function inside is bound to the local of the closure. -/
theorem Spelled.define {name : String} {routine : Routine} {declares : Bool} {d : Context}
    (h : Spelled F taken p w) (hlocal : w.frame.locals.get? target = some name)
    (hlater : Later w.context d) (hq : q ∈ p.children)
    (hclean : Alongside (Clean F d.scene) q routine) :
    Spelled F taken p (bound { w with context := d } [target]
      (.define name routine declares none) w.frame.locals) := by
  obtain ⟨hused, hown⟩ := h.locals target name hlocal
  refine h.add hlater.grows rfl (fun _ hx => .inl hx) (fun _ _ hx => .inl hx) (fun x hx => ?_)
    fun s hs r hr => ?_
  · rcases Frame.declares_of_append (f := w.frame) hx rfl rfl with hold | ⟨s, hs, hx⟩
    · exact .inl hold
    · rw [mem_singleton.mp hs] at hx
      cases declares with
      | false => cases hx
      | true =>
        have hname : x ∈ targetNames (Text.commaList [name]) := hx
        rw [targetNames_commaList name [] fun y hy => by
          rw [mem_singleton.mp hy]; exact h.registered.words name hused] at hname
        rw [mem_singleton.mp hname]
        exact .inr (hown.grows hlater.grows)
  · rcases mem_append.mp hs with hs | hs
    · exact .inl hs
    · rw [mem_singleton.mp hs] at hr
      cases hr
      exact .inr ⟨q, hq, hclean⟩

theorem buildChild_spelled {child : Child} {name : String} {upvalues : List Upvalue}
    {declares : Bool} (hw : Spelled F taken p w) (hlocal : w.frame.locals.get? target = some name)
    (hq : q ∈ p.children) (hbuild : child.build = q.build)
    (htame : q.Tame F name (w.frame.path ++ "/" ++ name) upvalues w.context) :
    Once (fun _ w' => Spelled F taken p w') (buildChild child target name upvalues declares w) := by
  have hgrown := q.build_grows name (w.frame.path ++ "/" ++ name) upvalues w.context
  refine buildChild_after (fun routine d hrun => ?_) (fun _ _ _ _ => trivial) fun _ _ _ _ => trivial
  rw [hbuild] at hrun
  rw [hrun] at hgrown
  exact hw.define hlocal hgrown hq (htame.clean routine d hrun)

theorem closure_spelled (hF : ∀ i : Int, F ("upval" ++ toString i)) {children : List Child}
    (hchildren : TameChildren F p children) (i : Instruction) (index : Nat)
    (hw : Spelled F taken p w) :
    Once (fun _ w' => Spelled F taken p w') (closure children i index w) := by
  have hkept := spelled_preserved taken p hF
  unfold closure
  cases hfound : childAt? children i.b with
  | none => exact hkept.after (missingChild_keeps hkept.blocked.toTold _ i index) hw
  | some child =>
    obtain ⟨q, hq, hname, hbuild, htame⟩ := hchildren child (mem_of_childAt? hfound)
    refine after_seq (after_fault (takeLocal_after i.a (uniqueName_after _ w))
      fun _ _ h => h.elim) ?_
    rintro ⟨name, declares⟩ _ ⟨scene, objects, locals, rfl, hstages, -, hlocal, hnew⟩
    rw [hname] at hnew
    have hspelled := hw.takeLocal hq hstages objects hnew
    refine after_state ?_
    refine after_seq (captures_spells hF i.a
      ((w.frame.code.drop (index + 1)).take child.upvalueCount.toNat) hspelled
      (hspelled.locals i.a name hlocal).1) ?_
    rintro upvalues w₂ ⟨hspells, hknown⟩
    have hspelled₂ := hspells.spelled hspelled
    refine after_bind (after_askHost ?_ fun _ _ => trivial)
    refine after_seq (buildChild_spelled hspelled₂ (hspells.locals i.a name hlocal) hq hbuild
      (htame _ _ _ _ hspelled₂.registered hknown)) fun _ w₃ hw₃ => ?_
    exact after_bind (hkept.after (setRegister_keeps hkept.blocked.toCarried trivial _) hw₃)

/-! ### The start of a walk -/

theorem Known.allUpvalues {scene : Scene} {names : List String} (hpassed : Known F scene passed)
    (hnames : ∀ x ∈ names, F x) : Known F scene (Frame.allUpvalues passed names) := by
  intro upvalue hmem
  rcases mem_append.mp hmem with hmem | hmem
  · exact hpassed upvalue hmem
  · obtain ⟨x, hx, rfl⟩ := mem_map.mp hmem
    exact .inr (hnames x (mem_of_mem_drop hx))

/-- A function that has no parameters yet and has done nothing declares no names. -/
theorem spelled_bare (name path : String) (hscene : c.scene.Registered)
    (hupvalues : Known F c.scene (Frame.allUpvalues passed p.upvalueNames)) :
    Spelled F c.scene.names.used p ⟨Frame.bare p name path passed, c⟩ where
  registered := hscene
  used _ hx := hx
  upvalues := hupvalues
  captured := nofun
  locals := nofun
  declared x hx := by
    rcases hx with hx | ⟨s, hs, -⟩
    · cases hx
    · cases hs
  inner := nofun

theorem Spelled.addParam {f : Frame} (h : Spelled F taken p ⟨f, c⟩) (index : Nat)
    (hindex : index < p.paramCount.toNat) (registers : Registers) :
    Spelled F taken p ⟨{ f with
        params := f.params ++ [(c.scene.uniqueName s!"arg{index}").1]
        locals := f.locals.insert index (c.scene.uniqueName s!"arg{index}").1
        registers },
      { c with scene := (c.scene.uniqueName s!"arg{index}").2 }⟩ := by
  have hgives := c.scene.uniqueName_gives s!"arg{index}"
  have hown : Own taken p (c.scene.uniqueName s!"arg{index}").2
      (c.scene.uniqueName s!"arg{index}").1 :=
    .inl ⟨fun hmem => hgives.fresh (h.used _ hmem), .inl ⟨_, .param index hindex, hgives.candidate⟩⟩
  refine h.add (c.scene.uniqueName_grows _) rfl (fun _ hx => .inl hx) (fun reg x hx => ?_)
    (fun x hx => ?_) fun _ hs _ _ => .inl hs
  · rw [Table.get?_insert] at hx
    split at hx
    · cases hx
      exact .inr ⟨hgives.used, hown⟩
    · exact .inl hx
  · rcases hx with hx | hx
    · rcases mem_append.mp hx with hx | hx
      · exact .inl (.inl hx)
      · rw [mem_singleton.mp hx]
        exact .inr hown
    · exact .inl (.inr hx)

/-- The parameters get names of their own. -/
theorem addParams_spelled (count index : Nat) (hle : index + count ≤ p.paramCount.toNat) :
    ∀ {d : Context} {f : Frame}, Spelled F taken p ⟨f, d⟩ →
      Spelled F taken p ⟨(f.addParams d.scene index count).1,
        { d with scene := (f.addParams d.scene index count).2 }⟩ := by
  induction count generalizing index with
  | zero => exact fun h => h
  | succ count ih =>
    intro d f h
    have hnext := h.addParam index (by omega)
      (f.registers.set index (.expression (d.scene.uniqueName s!"arg{index}").1))
    exact ih (index + 1) (by omega) hnext

theorem spelled_start {c : Context} (name path : String) (limits : Limits)
    (hscene : c.scene.Registered)
    (hupvalues : Known F c.scene (Frame.allUpvalues passed p.upvalueNames)) :
    Spelled F c.scene.names.used p ⟨(Frame.start p name path passed c.scene).1,
      { c with scene := (Frame.start p name path passed c.scene).2, limits }⟩ :=
  addParams_spelled p.paramCount.toNat 0 (Nat.le_of_eq (Nat.zero_add _))
    (spelled_bare (c := { c with limits }) name path hscene hupvalues)

/-! ### Recovered functions -/

theorem Spelled.clean (h : Spelled F taken p w) {name path : String} {upvalues : List Upvalue}
    {d d' : Context} (hbuild : p.build name path upvalues d = .ok w.frame.routine d')
    (hupvalues : ∀ x, p.UsesUpvalue upvalues x → x ∈ taken ∨ F x) :
    Alongside (Clean F w.context.scene) p w.frame.routine := by
  have hsafe : ∀ x, w.frame.routine.Declares x → x ∈ taken ∨ F x →
      F x ∨ w.context.scene.NamesObject x := by
    rintro x hx (htaken | hforeign)
    · rcases h.declared x hx with ⟨hnew, -⟩ | hobject
      · exact absurd htaken hnew
      · exact .inr hobject
    · exact .inl hforeign
  refine .of_inner ⟨fun x hx => ?_, fun x hx hmem => hsafe x hx (h.captured x hmem),
    name, path, upvalues, d, d', hbuild, fun x hx hmem => hsafe x hx (hupvalues x hmem)⟩ h.inner
  rcases h.declared x hx with ⟨-, hcoins | hafter⟩ | hobject
  · exact .inl hcoins
  · exact .inr (.inr hafter)
  · exact .inr (.inl hobject)

end Walking

/-- A name of an upvalue that a function uses is one that it was given, or stands for an
index. -/
theorem Prototype.UsesUpvalue.given_or_index {p : Prototype} {passed : List Upvalue} {x : String}
    (h : p.UsesUpvalue passed x) :
    (∃ upvalue ∈ Frame.allUpvalues passed p.upvalueNames, upvalue.name = x) ∨
      ∃ index : Int, x = "upval" ++ toString index := by
  obtain ⟨i, -, -, rfl⟩ := h
  unfold Prototype.upvalueName
  cases hknown : (if 0 ≤ i.b then (Frame.allUpvalues passed p.upvalueNames)[i.b.toNat]?
    else none) with
  | none => exact .inr ⟨i.b, rfl⟩
  | some upvalue =>
    refine .inl ⟨upvalue, ?_, rfl⟩
    split at hknown
    · exact mem_of_getElem? hknown
    · cases hknown

/-- Every function is recovered with the names that it should have. -/
theorem Prototype.tame {F : String → Prop} (p : Prototype) (hF : ∀ x, p.Foreign x → F x) :
    ∀ name path upvalues c, c.scene.Registered → Walking.Known F c.scene upvalues →
      p.Tame F name path upvalues c := by
  induction p using Prototype.induct_children with
  | h p ih =>
    intro name path upvalues c hscene hknown
    have hindex : ∀ i : Int, F ("upval" ++ toString i) := fun i => hF _ (.index i rfl)
    have hchildren : TameChildren F p (builders p.children) := by
      intro child hchild
      rw [builders_eq] at hchild
      obtain ⟨q, hq, rfl⟩ := mem_map.mp hchild
      exact ⟨q, hq, rfl, rfl, ih q hq fun x hx => hF x (.inside hq hx)⟩
    have hupvalues := hknown.allUpvalues fun x hx => hF x (.given hx)
    have huses : ∀ x, p.UsesUpvalue upvalues x → x ∈ c.scene.names.used ∨ F x := by
      intro x hx
      rcases hx.given_or_index with ⟨upvalue, hmem, rfl⟩ | ⟨index, rfl⟩
      · exact hupvalues upvalue hmem
      · exact .inr (hindex index)
    refine ⟨fun r d hbuild => ?_⟩
    have hrun := hbuild
    cases henter : c.limits.enter with
    | error failure =>
      rw [build_eq, buildWith_refused henter] at hrun
      cases hrun
    | ok limits =>
      have hspelled := (Walking.spelled_preserved c.scene.names.used p hindex).walk
        (fun i index _ hw => Walking.closure_spelled hindex hchildren i index hw)
        (Walking.spelled_start name path limits hscene hupvalues)
      rw [build_eq, buildWith_entered henter] at hrun
      obtain ⟨w, hwalk, rfl, rfl⟩ := ok_of_handBack hrun
      rw [hwalk] at hspelled
      exact Walking.Spelled.clean hspelled hbuild huses

end LuaRecovery

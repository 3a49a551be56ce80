/-
Which names capture.

A local captures a global or an upvalue of its function if it has the same name.  The names of
globals and those of upvalues from the debug information are not known to the supply of names,
so they may be given to a local as well.  All other upvalues are safe: the functions around
handed their names down, and a local of a function gets none of these, unless it is named
after an object of the scene.

So a function captures nothing if no bare name of a global and no foreign name of an upvalue
is one that could be made for a local.
-/
import LuaRecovery.Proofs.SpelledWalks

namespace LuaRecovery

open List

/-! ### Captures -/

/-- A name of an upvalue that the functions of a tree did not hand down: it is foreign, or it
came with an upvalue of the outermost function and was not in use. -/
def Prototype.Outside (p : Prototype) (passed : List Upvalue) (scene : Scene) (x : String) :
    Prop :=
  p.Foreign x ∨ x ∉ scene.names.used ∧ ∃ upvalue ∈ passed, upvalue.name = x

/-- No name that a function declares is that of a global or an upvalue that it uses. -/
def CapturesNothing (p : Prototype) (r : Routine) : Prop :=
  ∃ name path upvalues c c', p.build name path upvalues c = .ok r c' ∧
    ∀ x, r.Declares x → ¬ p.UsesGlobal x ∧ ¬ p.UsesUpvalue upvalues x ∧ x ∉ r.captured

theorem Prototype.known_outside (p : Prototype) (passed : List Upvalue) (scene : Scene) :
    Walking.Known (p.Outside passed scene) scene passed := by
  intro upvalue hmem
  by_cases hused : upvalue.name ∈ scene.names.used
  · exact .inl hused
  · exact .inr (.inr ⟨hused, upvalue, hmem, rfl⟩)

variable {scene : Scene} {c : Context} {x : String}

theorem Prototype.tame_outside (p : Prototype) (name path : String) (passed : List Upvalue)
    (hscene : c.scene.Registered) : p.Tame (p.Outside passed c.scene) name path passed c :=
  p.tame (fun _ hx => .inl hx) name path passed c hscene (p.known_outside passed c.scene)

/-- Without objects, a function whose own names are not those of its globals nor foreign
captures nothing. -/
theorem Clean.capturesNothing {F : String → Prop} {p : Prototype} {r : Routine}
    (h : Clean F scene p r) (hobjects : scene.objects = [])
    (hapart : ∀ x, p.Coins x → ¬ p.UsesGlobal x ∧ ¬ F x) : CapturesNothing p r := by
  have hnone : ∀ o, o ∉ scene.objects := by
    rw [hobjects]
    exact fun _ => not_mem_nil
  have hcoins : ∀ x, r.Declares x → p.Coins x := by
    intro x hx
    rcases h.coined x hx with hcoins | ⟨o, ho, -⟩ | ⟨o, ho, -⟩
    · exact hcoins
    · exact absurd ho (hnone o)
    · exact absurd ho (hnone o)
  have hsafe : ∀ x, r.Declares x → ¬ (F x ∨ scene.NamesObject x) := by
    rintro x hx (hforeign | ⟨o, ho, -⟩)
    · exact (hapart x (hcoins x hx)).2 hforeign
    · exact hnone o ho
  obtain ⟨name, path, upvalues, c, c', hbuild, huses⟩ := h.built
  refine ⟨name, path, upvalues, c, c', hbuild, fun x hx => ⟨?_, ?_, ?_⟩⟩
  · exact (hapart x (hcoins x hx)).1
  · exact fun hmem => hsafe x hx (huses x hx hmem)
  · exact fun hmem => hsafe x hx (h.captured x hx hmem)

theorem Context.start_registered (o : Options) : (Context.start o).scene.Registered := by
  unfold Context.start
  by_cases hon : o.simulate.isOn = true
  · rw [if_pos hon]
    refine ⟨fun x hx => ?_, fun o ho => ?_⟩
    · rw [mem_singleton.mp hx]
      exact all_eq_true.mp (by decide)
    · rw [mem_singleton.mp ho]
      exact mem_cons_self
  · rw [if_neg hon]
    exact ⟨nofun, nofun⟩

theorem Context.start_objects {o : Options} (hoff : o.simulate.isOn = false) :
    (Context.start o).scene.objects = [] := by
  unfold Context.start
  rw [hoff]
  rfl

/-- A context in which functions were recovered one after the other, whether they could be or
not. -/
inductive Context.Reached (o : Options) : Context → Prop
  | start : Reached o (Context.start o)
  | build {c : Context} (p : Prototype) (name path : String) (upvalues : List Upvalue) :
      Reached o c → Reached o (lastContext (p.build name path upvalues c))

theorem Context.Reached.later {o : Options} (h : Reached o c) :
    Walking.Later (Context.start o) c := by
  induction h with
  | start => exact .refl _
  | @build c p name path upvalues _ ih =>
    exact ih.trans (p.build_grows name path upvalues _)

/-! ### First letters -/

theorem head?_append {s : String} {c : Char} (h : s.toList.head? = some c) (t : String) :
    (s ++ t).toList.head? = some c := by
  rw [String.toList_append, List.head?_append, h]
  rfl

theorem NameSupply.head?_candidate {base : String} {c : Char} (h : base.toList.head? = some c)
    (k : Nat) : (candidate base k).toList.head? = some c := by
  unfold candidate
  split
  · exact h
  · exact head?_append (head?_append h _) _

theorem Lua.head?_sanitize {hint : String} {c : Char} (h : hint.toList.head? = some c)
    (hname : isNameChar c = true) (hdigit : c.isDigit = false) :
    (sanitize hint).toList.head? = some c := by
  obtain ⟨rest, hrest⟩ := head?_eq_some_iff.mp h
  have hkept : (hint.toList.filter isNameChar).dropWhile Char.isDigit =
      c :: rest.filter isNameChar := by
    rw [hrest, filter_cons_of_pos hname, dropWhile_cons_of_neg (by rw [hdigit]; decide)]
  have hbase : (String.ofList (c :: rest.filter isNameChar)).toList.head? = some c := by
    rw [String.toList_ofList, head?_cons]
  have heq : sanitize hint = if isKeyword (String.ofList (c :: rest.filter isNameChar))
      then String.ofList (c :: rest.filter isNameChar) ++ "_"
      else String.ofList (c :: rest.filter isNameChar) := by
    unfold sanitize sanitizeWith
    rw [hkept]
    rfl
  rw [heq]
  split
  · exact head?_append hbase _
  · exact hbase

/-- The names that may be made for a function start with the letters of parameters and
registers, or with those of the functions inside. -/
theorem Prototype.Coins.head? {p : Prototype} {letters : List Char} (h : p.Coins x)
    (hparam : 'a' ∈ letters) (hregister : 'v' ∈ letters)
    (hfunction : ∀ q ∈ p.children, ∃ c ∈ letters,
      (Lua.sanitize (if q.name = "" then "func" else q.name)).toList.head? = some c) :
    ∃ c ∈ letters, x.toList.head? = some c := by
  obtain ⟨hint, hhint, k, rfl⟩ := h
  suffices hbase : ∃ c ∈ letters, (Lua.sanitize hint).toList.head? = some c by
    obtain ⟨c, hc, hhead⟩ := hbase
    exact ⟨c, hc, NameSupply.head?_candidate hhead k⟩
  cases hhint with
  | param index => exact ⟨'a', hparam, Lua.head?_sanitize (head?_append rfl _) rfl rfl⟩
  | register reg => exact ⟨'v', hregister, Lua.head?_sanitize (head?_append rfl _) rfl rfl⟩
  | function q hq => exact hfunction q hq

/-- **What a local may capture.**  In a function that is recovered and in every function inside,
a declared name is made for a parameter, a register or a function inside, or it is an object's
or made after that.  If it is also the name of an upvalue then it is an object's, or it comes
from outside.  So without a simulation a function captures nothing if none of the names that may
be made for it is a global that it uses or a name from outside. -/
theorem capture_only_of_object_or_outside {o : Options} {c d : Context} {p : Prototype}
    {name path : String} {upvalues : List Upvalue} {r : Routine} (hc : Context.Reached o c)
    (hbuild : p.build name path upvalues c = .ok r d) :
    Alongside (Clean (p.Outside upvalues c.scene) d.scene) p r ∧
      (o.simulate.isOn = false → Alongside (fun q f =>
        (∀ x, q.Coins x → ¬ q.UsesGlobal x ∧ ¬ p.Outside upvalues c.scene x) →
          CapturesNothing q f) p r) := by
  have hscene := (Context.start_registered o).grows hc.later.grows
  have hclean := (p.tame_outside name path upvalues hscene).clean r d hbuild
  refine ⟨hclean, fun hoff => ?_⟩
  have hlater := (hc.build p name path upvalues).later
  rw [hbuild] at hlater
  have hobjects : d.scene.objects = [] :=
    (hlater.idle hoff).trans (Context.start_objects hoff)
  exact hclean.mono fun q f h => h.capturesNothing hobjects

/-- If a part of what a builder answers can be computed, then it answers. -/
theorem ok_of_run {α : Type} {m : EStateM Stop Context Routine} {f : Routine → α} {a : α}
    (h : (EStateM.run' m c).map f = some a) : ∃ r d, m c = .ok r d ∧ f r = a := by
  unfold EStateM.run' EStateM.run at h
  cases hrun : m c with
  | error stop d =>
    rw [hrun] at h
    cases h
  | ok r d =>
    rw [hrun] at h
    exact ⟨r, d, rfl, Option.some.inj h⟩

/-- A function with a parameter and an upvalue, which prints a table.  The function inside makes
a table of its own and changes the one outside. -/
def tickMaker : Prototype where
  instructions := [{ opcode := .getUpvalue, a := 1 }, { opcode := .newTable, a := 2 },
    { opcode := .closure, a := 3 }, { opcode := .move, b := 2 },
    { opcode := .getGlobal, a := 4 }, { opcode := .move, a := 5, b := 2 },
    { opcode := .call, a := 4, b := 2, c := 1 }, { opcode := .ret, a := 3, b := 2 }]
  constants := [.string "print"]
  paramCount := 1
  upvalueNames := ["state"]
  children := [
    { name := "tick"
      upvalueCount := 1
      instructions := [{ opcode := .getUpvalue }, { opcode := .newTable, a := 1 },
        { opcode := .setUpvalue, a := 1 }, { opcode := .ret, a := 1, b := 2 }] }]

theorem tickMaker_head?_of_outside (h : tickMaker.Outside [] scene x) :
    x.toList.head? = some 's' ∨ x.toList.head? = some 'u' := by
  rcases h with hforeign | ⟨-, upvalue, hmem, -⟩
  · cases hforeign with
    | given hmem =>
      rw [mem_singleton.mp hmem]
      exact .inl rfl
    | index i hx =>
      rw [hx]
      exact .inr (head?_append rfl _)
    | inside hq hforeign =>
      rw [mem_singleton.mp hq] at hforeign
      cases hforeign with
      | given hmem => cases hmem
      | index i hx =>
        rw [hx]
        exact .inr (head?_append rfl _)
      | inside hq _ => cases hq
  · cases hmem

/-- The names for the two functions start with other letters than those that they use. -/
theorem tickMaker_apart {q : Prototype} (hq : q = tickMaker ∨ q ∈ tickMaker.children)
    (hx : q.Coins x) : ¬ q.UsesGlobal x ∧ ¬ tickMaker.Outside [] scene x := by
  have hhead : ∃ c ∈ ['a', 'v', 't'], x.toList.head? = some c := by
    refine hx.head? (by decide) (by decide) fun child hchild => ⟨'t', by decide, ?_⟩
    rcases hq with rfl | hq
    · rw [mem_singleton.mp hchild]
      exact Lua.head?_sanitize rfl rfl rfl
    · rw [mem_singleton.mp hq] at hchild
      cases hchild
  have hglobal : ∀ i ∈ q.instructions, (i.opcode = .getGlobal ∨ i.opcode = .setGlobal) →
      q.globalName i.b = "print" := by
    rcases hq with rfl | hq
    · decide
    · rw [mem_singleton.mp hq]
      decide
  obtain ⟨c, hc, hhead⟩ := hhead
  refine ⟨?_, fun houtside => ?_⟩
  · rintro ⟨i, hi, hcode, rfl, -⟩
    rw [hglobal i hi hcode] at hhead
    cases hhead
    exact absurd hc (by decide)
  · rcases tickMaker_head?_of_outside houtside with h | h
    all_goals
      rw [h] at hhead
      cases hhead
      exact absurd hc (by decide)

/-- A run without a simulation recovers both functions, and nothing is captured in them. -/
theorem tickMaker_captures_nothing :
    ∃ r d, tickMaker.build "main" "main" [] (Context.start { simulate := some false }) = .ok r d ∧
      Context.Reached { simulate := some false } (Context.start { simulate := some false }) ∧
      CapturesNothing tickMaker r ∧ ∀ s ∈ r.body, ∀ inner, s.routine? = some inner →
        ∃ tick ∈ tickMaker.children, CapturesNothing tick inner := by
  have hrun : (EStateM.run' (tickMaker.build "main" "main" [])
      (Context.start { simulate := some false })).map (fun _ => ()) = some () := by
    decide +kernel
  obtain ⟨r, d, hbuild, -⟩ := ok_of_run hrun
  have halong := (capture_only_of_object_or_outside .start hbuild).2 rfl
  cases halong with
  | intro source hroot hmem hinner =>
    refine ⟨r, d, hbuild, .start, hroot fun x hx => tickMaker_apart (.inl rfl) hx, ?_⟩
    intro s hs inner hroutine
    have htick := hmem s hs inner hroutine
    refine ⟨source inner, htick, ?_⟩
    cases hinner s hs inner hroutine with
    | intro _ hcaptures _ _ => exact hcaptures fun x hx => tickMaker_apart (.inr htick) hx

/-- A function that sets a global to a new table.  The global has the name of its register. -/
def registerGlobal : Prototype where
  instructions := [{ opcode := .newTable }, { opcode := .setGlobal }]
  constants := [.string "v0"]

/-- The new table goes to a local of that name, and the assignment to the global to the local. -/
theorem global_captured_by_register :
    ∃ r d, registerGlobal.build "main" "main" [] (Context.start { simulate := some false })
        = .ok r d ∧ ¬ CapturesNothing registerGlobal r := by
  have hrun : (EStateM.run' (registerGlobal.build "main" "main" [])
      (Context.start { simulate := some false })).map (fun r => r.body.map Statement.declared) =
      some [["v0"], []] := by
    decide +kernel
  obtain ⟨r, d, hbuild, hbody⟩ := ok_of_run hrun
  have hdeclares : r.Declares "v0" := by
    have hmem : ["v0"] ∈ r.body.map Statement.declared := by
      rw [hbody]
      exact mem_cons_self
    obtain ⟨s, hs, hdeclared⟩ := mem_map.mp hmem
    exact .inr ⟨s, hs, by rw [hdeclared]; exact mem_cons_self⟩
  have huses : registerGlobal.UsesGlobal "v0" :=
    ⟨{ opcode := .setGlobal }, mem_cons_of_mem _ mem_cons_self, .inr rfl, rfl, rfl⟩
  refine ⟨r, d, hbuild, ?_⟩
  rintro ⟨_, _, _, _, _, _, hnothing⟩
  exact (hnothing "v0" hdeclares).1 huses

end LuaRecovery

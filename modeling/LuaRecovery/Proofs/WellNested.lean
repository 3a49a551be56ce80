/-
Every recovered routine nests.

A step that is no compare and no jump adds plain statements only, `Aside`, and a walk that
is ready for an instruction stays so.  Before each instruction the blocks are brought up to
it, and the instruction itself opens at most one block or announces one else part.  At the
end, or where the walk is cut short, the open blocks are closed, so what a walk hands back
nests, whether it is the whole routine or what was recovered before a failure.
-/
import LuaRecovery.Proofs.HostLimits
import LuaRecovery.Proofs.OpenBlocks
import LuaRecovery.Proofs.Walks
import LuaRecovery.Recovery

namespace LuaRecovery

/-- Whatever a builder hands back nests. -/
def Builder.Nests (build : Builder) : Prop := build.Yields fun r => Nested r.body

namespace Walking

/-- Only what nests was added, and the blocks are as they were. -/
structure Aside (w w' : Walk) : Prop where
  stack : w'.frame.blocks.stack = w.frame.blocks.stack
  pending : w'.frame.blocks.pending = w.frame.blocks.pending
  body : ∃ more, w'.frame.body = w.frame.body ++ more ∧ Nested more

theorem Aside.of_same {w w' : Walk} (hb : w'.frame.blocks = w.frame.blocks)
    (hbody : w'.frame.body = w.frame.body) : Aside w w' :=
  ⟨by rw [hb], by rw [hb], [], by rw [hbody, List.append_nil], .nil⟩

theorem Aside.of_nested {w w' : Walk} {more : List Statement}
    (hb : w'.frame.blocks = w.frame.blocks) (hbody : w'.frame.body = w.frame.body ++ more)
    (hmore : Nested more) : Aside w w' :=
  ⟨by rw [hb], by rw [hb], more, hbody, hmore⟩

theorem Aside.trans (w₁ w₂ w₃ : Walk) (h₁ : Aside w₁ w₂) (h₂ : Aside w₂ w₃) : Aside w₁ w₃ := by
  obtain ⟨xs, hx, hxs⟩ := h₁.body
  obtain ⟨ys, hy, hys⟩ := h₂.body
  refine ⟨h₂.stack.trans h₁.stack, h₂.pending.trans h₁.pending, xs ++ ys, ?_, hxs.append hys⟩
  rw [hy, hx, List.append_assoc]

theorem nested_of_isAssign {s : Statement} (hs : s.IsAssign) : Nested [s] := by
  cases s with
  | assign => exact .plain trivial nofun .nil
  | _ => exact hs.elim

theorem nested_of_isLine {s : Statement} (hs : s.IsLine) : Nested [s] := by
  cases s with
  | call | ret | verbatim => exact .plain trivial nofun .nil
  | _ => exact hs.elim

theorem aside_accounted : Accounted Aside where
  refl _ := .of_same rfl rfl
  trans := Aside.trans
  registers _ _ _ := .of_same rfl rfl
  scene _ _ _ := .of_same rfl rfl
  objects _ _ := .of_same rfl rfl
  captured _ _ _ _ := .of_same rfl rfl
  assign _ _ _ _ := .of_nested rfl rfl (nested_of_isAssign trivial)
  bind _ _ _ _ _ _ _ _ _ _ _ _ := .of_nested rfl rfl (nested_of_isAssign trivial)
  note _ _ := .of_same rfl rfl
  report _ _ := .of_same rfl rfl
  emit _ _ hs := .of_nested rfl rfl (nested_of_isLine hs)
  limits _ _ _ := .of_same rfl rfl
  trace _ _ := .of_same rfl rfl
  drainRegisters _ := .of_same rfl rfl
  drainBlocks _ := ⟨rfl, rfl, [], (List.append_nil _).symm, .nil⟩

theorem aside_topped : Topped Aside := fun _ _ => .of_same rfl rfl

theorem aside_logged : Logged Aside := fun _ _ => .of_same rfl rfl

/-! ### Closures -/

theorem nested_define (name : String) {routine : Routine} (hroutine : Nested routine.body)
    (declares : Bool) : Nested [.define name routine declares none] := by
  refine .plain trivial (fun r hr => ?_) .nil
  cases hr
  exact hroutine

theorem buildChild_aside {child : Child} (hchild : child.build.Nests) (reg : Int) (name : String)
    (upvalues : List Upvalue) (declares : Bool) :
    Keeps Aside (buildChild child reg name upvalues declares) := by
  intro w
  have hbuilt := hchild name (w.frame.path ++ "/" ++ name) upvalues w.context
  refine buildChild_after ?_ ?_ ?_
  · intro routine c hbuild
    rw [hbuild] at hbuilt
    exact .of_nested rfl rfl (nested_define name hbuilt declares)
  · intro failure routine c hbuild
    rw [hbuild] at hbuilt
    exact ⟨trivial, .of_nested rfl rfl (nested_define name hbuilt declares)⟩
  · exact fun stop c _ _ => ⟨trivial, .of_same rfl rfl⟩

variable {w : Walk} {children : List Child} {index : Int} {α : Type}

theorem closure_aside (hchildren : ∀ child ∈ children, child.build.Nests) (i : Instruction)
    (index : Nat) : Keeps Aside (closure children i index) := by
  have hR := aside_accounted
  refine closure_keeps hR.toTold (fun child => ?_) fun child hchild => ?_
  · exact prepare_keeps hR.toCarried (fun _ _ _ _ _ _ _ => .of_same rfl rfl) child index
  · exact buildChild_aside (hchildren child hchild) i.a

/-! ### One instruction -/

/-- The walk is ready for the instruction at an index. -/
def Orderly (index : Int) (w : Walk) : Prop := w.frame.blocks.Ready w.frame.body index

/-- The blocks have been brought up to an index. -/
structure Still (index : Int) (w : Walk) : Prop where
  calm : w.frame.blocks.Calm w.frame.body
  nothing : w.frame.blocks.NothingBefore index

theorem Still.orderly {index k : Int} (h : Still index w) (hk : k ≤ index) : Orderly k w :=
  ⟨Or.inl h.calm, fun e he hne => Int.le_trans hk (h.nothing e he hne)⟩

theorem Aside.orderly {w w' : Walk} (h : Aside w w') (hw : Orderly index w) : Orderly index w' := by
  obtain ⟨more, hbody, hmore⟩ := h.body
  rw [Orderly, hbody]
  exact (Blocks.Ready.append hw hmore).congr h.stack h.pending

theorem Aside.still {w w' : Walk} (h : Aside w w') (hw : Still index w) : Still index w' := by
  obtain ⟨more, hbody, hmore⟩ := h.body
  refine ⟨?_, ?_⟩
  · rw [hbody]
    exact (hw.calm.append hmore).congr h.stack h.pending
  · rw [Blocks.NothingBefore, h.pending]
    exact hw.nothing

/-- Where a walk is cut short, it is ready for some instruction. -/
def CutShort (w : Walk) : Prop := ∃ index, Orderly index w

/-- An action that stays aside keeps what staying aside keeps. -/
theorem after_aside {m : Walking α} {I : Walk → Prop} (hm : Keeps Aside m)
    (hw : I w) (hI : ∀ w w', Aside w w' → I w → I w') (hcut : ∀ w, I w → CutShort w) :
    After (fun _ w' => I w') (fun _ w' => CutShort w') (m w) :=
  after_mono (hm w) (fun _ _ h => hI _ _ h hw) fun _ _ h => hcut _ (hI _ _ h.2 hw)

theorem after_aside_orderly {m : Walking α} (hm : Keeps Aside m)
    (hw : Orderly index w) : After (fun _ w' => Orderly index w') (fun _ w' => CutShort w') (m w) :=
  after_aside hm hw (fun _ _ h => h.orderly) fun _ h => ⟨index, h⟩

theorem after_aside_still {m : Walking α} (hm : Keeps Aside m)
    (hw : Still index w) : After (fun _ w' => Still index w') (fun _ w' => CutShort w') (m w) :=
  after_aside hm hw (fun _ _ h => h.still) fun _ h => ⟨index, h.orderly (Int.le_refl _)⟩

theorem emitDue_after {E : Stop → Walk → Prop} (hw : Orderly index w) :
    After (fun _ w' => Still (index + 1) w') E (emitDue index w) := by
  obtain ⟨hcalm, hnothing⟩ := Blocks.Ready.due hw
  exact ⟨hcalm, hnothing⟩

/-- The blocks are brought up to the end of a range. -/
theorem emitDueAll_after {last : Int} {E : Stop → Walk → Prop} :
    ∀ (count : Nat) (first : Int) (w : Walk), (last + 1 - first).toNat = count → Still first w →
      After (fun _ w' => Still (max first (last + 1)) w') E (emitDueAll (range first last) w) := by
  intro count
  induction count with
  | zero =>
    intro first w hcount hw
    rw [range_of_lt (by omega), Int.max_eq_left (by omega)]
    exact hw
  | succ count ih =>
    intro first w hcount hw
    rw [range_of_le (by omega)]
    refine after_seq (emitDue_after (hw.orderly (Int.le_refl _))) ?_
    intro _ w' hw'
    have hrest := ih (first + 1) w' (by omega) hw'
    rwa [show max (first + 1) (last + 1) = max first (last + 1) by omega] at hrest

theorem compare_after (rel : Relation) (i : Instruction) {index : Nat} (hw : Still (index + 1) w) :
    After (fun _ w' => Still (index + 1) w') (fun _ w' => CutShort w') (compare rel i index w) := by
  have hR := aside_accounted
  refine after_state ?_
  cases pairedJump w.frame.code index with
  | error failure => exact ⟨_, hw.orderly (Int.le_refl _)⟩
  | ok jump =>
    have hread : ∀ operand, Keeps Aside (readOperand operand) :=
      fun _ => readOperand_keeps hR.toQuiet fun _ _ => trivial
    refine after_seq (after_aside_still (hread i.b) hw) ?_
    intro left w hw
    refine after_seq (after_aside_still (hread i.c) hw) ?_
    intro right w hw
    refine after_bind (after_simulating ?_)
    exact ⟨Blocks.openConditional_calm hw.calm _ _ _, Blocks.openConditional_nothing hw.nothing _ _⟩

/-- After a step the blocks are up to the next instruction, except that a jump may have
announced an else part there. -/
theorem step_after (hchildren : ∀ child ∈ children, child.build.Nests) (i : Instruction)
    {index : Nat} (hw : Still (index + 1) w) :
    After (fun taken w' => Still (index + 1) w' ∨ taken = 1 ∧ Orderly (index + 1) w')
      (fun _ w' => CutShort w') (step children i index w) := by
  have hstill : ∀ {m : Walking Nat}, Keeps Aside m →
      After (fun taken w' => Still (index + 1) w' ∨ taken = 1 ∧ Orderly (index + 1) w')
        (fun _ w' => CutShort w') (m w) := fun hm =>
    after_imp (after_aside_still hm hw) (fun _ _ h => Or.inl h)
  have hcompare : ∀ rel, After
      (fun taken w' => Still (index + 1) w' ∨ taken = 1 ∧ Orderly (index + 1) w')
      (fun _ w' => CutShort w') ((compare rel i index >>= fun _ => pure 2) w) := fun rel =>
    after_seq (compare_after rel i hw) fun _ _ h => Or.inl h
  by_cases hop : i.opcode.isStructural = false
  · exact hstill (keeps_any (step_keeps aside_accounted.toTold aside_topped aside_logged children i
      index hop))
  · unfold step
    cases hcode : i.opcode with
    | closure =>
      refine hstill (keeps_bind Aside.trans (closure_aside hchildren i index) fun taken => ?_)
      exact keeps_pure aside_accounted.refl _
    | compareEq => exact hcompare .eq
    | compareLt => exact hcompare .lt
    | compareLe => exact hcompare .le
    | jump =>
      refine after_bind (after_bind (after_askHost ?_ fun _ _ => ⟨_, hw.orderly (Int.le_refl _)⟩))
      exact Or.inr ⟨rfl, Blocks.jump_ready hw.calm hw.nothing _⟩
    | _ =>
      rw [hcode] at hop
      exact absurd rfl hop

theorem advance_after (hchildren : ∀ child ∈ children, child.build.Nests) (i : Instruction)
    (index : Nat) (w : Walk) (hw : Orderly index w) :
    After (fun taken w' => Orderly (index + taken : Nat) w') (fun _ w' => CutShort w')
      (advance children i index w) := by
  have hR := aside_accounted
  refine after_seq (after_aside_orderly (pollCaller_keeps hR.toQuiet index) hw) ?_
  intro _ w hw
  refine after_seq (after_aside_orderly (countInstruction_keeps hR.toQuiet index) hw) ?_
  intro _ w hw
  refine after_seq (emitDue_after hw) ?_
  intro _ w hw
  refine after_state ?_
  have hflush := flushOverwritten_keeps (T := fun _ => True) hR.toCarried (i := i) fun _ => trivial
  refine after_seq (after_aside_still (hflush) hw) ?_
  intro _ w hw
  refine after_seq (after_locating _ (step_after hchildren i hw) fun _ _ _ h => h) ?_
  intro taken w hw
  have hdue : After (fun _ w' => Orderly (index + taken : Nat) w') (fun _ w' => CutShort w')
      (emitDueAll (range (index + 1) (index + taken - 1)) w) := by
    rcases hw with hstill | ⟨rfl, hready⟩
    · refine after_imp (emitDueAll_after _ (index + 1) w rfl hstill) ?_
      exact fun _ w' h => h.orderly (by omega)
    · rw [range_of_lt (by omega)]
      exact hready
  refine after_seq hdue ?_
  intro _ w hw
  refine after_seq (after_aside_orderly (reportAnomalies_keeps hR index) hw) ?_
  intro _ w hw
  exact after_bind (after_aside_orderly (traceStep_keeps hR.toQuiet index i _) hw)

/-! ### Whole walks -/

theorem windUp_after (hw : Orderly index w) :
    After (fun _ w' => Nested w'.frame.body) (fun _ w' => CutShort w') (windUp w) := by
  have hR := aside_accounted
  refine after_state ?_
  have hflush := flushAll_keeps (T := fun _ => True) hR.toCarried (fun _ => trivial)
    w.frame.registers.unreadList
  refine after_seq (after_aside_orderly hflush hw) ?_
  intro _ w₁ hw₁
  have hbody := Blocks.finish_nested hw₁ w.frame.code.length
  refine after_bind (after_mono (Q := fun _ w₂ => Nested w₂.frame.body) hbody ?_ fun _ _ h => h)
  intro _ w₂ hw₂
  have hreport := reportAnomalies_keeps hR (T := fun _ => False) w.frame.code.length
  refine after_mono (hreport w₂) (fun _ w₃ h => ?_) fun _ _ h => h.1.elim
  obtain ⟨more, hmore, hnested⟩ := h.body
  rw [hmore]
  exact hw₂.append hnested

/-- A walk hands back a body that nests, or can be wound up where it was cut short. -/
theorem walk_after (hchildren : ∀ child ∈ children, child.build.Nests) (hw : Orderly 0 w) :
    After (fun _ w' => Nested w'.frame.body) (fun _ w' => CutShort w') (walk children w) := by
  have hR := aside_accounted
  refine after_state ?_
  refine after_seq (after_aside_orderly (log_keeps hR.toQuiet _) hw) ?_
  intro _ w hw
  have hobserve := observeStrings_keeps hR.toQuiet fun _ _ => Aside.of_same rfl rfl
  refine after_seq (after_aside_orderly (keeps_any (hobserve _)) hw) ?_
  intro _ w hw
  have hrun := walkFrom_after (I := fun index w => Orderly index w) (advance_after hchildren)
  refine after_seq (hrun _ 0 w hw) ?_
  rintro _ w ⟨last, hw⟩
  exact windUp_after hw

end Walking

/-! ### Builders -/

theorem Frame.addParams_blocks (count : Nat) : ∀ (f : Frame) (scene : Scene) (index : Nat),
    (f.addParams scene index count).1.blocks = f.blocks ∧
      (f.addParams scene index count).1.body = f.body := by
  induction count with
  | zero => exact fun _ _ _ => ⟨rfl, rfl⟩
  | succ count ih => exact fun _ _ _ => ih _ _ _

theorem Frame.start_orderly (p : Prototype) (name path : String) (passed : List Upvalue)
    (scene : Scene) (c : Context) :
    Walking.Orderly 0 ⟨(Frame.start p name path passed scene).1, c⟩ := by
  obtain ⟨hblocks, hbody⟩ := Frame.addParams_blocks p.paramCount.toNat
    (Frame.bare p name path passed) scene 0
  show Blocks.Ready (Frame.addParams _ _ _ _).1.blocks (Frame.addParams _ _ _ _).1.body 0
  rw [hblocks, hbody]
  exact ⟨Or.inl ⟨nofun, .done .nil⟩, nofun⟩

/-- What is kept of a walk that was cut short nests. -/
theorem Frame.abandon_nested {w : Walk} (hw : Walking.CutShort w) (failure : Failure)
    (recovered : Option Routine) : Nested (w.frame.abandon failure recovered).body := by
  obtain ⟨index, hw⟩ := hw
  cases recovered with
  | none => exact Blocks.finish_nested (hw.append (nested_remark _)) w.frame.code.length
  | some _ => exact Blocks.finish_nested (hw.append .nil) w.frame.code.length

theorem Prototype.build_nests (p : Prototype) : p.build.Nests := by
  refine Prototype.build_yields (fun p children hchildren => buildWith_yields p children ?_) p
  intro name path upvalues scene c
  have hstart := Frame.start_orderly p name path upvalues scene c
  refine Walking.after_mono (Walking.walk_after hchildren hstart) (fun _ _ h => h) ?_
  exact fun _ _ hcut failure recovered => Frame.abandon_nested hcut failure recovered

namespace Recovery

/-- A property of the function that a walk leaves to be laid out and of the context. -/
def Leaves (P : Routine → Context → Prop) :
    Except Fault (Routine × Option Failure × Context) → Prop
  | .ok (r, _, c) => P r c
  | .error _ => True

/-- What is laid out after a walk nests, also where nothing was recovered. -/
theorem walked_nested (p : Prototype) (c : Context) :
    Leaves (fun r _ => Nested r.body) (walked p c) := by
  have hbuilt := p.build_nests rootName rootName [] c
  unfold walked EStateM.run
  generalize p.build rootName rootName [] c = outcome at hbuilt ⊢
  cases outcome with
  | ok r _ => exact hbuilt
  | error stop _ =>
    cases stop with
    | scene _ => trivial
    | option _ => trivial
    | host _ => trivial
    | failed _ recovered =>
      cases recovered with
      | some r => exact hbuilt
      | none => exact Nested.nil

theorem checkIndent_run {host : Host} (h : host.Boundless) (width : Nat) (r : Routine) :
    checkIndent host width r = .ok () := by
  have hnone : Layout.indentFault? host width r = none := by
    refine List.findSome?_eq_none_iff.mpr fun line _ => ?_
    exact Option.eq_none_iff_forall_ne_some.mpr fun fault hfault =>
      h fault (Host.refuses_of_unless hfault id).1
  rw [checkIndent, hnone]

theorem layOut_nested {r : Routine} (hr : Nested r.body) (width : Nat) (c : Context) :
    ∃ text, ({ width } : Layout).bodyText r = .ok text ∧ layOut width r c = .ok (text, c) := by
  obtain ⟨text, htext⟩ := ({ width } : Layout).bodyText_nested hr
  refine ⟨text, htext, ?_⟩
  unfold layOut
  rw [htext]

/-- **Recovered bodies nest.**  Whatever is recovered of a function, the whole of it or what
came before a failure, its markers nest, as do those of every function inside, and a strict
layout takes it.  So the outcome of a walk is never laid out leniently. -/
theorem recovered_bodies_nest (p : Prototype) (name path : String) (upvalues : List Upvalue)
    (c : Context) (width : Nat) :
    HandsBack (fun r => Nested r.body ∧ ∃ text, ({ width } : Layout).bodyText r = .ok text)
        (p.build name path upvalues c) ∧
      Leaves (fun r c' => ∃ text, ({ width } : Layout).bodyText r = .ok text ∧
        layOut width r c' = .ok (text, c')) (walked p c) := by
  refine ⟨(p.build_nests name path upvalues c).mono fun r hr => ⟨hr, Layout.bodyText_nested _ hr⟩,
    ?_⟩
  have hwalked := walked_nested p c
  cases hrun : walked p c with
  | error fault => trivial
  | ok outcome =>
    rw [hrun] at hwalked
    exact layOut_nested hwalked width outcome.2.2

end Recovery

end LuaRecovery

/-
The functions inside, one for each closure.

A closure of the code makes one function inside, and its step puts it into the body.  No other
step does so, and no closure is taken along by the step before it, so the functions in a body are
those of the closures, one for each and in their order.  This is carried along the walk: the
functions in the body so far are those of the closures behind the walk.  A function inside was
recovered by a job of its own, so the same holds of it, and so on to any depth.
-/
import Mathlib.Data.List.Forall2
import LuaRecovery.Proofs.NameCapture
import LuaRecovery.Proofs.WellNested
import LuaRecovery.Proofs.WholeWalks

namespace LuaRecovery

open List

/-! ### What the code makes and what the body has -/

namespace Prototype

/-- The function that an instruction makes: that of a closure whose index is in range. -/
def made? (p : Prototype) (i : Instruction) : Option Prototype :=
  if i.opcode = .closure then p.childAt? i.b else none

/-- The functions that the code makes, one for each such closure, in order. -/
def made (p : Prototype) : List Prototype := p.instructions.filterMap p.made?

end Prototype

/-- The function that an assignment has for its value. -/
def Statement.assigned? : Statement → Option Routine
  | .define _ routine _ _ => some routine
  | _ => none

/-- The functions that are assigned in a body, in order. -/
def assignedIn (body : List Statement) : List Routine := body.filterMap Statement.assigned?

/-- A routine mirrors a prototype: it was recovered from it, it has its parameters, and the
functions in it are those that the closures of the code make, each of which mirrors its own
prototype. -/
inductive Mirrors : Prototype → Routine → Prop
  | intro {p : Prototype} {r : Routine}
      (built : ∃ name path upvalues c d, p.build name path upvalues c = .ok r d)
      (vararg : r.vararg = p.vararg) (params : (r.params.length : Int) = max 0 p.paramCount)
      (inside : List.Forall₂ Mirrors p.made (assignedIn r.body)) : Mirrors p r

theorem assignedIn_append (xs ys : List Statement) :
    assignedIn (xs ++ ys) = assignedIn xs ++ assignedIn ys := filterMap_append

theorem Scaffold.assignedIn {nodes : List Statement} (h : Scaffold nodes) :
    LuaRecovery.assignedIn nodes = [] := by
  refine filterMap_eq_nil_iff.mpr fun s hs => ?_
  rcases h s hs with ⟨text, role, rfl⟩ | ⟨text, rfl⟩ <;> rfl

/-- What a function picks from the elements up to one and a few behind it of which it picks
none. -/
theorem filterMap_take_add {α β : Type} {f : α → Option β} {xs : List α} {index taken : Nat} {a : α}
    (ha : xs[index]? = some a) (htaken : 0 < taken)
    (hrest : ∀ k b, index < k → k < index + taken → xs[k]? = some b → f b = none) :
    (xs.take (index + taken)).filterMap f = (xs.take index).filterMap f ++ (f a).toList := by
  obtain ⟨hlt, rfl⟩ := List.getElem?_eq_some_iff.mp ha
  obtain ⟨more, rfl⟩ := Nat.exists_eq_succ_of_ne_zero (Nat.pos_iff_ne_zero.mp htaken)
  have hnone : ((xs.drop (index + 1)).take more).filterMap f = [] := by
    refine filterMap_eq_nil_iff.mpr fun b hb => ?_
    obtain ⟨n, hn⟩ := getElem?_of_mem hb
    have hn' := (List.getElem?_eq_some_iff.mp hn).1
    rw [length_take] at hn'
    rw [getElem?_take_of_lt (by omega), getElem?_drop] at hn
    exact hrest (index + 1 + n) b (by omega) (by omega) hn
  rw [take_add, filterMap_append, drop_eq_getElem_cons hlt, take_succ_cons, filterMap_cons, hnone]
  cases f xs[index] <;> rfl

/-- The parameters of a function, and whether there may be more. -/
def Frame.signature (f : Frame) : List String × Bool := (f.params, f.vararg)

namespace Walking

/-- No function was put into the body. -/
structure Barren (w w' : Walk) : Prop where
  signature : w'.frame.signature = w.frame.signature
  assigned : assignedIn w'.frame.body = assignedIn w.frame.body

namespace Barren

variable {w w' : Walk}

theorem same (hsignature : w'.frame.signature = w.frame.signature)
    (hbody : w'.frame.body = w.frame.body) : Barren w w' :=
  ⟨hsignature, by rw [hbody]⟩

theorem append {nodes : List Statement} (hsignature : w'.frame.signature = w.frame.signature)
    (hbody : w'.frame.body = w.frame.body ++ nodes) (hnodes : assignedIn nodes = []) :
    Barren w w' :=
  ⟨hsignature, by rw [hbody, assignedIn_append, hnodes, append_nil]⟩

theorem trans (w₁ w₂ w₃ : Walk) (h₁ : Barren w₁ w₂) (h₂ : Barren w₂ w₃) : Barren w₁ w₃ :=
  ⟨h₂.signature.trans h₁.signature, h₂.assigned.trans h₁.assigned⟩

end Barren

theorem assignedIn_of_isLine {s : Statement} (hs : s.IsLine) : assignedIn [s] = [] := by
  cases s with
  | call | ret | verbatim => rfl
  | _ => exact hs.elim

theorem barren_blocked : Blocked Barren where
  refl _ := .same rfl rfl
  trans := Barren.trans
  registers _ _ _ := .same rfl rfl
  scene _ _ _ := .same rfl rfl
  objects _ _ := .same rfl rfl
  captured _ _ _ _ := .same rfl rfl
  assign _ _ _ _ := .append rfl rfl rfl
  bind _ _ _ _ _ _ _ _ _ _ _ _ := .append rfl rfl rfl
  note _ _ := .same rfl rfl
  report _ _ := .same rfl rfl
  top _ _ := .same rfl rfl
  log _ _ := .same rfl rfl
  emit _ _ hs := .append rfl rfl (assignedIn_of_isLine hs)
  limits _ _ _ := .same rfl rfl
  strings _ _ := .same rfl rfl
  trace _ _ := .same rfl rfl
  drainRegisters _ := .same rfl rfl
  drainBlocks _ := .same rfl rfl
  blocks _ _ _ hnodes := .append rfl rfl hnodes.assignedIn

/-- Any state from which no function was put into the body. -/
theorem barren_preserved (w : Walk) : Preserved Barren (Barren w) fun _ _ => True where
  blocked := barren_blocked
  keeps h hw := Barren.trans _ _ _ hw h
  stops _ _ _ := trivial
  located _ _ := trivial

theorem prepare_barren (child : Child) (i : Instruction) (index : Nat) (w : Walk) :
    Once (fun _ w' => Barren w w') (prepare child i index w) := by
  refine after_mono (prepare_after (barren_blocked.restrict fun _ _ => trivial) child index w) ?_
    fun _ _ _ => trivial
  rintro ready w' ⟨scene, objects, locals, -, -, -, -, h⟩
  exact ⟨h.signature, h.assigned⟩

end Walking

namespace Job

open Walking

variable {j : Job} {index taken : Nat} {i : Instruction} {w w' : Walk} {q : Prototype}
  {r : Routine} {d : Context}

/-! ### One instruction -/

/-- A job recovered a function inside for a closure. -/
def Recovers (j : Job) (q : Prototype) (inner : Routine) : Prop :=
  ∃ index i ready w c, j.Opens index i q ready w ∧ (Job.inside q ready w).result = .ok inner c

/-- The step of a closure puts the function into the body that was recovered for it. -/
theorem Due.closure_assigns (h : j.Due index i w) (hop : i.opcode = .closure)
    (hchild : j.source.childAt? i.b = some q)
    (hstep : step j.children i index w = .ok taken w') :
    ∃ inner, j.Recovers q inner ∧ w'.frame.signature = w.frame.signature ∧
      assignedIn w'.frame.body = assignedIn w.frame.body ++ [inner] := by
  obtain ⟨ready, w₁, inner, c, hopens, hprepared, hinner, rfl⟩ := h.closure_ok hop hchild hstep
  have hbarren := prepare_barren q.asChild i index w
  rw [hprepared] at hbarren
  refine ⟨inner, ⟨_, _, _, _, c, hopens, hinner⟩, hbarren.signature, ?_⟩
  rw [← hbarren.assigned]
  exact assignedIn_append _ _

/-- A step puts the function of its instruction into the body, if it makes one, and no other. -/
theorem Due.step_assigns (h : j.Due index i w) (hstep : step j.children i index w = .ok taken w') :
    w'.frame.signature = w.frame.signature ∧ ∃ inner,
      assignedIn w'.frame.body = assignedIn w.frame.body ++ inner ∧
      List.Forall₂ j.Recovers (j.source.made? i).toList inner := by
  by_cases hop : i.opcode = .closure
  · have hmade : j.source.made? i = j.source.childAt? i.b := if_pos hop
    cases hchild : j.source.childAt? i.b with
    | some q =>
      obtain ⟨inner, hrecovers, hsignature, hassigned⟩ := h.closure_assigns hop hchild hstep
      refine ⟨hsignature, [inner], hassigned, ?_⟩
      rw [hmade, hchild]
      exact .cons hrecovers .nil
    | none =>
      have hmissing := missing_step barren_blocked.toTold hop hchild hstep
      refine ⟨hmissing.signature, [], by rw [hmissing.assigned, append_nil], ?_⟩
      rw [hmade, hchild]
      exact .nil
  · have hplain := plainStep_keeps barren_blocked j.children i index hop w
    rw [hstep] at hplain
    refine ⟨hplain.signature, [], by rw [hplain.assigned, append_nil], ?_⟩
    rw [Prototype.made?, if_neg hop]
    exact .nil

/-! ### Whole walks -/

theorem addParams_signature (count : Nat) : ∀ (f : Frame) (scene : Scene) (index : Nat),
    (f.addParams scene index count).1.vararg = f.vararg ∧
      (f.addParams scene index count).1.params.length = f.params.length + count := by
  induction count with
  | zero => exact fun _ _ _ => ⟨rfl, rfl⟩
  | succ count ih =>
    intro f scene index
    obtain ⟨hvararg, hparams⟩ := ih _ (scene.uniqueName s!"arg{index}").2 (index + 1)
    refine ⟨hvararg, hparams.trans ?_⟩
    rw [length_append, length_singleton]
    omega

/-- A frame has the parameters of the function of its job. -/
def Signs (j : Job) (f : Frame) : Prop :=
  f.vararg = j.source.vararg ∧ (f.params.length : Int) = max 0 j.source.paramCount

theorem signs_entered (j : Job) (limits : Limits) : j.Signs (j.entered limits).frame := by
  obtain ⟨hvararg, hparams⟩ := addParams_signature j.source.paramCount.toNat
    (Frame.bare j.source j.name j.path j.upvalues) j.context.scene 0
  refine ⟨hvararg, (congrArg Int.ofNat hparams).trans ?_⟩
  show ((0 + j.source.paramCount.toNat : Nat) : Int) = _
  omega

theorem Signs.congr {f f' : Frame} (h : j.Signs f) (hsame : f'.signature = f.signature) :
    j.Signs f' := by
  obtain ⟨hparams, hvararg⟩ := Prod.mk.inj hsame
  exact ⟨hvararg.trans h.1, by rw [hparams]; exact h.2⟩

/-- Of what a step takes along nothing makes a function: neither a jump nor an instruction that
names an upvalue is a closure. -/
theorem Due.made_behind (h : j.Due index i w) (hstep : step j.children i index w = .ok taken w') :
    (j.source.instructions.take (index + taken)).filterMap j.source.made? =
      (j.source.instructions.take index).filterMap j.source.made? ++ (j.source.made? i).toList := by
  refine filterMap_take_add h.instruction (h.taken_eq hstep ▸ j.source.width_pos i index) ?_
  intro k i' hk hlt hi'
  refine if_neg fun hop => ?_
  rcases h.taken_along hstep hk hlt hi' with ⟨-, hjump⟩ | ⟨-, hcapture⟩
  · cases hop.symm.trans hjump
  · rw [Instruction.isCapture, hop] at hcapture
    cases hcapture

/-- The functions in the body are those of the closures behind the walk. -/
theorem At.assigns (h : j.At index w) : j.Signs w.frame ∧
    List.Forall₂ j.Recovers ((j.source.instructions.take index).filterMap j.source.made?)
      (assignedIn w.frame.body) := by
  induction h with
  | @first limits w henter hopened =>
    have hopening := (barren_preserved (j.entered limits)).opening j.children (.same rfl rfl)
    rw [hopened] at hopening
    have hbody : (j.entered limits).frame.body = [] := (Frame.addParams_blocks _ _ _ _).2
    refine ⟨(j.signs_entered limits).congr hopening.signature, ?_⟩
    rw [hopening.assigned, hbody]
    exact .nil
  | @next index taken i w w' hreached hi hadvanced ih =>
    obtain ⟨w₁, w₂, mark, happroach, hstep, hconclude⟩ := ok_of_advance hadvanced
    have hdue : j.Due index i w₁ := ⟨hreached, hi, happroach⟩
    have hbefore := (barren_preserved w).approach i index (.same rfl rfl)
    rw [happroach] at hbefore
    have hafter := (barren_preserved w₂).conclude i index mark taken (.same rfl rfl)
    rw [hconclude] at hafter
    obtain ⟨hsignature, inner, hassigned, hinner⟩ := hdue.step_assigns hstep
    refine ⟨((ih.1.congr hbefore.signature).congr hsignature).congr hafter.signature, ?_⟩
    rw [hafter.assigned, hassigned, hbefore.assigned, hdue.made_behind hstep]
    exact rel_append ih.2 hinner

/-- What a job hands back that succeeds: its functions are those that its closures recovered. -/
theorem assigns_of_ok (hok : j.result = .ok r d) :
    r.vararg = j.source.vararg ∧ (r.params.length : Int) = max 0 j.source.paramCount ∧
      List.Forall₂ j.Recovers j.source.made (assignedIn r.body) := by
  obtain ⟨w, v, hreached, hwound, rfl, -⟩ := end_of_ok hok
  obtain ⟨hsigns, hassigned⟩ := hreached.assigns
  have hend := (barren_preserved w).windUp (.same rfl rfl)
  rw [hwound] at hend
  have hsigned := hsigns.congr hend.signature
  rw [take_length, ← hend.assigned] at hassigned
  exact ⟨hsigned.1, hsigned.2, hassigned⟩

end Job

/-- **No function inside is lost, made twice or moved.**  Whatever is recovered whole mirrors its
prototype: the functions in its body are those that the closures of the code make, one for each
closure whose index is in range and in their order, each is what was recovered from its own
prototype, with the parameters of that, and it mirrors it in turn, to any depth. -/
theorem functions_mirror_closures (p : Prototype) (name path : String) (upvalues : List Upvalue)
    (c : Context) {r : Routine} {d : Context} (hok : p.build name path upvalues c = .ok r d) :
    Mirrors p r := by
  induction p using Prototype.induct_children generalizing name path upvalues c r d with
  | h p ih =>
    obtain ⟨hvararg, hparams, hassigned⟩ :=
      Job.assigns_of_ok (j := ⟨p, name, path, upvalues, c⟩) hok
    refine ⟨⟨name, path, upvalues, c, d, hok⟩, hvararg, hparams, hassigned.imp ?_⟩
    rintro q inner ⟨index, i, ready, w, e, ⟨_, _, hchild, _⟩, hinner⟩
    exact ih q (Prototype.mem_of_childAt? hchild) _ _ _ _ hinner

/-- A function that says it has more upvalues than are named behind its closures. -/
def pairTaker : Prototype where
  instructions := [{ opcode := .ret, b := 3 }]
  paramCount := 2
  vararg := false
  upvalueCount := 3

/-- A function with `pairTaker` inside. -/
def takerMaker : Prototype where
  instructions := [{ opcode := .closure }]
  children := [pairTaker]
  paramCount := -1

/-- A function whose closures stand close together: behind an upvalue, behind the jump of a
compare, and one of them with an index out of range. -/
def closeClosures : Prototype where
  instructions := [{ opcode := .closure }, { opcode := .move }, { opcode := .closure, b := 1 },
    { opcode := .compareEq }, { opcode := .jump }, { opcode := .closure, b := 7 },
    { opcode := .closure, a := 1 }]
  children := [pairTaker, takerMaker]

/-- `closeClosures` makes `pairTaker` twice and `takerMaker` between, and so does what is recovered
of it. -/
theorem closeClosures_mirrored :
    closeClosures.made = [pairTaker, takerMaker, pairTaker] ∧ takerMaker.made = [pairTaker] ∧
      ∃ r d, closeClosures.build "main" "main" [] (Context.start {}) = .ok r d ∧
        (assignedIn r.body).length = 3 ∧ Mirrors closeClosures r := by
  have hrun : (EStateM.run' (closeClosures.build "main" "main" []) (Context.start {})).map
      (fun r => (assignedIn r.body).length) = some 3 := by
    decide +kernel
  obtain ⟨r, d, hbuild, hlength⟩ := ok_of_run hrun
  exact ⟨rfl, rfl, r, d, hbuild, hlength, functions_mirror_closures _ _ _ _ _ hbuild⟩

end LuaRecovery

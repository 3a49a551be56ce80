/-
Skeletons, and walks side by side.

The skeleton of a body is what is left of it without names, texts and plain assignments: its
markers, calls, returns, remarks and functions.  Two walks of one function are `Alike` if
they have the same skeleton so far and the same of everything that the rest of it depends
on; what their registers hold, and which of them have a local, may differ.

Two actions are `Twin`s if they keep walks alike and end in the same way.  The rules below
put twins together.  An action that only writes values down is alike to doing nothing, so
any two such actions are twins, however different they are.
-/
import LuaRecovery.Proofs.Walks

namespace LuaRecovery

/-- What a statement adds to a skeleton. -/
inductive Bone where
  | marker (role : MarkerRole)
  | call
  | ret
  | remark (text : String)
  | function (inside : List Bone)

mutual

/-- What a statement adds to the skeleton of a body. -/
def Statement.bones : Statement → List Bone
  | .assign _ _ _ _ => []
  | .define _ ⟨_, body, _, _, _, _, _⟩ _ _ => [.function (skeleton body)]
  | .call _ _ _ => [.call]
  | .ret _ _ => [.ret]
  | .marker _ role => [.marker role]
  | .verbatim text => [.remark text]
  | .function ⟨_, body, _, _, _, _, _⟩ => [.function (skeleton body)]
  | .foreign _ => []

/-- The skeleton of a body: its markers by role, its calls and returns, its remarks by text,
and the skeletons of the functions in it, in order. -/
def skeleton : List Statement → List Bone
  | [] => []
  | s :: rest => s.bones ++ skeleton rest

end

@[simp] theorem skeleton_nil : skeleton [] = [] := by rw [skeleton]

@[simp] theorem skeleton_cons (s : Statement) (rest : List Statement) :
    skeleton (s :: rest) = s.bones ++ skeleton rest := by rw [skeleton]

@[simp] theorem skeleton_append (xs ys : List Statement) :
    skeleton (xs ++ ys) = skeleton xs ++ skeleton ys := by
  induction xs with
  | nil => rw [List.nil_append, skeleton_nil, List.nil_append]
  | cons s rest ih => rw [List.cons_append, skeleton_cons, skeleton_cons, ih, List.append_assoc]

/-- The code and the place of a diagnostic. -/
def Diagnostic.gist (d : Diagnostic) : Code × Option Int := (d.code, d.index)

/-! ### States side by side -/

/-- The same of what a walk of a function depends on, apart from what values look like. -/
structure Frame.Alike (f g : Frame) : Prop where
  code : f.code = g.code
  blocks : f.blocks = g.blocks
  top : f.top = g.top
  constants : f.registers.constants = g.registers.constants
  anomalies : f.registers.anomalies = g.registers.anomalies
  skeleton : skeleton f.body = skeleton g.body

/-- The same limits and strings, and the same reported at the same places. -/
structure Context.Alike (c d : Context) : Prop where
  limits : c.limits = d.limits
  strings : c.strings = d.strings
  gists : c.diagnostics.map Diagnostic.gist = d.diagnostics.map Diagnostic.gist

/-- Walks of one function that go on in the same way. -/
structure Walk.Alike (w v : Walk) : Prop where
  frame : w.frame.Alike v.frame
  context : w.context.Alike v.context

theorem Frame.Alike.refl (f : Frame) : f.Alike f := ⟨rfl, rfl, rfl, rfl, rfl, rfl⟩

theorem Frame.Alike.symm {f g : Frame} (h : f.Alike g) : g.Alike f :=
  ⟨h.code.symm, h.blocks.symm, h.top.symm, h.constants.symm, h.anomalies.symm, h.skeleton.symm⟩

theorem Frame.Alike.trans {f g k : Frame} (h : f.Alike g) (h' : g.Alike k) : f.Alike k :=
  ⟨h.code.trans h'.code, h.blocks.trans h'.blocks, h.top.trans h'.top,
    h.constants.trans h'.constants, h.anomalies.trans h'.anomalies, h.skeleton.trans h'.skeleton⟩

theorem Context.Alike.refl (c : Context) : c.Alike c := ⟨rfl, rfl, rfl⟩

theorem Context.Alike.symm {c d : Context} (h : c.Alike d) : d.Alike c :=
  ⟨h.limits.symm, h.strings.symm, h.gists.symm⟩

theorem Context.Alike.trans {c d e : Context} (h : c.Alike d) (h' : d.Alike e) : c.Alike e :=
  ⟨h.limits.trans h'.limits, h.strings.trans h'.strings, h.gists.trans h'.gists⟩

theorem Context.Alike.report {c d : Context} (h : c.Alike d) {x y : Diagnostic}
    (hxy : x.gist = y.gist) : (c.report x).Alike (d.report y) := by
  refine ⟨h.limits, h.strings, ?_⟩
  show (c.diagnostics ++ [x]).map Diagnostic.gist = (d.diagnostics ++ [y]).map Diagnostic.gist
  rw [List.map_append, List.map_append, h.gists, List.map_singleton, List.map_singleton, hxy]

theorem Walk.Alike.refl (w : Walk) : w.Alike w := ⟨.refl _, .refl _⟩

theorem Walk.Alike.symm {w v : Walk} (h : w.Alike v) : v.Alike w :=
  ⟨h.frame.symm, h.context.symm⟩

theorem Walk.Alike.trans {w v u : Walk} (h : w.Alike v) (h' : v.Alike u) : w.Alike u :=
  ⟨h.frame.trans h'.frame, h.context.trans h'.context⟩

namespace Walking

end Walking

/-! ### Outcomes side by side -/

/-- The same failure with the same skeleton recovered, or the same option left open. -/
inductive Stop.Alike : Stop → Stop → Prop
  | failed (failure : Failure) {r r' : Option Routine}
      (h : r.map (fun x => skeleton x.body) = r'.map fun x => skeleton x.body) :
      Stop.Alike (.failed failure r) (.failed failure r')
  | option (fault : OptionFault) : Stop.Alike (.option fault) (.option fault)

/-- Both answer or both stop in the same way, and the states are alike; or one of them stops
because an object is not there or the host can go no further. -/
inductive Agree {σ α β : Type} (S : σ → σ → Prop) (R : α → β → Prop) :
    EStateM.Result Stop σ α → EStateM.Result Stop σ β → Prop
  | ok {a : α} {b : β} {w v : σ} (hanswer : R a b) (hstate : S w v) : Agree S R (.ok a w) (.ok b v)
  | error {stop stop' : Stop} {w v : σ} (hstop : stop.Alike stop') (hstate : S w v) :
      Agree S R (.error stop w) (.error stop' v)
  | faultLeft {stop : Stop} {w : σ} (hstop : stop.IsFault) (r : EStateM.Result Stop σ β) :
      Agree S R (.error stop w) r
  | faultRight {stop : Stop} {v : σ} (hstop : stop.IsFault) (r : EStateM.Result Stop σ α) :
      Agree S R r (.error stop v)

namespace Walking

section

variable {α β γ δ : Type} {R : α → β → Prop} {S : γ → δ → Prop}

end

end Walking

end LuaRecovery

/-
Upvalues through closures.

A register that a closure captures is known inside by the name of its local.  A function inside
may hand the upvalue down to one of its own closures, and so on, until an instruction of the
innermost reads or assigns it.  The chain has the same upvalue at every link, so the instruction
uses the name to which the outermost function binds the register.

A chain is followed twice: in the code (`HandsDown`) and through the jobs of a run (`Reaches`).
The run shows where the statements of the chain stand; the code shows that a recovery that
succeeds has been through all of it.
-/
import Mathlib.Data.List.Nodup
import LuaRecovery.Proofs.BoundNames
import LuaRecovery.Proofs.NameCapture

namespace LuaRecovery

open List

/-- An instruction that reads or assigns the upvalue at an index. -/
structure Instruction.UsesUpvalue (i : Instruction) (k : Nat) : Prop where
  opcode : i.opcode = .getUpvalue ∨ i.opcode = .setUpvalue
  index : i.b = k

/-- The statement of an instruction that reads or assigns an upvalue with the name `x`. -/
inductive Statement.Uses (x : String) : Opcode → Statement → Prop
  | read {target : String} {declares : Bool} : Uses x .getUpvalue (.assign target x declares none)
  | write {value : String} : Uses x .setUpvalue (.assign x value false none)

/-! ### Chains in the code -/

/-- A closure that the code of a function reads, and the function inside that it makes. -/
structure Prototype.Closes (p : Prototype) (index : Nat) (i : Instruction) (q : Prototype) :
    Prop where
  reads : p.Reads index
  instruction : p.instructions[index]? = some i
  opcode : i.opcode = .closure
  child : p.childAt? i.b = some q

/-- A function uses its upvalue at an index by the instruction `use`, or hands it down to a
function inside that does. -/
inductive Prototype.HandsDown (use : Instruction) : Prototype → Nat → Prop
  | here {p : Prototype} {index k : Nat} (reads : p.Reads index)
      (instruction : p.instructions[index]? = some use) (uses : use.UsesUpvalue k) :
      HandsDown use p k
  | inside {p q : Prototype} {index n k : Nat} {i c : Instruction} (closes : p.Closes index i q)
      (capture : (p.captures q index)[n]? = some c) (opcode : c.opcode = .getUpvalue)
      (same : c.b = k) (rest : HandsDown use q n) : HandsDown use p k

/-! ### Chains in what was recovered -/

/-- A routine has a statement of the opcode `op` that uses the name `x`, in its body or in a
function inside, at the end of a row of places; and it lists `x` once, as do the functions
between. -/
inductive RoutineOf.PassesOn (x : String) (op : Opcode) : Routine → List Nat → Prop
  | here {r : Routine} {place : Nat} {s : Statement} (listed : r.captured.count x = 1)
      (statement : r.body[place]? = some s) (uses : s.Uses x op) : PassesOn x op r [place]
  | inside {r inner : Routine} {place : Nat} {name : String} {declares : Bool}
      {places : List Nat} (listed : r.captured.count x = 1)
      (closure : r.body[place]? = some (.define name inner declares none))
      (rest : PassesOn x op inner places) : PassesOn x op r (place :: places)

/-- The closure at a place of a routine, which goes to the register `target`, captures the
register `reg`: inside, the name `x` stands for it. -/
structure RoutineOf.Resolves (r : Routine) (op : Opcode) (place : Nat) (places : List Nat)
    (target reg : Int) (x : String) : Prop where
  /-- It is the one name that the register is bound to. -/
  name : ∀ y, r.BindsAs reg y ↔ y = x
  binding : ⟨place, [target]⟩ ∈ r.bindings
  closure : ∃ name inner declares,
    r.body[place]? = some (.define name inner declares none) ∧ inner.PassesOn x op places
  declared : reg ≠ target → r.DeclaresBefore place reg x

namespace Walking

variable {w : Walk}

/-! ### The use of an upvalue -/

/-- An upvalue is listed, once. -/
def Lists (w : Walk) (x : String) : Prop := x ∈ w.frame.captured ∧ w.frame.captured.Nodup

/-- An upvalue is listed and the statement at a place uses it. -/
def HasUse (x : String) (op : Opcode) (place : Nat) (w : Walk) : Prop :=
  Lists w x ∧ ∃ s, w.frame.body[place]? = some s ∧ s.Uses x op

variable {v : Upvalue} {use : Instruction} {k : Nat}

/-- An upvalue that was passed is answered as it is. -/
theorem upvalueAt_known (hv : w.frame.upvalues[k]? = some v) (hnodup : w.frame.captured.Nodup) :
    After (fun u w' => u = v ∧ Lists w' v.name ∧ w'.frame.body = w.frame.body)
      (fun stop _ => stop.IsMute) (upvalueAt k w) := by
  refine after_bind (after_askHost (after_state ?_) fun _ _ => trivial)
  rw [knownUpvalue?, if_pos (Int.natCast_nonneg k), Int.toNat_natCast, hv]
  show After _ _ ((if (!w.frame.captured.contains v.name) = true then _ else _ : Walking Upvalue) w)
  by_cases hnew : (!w.frame.captured.contains v.name) = true
  · rw [if_pos hnew]
    have hfresh : v.name ∉ w.frame.captured := by simpa using hnew
    refine after_bind (after_modify ⟨rfl, ⟨mem_append_right _ mem_cons_self, ?_⟩, rfl⟩)
    exact nodup_append_comm.mp (nodup_cons.mpr ⟨hfresh, hnodup⟩)
  · rw [if_neg hnew]
    exact ⟨rfl, ⟨by simpa using hnew, hnodup⟩, rfl⟩

section

variable (hk : use.b = k) (hv : w.frame.upvalues[k]? = some v) (hnodup : w.frame.captured.Nodup)

include hk hv hnodup

theorem getUpvalue_uses : After (fun _ w' => HasUse v.name .getUpvalue w.frame.body.length w')
      (fun stop _ => stop.IsMute) (getUpvalue use w) := by
  have hknown := upvalueAt_known hv hnodup
  rw [← hk] at hknown
  refine after_seq hknown ?_
  rintro v w₁ ⟨rfl, hlists, hbody⟩
  refine after_seq (after_fault (bindLocal_writes _ _ _ w₁) fun _ _ h => h.1.mute) ?_
  rintro name w₂ ⟨scene, objects, locals, declares, hw₂, -⟩
  have huse : HasUse v.name .getUpvalue w.frame.body.length w₂ := by
    refine ⟨hw₂ ▸ hlists, .assign name v.name declares none, ?_, .read⟩
    rw [hw₂, ← hbody]
    exact getElem?_concat_length
  by_cases hhandle : v.handle.isSome = true
  · rw [if_pos hhandle]
    exact huse
  · rw [if_neg hhandle]
    exact huse

theorem setUpvalue_uses : After (fun _ w' => HasUse v.name .setUpvalue w.frame.body.length w')
      (fun stop _ => stop.IsMute) (setUpvalue use w) := by
  have hknown := upvalueAt_known hv hnodup
  rw [← hk] at hknown
  refine after_seq hknown ?_
  rintro v w₁ ⟨rfl, hlists, hbody⟩
  refine after_bind (after_bind (after_bind (after_askHost ?_ fun _ _ => trivial)))
  refine ⟨hlists, .assign v.name (w₁.frame.registers.peek use.a).text false none, ?_, .write⟩
  rw [← hbody]
  exact getElem?_concat_length

end

/-- The step of an instruction on an upvalue adds a statement that uses its name. -/
theorem step_uses (children : List Child) (index : Nat) (huse : use.UsesUpvalue k)
    (hv : w.frame.upvalues[k]? = some v) (hnodup : w.frame.captured.Nodup) :
    After (fun _ w' => HasUse v.name use.opcode w.frame.body.length w')
      (fun stop _ => stop.IsMute) (step children use index w) := by
  unfold step
  rcases huse.opcode with hop | hop
  · rw [hop]
    exact after_seq (getUpvalue_uses huse.index hv hnodup) fun _ _ h => h
  · rw [hop]
    exact after_seq (setUpvalue_uses huse.index hv hnodup) fun _ _ h => h

end Walking

namespace Job

open Walking

/-! ### Chains in a run -/

/-- The instruction `use` is carried out on the upvalue of a job at an index, by its walk or by
that of a function inside to which it hands the upvalue down.  The row of places is where the
statements of the closures and of the instruction are put. -/
inductive Reaches (use : Instruction) : Job → Nat → List Nat → Prop
  | here {j : Job} {index k : Nat} {w : Walk} (due : j.Due index use w)
      (uses : use.UsesUpvalue k) : Reaches use j k [w.frame.body.length]
  | inside {j : Job} {index n k : Nat} {i c : Instruction} {q : Prototype} {ready : Prepared}
      {w : Walk} {places : List Nat} (opens : j.Opens index i q ready w)
      (capture : (j.source.captures q index)[n]? = some c) (opcode : c.opcode = .getUpvalue)
      (same : c.b = k) (rest : Reaches use (Job.inside q ready w) n places) :
      Reaches use j k (w.frame.body.length :: places)

variable {j : Job} {use : Instruction} {r : Routine} {d : Context}

variable {k : Nat}

theorem Owns.upvalue {f : Frame} (h : j.Owns f) {v : Upvalue} (hv : j.upvalues[k]? = some v) :
    f.upvalues[k]? = some v := by
  rw [h.upvalues]
  exact getElem?_prefix_mono (prefix_append _ _) hv

/-- What was listed once is so in what a job hands back. -/
theorem Begins.count_captured {f : Frame} {x : String} (h : Begins f r) (hx : x ∈ f.captured)
    (hnodup : f.captured.Nodup) : r.captured.count x = 1 :=
  count_eq_one_of_mem (h.nodup hnodup) (h.captured.subset hx)

/-- What a job hands back uses the upvalue by its name, at the end of the chain, and every
function on the way lists it once. -/
theorem Reaches.passesOn {places : List Nat} (h : j.Reaches use k places) {v : Upvalue}
    (hv : j.upvalues[k]? = some v) :
    Returned (fun r => r.PassesOn v.name use.opcode places) j.result := by
  induction h generalizing v with
  | @here j index k w hdue huse =>
    have hstep := step_uses j.children index huse (hdue.owns.upvalue hv) hdue.owns.nodup
    refine (hdue.begins (P := HasUse v.name use.opcode w.frame.body.length)
      (after_mono hstep (fun _ w' h => ⟨w', h, onward_blocked.refl w'⟩)
        fun _ _ h => .inl h)).mono ?_
    rintro r ⟨w₁, ⟨⟨hmem, hnodup⟩, s, hs, huses⟩, hbegins⟩
    exact .here (hbegins.count_captured hmem hnodup) (getElem?_prefix_mono hbegins.body hs) huses
  | @inside j index n k i c q ready w places hopens hcapture hop hsame _ ih =>
    have howns := hopens.hands.1
    obtain ⟨u, hu, hhands⟩ := hopens.upvalue hcapture
    cases hhands with
    | register hmove => cases hop.symm.trans hmove
    | upvalue _ hknown hcaptured =>
      obtain rfl := hknown k v hsame (howns.upvalue hv)
      refine (hopens.begins (ih hu)).mono ?_
      rintro r ⟨inner, hinner, hbegins⟩
      exact .inside (hbegins.count_captured hcaptured howns.nodup)
        (getElem?_prefix_mono hbegins.body getElem?_concat_length) hinner

/-- A job that succeeds has been through every chain of its code. -/
theorem reaches_of_handsDown {p : Prototype} (h : p.HandsDown use k) :
    ∀ {j : Job} {r : Routine} {d : Context}, j.source = p → j.result = .ok r d →
      ∃ places, j.Reaches use k places := by
  induction h with
  | here hreads hi huses =>
    rintro j r d rfl hok
    obtain ⟨w, -, -, hdue, -⟩ := due_of_reads hok hreads hi
    exact ⟨_, .here hdue huses⟩
  | inside hcloses hcapture hop hsame _ ih =>
    rintro j r d rfl hok
    obtain ⟨ready, w, inner, c, hopens, hinner⟩ :=
      opens_of_reads hok hcloses.reads hcloses.instruction hcloses.opcode hcloses.child
    obtain ⟨places, hreaches⟩ := ih rfl hinner
    exact ⟨_, .inside hopens hcapture hop hsame hreaches⟩

variable {index n : Nat} {i c : Instruction} {q : Prototype} {ready : Prepared} {w : Walk}
  {places : List Nat}

/-- A register that a closure captures is known by its one name at the end of every chain. -/
theorem Opens.resolves (h : j.Opens index i q ready w) (hscene : j.context.scene.Registered)
    (hcapture : (j.source.captures q index)[n]? = some c) (hop : c.opcode = .move)
    (hreaches : (inside q ready w).Reaches use n places) :
    Returned (fun r => ∃ x,
      r.Resolves use.opcode w.frame.body.length places i.a c.b x) j.result := by
  have hlocal := h.hands.2.1
  obtain ⟨u, hu, hhands⟩ := h.upvalue hcapture
  cases hhands with
  | upvalue hget => cases hop.symm.trans hget
  | register _ hname =>
    have htitled := h.titled hscene
    refine ((h.begins (hreaches.passesOn hu)).and (j.oneName hscene)).mono ?_
    rintro r ⟨⟨inner, hinner, hbegins⟩, hone⟩
    have hdefined : AllTitled (bound w [i.a] (.define ready.name inner ready.declares none)
        w.frame.locals) := htitled.define hlocal (.refl _)
    -- With the function defined every local is declared, also that of the closure itself.
    have hbinds : r.BindsAs c.b u.name :=
      ((hdefined.named c.b u.name hname id).grow hbegins.params hbegins.body hbegins.bindings
        hbegins.body.length_le).bindsAs
    refine ⟨u.name, fun y => ⟨fun hy => hone _ _ _ hy hbinds, fun hy => hy ▸ hbinds⟩, ?_, ?_,
      fun hne => ?_⟩
    · exact hbegins.bindings.subset (mem_append_right _ (mem_singleton_self _))
    · exact ⟨_, inner, _, getElem?_prefix_mono hbegins.body getElem?_concat_length, hinner⟩
    · exact (htitled.named c.b u.name hname fun h => hne h.2).grow hbegins.params
        ((prefix_append _ _).trans hbegins.body)
        ((prefix_append _ _).trans hbegins.bindings) (Nat.le_refl _)

/-- **An upvalue resolves to the register that was captured.**  Wherever a job makes a closure
that captures a register, and through whatever row of functions inside the upvalue is handed
down to an instruction that reads or assigns it, what the job hands back has a statement there
that uses the one name to which the register is bound; every function in the row lists that name
once; and it is declared before the closure, unless the closure captures its own register.  A job
that succeeds has been through every such row of its code.  The jobs that it opens are in a
context of the same kind, so all this holds of them too. -/
theorem upvalue_resolves (j : Job) (hscene : j.context.scene.Registered) :
    (∀ index i q ready w n c use places, j.Opens index i q ready w →
      (j.source.captures q index)[n]? = some c → c.opcode = .move →
      (inside q ready w).Reaches use n places →
      Returned (fun r => ∃ x, r.Resolves use.opcode w.frame.body.length places i.a c.b x)
        j.result) ∧
    (∀ r d, j.result = .ok r d → ∀ index i q n c use, j.source.Closes index i q →
      (j.source.captures q index)[n]? = some c → c.opcode = .move → q.HandsDown use n →
      ∃ ready w places x, j.Opens index i q ready w ∧ (inside q ready w).Reaches use n places ∧
        r.Resolves use.opcode w.frame.body.length places i.a c.b x) ∧
    ∀ index i q ready w, j.Opens index i q ready w →
      (inside q ready w).context.scene.Registered := by
  refine ⟨fun index i q ready w n c use places hopens hcapture hop hreaches =>
    hopens.resolves hscene hcapture hop hreaches, ?_, fun _ _ _ _ _ hopens =>
    (hopens.titled hscene).registered⟩
  intro r d hok index i q n c use hcloses hcapture hop hchain
  obtain ⟨ready, w, inner, _, hopens, hinner⟩ :=
    opens_of_reads hok hcloses.reads hcloses.instruction hcloses.opcode hcloses.child
  obtain ⟨places, hreaches⟩ := reaches_of_handsDown hchain rfl hinner
  have hreturned := hopens.resolves hscene hcapture hop hreaches
  rw [hok] at hreturned
  obtain ⟨x, hresolves⟩ := hreturned
  exact ⟨ready, w, places, x, hopens, hreaches, hresolves⟩

end Job

/-- A function inside that assigns its upvalue. -/
def setter : Prototype where
  instructions := [{ opcode := .setUpvalue }]
  upvalueCount := 1

/-- A function inside that hands its upvalue down. -/
def setterMaker : Prototype where
  instructions := [{ opcode := .closure }, { opcode := .getUpvalue }]
  children := [setter]
  upvalueCount := 1

/-- A function that makes a table and a closure that captures it. -/
def tableHolder : Prototype where
  instructions := [{ opcode := .newTable }, { opcode := .closure, a := 1 }, { opcode := .move }]
  children := [setterMaker]

theorem tableHolder_closes : tableHolder.Closes 1 { opcode := .closure, a := 1 } setterMaker :=
  ⟨Prototype.Reads.next (p := tableHolder) (i := { opcode := .newTable }) .first rfl, rfl, rfl, rfl⟩

theorem setterMaker_handsDown : setterMaker.HandsDown { opcode := .setUpvalue } 0 :=
  .inside (c := { opcode := .getUpvalue }) (n := 0) ⟨.first, rfl, rfl, rfl⟩ rfl rfl rfl
    (.here .first rfl ⟨.inr rfl, rfl⟩)

/-- The table is assigned two functions down. -/
theorem tableHolder_resolves :
    (Job.fresh tableHolder "main" "main" { simulate := some false }).context.scene.Registered ∧
      ∃ r d, (Job.fresh tableHolder "main" "main" { simulate := some false }).result = .ok r d ∧
        ∃ place places x, r.Resolves .setUpvalue place places 1 0 x := by
  have hscene := Context.start_registered { simulate := some false }
  have hrun : (EStateM.run' (tableHolder.build "main" "main" [])
      (Context.start { simulate := some false })).map (fun _ => ()) = some () := by
    decide +kernel
  obtain ⟨r, d, hbuild, -⟩ := ok_of_run hrun
  have hall := Job.upvalue_resolves
    (Job.fresh tableHolder "main" "main" { simulate := some false }) hscene
  obtain ⟨_, w, places, x, -, -, hresolves⟩ := hall.2.1 r d hbuild 1 _ setterMaker 0
    { opcode := .move } _ tableHolder_closes rfl rfl setterMaker_handsDown
  exact ⟨hscene, r, d, hbuild, w.frame.body.length, places, x, hresolves⟩

end LuaRecovery

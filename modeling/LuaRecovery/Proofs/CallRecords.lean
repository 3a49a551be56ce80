/-
The calls that are recorded.

The scene records the calls that cross the boundary of the script.  A call is an instruction of a
function, and its function may be recovered in the middle of another, so the records of all
functions come in one list.  It is shown here that the list is that of the calls of the code: each
call is made once for every time that its function is, in the order of the code, where the calls
of a function inside come at the closure that makes it.  What a call leaves in the list is told by
what the registers hold when it is made, and the statement that is emitted for it has the same
callee and the same arguments.
-/
import LuaRecovery.Proofs.FunctionsInside
import LuaRecovery.Proofs.RegisterUse
import LuaRecovery.Proofs.SceneCalls

namespace LuaRecovery

open List Prototype

/-- The call that an instruction makes in a state, by what the registers hold. -/
def Walk.callSite (w : Walk) (i : Instruction) : Scene.CallSite :=
  let callee := w.frame.registers.peek i.a
  let registers := Walking.withoutReceiver callee.method i.a (w.frame.listAbove i.a i.b)
  { callee := callee.text
    args := registers.map fun reg => (w.frame.registers.peek reg).text
    calleeHandle := callee.handle
    receiver := callee.receiver
    method := callee.method }

/-- A statement that makes a call: for itself, or for the value of an assignment. -/
inductive Statement.Calls (callee : String) (args : List String) : Statement → Prop
  | call (comment : Option String) : Calls callee args (.call callee args comment)
  | assign (target : String) (declares : Bool) (comment : Option String) :
      Calls callee args (.assign target (Lua.callText callee args) declares comment)

namespace Walking

/-! ### The step of a call -/

/-- One statement was emitted, which makes the call. -/
def EmitsCall (callee : String) (args : List String) (w w' : Walk) : Prop :=
  ∃ s, w'.frame.body = w.frame.body ++ [s] ∧ s.Calls callee args

/-- No call was recorded. -/
def SameCalls (w w' : Walk) : Prop := w'.context.scene.calls = w.context.scene.calls

theorem sameCalls_contextual : Contextual fun c c' => c'.scene.calls = c.scene.calls where
  refl _ := rfl
  trans h₁ h₂ := h₂.trans h₁
  scene _ _ hstages := hstages.calls
  limits _ _ _ := rfl
  trace _ _ := rfl
  report _ _ := rfl

theorem sameCalls_fenced : Fenced SameCalls := sameCalls_contextual.fenced

theorem sameCalls_topped : Topped SameCalls := fun _ _ => rfl

/-- Whether objects are kept track of does not change. -/
theorem Later.simulates {c c' : Context} (h : Later c c')
    (hsimulate : c.options.simulate.isOn = true) : c'.options.simulate.isOn = true := by
  rw [h.options]
  exact hsimulate

variable {i : Instruction} {index : Nat} {w : Walk}

/-- A call is made as it is written, and recorded if it crosses the boundary. -/
theorem makeCall_records (hsimulate : w.context.options.simulate.isOn = true)
    (site : Scene.CallSite) :
    Once (fun outcome w' => (outcome.callee, outcome.args) = site.written ∧ w'.frame = w.frame ∧
        w'.context.scene.calls = w.context.scene.calls ++ site.record?.toList)
      (makeCall site w) := by
  refine after_bind (after_simulating ?_)
  rw [hsimulate]
  refine after_bind (after_query ?_ fun _ => trivial)
  rintro ⟨outcome, scene⟩ hcall
  obtain ⟨hwritten, hcalls, -⟩ := Scene.call_spec hcall
  exact ⟨hwritten, rfl, hcalls⟩

/-- One statement is emitted for a call, unless its results are left open. -/
theorem placeResults_emits (i : Instruction) (index : Nat) (outcome : Scene.CallOutcome)
    (comment : Option String) (w : Walk) :
    Once (fun _ w' => ¬ Leaves w.frame.code i index → EmitsCall outcome.callee outcome.args w w')
      (placeResults i index outcome comment w) := by
  unfold placeResults
  dsimp only
  by_cases hone : i.c - 1 = 1
  · rw [if_pos hone]
    refine after_seq (after_loose (bindLocal_writes _ _ _ w)) ?_
    rintro name _ ⟨scene, objects, locals, declares, rfl, -⟩ -
    exact ⟨_, rfl, .assign name declares comment⟩
  rw [if_neg hone]
  by_cases hmany : 1 < i.c - 1
  · rw [if_pos hmany]
    refine after_mono (bindMany_writes _ _ _ w) ?_ fun _ _ _ => trivial
    rintro _ _ ⟨scene, objects, locals, registers, targets, declares, rfl, -⟩ -
    exact ⟨_, rfl, .assign _ declares comment⟩
  rw [if_neg hmany]
  refine after_seq (after_loose (Job.holdsOpen_next i index w)) ?_
  rintro held w₁ ⟨rfl, hheld⟩
  cases held with
  | true => exact fun hno => absurd (hheld.mp rfl) hno
  | false =>
    refine after_bind (after_modify (after_bind (after_localOf? ?_)))
    split <;> exact fun _ => ⟨_, rfl, .call comment⟩

theorem reportGuess_aside (ambiguous : Bool) (message : String) (index : Nat) (w : Walk) : Once
      (fun _ w' => w'.frame = w.frame ∧ w'.context.scene = w.context.scene ∧
        w'.context.options = w.context.options) (reportGuess ambiguous message index w) := by
  cases ambiguous <;> exact ⟨rfl, rfl, rfl⟩

/-- The step of a call records it, and emits the statement that makes it unless its results are
left open. -/
theorem call_records (hsimulate : w.context.options.simulate.isOn = true) (i : Instruction)
    (index : Nat) :
    Once (fun _ w' =>
        w'.context.scene.calls = w.context.scene.calls ++ (w.callSite i).record?.toList ∧
        (¬ Leaves w.frame.code i index →
          EmitsCall (w.callSite i).written.1 (w.callSite i).written.2 w w')) (call i index w) := by
  obtain ⟨ambiguous, top, hlist⟩ := argumentRegisters_barring i.a i.b
    { w with frame.registers := w.frame.registers.touch i.a }
  refine (call_barring ((listAbove_touch w.frame i.a i.a i.b) ▸ hlist)).after ?_
  refine (barring_bind (readRegister_barring i.a _) (.inl rfl)).after ?_
  refine (barring_bind (readTexts_barring _ _) (.inl rfl)).after ?_
  refine after_seq (reportGuess_aside _ _ _ _) ?_
  rintro _ w₁ ⟨hframe, hscene, hoptions⟩
  have hsite := makeCall_records (hoptions ▸ hsimulate) (w.callSite i)
  refine after_seq hsite ?_
  rintro outcome w₂ ⟨hwritten, hframe', hcalls⟩
  have hbefore : w₂.frame.body = w.frame.body ∧ w₂.frame.code = w.frame.code := by
    rw [hframe', hframe]
    exact ⟨rfl, rfl⟩
  refine after_bind (after_modify ?_)
  have hkept := placeResults_keeps (i := i) sameCalls_fenced.toQuiet sameCalls_topped
    sameCalls_fenced.emit trivial (fun _ _ => trivial) index outcome (guessComment ambiguous)
  refine after_mono (after_and (hkept _) (placeResults_emits i index outcome _ _)) ?_
    fun _ _ _ => trivial
  rintro _ w' ⟨hsame, hemits⟩
  refine ⟨hsame.trans (hcalls.trans (by rw [hscene])), fun hopen => ?_⟩
  rw [← hwritten, EmitsCall, ← hbefore.1]
  exact hemits (hbefore.2 ▸ hopen)

end Walking

/-! ### The calls of the code -/

/-- The places of the calls at an index of the code, given those of the functions inside. -/
def callPlacesAt (code : List Instruction) (inside : List (List (List Nat))) (index : Nat) :
    List (List Nat) :=
  match code[index]? with
  | none => []
  | some i =>
    match i.opcode with
    | .call => [[index]]
    | .closure =>
      ((if 0 ≤ i.b then inside[i.b.toNat]? else none).getD []).map (index :: ·)
    | _ => []

namespace Prototype

mutual

/-- The places of the calls of a function and of the functions inside, in the order of the code.  A
place is a row of indexes: those of the closures that make the functions around the call, from the
outside, and its own. -/
def callPlaces : Prototype → List (List Nat)
  | ⟨instructions, _, children, _, _, _, _, _⟩ =>
    (List.range instructions.length).flatMap (callPlacesAt instructions (callPlacesInside children))

/-- The places of the calls of each function of a list. -/
def callPlacesInside : List Prototype → List (List (List Nat))
  | [] => []
  | p :: rest => p.callPlaces :: callPlacesInside rest

end

/-- The places of the calls at an index. -/
def callsAt (p : Prototype) (index : Nat) : List (List Nat) :=
  callPlacesAt p.instructions (callPlacesInside p.children) index

theorem callPlaces_eq (p : Prototype) :
    p.callPlaces = (List.range p.instructions.length).flatMap p.callsAt := by
  cases p
  rw [callPlaces]
  rfl

theorem callPlacesInside_eq (ps : List Prototype) : callPlacesInside ps = ps.map callPlaces := by
  induction ps with
  | nil => rw [callPlacesInside, map_nil]
  | cons p rest ih => rw [callPlacesInside, ih, map_cons]

variable {p q : Prototype} {i : Instruction} {index taken : Nat}

theorem callsAt_none (hi : p.instructions[index]? = none) : p.callsAt index = [] := by
  simp only [callsAt, callPlacesAt, hi]

variable (hi : p.instructions[index]? = some i)

include hi

theorem callsAt_call (hop : i.opcode = .call) : p.callsAt index = [[index]] := by
  simp only [callsAt, callPlacesAt, hi, hop]

theorem callsAt_closure (hop : i.opcode = .closure) :
    p.callsAt index = (((p.childAt? i.b).map callPlaces).getD []).map (index :: ·) := by
  have hinside : (if 0 ≤ i.b then (callPlacesInside p.children)[i.b.toNat]? else none) =
      (p.childAt? i.b).map callPlaces := by
    rw [childAt?, callPlacesInside_eq]
    split
    · exact getElem?_map
    · rfl
  simp only [callsAt, callPlacesAt, hi, hop, hinside]

theorem callsAt_other (hcall : i.opcode ≠ .call)
    (hclosure : i.opcode ≠ .closure) : p.callsAt index = [] := by
  simp only [callsAt, callPlacesAt, hi]

end Prototype

/-- What belongs to the indexes up to one and a few behind it to which nothing belongs. -/
theorem flatMap_range_add {α : Type} {f : Nat → List α} {index taken : Nat} (htaken : 0 < taken)
    (hrest : ∀ k, index < k → k < index + taken → f k = []) :
    (List.range (index + taken)).flatMap f = (List.range index).flatMap f ++ f index := by
  obtain ⟨more, rfl⟩ := Nat.exists_eq_succ_of_ne_zero (Nat.pos_iff_ne_zero.mp htaken)
  induction more with
  | zero => rw [range_succ, flatMap_append, flatMap_singleton]
  | succ more ih =>
    rw [Nat.add_succ, range_succ, flatMap_append, flatMap_singleton,
      hrest _ (by omega) (by omega), append_nil,
      ih (Nat.succ_pos _) fun k hk hlt => hrest k hk (by omega)]

theorem exists_of_forall₂ {α β : Type} {R : α → β → Prop} {xs : List α} {ys : List β}
    (h : List.Forall₂ R xs ys) {y : β} (hy : y ∈ ys) : ∃ x, R x y := by
  induction h with
  | nil => cases hy
  | cons hxy _ ih =>
    rcases mem_cons.mp hy with rfl | hy
    · exact ⟨_, hxy⟩
    · exact ih hy

/-! ### The calls that jobs make -/

/-- A call that was made: by a job, at an index, for an instruction and in a state. -/
structure Made where
  job : Job
  index : Nat
  instruction : Instruction
  state : Walk

namespace Made

/-- The callee of a call as it is written. -/
def callee (m : Made) : String := (m.state.callSite m.instruction).written.1

/-- The arguments of a call as it is written. -/
def args (m : Made) : List String := (m.state.callSite m.instruction).written.2

/-- The record of a call, if it crosses the boundary. -/
def record? (m : Made) : Option Scene.CallRecord := (m.state.callSite m.instruction).record?

/-- The results of a call are held open for the next instruction. -/
def LeftOpen (m : Made) : Prop :=
  Walking.Leaves m.job.source.instructions m.instruction m.index

/-- Calls that are made one after the other: each of them is made when those before it have left
their records, and leaves its own. -/
inductive InTurn : List Scene.CallRecord → List Made → List Scene.CallRecord → Prop
  | nil {records : List Scene.CallRecord} : InTurn records [] records
  | cons {m : Made} {made : List Made} {after : List Scene.CallRecord}
      (rest : InTurn (m.state.context.scene.calls ++ m.record?.toList) made after) :
      InTurn m.state.context.scene.calls (m :: made) after

variable {made made' : List Made} {before middle after : List Scene.CallRecord}

theorem inTurn_append : InTurn before (made ++ made') after ↔
      ∃ middle, InTurn before made middle ∧ InTurn middle made' after := by
  induction made generalizing before with
  | nil =>
    constructor
    · exact fun h => ⟨before, .nil, h⟩
    · rintro ⟨_, ⟨⟩, h⟩
      exact h
  | cons m made ih =>
    constructor
    · intro h
      cases h with
      | cons rest =>
        obtain ⟨middle, h, h'⟩ := ih.mp rest
        exact ⟨middle, .cons h, h'⟩
    · rintro ⟨middle, h, h'⟩
      cases h with
      | cons rest => exact .cons (ih.mpr ⟨middle, rest, h'⟩)

/-- The records that calls leave which are made one after the other. -/
theorem InTurn.records (h : InTurn before made after) :
    after = before ++ made.filterMap record? := by
  induction h with
  | nil => exact (append_nil _).symm
  | @cons m made after _ ih =>
    rw [ih, append_assoc, filterMap_cons]
    cases m.record? <;> rfl

end Made

namespace Job

open Walking

/-- A job makes the call at a place: it carries the call out itself, or it recovers a function
inside that makes it. -/
inductive Makes : Job → List Nat → Made → Prop
  | here {j : Job} {index : Nat} {i : Instruction} {w : Walk} (due : j.Due index i w)
      (opcode : i.opcode = .call) : Makes j [index] ⟨j, index, i, w⟩
  | inside {j : Job} {index : Nat} {i : Instruction} {q : Prototype} {ready : Prepared} {w : Walk}
      {inner : Routine} {c : Context} {place : List Nat} {m : Made}
      (opens : j.Opens index i q ready w) (recovered : (Job.inside q ready w).result = .ok inner c)
      (rest : Makes (Job.inside q ready w) place m) : Makes j (index :: place) m

/-- What a job records: it makes the calls at the given places, one after the other. -/
def Records (j : Job) (places : List (List Nat)) (before after : List Scene.CallRecord) : Prop :=
  ∃ made, List.Forall₂ j.Makes places made ∧ Made.InTurn before made after

variable {j : Job} {index taken : Nat} {i : Instruction} {w w' : Walk} {q : Prototype}
  {r : Routine} {d : Context}

theorem records_nil {before after : List Scene.CallRecord} (h : after = before) :
    j.Records [] before after :=
  ⟨[], .nil, h ▸ .nil⟩

theorem Records.append {places places' : List (List Nat)}
    {before middle after : List Scene.CallRecord} (h : j.Records places before middle)
    (h' : j.Records places' middle after) : j.Records (places ++ places') before after := by
  obtain ⟨made, hmade, hturn⟩ := h
  obtain ⟨made', hmade', hturn'⟩ := h'
  exact ⟨made ++ made', rel_append hmade hmade', Made.inTurn_append.mpr ⟨_, hturn, hturn'⟩⟩

/-- A job that succeeds records the calls of its code. -/
def RecordsCalls (j : Job) : Prop :=
  j.context.options.simulate.isOn = true → ∀ r d, j.result = .ok r d →
    j.Records j.source.callPlaces j.context.scene.calls d.scene.calls

/-! ### One instruction -/

/-- The step of a closure records what the function inside records. -/
theorem Due.closure_records (h : j.Due index i w) (hop : i.opcode = .closure)
    (hsimulate : j.context.options.simulate.isOn = true)
    (hinside : ∀ ready w', RecordsCalls (Job.inside q ready w'))
    (hchild : j.source.childAt? i.b = some q)
    (hstep : step j.children i index w = .ok taken w') :
    j.Records (q.callPlaces.map (index :: ·)) w.context.scene.calls w'.context.scene.calls := by
  obtain ⟨ready, w₁, inner, c, hopens, hprepared, hinner, rfl⟩ := h.closure_ok hop hchild hstep
  have hsame := keeps_ok (sameCalls_contextual.prepare q.asChild i index) hprepared
  obtain ⟨made, hmade, hturn⟩ :=
    hinside ready w₁ (hopens.later.simulates hsimulate) inner c hinner
  refine ⟨made, forall₂_map_left_iff.mpr (hmade.imp fun place m hm => ?_), ?_⟩
  · exact .inside hopens hinner hm
  · rw [← hsame]
    exact hturn

/-- A step records the calls at its index, and no others. -/
theorem Due.step_records (h : j.Due index i w) (hsimulate : j.context.options.simulate.isOn = true)
    (hinside : ∀ q ∈ j.source.children, ∀ ready w', RecordsCalls (Job.inside q ready w'))
    (hstep : step j.children i index w = .ok taken w') :
    j.Records (j.source.callsAt index) w.context.scene.calls w'.context.scene.calls := by
  have hi := h.instruction
  by_cases hcall : i.opcode = .call
  · have hrecords := call_records (h.later.simulates hsimulate) i index
    unfold step at hstep
    rw [hcall] at hstep
    obtain ⟨_, w₁, hmade, hlast⟩ := ok_of_bind hstep
    cases hlast
    rw [hmade] at hrecords
    rw [callsAt_call hi hcall]
    let m : Made := ⟨j, index, i, w⟩
    refine ⟨[m], .cons (.here h hcall) .nil, ?_⟩
    rw [hrecords.1]
    exact .cons (m := m) .nil
  by_cases hclosure : i.opcode = .closure
  · rw [callsAt_closure hi hclosure]
    cases hchild : j.source.childAt? i.b with
    | some q =>
      exact h.closure_records hclosure hsimulate (hinside q (mem_of_childAt? hchild)) hchild hstep
    | none => exact records_nil (missing_step sameCalls_fenced.toTold hclosure hchild hstep)
  · have hsame : Keeps SameCalls (step j.children i index) := by
      by_cases hret : i.opcode = .ret
      · unfold step
        rw [hret]
        exact keeps_any (taking_keeps sameCalls_fenced.toQuiet
          (ret_keeps sameCalls_fenced.toTold sameCalls_topped i index) 1)
      · exact idleStep_keeps sameCalls_fenced j.children i index hclosure hcall hret
    rw [callsAt_other hi hcall hclosure]
    exact records_nil (keeps_ok hsame hstep)

/-! ### A whole walk -/

theorem addParams_calls (count : Nat) : ∀ (f : Frame) (scene : Scene) (index : Nat),
    (f.addParams scene index count).2.calls = scene.calls := by
  induction count with
  | zero => exact fun _ _ _ => rfl
  | succ count ih => exact fun _ _ _ => ih _ _ _

/-- What was recorded when a walk gets to an index are the calls behind it. -/
theorem At.records (h : j.At index w) (hsimulate : j.context.options.simulate.isOn = true)
    (hinside : ∀ q ∈ j.source.children, ∀ ready w', RecordsCalls (Job.inside q ready w')) :
    j.Records ((List.range index).flatMap j.source.callsAt) j.context.scene.calls
      w.context.scene.calls := by
  induction h with
  | @first limits w henter hopened =>
    have hopening :=
      keeps_ok (opening_keeps sameCalls_fenced.toQuiet (fun _ _ => rfl) j.children) hopened
    exact records_nil (hopening.trans (addParams_calls _ _ _ _))
  | @next index taken i w w' hreached hi hadvanced ih =>
    obtain ⟨w₁, w₂, mark, happroach, hstep, hconclude⟩ := ok_of_advance hadvanced
    have hdue : j.Due index i w₁ := ⟨hreached, hi, happroach⟩
    have hbefore := keeps_ok (approach_keeps sameCalls_fenced (fun _ => trivial) index) happroach
    have hafter := keeps_ok (conclude_keeps sameCalls_fenced i index mark taken) hconclude
    have hstepped := hdue.step_records hsimulate hinside hstep
    rw [show w₁.context.scene.calls = _ from hbefore,
      ← show w'.context.scene.calls = _ from hafter] at hstepped
    rw [flatMap_range_add (hdue.taken_eq hstep ▸ j.source.width_pos i index) ?_]
    · exact ih.append hstepped
    · -- Neither a jump nor an instruction that names an upvalue is a call or a closure.
      intro k hk hlt
      cases hi' : j.source.instructions[k]? with
      | none => exact callsAt_none hi'
      | some i' =>
        have hidle : i'.opcode ≠ .call ∧ i'.opcode ≠ .closure := by
          rcases hdue.taken_along hstep hk hlt hi' with ⟨-, hjump⟩ | ⟨-, hcapture⟩
          · rw [hjump]
            exact ⟨Opcode.noConfusion, Opcode.noConfusion⟩
          · constructor <;> intro hop <;> rw [Instruction.isCapture, hop] at hcapture <;>
              cases hcapture
        exact callsAt_other hi' hidle.1 hidle.2

/-- **Every job that succeeds records the calls of its code.** -/
theorem recordsCalls (j : Job) : j.RecordsCalls := by
  refine induct_inside j fun j ih => ?_
  intro hsimulate r d hok
  obtain ⟨w, v, hreached, hwound, -, rfl⟩ := end_of_ok hok
  have hend := keeps_ok (windUp_keeps sameCalls_fenced) hwound
  have hrecords := hreached.records hsimulate fun q hq ready w' => ih _ hq
  rw [← callPlaces_eq, ← show v.context.leave.scene.calls = _ from hend] at hrecords
  exact hrecords

/-! ### The statements of the calls -/

/-- The step of a call emits the statement that makes it. -/
theorem Due.call_stands (h : j.Due index i w) (hop : i.opcode = .call)
    (hsimulate : j.context.options.simulate.isOn = true)
    (hopen : ¬ Leaves j.source.instructions i index) (hok : j.result = .ok r d) :
    ∃ s, r.body[w.frame.body.length]? = some s ∧
      s.Calls (w.callSite i).written.1 (w.callSite i).written.2 := by
  let emits := EmitsCall (w.callSite i).written.1 (w.callSite i).written.2 w
  have hemits : Once (fun _ w' => emits w') (step j.children i index w) := by
    unfold step
    rw [hop]
    have hrecords := call_records (h.later.simulates hsimulate) i index
    exact after_seq hrecords fun _ _ hcalled => hcalled.2 (h.owns.code ▸ hopen)
  have hmute := step_keeps onward_blocked.toTold onward_blocked.top onward_blocked.log
    j.children i index (by rw [hop]; rfl) w
  have hbegun := h.begins (P := emits) (after_mono (after_and hmute hemits)
    (fun _ w' hboth => ⟨w', hboth.2, onward_blocked.refl w'⟩) fun _ _ hboth => .inl hboth.1.1)
  rw [hok] at hbegun
  obtain ⟨w₁, ⟨s, hbody, hcalls⟩, hbegins⟩ := hbegun
  refine ⟨s, getElem?_prefix_mono hbegins.body ?_, hcalls⟩
  rw [hbody, getElem?_concat_length]

/-- Where a function inside stands, there stands what its body has. -/
theorem Opens.statementAt {ready : Prepared} {inner : Routine} {c : Context} {place : List Nat}
    (h : j.Opens index i q ready w) (hinner : (Job.inside q ready w).result = .ok inner c)
    (hok : j.result = .ok r d) (hplace : place ≠ []) :
    statementAt j.path r.body (w.frame.body.length :: place) =
      LuaRecovery.statementAt (Job.inside q ready w).path inner.body place := by
  have hbegun := h.begins (Q := fun found => found = inner) (by rw [hinner]; rfl)
  rw [hok] at hbegun
  obtain ⟨found, hfound, hbegins⟩ := hbegun
  rw [hfound] at hbegins
  have hstands : r.body[w.frame.body.length]? =
      [Statement.define ready.name inner ready.declares none][0]? :=
    getElem?_prefix_mono hbegins.body getElem?_concat_length
  rw [h.path, statementAt_congr hstands, statementAt_inner rfl hplace]

/-- A call whose results are not left open has a statement in what is handed back, in the function
whose code it is. -/
theorem Makes.stands {place : List Nat} {m : Made} (h : j.Makes place m)
    (hsimulate : j.context.options.simulate.isOn = true) (hok : j.result = .ok r d)
    (hopen : ¬ m.LeftOpen) :
    ∃ outer s, statementAt j.path r.body (outer ++ [m.state.frame.body.length]) =
      some (m.job.path, s) ∧ s.Calls m.callee m.args := by
  induction h generalizing r d with
  | here due opcode =>
    obtain ⟨s, hs, hcalls⟩ := due.call_stands opcode hsimulate hopen hok
    refine ⟨[], s, ?_, hcalls⟩
    show (r.body[_]?.map _) = _
    rw [hs]
    rfl
  | @inside j index i q ready w inner c place m opens recovered rest ih =>
    obtain ⟨outer, s, hs, hcalls⟩ := ih (opens.later.simulates hsimulate) recovered hopen
    refine ⟨w.frame.body.length :: outer, s, ?_, hcalls⟩
    rw [cons_append, opens.statementAt recovered hok (by simp)]
    exact hs

end Job

/-! ### Whole recoveries -/

namespace Recovery

theorem startContext_calls (p : Prototype) (o : Options) : (startContext p o).scene.calls = [] := by
  show (if o.simulate.isOn then Scene.opened else Scene.blank).calls = []
  split <;> rfl

theorem finished_calls (o : Options) (proposal : Option (List (String × Payload)))
    (routine : Routine) (failure : Option Failure) (body : String) (c : Context) :
    (finished o proposal routine failure body c).calls = c.scene.calls := by
  show (checkGrammar o failure _ c).scene.calls = _
  unfold checkGrammar
  split <;> rfl

/-- **The list of calls is that of the code.**  If a function is recovered whole, and objects are
kept track of, then each call of its code and of the functions inside is made, in the order of the
code, where those of a function inside come at the closure that makes it.  When a call is made, the
list has the records of the calls before it; and at the end it has those of all calls.  A call has a
record just if the last segment of its callee is a function that crosses the boundary, and then
that has the callee and the arguments; and if its results are not left open for the next
instruction, then there is a statement that makes this call, in the function whose code it is and
behind what was in its body when the call was made. -/
theorem recorded_calls_are_those_made {p : Prototype} {o : Options}
    {proposal : Option (List (String × Payload))} {full : Recovery}
    (h : ofPrototype p o proposal = .ok full) (hsimulate : o.simulate.isOn = true)
    (hwhole : full.failure = none) :
    ∃ routine made, full.routine = some routine ∧
      List.Forall₂ (Job.root p o).Makes p.callPlaces made ∧
      full.calls = made.filterMap Made.record? ∧
      (∀ done m rest, made = done ++ m :: rest →
        m.state.context.scene.calls = done.filterMap Made.record?) ∧
      ∀ m ∈ made,
        (∀ record, m.record? = some record ↔ record.name = m.callee ∧ record.args = m.args ∧
          ∃ segment, Scene.IsLastSegment m.callee segment ∧
            (segment, record.category) ∈ Scene.boundaryCalls) ∧
        (¬ m.LeftOpen → ∃ outer s,
          statementAt rootName routine.body (outer ++ [m.state.frame.body.length]) =
            some (m.job.path, s) ∧ s.Calls m.callee m.args) := by
  rcases finished_of_ofPrototype h with ⟨-, rfl⟩ | ⟨-, _, r, failure, c, body, -, hwalked, rfl⟩
  · cases hwhole
  rcases result_of_walked hwalked with ⟨-, hok⟩ | ⟨f, _, _, hfailure, -⟩
  swap
  · cases hfailure.symm.trans hwhole
  obtain ⟨made, hmakes, hturn⟩ := (Job.root p o).recordsCalls hsimulate r c hok
  rw [show (Job.root p o).context.scene.calls = [] from startContext_calls p o] at hturn
  refine ⟨r, made, rfl, hmakes, ?_, ?_,
    fun m hm => ⟨fun _ => Scene.CallSite.record?_eq_some_iff, ?_⟩⟩
  · exact (finished_calls _ _ _ _ _ _).trans hturn.records
  · rintro done m rest rfl
    obtain ⟨_, hdone, hrest⟩ := Made.inTurn_append.mp hturn
    cases hrest
    exact hdone.records
  · obtain ⟨place, hmade⟩ := exists_of_forall₂ hmakes hm
    exact hmade.stands hsimulate hok

/-- A function that hands what it loads on to a function inside, which asks for a module. -/
def loader : Prototype where
  instructions := [{ opcode := .closure }, { opcode := .getGlobal, a := 1 },
    { opcode := .getGlobal, a := 2, b := 1 }, { opcode := .call, a := 1, b := 2, c := 0 },
    { opcode := .call, b := 0, c := 1 }]
  constants := [.string "loadstring", .string "source"]
  children := [{
    instructions := [{ opcode := .getGlobal }, { opcode := .loadConstant, a := 1, b := 1 },
      { opcode := .call, b := 2, c := 1 }]
    constants := [.string "require", .string "part"] }]

/-- The call inside `loader` is recorded before the one around it whose results are left open, and
the call of the function inside is not. -/
theorem loader_records : loader.callPlaces = [[0, 2], [3], [4]] ∧
      ∃ full made, ofPrototype loader {} none = .ok full ∧
        List.Forall₂ (Job.root loader {}).Makes loader.callPlaces made ∧
        full.calls = made.filterMap Made.record? ∧
        full.calls.map (fun record => (record.category, record.name, record.args)) =
          [("module", "require", ["\"part\""]), ("dynamic_code", "loadstring", ["source"])] := by
  have hrun : (ofPrototype loader {} none).toOption.any (fun full => decide
      (full.failure.isNone = true ∧
        full.calls.map (fun record => (record.category, record.name, record.args)) =
          [("module", "require", ["\"part\""]), ("dynamic_code", "loadstring", ["source"])])) =
      true := by
    decide +kernel
  obtain ⟨full, hfull, hnone, hcalls⟩ := ok_of_any hrun
  obtain ⟨_, made, -, hmakes, hrecords, -⟩ :=
    recorded_calls_are_those_made hfull rfl (Option.isNone_iff_eq_none.mp hnone)
  exact ⟨by decide, full, made, hfull, hmakes, hrecords, hcalls⟩

end Recovery

end LuaRecovery

/-
A walk asks for no object that is not there.

Every action of a walk is safe: the handles it puts into registers come from registers, from
upvalues or from the scene itself.  With the same for the functions inside, by induction on
the tree of prototypes, no recovery stops because of a handle.
-/
import LuaRecovery.Proofs.ContextRelations
import LuaRecovery.Proofs.Handles

namespace LuaRecovery

open List Registers

variable {b : Bounds} {n : Nat}

namespace Walking

/-! ### The scene -/

theorem simulating_safe : Safe b n simulating fun k on => on = true → 0 < k :=
  fun _ hw _ => ⟨hw, Nat.le_refl _, hw.context.root⟩

variable {α : Type} {handle : Option Nat} {slot : Slot}

theorem query_run {f : Scene → Except Scene.Fault α} {w : Walk} {a : α}
    (h : f w.context.scene = .ok a) : query f w = .ok a w := by
  unfold query
  rw [run_get, h]
  rfl

theorem query_safe {f : Scene → Except Scene.Fault α}
    (hf : ∀ s : Scene, n ≤ s.objects.length → ∃ a, f s = .ok a) : Safe b n (query f) := by
  intro w hw hn
  obtain ⟨a, ha⟩ := hf w.context.scene hn
  rw [query_run ha]
  exact ⟨hw, Nat.le_refl _, trivial⟩

/-- A change of the scene by which it only grows. -/
theorem modifyScene_safe {P : Nat → α → Prop} {f : Scene → Except Scene.Fault (α × Scene)}
    (hf : ∀ s : Scene, s.Sound → n ≤ s.objects.length → ∃ a s', f s = .ok (a, s') ∧ s'.Sound ∧
      s.objects.length ≤ s'.objects.length ∧ P s'.objects.length a) :
    Safe b n (modifyScene f) P := by
  intro w hw hn
  obtain ⟨a, s', hrun, hsound, hgrows, hP⟩ := hf w.context.scene hw.context.sound hn
  have hmodify : modifyScene f w = .ok a { w with context.scene := s' } :=
    run_bind (query_run hrun) _
  rw [hmodify]
  refine ⟨⟨{ hw.context with root := fun hon => ?_, sound := hsound }, hw.frame.mono hgrows⟩,
    hgrows, hP⟩
  exact Nat.lt_of_lt_of_le (hw.context.root hon) hgrows

/-- A change of the scene that gives a handle. -/
theorem modifyScene_holds {handle : α → Option Nat} {f : Scene → Except Scene.Fault (α × Scene)}
    (hf : ∀ s : Scene, s.Sound → n ≤ s.objects.length →
      ∃ a s', f s = .ok (a, s') ∧ s.Holds (handle a) s') :
    Safe b n (modifyScene f) fun k a => Within k (handle a) := by
  refine modifyScene_safe fun s hs hn => ?_
  obtain ⟨a, s', hrun, hholds⟩ := hf s hs hn
  exact ⟨a, s', hrun, hholds.sound, hholds.grows, hholds.within⟩

theorem uniqueName_safe (hint : String) : Safe b n (uniqueName hint) :=
  modifyScene_safe fun s hs _ =>
    ⟨(s.uniqueName hint).1, (s.uniqueName hint).2, rfl, hs, Nat.le_refl _, trivial⟩

/-! ### Registers -/

/-- The registers may change as long as they stay known. -/
theorem modifyRegisters_safe {f : Registers → Registers}
    (hf : ∀ (r : Registers) (k : Nat), n ≤ k → r.Known b k → (f r).Known b k) :
    Safe b n (modifyRegisters f) :=
  fun w hw hn => ⟨⟨hw.context, { hw.frame with
    registers := hf _ w.size hn hw.frame.registers }⟩, Nat.le_refl _, trivial⟩

section

variable {index : Int} (hindex : b.Covers index)

include hindex

theorem setRegister_safe (hslot : slot.Known n) : Safe b n (setRegister index slot) :=
  modifyRegisters_safe fun _ _ hk hr => hr.set (hslot.mono hk) hindex

theorem setUnread_safe (hslot : slot.Known n) :
    Safe b n (modifyRegisters (·.setUnread index slot)) :=
  modifyRegisters_safe fun _ _ hk hr => hr.setUnread (hslot.mono hk) hindex

theorem readRegister_safe : Safe b n (readRegister index) fun k slot => slot.Known k := by
  refine safe_bind (spell_safe fun w _ reg hreg => ?_) fun _ _ _ _ w hw _ => ?_
  · exact eq_of_mem_spelled hreg ▸ hindex
  · exact ⟨⟨hw.context, { hw.frame with registers := hw.frame.registers.touch _ }⟩,
      Nat.le_refl _, hw.frame.registers.peek index⟩

theorem readText_safe : Safe b n (readText index) :=
  safe_seq (readRegister_safe hindex) (safe_done _)

theorem readOperand_safe : Safe b n (readOperand index) fun k slot => slot.Known k := by
  refine safe_bind (spell_safe fun w _ reg hreg => ?_) fun _ _ _ _ w hw _ => ?_
  · unfold spelledOperand at hreg
    split at hreg
    · rw [eq_of_mem_spelledConstant hreg]
      unfold constantBase Bounds.Covers at *
      omega
    · exact eq_of_mem_spelled hreg ▸ hindex
  · exact ⟨⟨hw.context, { hw.frame with registers := hw.frame.registers.touchOperand _ }⟩,
      Nat.le_refl _, hw.frame.registers.peekOperand index⟩

end

theorem covers_range {first last : Int} (hfirst : b.Covers first) (hlast : b.Covers last) :
    ∀ reg ∈ range first last, b.Covers reg := by
  intro reg hreg
  have := mem_range.mp hreg
  unfold Bounds.Covers at *
  omega

section

variable {indexes : List Int} (hindexes : ∀ index ∈ indexes, b.Covers index)

include hindexes

theorem setRegisters_safe (hslot : slot.Known n) : Safe b n (setRegisters slot indexes) := by
  induction indexes generalizing n with
  | nil => exact safe_done _
  | cons index rest ih =>
    refine safe_bind (setRegister_safe (hindexes _ mem_cons_self) hslot) fun _ _ hk _ => ?_
    exact ih (fun reg hreg => hindexes reg (mem_cons_of_mem _ hreg)) (hslot.mono hk)

theorem readTexts_safe : Safe b n (readTexts indexes) := by
  induction indexes generalizing n with
  | nil => exact safe_done _
  | cons index rest ih =>
    refine safe_seq (readText_safe (hindexes _ mem_cons_self)) ?_
    refine safe_bind (ih fun reg hreg => hindexes reg (mem_cons_of_mem _ hreg)) ?_
    exact fun _ _ _ _ => safe_done _

end

theorem clearRegisters_safe (indexes : List Int) : Safe b n (clearRegisters indexes) := by
  refine modifyRegisters_safe fun r k _ hr => ?_
  induction indexes generalizing r with
  | nil => exact hr
  | cons index rest ih => exact ih (r.clear index) (hr.clear index)

theorem lookUp_safe (index : Int) : Safe b n (modifyRegisters (·.lookUp index)) :=
  modifyRegisters_safe fun _ _ _ hr => hr.lookUp index

theorem emit_safe (s : Statement) : Safe b n (emit s) :=
  safe_modify fun _ => rfl

theorem report_safe (code : Code) (message : String) (index : Int) :
    Safe b n (report code message index) :=
  safe_modify fun _ => rfl

/-! ### Locals -/

theorem localOf?_safe (reg : Int) : Safe b n (localOf? reg) :=
  fun _ hw _ => ⟨hw, Nat.le_refl _, trivial⟩

theorem nameOf_safe {handle : Nat} (h : handle < n) : Safe b n (query (·.nameOf handle)) :=
  query_safe fun _ hs => Scene.nameOf_of_lt (Nat.lt_of_lt_of_le h hs)

theorem numberedName_safe {reg : Int} (hreg : b.Covers reg) : Safe b n (numberedName reg) :=
  safe_seq (spell_safe fun _ _ _ hm => mem_singleton.mp hm ▸ hreg) <| uniqueName_safe _

theorem chooseName_safe {reg : Int} (hreg : b.Covers reg) {value : Slot}
    (hvalue : value.Known n) : Safe b n (chooseName reg value) := by
  refine safe_bind simulating_safe fun k simulated hk _ => ?_
  cases hhandle : value.handle with
  | none => exact numberedName_safe hreg
  | some handle =>
    cases simulated with
    | false => exact numberedName_safe hreg
    | true =>
      have hlt : handle < k := Nat.lt_of_lt_of_le (hvalue.handle handle hhandle) hk
      refine safe_bind (nameOf_safe hlt) fun _ display _ _ => ?_
      refine safe_seq safe_get ?_
      exact safe_ite (uniqueName_safe display) (safe_done _)

/-- The locals that hold objects may change as long as the objects are known. -/
theorem modifyObjects_safe {f : Table Nat String → Table Nat String}
    (hf : ∀ (t : Table Nat String) (k : Nat), n ≤ k → (∀ handle ∈ t.keys, handle < k) →
      ∀ handle ∈ (f t).keys, handle < k) :
    Safe b n (modify fun w : Walk =>
      { w with frame.objectLocals := f w.frame.objectLocals }) :=
  fun w hw hn => ⟨⟨hw.context, { hw.frame with objects := hf _ w.size hn hw.frame.objects }⟩,
    Nat.le_refl _, trivial⟩

theorem forgetObjects_safe (name : String) : Safe b n (forgetObjects name) :=
  modifyObjects_safe fun _ _ _ ht handle hhandle => ht handle (Table.mem_keys_filterValues hhandle)

theorem takeLocal_safe {choose : Walking String} (hchoose : Safe b n choose) (reg : Int) :
    Safe b n (takeLocal reg choose) := by
  intro w hw hn
  refine after_bind (after_localOf? ?_)
  cases w.frame.locals.get? reg with
  | some name =>
    have hforget : Safe b n (forgetObjects name >>= fun _ => pure (name, false)) :=
      safe_seq (forgetObjects_safe name) (safe_done _)
    exact hforget w hw hn
  | none =>
    have htake : Safe b n (choose >>= fun name => do
        modify fun w => { w with frame.locals := w.frame.locals.insert reg name }
        return (name, true)) := by
      refine safe_bind hchoose fun _ name _ _ => ?_
      refine safe_seq (safe_modify fun _ => rfl) ?_
      exact safe_done _
    exact htake w hw hn

theorem emitBinding_safe (registers : List Int) (s : Statement) :
    Safe b n (emitBinding registers s) :=
  safe_modify fun _ => rfl

section

variable {reg : Int} (hreg : b.Covers reg)

include hreg

theorem bindLocal_safe {value : Slot} (hvalue : value.Known n) (comment : Option String) :
    Safe b n (bindLocal reg value comment) := by
  refine safe_bind (takeLocal_safe (chooseName_safe hreg hvalue) reg) fun _ taken hk _ => ?_
  refine safe_bind (emitBinding_safe _ _) fun _ _ hk' _ => ?_
  have hrenamed : (value.renamed taken.1).Known n := ⟨hvalue.handle, hvalue.receiver⟩
  have hn := Nat.le_trans hk hk'
  refine safe_bind (setRegister_safe hreg (hrenamed.mono hn)) fun j _ hj _ => ?_
  cases hhandle : value.handle with
  | none => exact safe_done _
  | some handle =>
    have hlt : handle < j :=
      Nat.lt_of_lt_of_le (hvalue.handle handle hhandle) (Nat.le_trans hn hj)
    refine safe_seq (modifyObjects_safe (f := (·.insert handle taken.1))
      fun t k hjk ht other hother => ?_) ?_
    · rcases Table.mem_keys_insert hother with rfl | hother
      · exact Nat.lt_of_lt_of_le hlt hjk
      · exact ht other hother
    · exact safe_done _

theorem ensureNamed_safe : Safe b n (ensureNamed reg) := by
  refine safe_bind (readRegister_safe hreg) fun k value _ hvalue => ?_
  refine safe_bind (localOf?_safe reg) fun _ found hk _ => ?_
  have hbind := bindLocal_safe hreg (hvalue.mono hk) none
  cases found with
  | none => exact hbind
  | some name => exact safe_ite (safe_done _) hbind

theorem flushUnread_safe : Safe b n (flushUnread reg) := by
  refine safe_bind safe_get fun k w _ hw => safe_ite ?_ (safe_done _)
  have hpeek : (w.frame.registers.peek reg).Known k := hw.2 ▸ hw.1.frame.registers.peek reg
  exact safe_seq (bindLocal_safe hreg hpeek none) (safe_done _)

end

section

variable {registers : List Int} (hregisters : ∀ reg ∈ registers, b.Covers reg)

include hregisters

theorem bindTargets_safe : Safe b n (bindTargets registers) := by
  induction registers generalizing n with
  | nil => exact safe_done _
  | cons reg rest ih =>
    have hreg := hregisters reg mem_cons_self
    have hrest := fun k => @ih k fun reg hreg => hregisters reg (mem_cons_of_mem _ hreg)
    refine safe_seq (takeLocal_safe (numberedName_safe hreg) reg) ?_
    refine safe_bind (setRegister_safe hreg (Slot.known_of_none rfl rfl)) fun k _ _ _ => ?_
    exact safe_seq (hrest k) (safe_done _)

theorem bindMany_safe (expression : String) (comment : Option String) :
    Safe b n (bindMany registers expression comment) := by
  refine safe_bind (P := fun _ _ => True) (fun w hw hn => ?_) fun _ _ _ _ => emitBinding_safe _ _
  exact after_keepingFrame (bindTargets_safe hregisters w hw hn)

theorem flushAll_safe : Safe b n (flushAll registers) := by
  induction registers generalizing n with
  | nil => exact safe_done _
  | cons reg rest ih =>
    refine safe_seq (flushUnread_safe (hregisters reg mem_cons_self)) ?_
    exact ih fun reg hreg => hregisters reg (mem_cons_of_mem _ hreg)

end

theorem upvalueAt_safe {index : Int} (hindex : b.Covers index) :
    Safe b n (upvalueAt index) fun k u => Within k u.handle := by
  refine safe_seq (spell_safe fun w _ m hm => ?_) ?_
  · split at hm
    · cases hm
    · exact mem_singleton.mp hm ▸ hindex
  refine safe_bind safe_get fun k w _ hw => ?_
  have hupvalue : Within k ((knownUpvalue? w.frame.upvalues index).getD
      { name := "upval" ++ toString index }).handle := by
    cases hknown : knownUpvalue? w.frame.upvalues index with
    | none => exact within_none k
    | some u =>
      unfold knownUpvalue? at hknown
      split at hknown
      · exact hw.2 ▸ hw.1.frame.upvalues u (mem_of_getElem? hknown)
      · cases hknown
  dsimp only
  generalize (knownUpvalue? w.frame.upvalues index).getD _ = upvalue at hupvalue
  have hanswer : ∀ j, k ≤ j → Within j upvalue.handle := fun _ hj => hupvalue.mono hj
  refine safe_ite ?_ (safe_pure hanswer)
  refine safe_bind (safe_modify fun _ => rfl) fun j _ hj _ => ?_
  exact safe_pure fun i hi => hanswer i (Nat.le_trans hj hi)

theorem servesHandle_safe (h : Within n handle) : Safe b n (servesHandle handle) := by
  refine safe_bind simulating_safe fun k _ hk _ => safe_ite ?_ (safe_done _)
  exact query_safe fun s hs => Scene.isService_of_within (h.mono (Nat.le_trans hk hs))

theorem namesHandle_safe (h : Within n handle) (text : String) :
    Safe b n (namesHandle text handle) := by
  refine safe_bind simulating_safe fun k simulated hk _ => ?_
  cases handle with
  | none => exact safe_done _
  | some handle =>
    cases simulated with
    | false => exact safe_done _
    | true =>
      have hlt : handle < k := Nat.lt_of_lt_of_le (h handle rfl) hk
      exact safe_seq (nameOf_safe hlt) (safe_done _)

theorem holdObject_safe {reg : Int} (hreg : b.Covers reg) (h : Within n handle) (text : String) :
    Safe b n (holdObject reg text handle) := by
  refine safe_bind safe_get fun k w hk _ => ?_
  have hset : ∀ {j} (name : String), n ≤ j →
      Safe b j (setRegister reg (.object name handle)) := fun name hj =>
    setRegister_safe hreg (Slot.known_object (h.mono hj) name)
  dsimp only
  cases handle.bind w.frame.objectLocals.get? with
  | some name => exact hset name hk
  | none =>
    refine safe_bind (servesHandle_safe (h.mono hk)) fun j _ hj _ => ?_
    have hn : n ≤ j := Nat.le_trans hk hj
    refine safe_ite ?_ (hset text hn)
    refine safe_bind (namesHandle_safe (h.mono hn) text) fun i _ hi _ => ?_
    have hn : n ≤ i := Nat.le_trans hn hi
    refine safe_ite (hset text hn) ?_
    refine safe_bind (bindLocal_safe hreg (Slot.known_object (h.mono hn) text) none) ?_
    exact fun _ _ _ _ => safe_done _

/-! ### Loading and storing -/

theorem threshold_of_isLong {r : Report.StringReport} {s : String} {fault : OptionFault}
    (h : r.isLong s = .error fault) : r.threshold = none := by
  unfold Report.StringReport.isLong at h
  split at h
  · cases h
  · assumption

theorem after_queryStrings {f : Report.StringReport → Except OptionFault α} {Q : α → Walk → Prop}
    {E : Stop → Walk → Prop} {w : Walk} (hok : ∀ a, f w.context.strings = .ok a → Q a w)
    (hfault : ∀ fault, f w.context.strings = .error fault → E (.option fault) w) :
    After Q E (queryStrings f w) := by
  refine after_state ?_
  cases hf : f w.context.strings with
  | ok a => exact hok a hf
  | error fault => exact hfault fault hf

theorem isLong_safe (s : String) : Safe b n (queryStrings (·.isLong s)) := by
  intro w hw hn
  refine after_queryStrings (fun _ _ => ⟨hw, Nat.le_refl _, trivial⟩) fun fault hfault => ?_
  exact hw.context.threshold.symm.trans (threshold_of_isLong hfault)

theorem isLongConstant_safe (index : Int) : Safe b n (isLongConstant index) := by
  refine safe_bind safe_get fun _ w _ _ => ?_
  cases w.frame.registers.constantString? index with
  | some s => exact isLong_safe s
  | none => exact safe_done _

theorem readGlobal_safe (name : String) : Safe b n (readGlobal name)
      fun k found => Within k (found.map (·.handle)) := by
  intro w hw hn
  refine after_bind (after_simulating ?_)
  cases hon : w.context.options.simulate.isOn with
  | false => exact ⟨hw, Nat.le_refl _, within_none _⟩
  | true =>
    -- The root is there, since the scene is simulated.
    have hread : Safe b w.size (modifyScene fun s => .ok (s.readGlobal name))
        fun k found => Within k (found.map (·.handle)) := by
      refine modifyScene_holds fun s hs hsize => ⟨_, _, rfl, ?_⟩
      have hroot : 0 < w.size := hw.context.root hon
      exact Scene.readGlobal_holds hs (Nat.lt_of_lt_of_le hroot hsize) name
    exact hread w hw (Nat.le_refl _)

theorem holdGlobal_safe {reg : Int} (hreg : b.Covers reg) (name : String) :
    Safe b n (holdGlobal reg name) := by
  refine safe_bind (readGlobal_safe name) fun _ found _ hfound => ?_
  cases found with
  | none => exact setRegister_safe hreg (Slot.known_of_none rfl rfl)
  | some reading =>
    have hquery := query_safe (b := b) fun s hs => Scene.isService_of_within (hfound.mono hs)
    refine safe_bind hquery fun _ _ hk _ => safe_ite (holdObject_safe hreg (hfound.mono hk) _) ?_
    exact setRegister_safe hreg (Slot.known_object (hfound.mono hk) _)

theorem holdField_safe {reg : Int} (hreg : b.Covers reg) {base : Slot} (hbase : base.Known n)
    (key : Slot) : Safe b n (holdField reg base key) := by
  refine safe_bind simulating_safe fun k simulated hk _ => ?_
  cases hhandle : base.handle with
  | none => exact holdObject_safe hreg (within_none k) _
  | some handle =>
    cases simulated with
    | false => exact holdObject_safe hreg (within_none k) _
    | true =>
      have hlt : handle < k := Nat.lt_of_lt_of_le (hbase.handle handle hhandle) hk
      have hread : Safe b k (modifyScene fun s => s.read handle key.text base.text)
          fun j reading => Within j (some reading.handle) :=
        modifyScene_holds fun s hs hsize =>
          Scene.read_holds hs (Nat.lt_of_lt_of_le hlt hsize) _ _
      exact safe_bind hread fun _ _ _ hreading => holdObject_safe hreg hreading _

theorem globalName_safe {index : Int} (hindex : b.Covers index) : Safe b n (globalName index) := by
  refine safe_seq (spell_safe fun _ _ _ hm => ?_) ?_
  · exact eq_of_mem_spelledConstant hm ▸ hindex
  refine safe_bind safe_get fun _ w _ _ => safe_seq (lookUp_safe index) ?_
  cases w.frame.registers.constant? index with
  | none => exact safe_done _
  | some c => cases c <;> exact safe_done _

variable {i : Instruction} {index : Nat}

section

variable (hi : b.Admits i)

include hi

theorem loadConstant_safe : Safe b n (loadConstant i) := by
  refine safe_seq (flushUnread_safe hi.a) ?_
  refine safe_seq (spell_safe fun _ _ _ hm => ?_) ?_
  · exact eq_of_mem_spelledConstant hm ▸ hi.b
  refine safe_bind safe_get fun _ w _ _ => safe_seq (lookUp_safe i.b) ?_
  refine safe_bind (isLongConstant_safe i.b) fun k _ _ _ => ?_
  have hslot := w.frame.registers.known_constantSlot k i.b
  refine safe_ite ?_ (setUnread_safe hi.a hslot)
  exact safe_seq (bindLocal_safe hi.a hslot none) (safe_done _)

theorem getUpvalue_safe : Safe b n (getUpvalue i) := by
  refine safe_bind (upvalueAt_safe hi.b) fun _ upvalue _ hupvalue => ?_
  refine safe_bind (bindLocal_safe hi.a (Slot.known_of_none rfl rfl) none) fun _ name hk _ => ?_
  refine safe_ite ?_ (safe_done _)
  exact setRegister_safe hi.a (Slot.known_object (hupvalue.mono hk) name)

theorem setUpvalue_safe : Safe b n (setUpvalue i) := by
  refine safe_seq (upvalueAt_safe hi.b) ?_
  exact safe_seq (readText_safe hi.a) <| emit_safe _

theorem getGlobal_safe : Safe b n (getGlobal i) :=
  safe_bind (globalName_safe hi.b) fun _ name _ _ => holdGlobal_safe hi.a name

theorem setGlobal_safe : Safe b n (setGlobal i) := by
  refine safe_seq (globalName_safe hi.b) ?_
  exact safe_seq (readText_safe hi.a) <| emit_safe _

theorem getField_safe : Safe b n (getField i) := by
  refine safe_bind (readRegister_safe hi.b) fun _ base _ hbase => ?_
  exact safe_bind (readOperand_safe hi.c) fun _ key hk _ => holdField_safe hi.a (hbase.mono hk) key

theorem setField_safe : Safe b n (setField i) := by
  refine safe_seq (readText_safe hi.a) ?_
  refine safe_seq (readOperand_safe hi.b) ?_
  exact safe_seq (readOperand_safe hi.c) <| emit_safe _

theorem selfIndex_safe : Safe b n (selfIndex i) := by
  refine safe_bind (readRegister_safe hi.b) fun _ receiver _ hreceiver => ?_
  refine safe_bind (readOperand_safe hi.c) fun _ key hk _ => ?_
  refine safe_bind (setRegister_safe hi.next (hreceiver.mono hk)) fun _ _ hj _ => ?_
  refine setRegister_safe hi.a ?_
  cases methodOf? key with
  | none => exact Slot.known_of_none rfl rfl
  | some method => exact ⟨within_none _, (hreceiver.mono (Nat.le_trans hk hj)).handle⟩

/-! ### Operators -/

theorem holdTerm_safe (t : Term) : Safe b n (holdTerm i.a t) := by
  refine setRegister_safe hi.a ?_
  cases t.value <;> exact Slot.known_of_none rfl rfl

theorem arith_safe (op : ArithOp) : Safe b n (arith op i) := by
  refine safe_seq (readOperand_safe hi.b) ?_
  refine safe_seq (readOperand_safe hi.c) ?_
  exact safe_seq simulating_safe <| holdTerm_safe hi _

theorem negate_safe : Safe b n (negate i) := by
  refine safe_seq (readRegister_safe hi.b) ?_
  exact safe_seq simulating_safe <| holdTerm_safe hi _

theorem unary_safe (sign : String) : Safe b n (unary sign i) :=
  safe_seq (readRegister_safe hi.b) <| setRegister_safe hi.a (Slot.known_of_none rfl rfl)

theorem concat_safe : Safe b n (concat i) := by
  have hlast : b.Covers (max i.b i.c) := by
    unfold Bounds.Admits Instruction.reach Bounds.Covers at *
    omega
  refine safe_seq (readTexts_safe (covers_range hi.b hlast)) ?_
  exact setRegister_safe hi.a (Slot.known_of_none rfl rfl)

end

/-! ### Calls -/

theorem argumentRegisters_safe {base count : Int} (hfirst : b.Covers (base + 1))
    (hlength : base.natAbs + count.natAbs ≤ b.size) :
    Safe b n (argumentRegisters base count) fun _ found => ∀ reg ∈ found.1, b.Covers reg := by
  refine safe_ite ?_ (safe_bind safe_get fun _ w _ hw => ?_)
  · refine safe_bind (listed_safe (by omega)) fun _ _ _ hlisted => safe_pure fun _ _ => ?_
    rw [hlisted]
    refine covers_range hfirst ?_
    unfold Bounds.Covers
    omega
  · have hbound : ∀ reg ∈ w.frame.registers.boundAbove base, b.Covers reg := fun reg hreg =>
      hw.1.frame.registers.bound reg (Table.mem_keys_of_contains (isBound_of_mem_boundFrom _ hreg))
    dsimp only
    cases htop : w.frame.top with
    | none => exact safe_pure fun _ _ => hbound
    | some top =>
      have hlast : b.Covers top := hw.1.frame.top top htop
      refine safe_ite ?_ (safe_pure fun _ _ => hbound)
      refine safe_bind (P := fun _ _ => True) (fun w hw _ => ?_) fun _ _ _ _ => ?_
      · exact ⟨⟨hw.context, { hw.frame with top := nofun }⟩, Nat.le_refl _, trivial⟩
      refine safe_bind (listed_safe ?_) fun _ _ _ hlisted => safe_pure fun _ _ => ?_
      · unfold Bounds.Covers at *
        omega
      · rw [hlisted]
        exact covers_range hfirst hlast

theorem reportGuess_safe (ambiguous : Bool) (message : String) (index : Nat) :
    Safe b n (reportGuess ambiguous message index) :=
  safe_ite (report_safe _ _ _) (safe_done _)

theorem makeCall_safe {site : Scene.CallSite} (hreceiver : Within n site.receiver) :
    Safe b n (makeCall site) fun k outcome => Within k outcome.handle := by
  refine safe_bind simulating_safe fun k _ hk _ => safe_ite ?_ (safe_pure fun _ _ => within_none _)
  exact modifyScene_holds fun s hs hsize =>
    Scene.call_holds hs (hreceiver.mono (Nat.le_trans hk hsize))

theorem holdsOpen_safe (i : Instruction) (index : Nat) : Safe b n (holdsOpen i index) := by
  refine safe_ite (safe_bind safe_get fun _ w _ _ => ?_) (safe_done _)
  cases w.frame.code[index + 1]? <;> exact safe_done _

theorem mem_of_mem_withoutReceiver {method : Option String} {base reg : Int}
    {registers : List Int} (h : reg ∈ withoutReceiver method base registers) :
    reg ∈ registers := by
  cases registers with
  | nil => exact h
  | cons first rest =>
    rw [withoutReceiver] at h
    split at h
    · exact mem_cons_of_mem _ h
    · exact h

section

variable (hi : b.Admits i)

include hi

theorem placeResults_safe {outcome : Scene.CallOutcome} (houtcome : Within n outcome.handle)
    (index : Nat) (comment : Option String) :
    Safe b n (placeResults i index outcome comment) := by
  have hresult := fun k (hk : n ≤ k) text => Slot.known_object (houtcome.mono hk) text
  refine safe_ite ?_ ?_
  · refine safe_bind (bindLocal_safe hi.a (hresult n (Nat.le_refl n) _) comment) ?_
    exact fun _ _ _ _ => safe_done _
  by_cases hmany : 1 < i.c - 1
  · refine if_pos hmany ▸ bindMany_safe (covers_range hi.a ?_) _ _
    unfold Bounds.Admits Instruction.reach Bounds.Covers at *
    omega
  rw [if_neg hmany]
  refine safe_bind (holdsOpen_safe i index) fun _ _ hk _ => safe_ite ?_ ?_
  · refine safe_bind (setRegister_safe hi.a (hresult _ hk _)) fun _ _ _ _ w hw _ => ?_
    refine ⟨⟨hw.context, { hw.frame with top := fun top htop => ?_ }⟩, Nat.le_refl _, trivial⟩
    exact Option.some.inj htop ▸ hi.a
  · refine safe_seq (emit_safe _) <| safe_seq (localOf?_safe i.a) ?_
    exact safe_ite (clearRegisters_safe _) (safe_done _)

theorem call_safe (index : Nat) : Safe b n (call i index) := by
  have hlength : i.a.natAbs + i.b.natAbs ≤ b.size := by
    unfold Bounds.Admits Instruction.reach at hi
    omega
  refine safe_bind (readRegister_safe hi.a) fun _ callee _ hcallee => ?_
  refine safe_bind (argumentRegisters_safe hi.next hlength) fun _ _ h₁ hregisters => ?_
  refine safe_bind (readTexts_safe fun reg hreg =>
    hregisters reg (mem_of_mem_withoutReceiver hreg)) fun _ _ h₂ _ => ?_
  refine safe_bind (reportGuess_safe _ _ _) fun _ _ h₃ _ => ?_
  have hreceiver := hcallee.receiver.mono (Nat.le_trans h₁ (Nat.le_trans h₂ h₃))
  refine safe_bind (makeCall_safe hreceiver) fun _ outcome _ houtcome => ?_
  refine safe_bind (clearRegisters_safe _) fun _ _ hk _ => ?_
  exact placeResults_safe hi (houtcome.mono hk) _ _

theorem ret_safe (index : Nat) : Safe b n (ret i index) := by
  refine safe_ite (safe_seq safe_get ?_) ?_
  · exact safe_ite (emit_safe _) (safe_done _)
  by_cases hmany : 1 < i.b
  · have hlast : b.Covers (i.a + i.b - 2) := by
      unfold Bounds.Admits Instruction.reach Bounds.Covers at *
      omega
    rw [if_pos hmany]
    exact safe_seq (readTexts_safe (covers_range hi.a hlast)) <| emit_safe _
  · have hlength : (i.a - 1).natAbs + (0 : Int).natAbs ≤ b.size := by
      unfold Bounds.Admits Instruction.reach at hi
      omega
    have hfirst : b.Covers (i.a - 1 + 1) := (Int.sub_add_cancel i.a 1).symm ▸ hi.a
    rw [if_neg hmany]
    refine safe_bind (argumentRegisters_safe hfirst hlength) fun _ _ _ hregisters => ?_
    refine safe_seq (readTexts_safe hregisters) ?_
    exact safe_seq (reportGuess_safe _ _ _) <| emit_safe _

end

/-! ### Closures -/

theorem captureRegister_safe {reg : Int} (hreg : b.Covers reg) (target : Int) (name : String) :
    Safe b n (captureRegister target name reg) fun k u => Within k u.handle := by
  refine safe_ite (safe_pure fun _ _ => within_none _) ?_
  refine safe_bind (readRegister_safe hreg) fun _ slot _ hslot => ?_
  refine safe_bind (ensureNamed_safe hreg) fun _ _ hk _ => safe_pure fun _ hj => ?_
  exact hslot.handle.mono (Nat.le_trans hk hj)

theorem captures_safe (target : Int) (name : String) {instructions : List Instruction}
    (hcode : ∀ i ∈ instructions, b.Covers i.b) :
    Safe b n (captures target name instructions) fun k us => ∀ u ∈ us, Within k u.handle := by
  induction instructions generalizing n with
  | nil => exact safe_pure fun _ _ => nofun
  | cons i rest ih =>
    have hi := hcode i mem_cons_self
    have hrest : ∀ {k : Nat} (upvalue : Upvalue), Within k upvalue.handle →
        Safe b k (captures target name rest >>= fun more => pure (upvalue :: more))
          fun k us => ∀ u ∈ us, Within k u.handle := by
      intro k upvalue hupvalue
      refine safe_bind (ih fun i hi => hcode i (mem_cons_of_mem _ hi)) ?_
      intro _ more hk hmore
      refine safe_pure fun _ hj u hu => ?_
      rcases mem_cons.mp hu with rfl | hu
      · exact hupvalue.mono (Nat.le_trans hk hj)
      · exact (hmore u hu).mono hj
    unfold captures
    split
    · exact safe_bind (captureRegister_safe hi target name) fun _ u _ hu => hrest u hu
    · exact safe_bind (upvalueAt_safe hi) fun _ u _ hu => hrest u hu
    · exact safe_pure fun _ _ => nofun

end Walking

/-- A builder that is passed handles of objects keeps every handle referring to an object and
everything within bounds, and stops only as is expected. -/
def Builder.Safe (b : Bounds) (build : Builder) : Prop :=
  ∀ name path upvalues (c : Context), c.Grounded b →
    (∀ u ∈ upvalues, Within c.scene.objects.length u.handle) →
    match build name path upvalues c with
    | .ok _ c' => c'.Grounded b ∧ c.scene.objects.length ≤ c'.scene.objects.length
    | .error stop c' => stop.Expected b c'

namespace Walking

theorem buildChild_safe {child : Child} (hchild : child.build.Safe b) {upvalues : List Upvalue}
    (hupvalues : ∀ u ∈ upvalues, Within n u.handle) (reg : Int) (name : String)
    (declares : Bool) : Safe b n (buildChild child reg name upvalues declares) := by
  intro w hw hn
  have hbuilt := hchild name (w.frame.path ++ "/" ++ name) upvalues w.context hw.context
    fun u hu => (hupvalues u hu).mono hn
  refine buildChild_after ?_ ?_ ?_
  · intro routine c hbuild
    rw [hbuild] at hbuilt
    exact ⟨⟨hbuilt.1, { hw.frame.mono hbuilt.2 with }⟩, hbuilt.2, trivial⟩
  · exact fun _ _ _ _ => trivial
  · intro stop c hbuild _
    rw [hbuild] at hbuilt
    exact hbuilt

/-- The upvalues of a closure have handles of objects. -/
theorem prepare_safe (hlevel : b.level < b.height) (child : Child) (i : Instruction) (index : Nat) :
    Safe b n (prepare child i index) fun k ready => ∀ u ∈ ready.upvalues, Within k u.handle := by
  refine safe_bind (takeLocal_safe (uniqueName_safe _) i.a) fun _ taken _ _ => ?_
  refine safe_bind safe_get fun _ w _ hw => ?_
  have hcode : ∀ c ∈ w.frame.code, b.Covers c.b := by
    intro c hc
    have := hw.1.frame.code c hc
    unfold Instruction.reach Bounds.Covers at *
    omega
  refine safe_bind (captures_safe i.a taken.1 fun c hc =>
    hcode c (mem_of_mem_drop (mem_of_mem_take hc))) fun _ upvalues _ hupvalues => ?_
  refine safe_bind (descend_safe hlevel) fun _ _ hk _ => ?_
  exact safe_pure fun k hk' u hu => (hupvalues u hu).mono (Nat.le_trans hk hk')

variable {children : List Child} {i : Instruction} {index : Nat}

section

variable (hi : b.Admits i)

include hi

theorem missingChild_safe (count index : Nat) : Safe b n (missingChild count i index) := by
  refine safe_seq (spell_safe fun _ _ _ hm => mem_singleton.mp hm ▸ hi.b) ?_
  refine safe_seq (emit_safe _) <| safe_seq (report_safe _ _ _) ?_
  refine safe_seq (setRegister_safe hi.a (Slot.known_of_none rfl rfl)) ?_
  exact safe_done _

theorem closure_safe
    (hchildren : ∀ child ∈ children, child.build.Safe b ∧ b.level < b.height) (index : Nat) :
    Safe b n (closure children i index) := by
  cases hfound : childAt? children i.b with
  | none =>
    unfold closure
    rw [hfound]
    exact missingChild_safe hi _ index
  | some child =>
    obtain ⟨hchild, hlevel⟩ := hchildren child (mem_of_childAt? hfound)
    rw [closure_eq hfound]
    refine safe_bind (prepare_safe hlevel child i index) fun _ ready _ hupvalues => ?_
    refine safe_bind (buildChild_safe hchild hupvalues i.a ready.name ready.declares) ?_
    intro _ _ _ _
    refine safe_seq (setRegister_safe hi.a (Slot.known_of_none rfl rfl)) ?_
    exact safe_done _

end

/-! ### One instruction -/

theorem emitBlocks_safe (f : Blocks → List Statement × Blocks) : Safe b n (emitBlocks f) := by
  intro w hw _
  obtain ⟨hgrounded, hsize⟩ := hw.of_grounds (v := { w with
    frame.blocks := (f w.frame.blocks).2
    frame.body := w.frame.body ++ (f w.frame.blocks).1 }) rfl
  exact ⟨hgrounded, Nat.le_of_eq hsize.symm, trivial⟩

theorem compare_safe (hi : b.Admits i) (rel : Relation) (index : Nat) :
    Safe b n (compare rel i index) := by
  refine safe_bind safe_get fun _ w _ _ => ?_
  cases pairedJump w.frame.code index with
  | error failure => exact fun _ _ _ => trivial
  | ok jump =>
    refine safe_seq (readOperand_safe hi.b) ?_
    refine safe_seq (readOperand_safe hi.c) ?_
    exact safe_seq simulating_safe <| emitBlocks_safe _

theorem jump_safe (hi : i.reach + index < b.size) : Safe b n (jump i index) := by
  refine safe_seq (spell_safe fun w _ m hm => ?_) <| emitBlocks_safe _
  by_cases hwritten : (if w.frame.blocks.closers.contains index then
      w.frame.blocks.innermostLoop?.isNone else i.b < 0 : Prop)
  · rw [Blocks.spelledJump, if_pos hwritten] at hm
    rw [mem_singleton.mp hm]
    unfold jumpTarget Bounds.Covers Instruction.reach at *
    omega
  · rw [Blocks.spelledJump, if_neg hwritten] at hm
    cases hm

theorem covers_operands (hi : b.Admits i) : ∀ m ∈ [i.a, i.b, i.c], b.Covers m := by
  intro m hm
  simp only [mem_cons, not_mem_nil, or_false] at hm
  rcases hm with rfl | rfl | rfl
  · exact hi.a
  · exact hi.b
  · exact hi.c

theorem unknown_safe (hi : b.Admits i) (index : Nat) : Safe b n (unknown i index) := by
  refine safe_seq (spell_safe fun _ _ => covers_operands hi) ?_
  exact safe_seq (emit_safe _) <| report_safe _ _ _

theorem taking_safe {m : Walking Unit} (h : Safe b n m) (taken : Nat) :
    Safe b n (m >>= fun _ => pure taken) :=
  safe_seq h (safe_done _)

section

variable (hchildren : ∀ child ∈ children, child.build.Safe b ∧ b.level < b.height)

include hchildren

theorem step_safe (hplace : i.reach + index < b.size) : Safe b n (step children i index) := by
  have hi : b.Admits i := Nat.lt_of_le_of_lt (Nat.le_add_right _ _) hplace
  have hliteral : ∀ text, (Slot.literal text).Known n := fun _ => Slot.known_of_none rfl rfl
  unfold step
  cases i.opcode with
  | move =>
    refine safe_bind (readRegister_safe hi.b) fun _ slot _ hslot => ?_
    exact taking_safe (setRegister_safe hi.a hslot) 1
  | loadConstant => exact taking_safe (loadConstant_safe hi) 1
  | loadBool => exact taking_safe (setRegister_safe hi.a (hliteral _)) 1
  | loadNil =>
    have hlast : b.Covers (max i.a i.b) := by
      unfold Bounds.Admits Instruction.reach Bounds.Covers at *
      omega
    exact taking_safe (setRegisters_safe (covers_range hi.a hlast) (hliteral _)) 1
  | getUpvalue => exact taking_safe (getUpvalue_safe hi) 1
  | setUpvalue => exact taking_safe (setUpvalue_safe hi) 1
  | getGlobal => exact taking_safe (getGlobal_safe hi) 1
  | setGlobal => exact taking_safe (setGlobal_safe hi) 1
  | getField => exact taking_safe (getField_safe hi) 1
  | setField => exact taking_safe (setField_safe hi) 1
  | newTable =>
    refine safe_seq (bindLocal_safe hi.a (Slot.known_of_none rfl rfl) none) ?_
    exact safe_done _
  | selfIndex => exact taking_safe (selfIndex_safe hi) 1
  | add | sub | mul | div | mod | pow => exact taking_safe (arith_safe hi _) 1
  | negate => exact taking_safe (negate_safe hi) 1
  | invert | length => exact taking_safe (unary_safe hi _) 1
  | concat => exact taking_safe (concat_safe hi) 1
  | call => exact taking_safe (call_safe hi index) 1
  | ret => exact taking_safe (ret_safe hi index) 1
  | closure =>
    exact safe_seq (closure_safe hi hchildren index) (safe_done _)
  | compareEq | compareLt | compareLe => exact taking_safe (compare_safe hi _ index) 2
  | jump => exact taking_safe (jump_safe hplace) 1
  | nop => exact safe_done _
  | unknown => exact taking_safe (unknown_safe hi index) 1

end

/-! ### The walk -/

theorem pollCaller_safe (index : Nat) : Safe b n (pollCaller index) := by
  intro w hw _
  obtain ⟨hgrounded, hsize⟩ := hw.of_grounds (v := { w with
    context.limits := w.context.limits.poll }) rfl
  refine after_state (after_bind (after_modify ?_))
  cases w.context.limits.cancelFailure? index with
  | none => exact ⟨hgrounded, Nat.le_of_eq hsize.symm, trivial⟩
  | some failure => exact trivial

theorem countInstruction_safe (index : Nat) : Safe b n (countInstruction index) := by
  intro w hw _
  obtain ⟨hgrounded, hsize⟩ := hw.of_grounds (v := { w with
    context.limits := w.context.limits.consume }) rfl
  refine after_state (after_bind (after_modify ?_))
  have hspell : Safe b 0 (spell (·.context.limits.budgetBreach?.toList)) := by
    refine spell_safe fun w hw m hm => hw.context.budget m ?_
    rw [Option.mem_toList] at hm
    exact (Option.mem_filter_iff.mp hm).1
  refine after_seq (hspell _ hgrounded (Nat.zero_le _)) fun _ w' hw' => ?_
  cases w.context.limits.consume.budgetFailure? index with
  | none => exact ⟨hw'.1, hsize ▸ hw'.2.1, trivial⟩
  | some failure => exact trivial

theorem emitDueAll_safe (indexes : List Int) : Safe b n (emitDueAll indexes) := by
  induction indexes generalizing n with
  | nil => exact safe_done _
  | cons index rest ih => exact safe_seq (emitBlocks_safe _) ih

theorem reportConstants_safe (index : Int) (messages : List String) :
    Safe b n (reportConstants index messages) := by
  induction messages generalizing n with
  | nil => exact safe_done _
  | cons message rest ih =>
    exact safe_seq (emit_safe _) <| safe_seq (report_safe _ _ _) ih

theorem reportBlocks_safe (notes : List (Int × String)) : Safe b n (reportBlocks notes) := by
  induction notes generalizing n with
  | nil => exact safe_done _
  | cons note rest ih => exact safe_seq (report_safe _ _ _) ih

theorem reportAnomalies_safe (index : Int) : Safe b n (reportAnomalies index) := by
  refine safe_bind (P := fun _ _ => True) (fun w hw _ => ?_) fun _ constants _ _ => ?_
  · exact ⟨⟨hw.context, { hw.frame with
      registers := { hw.frame.registers with } }⟩, Nat.le_refl _, trivial⟩
  refine safe_seq (reportConstants_safe index constants) ?_
  refine safe_bind (P := fun _ _ => True) (fun w hw _ => ?_) fun _ notes _ _ =>
    reportBlocks_safe notes
  exact ⟨⟨hw.context, { hw.frame with }⟩, Nat.le_refl _, trivial⟩

theorem log_safe (record : String) : Safe b n (log record) :=
  safe_modify fun _ => rfl

theorem locating_safe {α : Type} {P : Nat → α → Prop} {m : Walking α} (hm : Safe b n m P)
    (index : Int) : Safe b n (locating index m) P :=
  fun w hw hn => after_locating index (hm w hw hn) fun _ _ _ _ => trivial

theorem traceStep_safe (hi : b.Admits i) (index mark : Nat) :
    Safe b n (traceStep index i mark) := by
  refine safe_seq (spell_safe fun w hw m hm => ?_) ?_
  · split at hm
    · rcases mem_append.mp hm with hm | hm
      · exact hw.frame.registers.bound m hm
      · exact covers_operands hi m hm
    · cases hm
  · exact safe_seq safe_get <| log_safe _

section

variable (hchildren : ∀ child ∈ children, child.build.Safe b ∧ b.level < b.height)

include hchildren

theorem advance_safe (hplace : i.reach + index < b.size) : Safe b n (advance children i index) := by
  have hi : b.Admits i := Nat.lt_of_le_of_lt (Nat.le_add_right _ _) hplace
  refine safe_seq (pollCaller_safe index) ?_
  refine safe_seq (countInstruction_safe index) ?_
  refine safe_seq (emitBlocks_safe _) <| safe_seq safe_get ?_
  refine safe_bind (safe_ite (flushUnread_safe hi.a) (safe_done _)) ?_
  intro _ _ _ _
  refine safe_bind (locating_safe (step_safe hchildren hplace) index) fun _ taken _ _ => ?_
  refine safe_seq (emitDueAll_safe _) ?_
  refine safe_seq (reportAnomalies_safe index) ?_
  exact safe_seq (traceStep_safe hi index _) (safe_done _)

theorem walkFrom_safe (fuel index : Nat) : Safe b n (walkFrom children fuel index) := by
  induction fuel generalizing n index with
  | zero => exact safe_done _
  | succ fuel ih =>
    refine safe_bind safe_get fun _ w _ hw => ?_
    cases hi : w.frame.code[index]? with
    | none => exact safe_done _
    | some i =>
      refine safe_bind (advance_safe hchildren (hw.1.frame.place hi)) ?_
      exact fun _ taken _ _ => ih _

end

theorem threshold_of_observe {r : Report.StringReport} {s : String} {fault : OptionFault}
    (h : r.observe s = .error fault) : r.threshold = none := by
  unfold Report.StringReport.observe Report.StringReport.reference Report.StringReport.hintFor at h
  cases hhint : Report.hint? s with
  | some hint =>
    rw [hhint] at h
    cases h
  | none =>
    rw [hhint] at h
    cases hlong : r.isLong s with
    | ok long =>
      rw [hlong] at h
      cases h
    | error fault => exact threshold_of_isLong hlong

theorem observe_threshold {r r' : Report.StringReport} {s : String} (h : r.observe s = .ok r') :
    r'.threshold = r.threshold := by
  unfold Report.StringReport.observe at h
  cases hreference : r.reference s with
  | error fault =>
    rw [hreference] at h
    cases h
  | ok reference =>
    rw [hreference] at h
    cases h
    cases reference <;> rfl

/-- A string is observed, and then more is done. -/
theorem observe_safe (s : String) {m : Walking Unit} (hm : Safe b n m) :
    Safe b n (queryStrings (·.observe s) >>= fun strings => do
      modify fun w => { w with context.strings := strings }
      m) := by
  intro w hw hn
  refine after_bind (after_queryStrings (fun strings hobserve => ?_) fun fault hfault => ?_)
  · have hthreshold := (observe_threshold hobserve).trans hw.context.threshold
    have hgrounded : Walk.Grounded b { w with context.strings := strings } :=
      ⟨{ hw.context with threshold := hthreshold }, hw.frame⟩
    exact after_bind (after_modify (hm _ hgrounded hn))
  · exact hw.context.threshold.symm.trans (threshold_of_observe hfault)

theorem observeStrings_safe (constants : List Constant) : Safe b n (observeStrings constants) := by
  induction constants generalizing n with
  | nil => exact safe_done _
  | cons c rest ih =>
    cases c with
    | string s => exact observe_safe s ih
    | _ => exact ih

theorem walk_safe (hchildren : ∀ child ∈ children, child.build.Safe b ∧ b.level < b.height) :
    Safe b n (walk children) := by
  refine safe_bind safe_get fun _ w _ _ => safe_seq (log_safe _) ?_
  refine safe_seq (observeStrings_safe _) ?_
  refine safe_seq (walkFrom_safe hchildren _ 0) ?_
  refine safe_bind safe_get fun _ w _ hw => ?_
  refine safe_seq (flushAll_safe fun reg hreg => ?_) ?_
  · exact hw.1.frame.registers.unread reg (mem_mergeSort.mp hreg)
  · exact safe_seq (emitBlocks_safe _) <| reportAnomalies_safe _

end Walking

/-! ### Builders -/

variable {p : Prototype} {passed : List Upvalue}

/-- The parameters are held under their names, which are no objects. -/
theorem Frame.addParams_grounded (count : Nat) :
    ∀ (f : Frame) (scene : Scene) (index : Nat), f.Grounded b n → index + count ≤ b.size →
      (f.addParams scene index count).1.Grounded b n ∧
        (f.addParams scene index count).2.objects = scene.objects ∧
        (f.addParams scene index count).2.slots = scene.slots := by
  induction count with
  | zero => exact fun _ _ _ hf _ => ⟨hf, rfl, rfl⟩
  | succ count ih =>
    intro f scene index hf hcount
    have hindex : b.Covers index := by
      unfold Bounds.Covers
      omega
    refine ih _ _ _ { hf with registers := ?_ } (by omega)
    exact hf.registers.set (Slot.known_of_none rfl rfl) hindex

theorem Frame.bare_grounded (hreach : p.reach ≤ b.size)
    (hpassed : ∀ u ∈ passed, Within n u.handle) (name path : String) :
    (Frame.bare p name path passed).Grounded b n := by
  refine ⟨known_of_constants b n p.constants, fun u hu => ?_, nofun, nofun, ?_⟩
  · rcases mem_append.mp hu with hu | hu
    · exact hpassed u hu
    · obtain ⟨_, -, rfl⟩ := mem_map.mp hu
      exact within_none n
  · exact fun i hi => Nat.le_trans (Prototype.instruction_le_reach hi) hreach

/-- A function that has been entered with handles of objects, in a scene that has as many. -/
theorem Frame.start_grounded {c : Context} (hc : c.Grounded b)
    (hpassed : ∀ u ∈ passed, Within c.scene.objects.length u.handle) (hreach : p.reach ≤ b.size)
    (name path : String) {limits : Limits} (henter : c.limits.enter = .ok limits) :
    Walk.Grounded b.inner ⟨(Frame.start p name path passed c.scene).1,
        { c with scene := (Frame.start p name path passed c.scene).2, limits }⟩ ∧
      (Frame.start p name path passed c.scene).2.objects = c.scene.objects := by
  obtain ⟨hframe, hobjects, hslots⟩ := Frame.addParams_grounded p.paramCount.toNat
    (Frame.bare p name path passed) c.scene 0
    (Frame.bare_grounded (b := b.inner) hreach hpassed name path)
    (by rw [Nat.zero_add]; exact Nat.le_trans p.paramCount_le_reach hreach)
  unfold Frame.start
  generalize Frame.addParams _ c.scene 0 p.paramCount.toNat = started at hframe hobjects hslots
  refine ⟨⟨⟨?_, ?_, hc.threshold, ?_, ?_, ?_⟩, ?_⟩, hobjects⟩
  · exact hobjects ▸ hc.root
  · show started.2.Sound
    rw [Scene.Sound, hobjects, hslots]
    exact hc.sound
  · show limits.host = b.host
    rw [Limits.eq_of_enter henter]
    exact hc.host
  · show limits.depth ≤ b.level + 1
    rw [Limits.eq_of_enter henter]
    exact Nat.succ_le_succ hc.depth
  · show ∀ n ∈ limits.budget, b.Covers n
    rw [Limits.eq_of_enter henter]
    exact hc.budget
  · show started.1.Grounded b.inner started.2.objects.length
    rw [hobjects]
    exact hframe

theorem buildWith_safe (hreach : p.reach ≤ b.size) {children : List Child}
    (hchildren : ∀ child ∈ children, child.build.Safe b.inner ∧ b.inner.level < b.inner.height) :
    (buildWith p children).Safe b := by
  intro name path upvalues c hc hupvalues
  cases henter : c.limits.enter with
  | error failure =>
    rw [buildWith_refused henter]
    trivial
  | ok limits =>
    obtain ⟨hstart, hobjects⟩ := Frame.start_grounded hc hupvalues hreach name path henter
    have hrun := Walking.walk_safe (n := 0) hchildren _ hstart (Nat.zero_le _)
    rw [buildWith_entered henter, ← hobjects]
    generalize Walking.walk children _ = result at hrun ⊢
    match result, hrun with
    | .ok _ w, h =>
      refine ⟨{ h.1.context with depth := ?_ }, h.2.1⟩
      have hdepth : w.context.limits.depth ≤ b.level + 1 := h.1.context.depth
      show w.context.limits.depth - 1 ≤ b.level
      omega
    | .error (.failed _ _) _, _ => trivial
    | .error (.scene _) _, h => exact h
    | .error (.option _) _, h => exact h
    | .error (.host _) _, h => exact h

/-- The bounds of a function serve for those inside it. -/
theorem Prototype.inner_bounds {q : Prototype} (hq : q ∈ p.children) (hreach : p.reach ≤ b.size)
    (hheight : b.level + p.height ≤ b.height) :
    q.reach ≤ b.inner.size ∧ b.inner.level + q.height ≤ b.inner.height ∧
      b.inner.level < b.inner.height := by
  have hlower := Prototype.height_lt_of_mem hq
  have hpos := q.height_pos
  refine ⟨Nat.le_trans (Prototype.reach_le_of_mem hq) hreach, ?_, ?_⟩
  · show b.level + 1 + q.height ≤ b.height
    omega
  · show b.level + 1 < b.height
    omega

/-- **No object is asked for that is not there**, and nothing of the host that is out of
reach. -/
theorem Prototype.build_safe (p : Prototype) : ∀ {b : Bounds}, p.reach ≤ b.size →
    b.level + p.height ≤ b.height → p.build.Safe b := by
  induction p using Prototype.induct_children with
  | h p ih =>
    intro b hreach hheight
    rw [Prototype.build_eq, Prototype.builders_eq]
    refine buildWith_safe hreach fun child hchild => ?_
    obtain ⟨q, hq, rfl⟩ := mem_map.mp hchild
    obtain ⟨hinner, hheight, hlevel⟩ := Prototype.inner_bounds hq hreach hheight
    exact ⟨ih q hq hinner hheight, hlevel⟩

/-- What recovering a function asks of its host at most. -/
def Prototype.bounds (p : Prototype) (o : Options) (host : Host) : Bounds :=
  { host, size := max p.reach (o.budget.getD 0).natAbs, level := 0, height := p.height }

theorem Context.start_grounded (p : Prototype) (o : Options) (host : Host) :
    (Context.start o host).Grounded (p.bounds o host) := by
  unfold start
  refine ⟨fun hon => ?_, ?_, rfl, rfl, Nat.le_refl _, fun n hn => ?_⟩
  · rw [show (if o.simulate.isOn then Scene.opened else Scene.blank) = Scene.opened from if_pos hon]
    exact Nat.zero_lt_one
  · show Scene.Sound (if o.simulate.isOn then Scene.opened else Scene.blank)
    split <;> exact nofun
  · have hbudget : o.budget = some n := hn
    show n.natAbs ≤ max p.reach (o.budget.getD 0).natAbs
    rw [hbudget]
    exact Nat.le_max_right _ _

theorem Prototype.build_bounded (p : Prototype) (o : Options) (host : Host) :
    p.build.Safe (p.bounds o host) :=
  p.build_safe (Nat.le_max_left _ _) (Nat.le_of_eq (Nat.zero_add _))

/-- The ends of a recovery that the caller has to expect. -/
theorem Prototype.build_ends (p : Prototype) (name path : String) {o : Options} {host : Host}
    {c : Context} (hc : c.Grounded (p.bounds o host)) (ho : c.options = o) :
    (∃ r c', p.build name path [] c = .ok r c') ∨
      (∃ failure recovered c', p.build name path [] c = .error (.failed failure recovered) c') ∨
      (o.longStringThreshold = none ∧
        ∃ fault c', p.build name path [] c = .error (.option fault) c') ∨
      ∃ fault c', p.build name path [] c = .error (.host fault) c' ∧ host.Refuses fault ∧
        fault.Within (max p.reach (o.budget.getD 0).natAbs) p.height := by
  have hsafe := p.build_bounded o host name path [] c hc nofun
  have hgrows := p.build_grows name path [] c
  cases hbuild : p.build name path [] c with
  | ok r c' => exact .inl ⟨r, c', rfl⟩
  | error stop c' =>
    rw [hbuild] at hsafe hgrows
    cases stop with
    | failed failure recovered => exact .inr (.inl ⟨failure, recovered, c', rfl⟩)
    | scene fault => exact hsafe.elim
    | option fault =>
      have hopen : c'.options.longStringThreshold = none := hsafe
      have hoptions : c'.options = o := hgrows.options.trans ho
      exact .inr (.inr (.inl ⟨hoptions ▸ hopen, fault, c', rfl⟩))
    | host fault => exact .inr (.inr (.inr ⟨fault, c', rfl, hsafe⟩))

end LuaRecovery

/-
Every handle refers to an object, and every register is within reach.

Registers, upvalues, the locals that hold objects and the places of the scene hold handles,
and the scene is asked for the objects behind them.  Objects are only ever added, so a handle
that refers to an object does so from then on.  An action is `Safe b n` if it keeps this up,
given that the handles it was passed are below `n`, and never stops because an object is not
there.  A run that starts with a fresh scene therefore never does.

There are two other ways to stop without a failure.  One is an option that was left open, and
there is one that can be.  The other is a limit of the host: then what the host was asked for
lies within the bounds `b`, since the registers in use do.
-/
import LuaRecovery.Proofs.HostLimits
import LuaRecovery.Proofs.Walks

namespace LuaRecovery

open List

/-- A handle, if it is one, is below a bound. -/
def Within (n : Nat) (handle : Option Nat) : Prop := ∀ h, handle = some h → h < n

theorem within_none (n : Nat) : Within n none := nofun

theorem within_some {n h : Nat} (hh : h < n) : Within n (some h) := by
  rintro _ ⟨⟩
  exact hh

theorem Within.mono {n k : Nat} {handle : Option Nat} (h : Within n handle) (hk : n ≤ k) :
    Within k handle :=
  fun x hx => Nat.lt_of_lt_of_le (h x hx) hk

/-! ### Tables -/

section

variable {κ α : Type} {t : Table κ α} {j k : κ}

theorem Table.mem_keys_filterValues {p : α → Bool} (h : j ∈ (t.filterValues p).keys) :
    j ∈ t.keys := by
  obtain ⟨e, he, rfl⟩ := mem_map.mp h
  exact mem_map.mpr ⟨e, (mem_filter.mp he).1, rfl⟩

theorem Table.mem_keys_erase [DecidableEq κ] (h : j ∈ (t.erase k).keys) : j ∈ t.keys := by
  obtain ⟨e, he, rfl⟩ := mem_map.mp h
  exact mem_map_of_mem (mem_remove he).1

theorem Table.mem_keys_insert [DecidableEq κ] {v : α} (h : j ∈ (t.insert k v).keys) :
    j = k ∨ j ∈ t.keys := by
  obtain ⟨e, he, rfl⟩ := mem_map.mp h
  exact (mem_put he).imp (congrArg Prod.fst) mem_map_of_mem

end

/-! ### The scene -/

namespace Scene

/-- The object of every place is there. -/
def Sound (s : Scene) : Prop := ∀ place h, s.slots.get? place = some h → h < s.objects.length

/-- A scene that has grown to hold the object with a handle, if there is one. -/
structure Holds (s : Scene) (handle : Option Nat) (s' : Scene) : Prop where
  sound : s'.Sound
  grows : s.objects.length ≤ s'.objects.length
  within : Within s'.objects.length handle

variable {s : Scene}

theorem add_holds (hs : s.Sound) (hint : String) (kind : ObjectKind) (parent : Option Nat)
    (key : Option String) :
    Holds s (some (s.add hint kind parent key).1) (s.add hint kind parent key).2 := by
  have hlength : (s.add hint kind parent key).2.objects.length = s.objects.length + 1 :=
    length_append
  refine ⟨fun place h hh => ?_, ?_, within_some ?_⟩
  · have := hs place h hh
    omega
  · omega
  · rw [hlength]
    exact Nat.lt_succ_self _

theorem child_holds (hs : s.Sound) (parent : Option Nat) (key : String) (kind : ObjectKind)
    (hint : String) :
    Holds s (some (s.child parent key kind hint).1) (s.child parent key kind hint).2 := by
  unfold child
  cases hplace : s.slots.get? (parent, key) with
  | some handle => exact ⟨hs, Nat.le_refl _, within_some (hs _ _ hplace)⟩
  | none =>
    have hadd := add_holds hs hint kind parent (some key)
    refine ⟨fun place h hh => ?_, hadd.grows, hadd.within⟩
    rw [Table.get?_insert] at hh
    split at hh
    · exact hadd.within h hh
    · exact hadd.sound place h hh

theorem service_holds (hs : s.Sound) (key : String) :
    Holds s (some (s.service key).1) (s.service key).2 :=
  child_holds hs _ _ _ _

variable {handle : Nat}

theorem object_of_lt (h : handle < s.objects.length) : ∃ o, s.object handle = .ok o := by
  unfold object
  rw [getElem?_eq_getElem h]
  exact ⟨_, rfl⟩

theorem nameOf_of_lt (h : handle < s.objects.length) : ∃ name, s.nameOf handle = .ok name := by
  obtain ⟨o, ho⟩ := object_of_lt h
  exact ⟨o.name, by rw [nameOf, ho]; rfl⟩

theorem isService_of_within {handle : Option Nat} (h : Within s.objects.length handle) :
    ∃ b, s.isService handle = .ok b := by
  cases handle with
  | none => exact ⟨false, rfl⟩
  | some handle =>
    obtain ⟨o, ho⟩ := object_of_lt (h handle rfl)
    exact ⟨o.kind == .service, by rw [isService, ho]; rfl⟩

theorem isUiLibrary_of_lt (h : handle < s.objects.length) : ∃ b, s.isUiLibrary handle = .ok b := by
  obtain ⟨o, ho⟩ := object_of_lt h
  exact ⟨o.kind == .uiLibrary, by rw [isUiLibrary, ho]; rfl⟩

/-- A global is read in a scene that has the root. -/
theorem readGlobal_holds (hs : s.Sound) (hroot : 0 < s.objects.length) (name : String) :
    Holds s ((s.readGlobal name).1.map (·.handle)) (s.readGlobal name).2 := by
  unfold readGlobal
  split
  · exact ⟨hs, Nat.le_refl _, within_some hroot⟩
  · cases aliasedService? name with
    | some key => exact service_holds hs key
    | none => exact ⟨hs, Nat.le_refl _, within_none _⟩

/-- A field of an object that is there can be read. -/
theorem read_holds (hs : s.Sound) (h : handle < s.objects.length) (keyText baseText : String) :
    ∃ reading s', s.read handle keyText baseText = .ok (reading, s') ∧
      Holds s (some reading.handle) s' := by
  unfold read
  cases Lua.unquote? keyText with
  | none => exact ⟨_, _, rfl, child_holds hs _ _ _ _⟩
  | some key =>
    dsimp only
    split
    · exact ⟨_, _, rfl, service_holds hs key⟩
    · obtain ⟨ui, hui⟩ := isUiLibrary_of_lt h
      unfold kindUnder
      rw [hui]
      exact ⟨_, _, rfl, child_holds hs _ _ _ _⟩

/-- A call can be made if its receiver is there. -/
theorem resolve_holds (hs : s.Sound) {site : CallSite}
    (hreceiver : Within s.objects.length site.receiver) :
    ∃ outcome s', s.resolve site = .ok (outcome, s') ∧ Holds s outcome.handle s' := by
  have hplain : Holds s none s := ⟨hs, Nat.le_refl _, within_none _⟩
  unfold resolve
  dsimp only
  split
  · exact ⟨_, _, rfl, add_holds hs _ _ _ _⟩
  · split
    · split
      · exact ⟨_, _, rfl, service_holds hs _⟩
      · exact ⟨_, _, rfl, hplain⟩
    · split
      · exact ⟨_, _, rfl, service_holds hs _⟩
      · split
        · exact ⟨_, _, rfl, add_holds hs _ _ _ _⟩
        · split
          · rename_i receiver method hsite _
            obtain ⟨ui, hui⟩ := isUiLibrary_of_lt (hreceiver receiver hsite)
            rw [hui]
            cases ui with
            | true => exact ⟨_, _, rfl, add_holds hs _ _ _ _⟩
            | false => exact ⟨_, _, rfl, hplain⟩
          · exact ⟨_, _, rfl, hplain⟩

theorem call_holds (hs : s.Sound) {site : CallSite}
    (hreceiver : Within s.objects.length site.receiver) :
    ∃ outcome s', s.call site = .ok (outcome, s') ∧ Holds s outcome.handle s' := by
  obtain ⟨outcome, s', hresolve, hholds⟩ := resolve_holds hs hreceiver
  unfold call
  rw [hresolve]
  simp only [bind, Except.bind]
  cases category? outcome.callee with
  | some category => exact ⟨_, _, rfl, hholds.sound, hholds.grows, hholds.within⟩
  | none => exact ⟨_, _, rfl, hholds⟩

end Scene

/-! ### The state of a walk -/

/-- The handles of a slot are below a bound. -/
structure Slot.Known (n : Nat) (slot : Slot) : Prop where
  handle : Within n slot.handle
  receiver : Within n slot.receiver

variable {b : Bounds} {n k : Nat} {r : Registers} {slot : Slot} {f : Frame}

theorem Slot.Known.mono (h : slot.Known n) (hk : n ≤ k) : slot.Known k :=
  ⟨h.handle.mono hk, h.receiver.mono hk⟩

/-- A slot without handles. -/
theorem Slot.known_of_none (hh : slot.handle = none) (hr : slot.receiver = none) : slot.Known n :=
  ⟨hh ▸ within_none n, hr ▸ within_none n⟩

theorem Slot.known_object {handle : Option Nat} (h : Within n handle) (text : String) :
    (Slot.object text handle).Known n :=
  ⟨h, within_none n⟩

theorem Slot.known_ofConstant (n : Nat) (c : Constant) : (Slot.ofConstant c).Known n := by
  cases c <;> exact known_of_none rfl rfl

/-- The handles in all registers are below a bound, and the registers in use are covered. -/
structure Registers.Known (b : Bounds) (n : Nat) (r : Registers) : Prop where
  slots : ∀ index slot, r.slots.get? index = some slot → slot.Known n
  bound : ∀ index ∈ r.slots.keys, b.Covers index
  unread : ∀ index ∈ r.unread, b.Covers index

theorem Registers.known_of_constants (b : Bounds) (n : Nat) (constants : List Constant) :
    Registers.Known b n { constants } := by
  refine ⟨fun index slot hslot => ?_, nofun, nofun⟩
  have hnone : (none : Option Slot) = some slot := hslot
  cases hnone

namespace Registers.Known

variable (h : r.Known b n)

include h

theorem mono (hk : n ≤ k) : r.Known b k :=
  { h with slots := fun index slot hslot => (h.slots index slot hslot).mono hk }

variable (index : Int)

theorem touch : (r.touch index).Known b n :=
  { h with unread := fun reg hreg => h.unread reg (mem_filter.mp hreg).1 }

theorem set (hslot : slot.Known n) {index : Int} (hindex : b.Covers index) :
    (r.set index slot).Known b n := by
  refine { h.touch index with slots := fun j held hj => ?_, bound := fun j hj => ?_ }
  · rw [show (r.set index slot).slots.get? j = _ from Table.get?_insert _ _ _ _] at hj
    split at hj
    · cases hj
      exact hslot
    · exact h.slots j held hj
  · rcases Table.mem_keys_insert hj with rfl | hj
    · exact hindex
    · exact h.bound j hj

theorem clear : (r.clear index).Known b n := by
  refine { h.touch index with
    slots := fun j held hj => ?_
    bound := fun j hj => h.bound j (Table.mem_keys_erase hj) }
  rw [show (r.clear index).slots.get? j = _ from Table.get?_erase _ _ _] at hj
  split at hj
  · cases hj
  · exact h.slots j held hj

theorem setUnread (hslot : slot.Known n) {index : Int}
    (hindex : b.Covers index) : (r.setUnread index slot).Known b n := by
  refine { h.set hslot hindex with unread := fun reg hreg => ?_ }
  rcases mem_cons.mp hreg with rfl | hreg
  · exact hindex
  · exact (h.touch index).unread reg hreg

theorem lookUp : (r.lookUp index).Known b n := by
  unfold Registers.lookUp
  cases r.constant? index with
  | none => exact ⟨h.slots, h.bound, h.unread⟩
  | some _ => exact h

theorem touchOperand (operand : Int) : (r.touchOperand operand).Known b n := by
  unfold Registers.touchOperand
  split
  · exact h.lookUp _
  · exact h.touch _

theorem peek : (r.peek index).Known n := by
  unfold Registers.peek
  cases hslot : r.slots.get? index with
  | none => exact Slot.known_of_none rfl rfl
  | some slot => exact h.slots index slot hslot

end Registers.Known

theorem Registers.known_constantSlot (r : Registers) (n : Nat) (index : Int) :
    (r.constantSlot index).Known n := by
  unfold constantSlot
  cases r.constant? index with
  | none => exact Slot.known_of_none rfl rfl
  | some c => exact Slot.known_ofConstant n c

theorem Registers.Known.peekOperand (h : r.Known b n) (operand : Int) :
    (r.peekOperand operand).Known n := by
  unfold Registers.peekOperand
  split
  · exact Registers.known_constantSlot _ _ _
  · exact h.peek operand

/-- The scene is sound, if it is simulated it has the root, strings are long from the length
on that the options say, and the limits are those of the host and within bounds. -/
structure Context.Grounded (b : Bounds) (c : Context) : Prop where
  root : c.options.simulate.isOn = true → 0 < c.scene.objects.length
  sound : c.scene.Sound
  threshold : c.strings.threshold = c.options.longStringThreshold
  host : c.limits.host = b.host
  depth : c.limits.depth ≤ b.level
  budget : ∀ n ∈ c.limits.budget, b.Covers n

/-- The handles of a function are below a bound, and its integers are covered. -/
structure Frame.Grounded (b : Bounds) (n : Nat) (f : Frame) : Prop where
  registers : f.registers.Known b n
  upvalues : ∀ u ∈ f.upvalues, Within n u.handle
  objects : ∀ handle ∈ f.objectLocals.keys, handle < n
  top : ∀ top ∈ f.top, b.Covers top
  code : ∀ i ∈ f.code, i.reach + f.code.length ≤ b.size

theorem Frame.Grounded.mono (h : f.Grounded b n) (hk : n ≤ k) : f.Grounded b k :=
  { h with
    registers := h.registers.mono hk
    upvalues := fun u hu => (h.upvalues u hu).mono hk
    objects := fun handle hhandle => Nat.lt_of_lt_of_le (h.objects handle hhandle) hk }

/-- An instruction at its place in the code. -/
theorem Frame.Grounded.place (h : f.Grounded b n) {i : Instruction} {index : Nat}
    (hi : f.code[index]? = some i) : i.reach + index < b.size := by
  have hcode := h.code i (mem_of_getElem? hi)
  have hindex := (List.getElem?_eq_some_iff.mp hi).1
  omega

/-- The number of objects. -/
def Walk.size (w : Walk) : Nat := w.context.scene.objects.length

/-- Every handle refers to an object, and what is in use is within bounds. -/
structure Walk.Grounded (b : Bounds) (w : Walk) : Prop where
  context : w.context.Grounded b
  frame : w.frame.Grounded b w.size

/-- What grounds a walk. -/
def Walk.grounds (w : Walk) :=
  (w.context.options, w.context.scene, w.context.strings, w.context.limits.host,
    w.context.limits.depth, w.context.limits.budget, w.frame.registers, w.frame.upvalues,
    w.frame.objectLocals, w.frame.top, w.frame.code)

theorem Walk.Grounded.of_grounds {w v : Walk} (hw : w.Grounded b) (h : v.grounds = w.grounds) :
    v.Grounded b ∧ v.size = w.size := by
  simp only [Walk.grounds, Prod.mk.injEq] at h
  obtain ⟨hoptions, hscene, hstrings, hhost, hdepth, hbudget, hregisters, hupvalues, hobjects,
    htop, hcode⟩ := h
  have hsize : v.size = w.size := by rw [Walk.size, hscene, Walk.size]
  refine ⟨⟨⟨?_, ?_, ?_, ?_, ?_, ?_⟩, ⟨?_, ?_, ?_, ?_, ?_⟩⟩, hsize⟩
  · rw [hoptions, hscene]
    exact hw.context.root
  · rw [hscene]
    exact hw.context.sound
  · rw [hstrings, hoptions]
    exact hw.context.threshold
  · rw [hhost]
    exact hw.context.host
  · rw [hdepth]
    exact hw.context.depth
  · rw [hbudget]
    exact hw.context.budget
  · rw [hregisters, hsize]
    exact hw.frame.registers
  · rw [hupvalues, hsize]
    exact hw.frame.upvalues
  · rw [hobjects, hsize]
    exact hw.frame.objects
  · rw [htop]
    exact hw.frame.top
  · rw [hcode]
    exact hw.frame.code

/-- A stop that a caller has to expect: a failure, an option that is needed and that the caller
left open, or a limit of the host that a request within bounds met. -/
def Stop.Expected (b : Bounds) (c : Context) : Stop → Prop
  | .failed _ _ => True
  | .scene _ => False
  | .option _ => c.options.longStringThreshold = none
  | .host fault => b.host.Refuses fault ∧ fault.Within b.size b.height

namespace Walking

/-- An action that is passed handles below `n` keeps every handle referring to an object and
everything within bounds, and stops only as is expected; its answer has `P` at the number of
objects then. -/
def Safe {α : Type} (b : Bounds) (n : Nat) (m : Walking α)
    (P : Nat → α → Prop := fun _ _ => True) : Prop :=
  ∀ w : Walk, w.Grounded b → n ≤ w.size →
    After (fun a w' => w'.Grounded b ∧ w.size ≤ w'.size ∧ P w'.size a)
      (fun stop w' => stop.Expected b w'.context) (m w)

section

variable {α β : Type} {P : Nat → α → Prop} {Q : Nat → β → Prop}

theorem safe_bind {m : Walking α} {f : α → Walking β} (hm : Safe b n m P)
    (hf : ∀ k a, n ≤ k → P k a → Safe b k (f a) Q) : Safe b n (m >>= f) Q := by
  intro w hw hn
  refine after_seq (hm w hw hn) ?_
  rintro a w' ⟨hw', hsize, hP⟩
  refine after_mono (hf w'.size a (Nat.le_trans hn hsize) hP w' hw' (Nat.le_refl _)) ?_ ?_
  · exact fun b w'' h => ⟨h.1, Nat.le_trans hsize h.2.1, h.2.2⟩
  · exact fun _ _ h => h

theorem safe_seq {m : Walking α} {f : α → Walking β} (hm : Safe b n m P)
    (hf : ∀ {k a}, Safe b k (f a) Q) : Safe b n (m >>= f) Q :=
  safe_bind hm fun _ _ _ _ => hf

theorem safe_pure {a : α} (h : ∀ k, n ≤ k → P k a) : Safe b n (pure a : Walking α) P :=
  fun w hw hn => ⟨hw, Nat.le_refl _, h w.size hn⟩

theorem safe_done (a : α) : Safe b n (pure a : Walking α) := safe_pure fun _ _ => trivial

theorem safe_ite {c : Prop} [Decidable c] {m m' : Walking α} (h : Safe b n m P)
    (h' : Safe b n m' P) : Safe b n (if c then m else m') P := by
  split
  · exact h
  · exact h'

theorem safe_get : Safe b n (get : Walking Walk) fun k w => w.Grounded b ∧ w.size = k :=
  fun _ hw _ => ⟨hw, Nat.le_refl _, hw, rfl⟩

/-- A change of what does not ground a walk. -/
theorem safe_modify {f : Walk → Walk} (hf : ∀ w : Walk, (f w).grounds = w.grounds) :
    Safe b n (modify f : Walking Unit) := by
  intro w hw _
  obtain ⟨hgrounded, hsize⟩ := hw.of_grounds (hf w)
  exact ⟨hgrounded, Nat.le_of_eq hsize.symm, trivial⟩

/-! ### The host -/

theorem askHost_safe {fault? : Host → Walk → Option HostFault}
    (h : ∀ (w : Walk) (fault : HostFault), w.Grounded b → fault? b.host w = some fault →
      b.host.Refuses fault ∧ fault.Within b.size b.height) : Safe b n (askHost fault?) :=
  fun w hw _ => after_askHost ⟨hw, Nat.le_refl _, trivial⟩ fun fault hfault =>
    h w fault hw (hw.context.host ▸ hfault)

theorem spell_safe {numbers : Walk → List Int}
    (h : ∀ w : Walk, w.Grounded b → ∀ n ∈ numbers w, b.Covers n) :
    Safe b n (spell numbers) := by
  refine askHost_safe fun w fault hw hfault => ?_
  obtain ⟨hrefuses, number, hnumber, rfl⟩ := Host.refuses_of_writingFault? hfault
  exact ⟨hrefuses, h w hw number hnumber⟩

theorem listed_safe {first last : Int} (h : (last + 1 - first).toNat ≤ 2 * b.size) :
    Safe b n (listed first last) fun _ registers => registers = range first last := by
  refine safe_seq (askHost_safe fun w fault hw hfault => ?_) <| safe_pure fun _ _ => rfl
  obtain ⟨hrefuses, rfl⟩ := Host.refuses_of_unless (h := b.host) hfault id
  exact ⟨hrefuses, h⟩

theorem descend_safe (h : b.level < b.height) : Safe b n descend := by
  refine askHost_safe fun w fault hw hfault => ?_
  obtain ⟨hrefuses, rfl⟩ := Host.refuses_of_unless (h := b.host) hfault id
  exact ⟨hrefuses, Nat.lt_of_le_of_lt hw.context.depth h⟩

end

end Walking

end LuaRecovery

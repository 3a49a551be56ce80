/-
What an action of a walk ends in.

An action answers or stops, and leaves a state either way.  `After Q E` is what holds
then: `Q` of the answer and the state, or `E` of the stop and the state.  The rules below
follow the way actions are put together, so a proof about an action goes through its
parts in the order in which they run.
-/
import LuaRecovery.Walk.Build

namespace LuaRecovery

/-- The walk stopped because the scene does not have an object or the host cannot go on. -/
def Stop.IsFault : Stop → Prop
  | .scene _ | .host _ => True
  | _ => False

/-- The walk stopped otherwise than by a failure. -/
def Stop.IsMute : Stop → Prop
  | .failed _ _ => False
  | _ => True

/-- Ways to stop among which are all faults. -/
class Stop.Covers (T : Stop → Prop) : Prop where
  fault : ∀ stop, stop.IsFault → T stop

instance : Stop.Covers Stop.IsFault := ⟨fun _ h => h⟩

instance : Stop.Covers Stop.IsMute where
  fault stop h := by
    cases stop with
    | failed => exact h
    | scene | option | host => trivial

theorem Stop.IsFault.mute {stop : Stop} (h : stop.IsFault) : stop.IsMute :=
  Stop.Covers.fault stop h

@[default_instance]
instance : Stop.Covers fun _ => True := ⟨fun _ _ => trivial⟩

/-- What was recovered of a function inside that a failure ended. -/
def Stop.recovered? : Stop → Option Routine
  | .failed _ recovered => recovered
  | _ => none

namespace Walking

variable {α β : Type} {Q Q' : α → Walk → Prop} {E E' : Stop → Walk → Prop}
  {r : EStateM.Result Stop Walk α}

/-- What holds after an action. -/
def After (Q : α → Walk → Prop) (E : Stop → Walk → Prop) : EStateM.Result Stop Walk α → Prop
  | .ok a w => Q a w
  | .error stop w => E stop w

/-- What holds once an action is done, if it is not stopped. -/
abbrev Once (Q : α → Walk → Prop) (r : EStateM.Result Stop Walk α) : Prop :=
  After Q (fun _ _ => True) r

theorem after_mono (h : After Q E r)
    (hQ : ∀ a w, Q a w → Q' a w) (hE : ∀ stop w, E stop w → E' stop w) : After Q' E' r := by
  cases r with
  | ok a w => exact hQ a w h
  | error stop w => exact hE stop w h

theorem after_imp (h : After Q E r) (hQ : ∀ a w, Q a w → Q' a w) : After Q' E r :=
  after_mono h hQ fun _ _ h => h

theorem after_fault (h : After Q E r) (hE : ∀ stop w, E stop w → E' stop w) : After Q E' r :=
  after_mono h (fun _ _ h => h) hE

theorem after_loose (h : After Q E r) : Once Q r :=
  after_fault h fun _ _ _ => trivial

theorem after_any (r : EStateM.Result Stop Walk α) : Once (fun _ _ => True) r := by
  cases r <;> trivial

theorem after_and (h : After Q E r) (h' : After Q' E' r) :
    After (fun a w => Q a w ∧ Q' a w) (fun stop w => E stop w ∧ E' stop w) r := by
  cases r with
  | ok a w => exact ⟨h, h'⟩
  | error stop w => exact ⟨h, h'⟩

variable {m : Walking α} {f : α → Walking β} {w w' : Walk} {P : β → Walk → Prop}

/-- One action after another. -/
theorem after_bind (h : After (fun a w' => After P E (f a w')) E (m w)) :
    After P E ((m >>= f) w) := by
  show After P E (EStateM.bind m f w)
  unfold EStateM.bind
  cases hm : m w with
  | ok a w' =>
    rw [hm] at h
    exact h
  | error stop w' =>
    rw [hm] at h
    exact h

/-- One action after another, by what holds in between. -/
theorem after_seq (hm : After Q E (m w)) (hf : ∀ a w', Q a w' → After P E (f a w')) :
    After P E ((m >>= f) w) :=
  after_bind (after_imp hm hf)

/-- One action after another, by what holds in between and how it was got to. -/
theorem after_seq_run (hm : After Q E (m w))
    (hf : ∀ a w', m w = .ok a w' → Q a w' → After P E (f a w')) : After P E ((m >>= f) w) := by
  refine after_bind ?_
  cases hrun : m w with
  | ok a w' =>
    rw [hrun] at hm
    exact hf a w' hrun hm
  | error stop w' =>
    rw [hrun] at hm
    exact hm

theorem after_state {f : Walk → Walking β} (h : After P E (f w w)) :
    After P E ((get >>= f : Walking β) w) := after_bind h

theorem after_modify {Q : Unit → Walk → Prop} {f : Walk → Walk} {w : Walk} (h : Q () (f w)) :
    After Q E ((modify f : Walking Unit) w) := h

theorem after_askHost {fault? : Host → Walk → Option HostFault} {Q : Unit → Walk → Prop}
    (hok : Q () w)
    (hstop : ∀ fault, fault? w.context.limits.host w = some fault → E (.host fault) w) :
    After Q E (askHost fault? w) := by
  refine after_state ?_
  cases hfault : fault? w.context.limits.host w with
  | none => exact hok
  | some fault => exact hstop fault hfault

theorem after_keepingFrame
    (h : After Q (fun stop w' => E stop { w' with frame := w.frame }) (m w)) :
    After Q E (keepingFrame m w) := by
  unfold keepingFrame
  cases hm : m w with
  | ok a w' =>
    rw [hm] at h
    exact h
  | error stop w' =>
    rw [hm] at h
    exact h

/-- One action after another, if the first answers. -/
theorem run_bind {a : α} (h : m w = .ok a w') (f : α → Walking β) : (m >>= f) w = f a w' := by
  show EStateM.bind m f w = f a w'
  unfold EStateM.bind
  rw [h]

/-- What comes after actions that end in the same. -/
theorem run_congr {m m' : Walking α} (h : m w = m' w') (f : α → Walking β) :
    (m >>= f) w = (m' >>= f) w' := by
  show EStateM.bind m f w = EStateM.bind m' f w'
  unfold EStateM.bind
  rw [h]

/-- What an answer after two actions comes from. -/
theorem ok_of_bind {b : β} (h : (m >>= f) w = .ok b w') :
    ∃ a w₁, m w = .ok a w₁ ∧ f a w₁ = .ok b w' := by
  change EStateM.bind m f w = .ok b w' at h
  unfold EStateM.bind at h
  cases hm : m w with
  | ok a w₁ =>
    rw [hm] at h
    exact ⟨a, w₁, rfl, h⟩
  | error stop w₁ =>
    rw [hm] at h
    cases h

theorem eq_of_askHost {fault? : Host → Walk → Option HostFault} {a : Unit}
    (h : askHost fault? w = .ok a w') : w = w' := by
  have hafter : After (fun _ w' => w = w') (fun _ _ => True) (askHost fault? w) :=
    after_askHost rfl fun _ _ => trivial
  rwa [h] at hafter

/-- One action after another, if the first stops. -/
theorem run_bind_error {stop : Stop} (h : m w = .error stop w') (f : α → Walking β) :
    (m >>= f) w = .error stop w' := by
  show EStateM.bind m f w = .error stop w'
  unfold EStateM.bind
  rw [h]

/-- Where two actions stop. -/
theorem error_of_bind {stop : Stop} (h : (m >>= f) w = .error stop w') :
    m w = .error stop w' ∨ ∃ a w₁, m w = .ok a w₁ ∧ f a w₁ = .error stop w' := by
  cases hm : m w with
  | ok a w₁ => exact .inr ⟨a, w₁, rfl, (run_bind hm f).symm.trans h⟩
  | error stop' w₁ =>
    cases (run_bind_error hm f).symm.trans h
    exact .inl rfl

theorem run_get {w : Walk} (f : Walk → Walking β) : (get >>= f) w = f w w := rfl

/-! ### Relations between the states before and after -/

/-- An action relates the state before it to that after it, and stops only in the ways of
`T`. -/
def Keeps (R : Walk → Walk → Prop) (m : Walking α) (T : Stop → Prop := fun _ => True) : Prop :=
  ∀ w, After (fun _ w' => R w w') (fun stop w' => T stop ∧ R w w') (m w)

variable {T T' : Stop → Prop} {R R' : Walk → Walk → Prop}

theorem keeps_mono (h : Keeps R m T) (hT : ∀ stop, T stop → T' stop)
    (hR : ∀ w w', R w w' → R' w w') : Keeps R' m T' := by
  intro w
  exact after_mono (h w) (fun _ _ hw => hR _ _ hw) fun _ _ hw => ⟨hT _ hw.1, hR _ _ hw.2⟩

/-- However an action stops. -/
theorem keeps_any (h : Keeps R m T) : Keeps R m :=
  keeps_mono h (fun _ _ => trivial) fun _ _ h => h

theorem keeps_ok {a : α} (h : Keeps R m T) (hm : m w = .ok a w') : R w w' := by
  have hw := h w
  rwa [hm] at hw

theorem keeps_at (h : Keeps R m T) (w : Walk) :
    After (fun _ w' => R w w') (fun stop w' => T stop ∧ R w w') (m w) := h w

/-- An action after a first change. -/
theorem after_keeps {w w₁ : Walk} (htrans : ∀ w₁ w₂ w₃, R w₁ w₂ → R w₂ w₃ → R w₁ w₃) (hw : R w w₁)
    (hm : Keeps R m T) : After (fun _ w' => R w w') (fun stop w' => T stop ∧ R w w') (m w₁) :=
  after_mono (hm w₁) (fun _ _ h => htrans _ _ _ hw h) fun _ _ h => ⟨h.1, htrans _ _ _ hw h.2⟩

theorem keeps_bind (htrans : ∀ w₁ w₂ w₃, R w₁ w₂ → R w₂ w₃ → R w₁ w₃) (hm : Keeps R m T)
    (hf : ∀ a, Keeps R (f a) T) : Keeps R (m >>= f) T := by
  intro w
  exact after_seq (hm w) fun a w' hw => after_keeps htrans hw (hf a)

theorem keeps_ite {c : Prop} [Decidable c] {m m' : Walking α} (h : Keeps R m T)
    (h' : Keeps R m' T) : Keeps R (if c then m else m') T := by
  split
  · exact h
  · exact h'

/-- The host is asked, and nothing else happens. -/
theorem askHost_keeps [Stop.Covers T] (hrefl : ∀ w, R w w)
    (fault? : Host → Walk → Option HostFault) : Keeps R (askHost fault?) T :=
  fun w => after_askHost (hrefl w) fun _ _ => ⟨Stop.Covers.fault _ trivial, hrefl w⟩

theorem keeps_pure (hrefl : ∀ w, R w w) (a : α) : Keeps R (pure a : Walking α) T :=
  fun w => hrefl w

end Walking

end LuaRecovery

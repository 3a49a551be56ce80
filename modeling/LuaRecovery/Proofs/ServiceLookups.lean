/-
Looking up services.

A service is kept at the place of the root under its key, and so is a field of the root.  The
object of a place gets its kind when the place is first asked for, so whether a look-up gives
a service is decided by the whole history of a scene: it does exactly if the first operation
that asked for the place was itself a look-up of the service.
-/
import LuaRecovery.Proofs.SceneCalls

namespace LuaRecovery.Scene

/-! ### Questions for the places of the root -/

/-- The key of the service that an operation looks up: by its key, by the global that stands
for it, by a read of a service that has a short name from the root, or by a call. -/
def Operation.serviceKey? : Operation → Option String
  | .service key => some key
  | .readGlobal name => aliasedService? name
  | .read handle keyText _ =>
    if handle = rootHandle then
      (Lua.unquote? keyText).filter fun key => (shortName? key).isSome
    else none
  | .call site => site.serviceKey?
  | .uniqueName _ | .reserve _ => none

/-- The key of the place of the root that an operation asks for: that of a service, or that of
a field. -/
def Operation.rootKey? : Operation → Option String
  | .read handle keyText _ => if handle = rootHandle then some (placeKey keyText) else none
  | op => op.serviceKey?

theorem Operation.rootKey?_of_serviceKey? {op : Operation} {key : String}
    (h : op.serviceKey? = some key) : op.rootKey? = some key := by
  cases op with
  | read handle keyText baseText =>
    rw [serviceKey?] at h
    rw [rootKey?]
    split at h
    · rename_i hroot
      rw [if_pos hroot, placeKey, (Option.filter_eq_some_iff.mp h).1]
      rfl
    · cases h
  | _ => exact h

variable {s s' s'' : Scene} {op : Operation} {key : String} {answer : Option Nat}

theorem kindUnder_ne_service {handle : Nat} {kind : ObjectKind}
    (h : s.kindUnder handle key = .ok kind) : kind ≠ .service := by
  unfold kindUnder at h
  cases hui : s.isUiLibrary handle with
  | error fault =>
    rw [hui] at h
    cases h
  | ok ui =>
    rw [hui] at h
    cases h
    dsimp only
    split
    · exact ObjectKind.noConfusion
    · split <;> exact ObjectKind.noConfusion

/-- A field of the root is read at its place.  It is made a service if it has a short name. -/
theorem read_root {keyText baseText : String} {reading : Reading}
    (h : s.read rootHandle keyText baseText = .ok (reading, s')) :
    ∃ kind hint, (kind = .service ↔ ((Lua.unquote? keyText).filter fun key =>
        (shortName? key).isSome) = some (placeKey keyText)) ∧
      (reading.handle, s') = s.child (some rootHandle) (placeKey keyText) kind hint := by
  unfold read at h
  rw [placeKey]
  cases hunquote : Lua.unquote? keyText with
  | none =>
    rw [hunquote] at h
    cases h
    exact ⟨_, _, iff_of_false ObjectKind.noConfusion (Option.some_ne_none _).symm, rfl⟩
  | some key =>
    rw [hunquote] at h
    dsimp only at h
    rw [Option.getD_some, Option.filter_some]
    by_cases hshort : (shortName? key).isSome
    · rw [if_pos ⟨rfl, hshort⟩] at h
      cases h
      exact ⟨_, _, iff_of_true rfl (if_pos hshort), rfl⟩
    · rw [if_neg fun hservice => hshort hservice.2] at h
      cases hkind : s.kindUnder rootHandle key with
      | error fault =>
        rw [hkind] at h
        cases h
      | ok kind =>
        rw [hkind] at h
        cases h
        refine ⟨kind, key, iff_of_false (kindUnder_ne_service hkind) ?_, rfl⟩
        rw [if_neg hshort]
        exact (Option.some_ne_none key).symm

theorem call_of_perform {site : CallSite} (h : s.perform (.call site) = .ok (answer, s')) :
    ∃ outcome, s.call site = .ok (outcome, s') ∧ answer = outcome.handle := by
  rw [perform] at h
  cases hcall : s.call site with
  | error fault =>
    rw [hcall] at h
    cases h
  | ok made =>
    rw [hcall] at h
    cases h
    exact ⟨made.1, rfl, rfl⟩

/-- An operation that asks for a place of the root gives the object of the place.  If it makes
the object, then a service exactly if it looks one up. -/
theorem perform_root (hkey : op.rootKey? = some key) (h : s.perform op = .ok (answer, s')) :
    ∃ kind hint, (kind = .service ↔ op.serviceKey? = some key) ∧
      answer = some (s.child (some rootHandle) key kind hint).1 ∧
      s'.objects = (s.child (some rootHandle) key kind hint).2.objects ∧
      s'.slots = (s.child (some rootHandle) key kind hint).2.slots := by
  cases op with
  | service key' =>
    cases hkey
    cases h
    exact ⟨_, _, iff_of_true rfl rfl, rfl, rfl, rfl⟩
  | readGlobal name =>
    have halias : aliasedService? name = some key := hkey
    have hname : name ≠ rootName := by
      rintro rfl
      cases halias
    rw [perform, readGlobal, if_neg hname, halias] at h
    cases h
    exact ⟨_, _, iff_of_true rfl halias, rfl, rfl, rfl⟩
  | read handle keyText baseText =>
    rw [Operation.rootKey?] at hkey
    split at hkey
    · rename_i hroot
      cases hkey
      cases hroot
      rw [perform] at h
      cases hread : s.read rootHandle keyText baseText with
      | error fault =>
        rw [hread] at h
        cases h
      | ok found =>
        rw [hread] at h
        cases h
        obtain ⟨kind, hint, hkind, hchild⟩ := read_root hread
        refine ⟨kind, hint, ?_, ?_⟩
        · rw [Operation.serviceKey?, if_pos rfl]
          exact hkind
        · rw [← hchild]
          exact ⟨rfl, rfl, rfl⟩
    · cases hkey
  | call site =>
    have hservice : site.serviceKey? = some key := hkey
    obtain ⟨outcome, hcall, rfl⟩ := call_of_perform h
    rcases (call_spec hcall).2.2 with ⟨key', hkey', hhandle, hobjects, hslots⟩ | ⟨hnone, -⟩
    · cases hservice.symm.trans hkey'
      exact ⟨_, _, iff_of_true rfl hservice, hhandle, hobjects, hslots⟩
    · cases hnone.symm.trans hservice
  | uniqueName hint => cases hkey
  | reserve name => cases hkey

theorem child_get?_of_ne {parent : Option Nat} {key : String} {place : Option Nat × String}
    (hne : (parent, key) ≠ place) (kind : ObjectKind) (hint : String) :
    (s.child parent key kind hint).2.slots.get? place = s.slots.get? place := by
  unfold child
  cases s.slots.get? (parent, key) with
  | some handle => rfl
  | none => exact (Table.get?_insert _ _ _ _).trans (if_neg hne)

/-- An operation that does not ask for a place of the root leaves it alone. -/
theorem perform_get?_root (hkey : op.rootKey? ≠ some key) (hvalid : op.Valid s)
    (h : s.perform op = .ok (answer, s')) :
    s'.slots.get? (some rootHandle, key) = s.slots.get? (some rootHandle, key) := by
  cases hasked : op.rootKey? with
  | some key' =>
    obtain ⟨kind, hint, -, -, -, hslots⟩ := perform_root hasked h
    rw [hslots, child_get?_of_ne]
    intro hplace
    exact hkey (hasked.trans (congrArg some (Prod.mk.inj hplace).2))
  | none =>
    cases op with
    | service key' => cases hasked
    | readGlobal name =>
      have halias : aliasedService? name = none := hasked
      cases h
      rw [readGlobal, halias]
      split <;> rfl
    | read handle keyText baseText =>
      rw [Operation.rootKey?] at hasked
      split at hasked
      · cases hasked
      · rename_i hroot
        obtain ⟨text, hint, hread⟩ := read_eq_child handle keyText baseText
        obtain ⟨kind, hkind⟩ := hread s hvalid
        rw [perform, hkind] at h
        cases h
        exact child_get?_of_ne (fun hplace =>
          hroot (Option.some.inj (Prod.mk.inj hplace).1)) _ _
    | call site =>
      obtain ⟨outcome, hcall, -⟩ := call_of_perform h
      rcases (call_spec hcall).2.2 with ⟨key', hkey', -⟩ | ⟨-, hslots⟩
      · cases hkey'.symm.trans hasked
      · rw [hslots]
    | uniqueName hint =>
      cases h
      rfl
    | reserve name =>
      cases h
      rfl

/-! ### Histories -/

/-- The scene that operations lead to from another, one after the other. -/
inductive History (s : Scene) : List Operation → Scene → Prop
  | nil : History s [] s
  | snoc {ops : List Operation} {s' s'' : Scene} {answer : Option Nat} (op : Operation)
      (before : History s ops s') (valid : op.Valid s')
      (performed : s'.perform op = .ok (answer, s'')) : History s (ops ++ [op]) s''

variable {ops : List Operation} {names : NameSupply}

theorem History.reaches (h : s.History ops s') : s.Reaches s' := by
  induction h with
  | nil => exact .refl
  | snoc op before valid performed ih => exact .step op ih valid performed

/-- The first operation that asked for a place of the root. -/
def firstAsking (key : String) (ops : List Operation) : Option Operation :=
  ops.find? fun op => op.rootKey? = some key

/-- What is at a place of the root, by the operation that asked for it first. -/
def RootPlace (s : Scene) (key : String) : Option Operation → Prop
  | none => s.slots.get? (some rootHandle, key) = none
  | some first => ∃ handle o, s.slots.get? (some rootHandle, key) = some handle ∧
      s.objects[handle]? = some o ∧ (o.kind = .service ↔ first.serviceKey? = some key)

theorem Extends.rootPlace (h : s.Extends s') {first : Operation}
    (hplace : s.RootPlace key (some first)) : s'.RootPlace key (some first) := by
  obtain ⟨handle, o, hslot, ho, hkind⟩ := hplace
  obtain ⟨more, hmore⟩ := h.objects
  refine ⟨handle, o, h.slots _ _ hslot, ?_, hkind⟩
  rw [← hmore, List.getElem?_append_left (List.getElem?_eq_some_iff.mp ho).1]
  exact ho

/-- The operation that asks for a place first decides what is there. -/
theorem perform_first (hfree : s.slots.get? (some rootHandle, key) = none)
    (hkey : op.rootKey? = some key) (h : s.perform op = .ok (answer, s')) :
    s'.RootPlace key (some op) := by
  obtain ⟨kind, hint, hkind, -, hobjects, hslots⟩ := perform_root hkey h
  have hplace := s.child_place (some rootHandle) key kind hint
  refine ⟨_, ⟨s.objects.length, (s.uniqueName hint).1, kind, some rootHandle, some key⟩,
    hslots ▸ hplace, ?_, hkind⟩
  rw [hobjects]
  unfold child
  rw [hfree]
  exact List.getElem?_concat_length

/-- The history of a scene tells what is at the places of the root. -/
theorem History.rootPlace (h : (openedOn names).History ops s) (key : String) :
    s.RootPlace key (firstAsking key ops) := by
  induction h with
  | nil => rfl
  | @snoc ops s₁ s₂ answer op before valid performed ih =>
    rw [firstAsking, List.find?_append]
    cases hfirst : firstAsking key ops with
    | some first =>
      rw [hfirst] at ih
      rw [firstAsking] at hfirst
      rw [hfirst]
      exact (perform_change valid performed).extends.rootPlace ih
    | none =>
      rw [hfirst] at ih
      rw [firstAsking] at hfirst
      rw [hfirst, Option.none_or, List.find?_singleton]
      by_cases hkey : op.rootKey? = some key
      · rw [if_pos (decide_eq_true hkey)]
        exact perform_first ih hkey performed
      · rw [if_neg (fun h => hkey (of_decide_eq_true h))]
        exact (perform_get?_root hkey valid performed).trans ih

/-- **When a look-up gives a service.**  Whatever was asked of a fresh scene before, a look-up of
a service gives an object of the root under the key of the service.  The object is a service
exactly if the first operation that asked for that place, this one included, looked the service
up. -/
theorem service_lookup_gives (h : (openedOn names).History ops s)
    (hkey : op.serviceKey? = some key) (hvalid : op.Valid s) :
    ∃ handle s' o first, s.perform op = .ok (some handle, s') ∧ s'.object handle = .ok o ∧
      o.parent = some rootHandle ∧ o.key = some key ∧
      firstAsking key (ops ++ [op]) = some first ∧
      (o.kind = .service ↔ first.serviceKey? = some key) := by
  have hroot := Operation.rootKey?_of_serviceKey? hkey
  have hs := h.reaches.inOrder (openedOn_inOrder names)
  obtain ⟨answer, s', hperform⟩ := hs.performs hvalid
  obtain ⟨kind, hint, -, rfl, -, hslots⟩ := perform_root hroot hperform
  have hplace : s'.slots.get? (some rootHandle, key) = _ :=
    hslots ▸ s.child_place (some rootHandle) key kind hint
  obtain ⟨o, ho, hparent, hokey⟩ :=
    ((perform_change hvalid hperform).inOrder hs).placed _ _ _ hplace
  obtain ⟨first, hfirst⟩ : ∃ first, firstAsking key (ops ++ [op]) = some first :=
    Option.isSome_iff_exists.mp (List.find?_isSome.mpr
      ⟨op, List.mem_append_right _ List.mem_cons_self, decide_eq_true hroot⟩)
  have hrecord := (History.snoc op h hvalid hperform).rootPlace key
  rw [hfirst] at hrecord
  obtain ⟨handle, o', hslot, ho', hkind⟩ := hrecord
  rw [hplace] at hslot
  cases hslot
  rw [ho] at ho'
  cases ho'
  exact ⟨_, s', o, first, hperform, by rw [object, ho], hparent, hokey, hfirst, hkind⟩

/-- The method of the root that looks the players up. -/
def getPlayers : Operation :=
  .call { callee := "game:GetService", args := ["\"Players\""], receiver := some rootHandle,
          method := some "GetService" }

/-- The players are a service after a name was handed out and another field of the root read. -/
theorem service_lookup_gives_players : ∃ s handle s' o, (openedOn {}).History
        [.uniqueName "Players", .read rootHandle "\"Chat\"" rootName] s ∧
      s.perform getPlayers = .ok (some handle, s') ∧ s'.object handle = .ok o ∧
      o.kind = .service := by
  have hname : (openedOn {}).History [.uniqueName "Players"]
      ((openedOn {}).uniqueName "Players").2 := .snoc (.uniqueName "Players") .nil trivial rfl
  have hhistory := History.snoc (.read rootHandle "\"Chat\"" rootName) hname Nat.one_pos rfl
  have hkey : getPlayers.serviceKey? = some "Players" := by decide
  obtain ⟨handle, s', o, first, hperform, ho, -, -, hfirst, hkind⟩ :=
    service_lookup_gives hhistory hkey (within_some Nat.two_pos)
  cases hfirst
  exact ⟨_, handle, s', o, hhistory, hperform, ho, hkind.mpr rfl⟩

/-- A look-up of a service that gives something else, since of an operation before it. -/
def SpoiledBy (before lookup : Operation) : Prop :=
  lookup.serviceKey?.isSome ∧ ∃ s o, (openedOn {}).History [before] s ∧
    s.perform lookup = .ok (some 1, s) ∧ s.object 1 = .ok o ∧ o.kind ≠ .service

/-- A field that was read under the key of a service is no service, not even if the key was a
variable with the name of one. -/
theorem service_lookup_spoiled :
    SpoiledBy (.read rootHandle "\"Chat\"" rootName) (.service "Chat") ∧
      SpoiledBy (.read rootHandle "Players" rootName)
        (.read rootHandle "\"Players\"" rootName) := by
  refine ⟨⟨rfl, ?_⟩, ⟨rfl, ?_⟩⟩
  all_goals exact ⟨_, _, .snoc _ .nil Nat.one_pos rfl, rfl, rfl, ObjectKind.noConfusion⟩

end LuaRecovery.Scene

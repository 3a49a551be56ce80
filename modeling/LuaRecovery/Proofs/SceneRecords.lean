/-
The records of a scene.

A scene is asked for services, globals, fields and calls, and in between the names it shares
with the locals are handed out and reserved.  Whatever is asked, the records that are there
stay as they are, and at most one is added: `Change` says this once, for every operation.
What a scene keeps to from its opening on, and what a later question finds, both follow from
it.

  * The records are numbered in order from the root, no two have one name, and the object of
    a place is the one that was found there (`InOrder`).
  * The record of a place stays at the place.  A question for a service, a global or a field
    that is asked again, however much later, gives the same handle and changes nothing.
-/
import LuaRecovery.Proofs.Handles

namespace LuaRecovery.Scene

open List

/-! ### Operations -/

/-- What is asked of a scene, or of the names that it shares. -/
inductive Operation where
  | service (key : String)
  | readGlobal (name : String)
  | read (handle : Nat) (keyText baseText : String)
  | call (site : CallSite)
  | uniqueName (hint : String)
  | reserve (name : String)

/-- Put a name in use. -/
def reserve (s : Scene) (name : String) : Scene := { s with names := s.names.reserve name }

/-- Carry out an operation: the handle that it gives, if any, and the scene after it. -/
def perform (s : Scene) : Operation → Except Fault (Option Nat × Scene)
  | .service key => .ok (some (s.service key).1, (s.service key).2)
  | .readGlobal name => .ok ((s.readGlobal name).1.map (·.handle), (s.readGlobal name).2)
  | .read handle keyText baseText =>
    (s.read handle keyText baseText).map fun found => (some found.1.handle, found.2)
  | .call site => (s.call site).map fun made => (made.1.handle, made.2)
  | .uniqueName hint => .ok (none, (s.uniqueName hint).2)
  | .reserve name => .ok (none, s.reserve name)

/-- The handle that an operation asks about is that of an object. -/
def Operation.Valid (s : Scene) : Operation → Prop
  | .read handle _ _ => handle < s.objects.length
  | .call site => Within s.objects.length site.receiver
  | _ => True

/-- The questions for the object of a place. -/
def Operation.IsLookup : Operation → Prop
  | .service _ | .readGlobal _ | .read _ _ _ => True
  | _ => False

/-- A fresh scene that shares a supply of names. -/
def openedOn (names : NameSupply) : Scene := { opened with names := names.reserve rootName }

example : openedOn {} = opened := rfl

/-- A scene that operations lead to from another. -/
inductive Reaches (s : Scene) : Scene → Prop
  | refl : Reaches s s
  | step {s' s'' : Scene} {answer : Option Nat} (op : Operation) (before : Reaches s s')
      (valid : op.Valid s') (performed : s'.perform op = .ok (answer, s'')) : Reaches s s''

variable {s s' s'' : Scene}

/-! ### What an operation does to the records -/

/-- At most one record is added.  Its name was not in use before and is now, its number is the
next one, and if it is put at a place then nothing was there. -/
inductive Change (s s' : Scene) : Prop
  | same (objects : s'.objects = s.objects) (slots : s'.slots = s.slots)
      (used : ∀ x ∈ s.names.used, x ∈ s'.names.used)
  | added (o : Object) (objects : s'.objects = s.objects ++ [o]) (id : o.id = s.objects.length)
      (fresh : o.name ∉ s.names.used) (used : ∀ x ∈ s.names.used, x ∈ s'.names.used)
      (taken : o.name ∈ s'.names.used)
      (slots : s'.slots = s.slots ∨ ∃ key, o.key = some key ∧
        s.slots.get? (o.parent, key) = none ∧ s'.slots = s.slots.insert (o.parent, key) o.id)

theorem Change.refl (s : Scene) : s.Change s := .same rfl rfl fun _ hx => hx

/-- The recorded calls are no part of it. -/
theorem Change.congr (h : s.Change s') (hobjects : s''.objects = s'.objects)
    (hslots : s''.slots = s'.slots) (hnames : s''.names = s'.names) : s.Change s'' := by
  cases h with
  | same objects slots used =>
    exact .same (hobjects.trans objects) (hslots.trans slots) (by rwa [hnames])
  | added o objects id fresh used taken slots =>
    refine .added o (hobjects.trans objects) id fresh (by rwa [hnames]) (by rwa [hnames]) ?_
    rwa [hslots]

theorem uniqueName_change (s : Scene) (hint : String) : s.Change (s.uniqueName hint).2 :=
  .same rfl rfl (s.uniqueName_grows hint).used

theorem reserve_change (s : Scene) (name : String) : s.Change (s.reserve name) :=
  .same rfl rfl fun _ hx => mem_cons_of_mem _ hx

theorem add_change (s : Scene) (hint : String) (kind : ObjectKind) (parent : Option Nat)
    (key : Option String) : s.Change (s.add hint kind parent key).2 :=
  .added ⟨s.objects.length, (s.uniqueName hint).1, kind, parent, key⟩ rfl rfl
    (s.uniqueName_gives hint).fresh (s.uniqueName_grows hint).used
    (s.uniqueName_gives hint).used (.inl rfl)

theorem child_change (s : Scene) (parent : Option Nat) (key : String) (kind : ObjectKind)
    (hint : String) : s.Change (s.child parent key kind hint).2 := by
  unfold child
  cases hplace : s.slots.get? (parent, key) with
  | some handle => exact .refl s
  | none =>
    exact .added ⟨s.objects.length, (s.uniqueName hint).1, kind, parent, some key⟩ rfl rfl
      (s.uniqueName_gives hint).fresh (s.uniqueName_grows hint).used
      (s.uniqueName_gives hint).used (.inr ⟨key, rfl, hplace, rfl⟩)

theorem service_change (s : Scene) (key : String) : s.Change (s.service key).2 :=
  s.child_change _ _ _ _

theorem readGlobal_change (s : Scene) (name : String) : s.Change (s.readGlobal name).2 := by
  unfold readGlobal
  split
  · exact .refl s
  · cases aliasedService? name with
    | some key => exact s.service_change key
    | none => exact .refl s

/-- The key under which the object of a field is kept: what a literal stands for, and any other
text as it is. -/
def placeKey (keyText : String) : String := (Lua.unquote? keyText).getD keyText

/-- A field is read at a place that only its handle and the text of its key decide, as a text
that the scene has no part in. -/
theorem read_eq_child (handle : Nat) (keyText baseText : String) :
    ∃ text hint, ∀ s : Scene, handle < s.objects.length → ∃ kind, s.read handle keyText baseText =
        .ok (⟨(s.child (some handle) (placeKey keyText) kind hint).1, text⟩,
          (s.child (some handle) (placeKey keyText) kind hint).2) := by
  unfold read placeKey
  cases Lua.unquote? keyText with
  | none => exact ⟨_, _, fun s _ => ⟨_, rfl⟩⟩
  | some key =>
    dsimp only
    by_cases hservice : handle = rootHandle ∧ (shortName? key).isSome
    · simp only [if_pos hservice]
      rw [hservice.1]
      exact ⟨_, _, fun s _ => ⟨_, rfl⟩⟩
    · simp only [if_neg hservice]
      refine ⟨Lua.fieldAccess baseText keyText, key, fun s h => ?_⟩
      obtain ⟨ui, hui⟩ := isUiLibrary_of_lt h
      unfold kindUnder
      rw [hui]
      exact ⟨_, rfl⟩

variable {keyText baseText : String} {op : Operation} {handle : Nat} {reading : Reading}
  {key : String}

theorem read_change (hhandle : handle < s.objects.length)
    (h : s.read handle keyText baseText = .ok (reading, s')) : s.Change s' := by
  obtain ⟨text, hint, hread⟩ := read_eq_child handle keyText baseText
  obtain ⟨kind, hkind⟩ := hread s hhandle
  rw [hkind] at h
  cases h
  exact s.child_change _ _ _ _

theorem call_change {site : CallSite} {outcome : CallOutcome}
    (h : s.call site = .ok (outcome, s')) : s.Change s' := by
  obtain ⟨made, s₁, hresolve, -, -, -, rfl⟩ := call_resolves h
  have hchange : s.Change s₁ := by
    rcases resolve_cases hresolve with rfl | ⟨key, rfl⟩ | ⟨hint, kind, parent, key, rfl⟩
    · exact .refl _
    · exact s.service_change key
    · exact s.add_change hint kind parent key
  exact hchange.congr rfl rfl rfl

theorem perform_change {answer : Option Nat} (hvalid : op.Valid s)
    (h : s.perform op = .ok (answer, s')) : s.Change s' := by
  cases op with
  | service key =>
    cases h
    exact s.service_change key
  | readGlobal name =>
    cases h
    exact s.readGlobal_change name
  | read handle keyText baseText =>
    rw [perform] at h
    cases hread : s.read handle keyText baseText with
    | error fault =>
      rw [hread] at h
      cases h
    | ok found =>
      rw [hread] at h
      cases h
      exact read_change hvalid hread
  | call site =>
    rw [perform] at h
    cases hcall : s.call site with
    | error fault =>
      rw [hcall] at h
      cases h
    | ok made =>
      rw [hcall] at h
      cases h
      exact call_change hcall
  | uniqueName hint =>
    cases h
    exact s.uniqueName_change hint
  | reserve name =>
    cases h
    exact s.reserve_change name

/-! ### What a scene keeps to -/

/-- The records are numbered in order from the root, their names are different and in use, and
the object of a place was found there. -/
structure InOrder (s : Scene) : Prop where
  root : s.objects[rootHandle]? = some ⟨rootHandle, rootName, .generic, none, none⟩
  numbered : ∀ (i : Nat) (o : Object), s.objects[i]? = some o → o.id = i
  distinct : (s.objects.map (·.name)).Nodup
  inUse : ∀ o ∈ s.objects, o.name ∈ s.names.used
  placed : ∀ parent key h, s.slots.get? (parent, key) = some h →
    ∃ o, s.objects[h]? = some o ∧ o.parent = parent ∧ o.key = some key

theorem openedOn_inOrder (names : NameSupply) : (openedOn names).InOrder where
  root := rfl
  numbered i o ho := by
    obtain ⟨hi, rfl⟩ := List.getElem?_eq_some_iff.mp ho
    have hzero : i = 0 := Nat.lt_one_iff.mp hi
    subst hzero
    rfl
  distinct := pairwise_singleton _ _
  inUse o ho := by
    rw [mem_singleton.mp ho]
    exact mem_cons_self
  placed _ _ _ hplace := nomatch hplace

theorem InOrder.sound (h : s.InOrder) : s.Sound := by
  rintro ⟨parent, key⟩ handle hplace
  obtain ⟨o, ho, -⟩ := h.placed parent key handle hplace
  exact (List.getElem?_eq_some_iff.mp ho).1

theorem Change.inOrder (h : s.Change s') (hs : s.InOrder) : s'.InOrder := by
  cases h with
  | same objects slots used =>
    refine ⟨?_, ?_, ?_, fun o ho => used _ (hs.inUse o ?_), ?_⟩
    · rw [objects]
      exact hs.root
    · rw [objects]
      exact hs.numbered
    · rw [objects]
      exact hs.distinct
    · rwa [objects] at ho
    · rw [objects, slots]
      exact hs.placed
  | added o objects id fresh used taken slots =>
    have hold : ∀ {i : Nat} {o' : Object}, s.objects[i]? = some o' → s'.objects[i]? = some o' := by
      intro i o' ho'
      rw [objects, getElem?_append_left (List.getElem?_eq_some_iff.mp ho').1]
      exact ho'
    have hnew : s'.objects[s.objects.length]? = some o := by
      rw [objects]
      exact getElem?_concat_length
    refine ⟨hold hs.root, fun i o' ho' => ?_, ?_, fun o' ho' => ?_, fun parent key h hh => ?_⟩
    · rw [objects, getElem?_append] at ho'
      split at ho'
      · exact hs.numbered i o' ho'
      · rename_i hi
        obtain ⟨hlast, rfl⟩ := List.getElem?_eq_some_iff.mp ho'
        have hzero : i - s.objects.length = 0 := Nat.lt_one_iff.mp hlast
        simp only [hzero, getElem_singleton]
        omega
    · -- The name was in use by no object, since it was not in use.
      rw [objects, map_append]
      refine nodup_append.mpr ⟨hs.distinct, pairwise_singleton _ _, ?_⟩
      rintro x hx y hy rfl
      obtain ⟨o', ho', rfl⟩ := mem_map.mp hx
      rw [map_singleton, mem_singleton] at hy
      exact fresh (hy ▸ hs.inUse o' ho')
    · rw [objects, mem_append] at ho'
      rcases ho' with ho' | ho'
      · exact used _ (hs.inUse o' ho')
      · rw [mem_singleton.mp ho']
        exact taken
    · have hkept : ∀ {place}, s.slots.get? place = some h → place = (parent, key) →
          ∃ o', s'.objects[h]? = some o' ∧ o'.parent = parent ∧ o'.key = some key := by
        rintro _ hplace rfl
        obtain ⟨o', ho', hfound⟩ := hs.placed parent key h hplace
        exact ⟨o', hold ho', hfound⟩
      rcases slots with hslots | ⟨newKey, hkey, hfree, hslots⟩
      · rw [hslots] at hh
        exact hkept hh rfl
      · rw [hslots, Table.get?_insert] at hh
        split at hh
        · rename_i hplace
          cases hplace
          cases hh
          exact ⟨o, id ▸ hnew, rfl, hkey⟩
        · exact hkept hh rfl

theorem Reaches.inOrder (h : s.Reaches s') (hs : s.InOrder) : s'.InOrder := by
  induction h with
  | refl => exact hs
  | step op before valid performed ih => exact (perform_change valid performed).inOrder ih

/-! ### What a scene keeps of an earlier one -/

/-- The records and the places of an earlier scene are those of a later one. -/
structure Extends (s s' : Scene) : Prop where
  objects : s.objects <+: s'.objects
  slots : ∀ place h, s.slots.get? place = some h → s'.slots.get? place = some h

theorem Extends.refl (s : Scene) : s.Extends s := ⟨prefix_rfl, fun _ _ h => h⟩

theorem Extends.trans (h₁ : s.Extends s') (h₂ : s'.Extends s'') : s.Extends s'' :=
  ⟨h₁.objects.trans h₂.objects, fun place h hh => h₂.slots place h (h₁.slots place h hh)⟩

theorem Change.extends (h : s.Change s') : s.Extends s' := by
  cases h with
  | same objects slots used =>
    refine ⟨objects ▸ prefix_rfl, ?_⟩
    rw [slots]
    exact fun _ _ h => h
  | added o objects id fresh used taken slots =>
    refine ⟨objects ▸ prefix_append _ _, fun place h hh => ?_⟩
    rcases slots with hslots | ⟨key, -, hfree, hslots⟩
    · rw [hslots]
      exact hh
    · rw [hslots, Table.get?_insert, if_neg]
      · exact hh
      · rintro rfl
        rw [hfree] at hh
        cases hh

theorem Reaches.extends (h : s.Reaches s') : s.Extends s' := by
  induction h with
  | refl => exact .refl s
  | step op before valid performed ih => exact ih.trans (perform_change valid performed).extends

/-! ### Places -/

/-- A place that was asked for has its object. -/
theorem child_place (s : Scene) (parent : Option Nat) (key : String) (kind : ObjectKind)
    (hint : String) :
    (s.child parent key kind hint).2.slots.get? (parent, key) =
      some (s.child parent key kind hint).1 := by
  unfold child
  cases hplace : s.slots.get? (parent, key) with
  | some handle => exact hplace
  | none => exact (Table.get?_insert _ _ _ _).trans (if_pos rfl)

/-- The object of a place is found there, and nothing is added. -/
theorem child_of_place {parent : Option Nat} (h : s.slots.get? (parent, key) = some handle)
    (kind : ObjectKind) (hint : String) : s.child parent key kind hint = (handle, s) := by
  unfold child
  rw [h]

/-- A field that was read is at the place of its key. -/
theorem read_place (hhandle : handle < s.objects.length)
    (h : s.read handle keyText baseText = .ok (reading, s')) :
    s'.slots.get? (some handle, placeKey keyText) = some reading.handle := by
  obtain ⟨text, hint, hread⟩ := read_eq_child handle keyText baseText
  obtain ⟨kind, hkind⟩ := hread s hhandle
  rw [hkind] at h
  cases h
  exact s.child_place _ _ _ _

theorem child_again {parent : Option Nat} {kind kind' : ObjectKind} {hint hint' : String}
    (h : (s.child parent key kind hint).2.Extends s') :
    s'.child parent key kind' hint' = ((s.child parent key kind hint).1, s') :=
  child_of_place (h.slots _ _ (s.child_place parent key kind hint)) kind' hint'

theorem service_again (h : (s.service key).2.Extends s') :
    s'.service key = ((s.service key).1, s') :=
  child_again h

theorem readGlobal_again {name : String} (h : (s.readGlobal name).2.Extends s') :
    s'.readGlobal name = ((s.readGlobal name).1, s') := by
  unfold readGlobal at h ⊢
  split
  · rfl
  · rename_i hname
    rw [if_neg hname] at h
    cases halias : aliasedService? name with
    | none => rfl
    | some key =>
      rw [halias] at h
      dsimp only
      rw [service_again h]

theorem read_again (hhandle : handle < s.objects.length)
    (h : s.read handle keyText baseText = .ok (reading, s')) (hs' : s.Extends s')
    (hextends : s'.Extends s'') : s''.read handle keyText baseText = .ok (reading, s'') := by
  obtain ⟨text, hint, hread⟩ := read_eq_child handle keyText baseText
  obtain ⟨kind, hkind⟩ := hread s hhandle
  rw [hkind] at h
  cases h
  have hlater := (hs'.trans hextends).objects.length_le
  obtain ⟨kind', hkind'⟩ := hread s'' (Nat.lt_of_lt_of_le hhandle hlater)
  rw [hkind', child_again hextends]

/-- An operation on handles of objects is carried out. -/
theorem InOrder.performs (hs : s.InOrder) (hvalid : op.Valid s) :
    ∃ answer s', s.perform op = .ok (answer, s') := by
  cases op with
  | read handle keyText baseText =>
    obtain ⟨reading, s', hread, -⟩ := read_holds hs.sound hvalid keyText baseText
    exact ⟨some reading.handle, s', by rw [perform, hread]; rfl⟩
  | call site =>
    obtain ⟨outcome, s', hcall, -⟩ := call_holds hs.sound hvalid
    exact ⟨outcome.handle, s', by rw [perform, hcall]; rfl⟩
  | _ => exact ⟨_, _, rfl⟩

/-- A question asked again is answered as before, and changes nothing. -/
theorem perform_again {answer : Option Nat} (hlookup : op.IsLookup) (hvalid : op.Valid s)
    (h : s.perform op = .ok (answer, s')) (hextends : s'.Extends s'') :
    s''.perform op = .ok (answer, s'') := by
  have hs' := (perform_change hvalid h).extends
  cases op with
  | service key =>
    cases h
    rw [perform, service_again hextends]
  | readGlobal name =>
    cases h
    rw [perform, readGlobal_again hextends]
  | read handle keyText baseText =>
    rw [perform] at h ⊢
    cases hread : s.read handle keyText baseText with
    | error fault =>
      rw [hread] at h
      cases h
    | ok found =>
      rw [hread] at h
      cases h
      rw [read_again hvalid hread hs' hextends]
      rfl
  | _ => exact hlookup.elim

/-- **Objects keep their records, and each has a name of its own.**  Whatever is asked of a
fresh scene and of the names that it shares, its records are in order, those that are there
stay, an operation on handles of objects is carried out, and a question that is asked again
gives the same handle and adds nothing. -/
theorem records_stay (names : NameSupply) (h : (openedOn names).Reaches s) :
    s.InOrder ∧ (∀ s', s.Reaches s' → s.objects <+: s'.objects) ∧
      (∀ op : Operation, op.Valid s → ∃ answer s', s.perform op = .ok (answer, s')) ∧
      ∀ op : Operation, op.IsLookup → op.Valid s → ∀ answer s' s'',
        s.perform op = .ok (answer, s') → s'.Reaches s'' → s''.perform op = .ok (answer, s'') := by
  have hs := h.inOrder (openedOn_inOrder names)
  refine ⟨hs, fun s' hs' => hs'.extends.objects, fun op hvalid => hs.performs hvalid, ?_⟩
  intro op hlookup hvalid answer s' s'' hperform hreaches
  exact perform_again hlookup hvalid hperform hreaches.extends

/-- A scene in which a name was handed out, and the players and a field of theirs were read. -/
def lobby : Scene :=
  let s := ((openedOn {}).uniqueName "Players").2
  let s := (s.service "Players").2
  (s.child (some 1) "LocalPlayer" .generic "LocalPlayer").2

theorem records_stay_lobby :
    lobby.objects.map (·.name) = ["game", "Players_2", "LocalPlayer"] ∧ lobby.InOrder ∧
      lobby.perform (.service "Players") = .ok (some 1, lobby) := by
  have hname : (openedOn {}).Reaches ((openedOn {}).uniqueName "Players").2 :=
    .step (.uniqueName "Players") .refl trivial rfl
  have hread : (((openedOn {}).uniqueName "Players").2.service "Players").2.Reaches lobby :=
    .step (.read 1 "\"LocalPlayer\"" "players") .refl (Nat.lt_succ_self 1) rfl
  have hlobby : (openedOn {}).Reaches lobby :=
    .step (.read 1 "\"LocalPlayer\"" "players")
      (.step (.service "Players") hname trivial rfl) (Nat.lt_succ_self 1) rfl
  refine ⟨by decide, (records_stay {} hlobby).1, ?_⟩
  exact (records_stay {} hname).2.2.2 (.service "Players") trivial trivial _ _ _ rfl hread

end LuaRecovery.Scene

/-
What a call asks of a scene.

A call is resolved by the first convention that fits.  What it is written as, the service that
it looks up and the record that it leaves depend on the call alone, and not on the scene: they
are given here as functions of the call, and `call_spec` says that a scene keeps to them.
-/
import LuaRecovery.Proofs.SceneRecords

namespace LuaRecovery.Scene

open List

/-! ### The form of a call -/

/-- The string that the first argument of a call is taken for. -/
def CallSite.first? (site : CallSite) : Option String := site.args.head?.bind Lua.unquote?

/-- The callee and the arguments as the call is written.  A literal called with a literal is a
library with one of its parts, and a call of the root with arguments is a look-up. -/
def CallSite.written (site : CallSite) : String × List String :=
  match Lua.unquote? site.callee, site.first? with
  | some library, some part =>
    (Lua.sanitize library ++ ":" ++ Lua.sanitize part, site.args.tail)
  | _, _ =>
    if site.calleeHandle = some rootHandle ∧ site.args ≠ [] then
      (site.callee ++ ":GetService", site.args)
    else (site.callee, site.args)

/-- A literal called with a literal. -/
def CallSite.OfLiterals (site : CallSite) : Prop :=
  (Lua.unquote? site.callee).isSome ∧ site.first?.isSome

instance (site : CallSite) : Decidable site.OfLiterals := inferInstanceAs (Decidable (_ ∧ _))

/-- The key of the service that a call looks up: the first argument of a call of the root, and
of a look-up on the root. -/
def CallSite.serviceKey? (site : CallSite) : Option String :=
  if site.OfLiterals then none
  else if site.calleeHandle = some rootHandle ∨
      site.receiver = some rootHandle ∧ site.method.any isServiceLookup then site.first?
  else none

/-- The record that a call leaves: as it is written, if it crosses the boundary then. -/
def CallSite.record? (site : CallSite) : Option CallRecord :=
  (category? site.written.1).map fun category => ⟨category, site.written.1, site.written.2⟩

theorem CallSite.written_of_not {site : CallSite} (h : ¬ site.OfLiterals) :
    site.written = if site.calleeHandle = some rootHandle ∧ site.args ≠ [] then
        (site.callee ++ ":GetService", site.args)
      else (site.callee, site.args) := by
  unfold written
  split
  · rename_i hlibrary hpart
    exact absurd ⟨Option.isSome_of_eq_some hlibrary, Option.isSome_of_eq_some hpart⟩ h
  · rfl

/-- A call looks nothing up if it is no call of the root with arguments and no look-up on the
root that begins with a literal. -/
theorem CallSite.serviceKey?_eq_none {site : CallSite}
    (hroot : ¬ (site.calleeHandle = some rootHandle ∧ site.args ≠ []))
    (hlookup : ¬ (site.receiver = some rootHandle ∧ site.method.any isServiceLookup ∧
      site.first?.isSome)) : site.serviceKey? = none := by
  unfold serviceKey?
  split
  · rfl
  split
  · rename_i hasks
    cases hfirst : site.first? with
    | none => rfl
    | some key =>
      have hargs : site.args ≠ [] := fun hargs => by
        rw [first?, hargs] at hfirst
        cases hfirst
      rcases hasks with hcallee | ⟨hreceiver, hmethod⟩
      · exact absurd ⟨hcallee, hargs⟩ hroot
      · exact absurd ⟨hreceiver, hmethod, Option.isSome_of_eq_some hfirst⟩ hlookup
  · rfl

variable {s s' : Scene} {site : CallSite} {outcome : CallOutcome}

/-! ### Resolving -/

/-- A call is resolved as it is written.  It looks up its service, or leaves the places alone. -/
theorem resolve_spec (h : s.resolve site = .ok (outcome, s')) :
    (outcome.callee, outcome.args) = site.written ∧ s'.calls = s.calls ∧
      ((∃ key, site.serviceKey? = some key ∧ outcome.handle = some (s.service key).1 ∧
          s' = (s.service key).2) ∨
        (site.serviceKey? = none ∧ s'.slots = s.slots)) := by
  have hfirst : site.args.head?.bind Lua.unquote? = site.first? := rfl
  unfold resolve at h
  dsimp only at h
  rw [hfirst] at h
  split at h
  · rename_i library part hlibrary hpart
    cases h
    have hliterals : site.OfLiterals :=
      ⟨Option.isSome_of_eq_some hlibrary, Option.isSome_of_eq_some hpart⟩
    rw [CallSite.written, hlibrary, hpart]
    exact ⟨rfl, rfl, .inr ⟨if_pos hliterals, rfl⟩⟩
  rename_i hliterals
  have hplain : ¬ site.OfLiterals := by
    rintro ⟨hlibrary, hpart⟩
    exact hliterals _ _ (Option.some_get hlibrary).symm (Option.some_get hpart).symm
  rw [CallSite.written_of_not hplain]
  split at h
  · rename_i hroot
    have hkey : site.serviceKey? = site.first? := by
      rw [CallSite.serviceKey?, if_neg hplain, if_pos (.inl hroot.1)]
    rw [if_pos hroot, hkey]
    split at h
    · rename_i key hsome
      cases h
      exact ⟨rfl, s.service_calls key, .inl ⟨key, hsome, rfl, rfl⟩⟩
    · rename_i hnone
      cases h
      exact ⟨rfl, rfl, .inr ⟨hnone, rfl⟩⟩
  rename_i hroot
  rw [if_neg hroot]
  split at h
  · rename_i hlookup
    obtain ⟨key, hsome⟩ := Option.isSome_iff_exists.mp hlookup.2.2
    have hkey : site.serviceKey? = some key := by
      rw [CallSite.serviceKey?, if_neg hplain, if_pos (.inr ⟨hlookup.1, hlookup.2.1⟩), hsome]
    rw [hsome] at h
    cases h
    exact ⟨rfl, s.service_calls key, .inl ⟨key, hkey, rfl, rfl⟩⟩
  rename_i hlookup
  -- What is left makes objects that are at no place.
  have hkey : site.serviceKey? = none := CallSite.serviceKey?_eq_none hroot hlookup
  split at h
  · cases h
    exact ⟨rfl, rfl, .inr ⟨hkey, rfl⟩⟩
  split at h
  · rename_i receiver method _ _
    cases hui : s.isUiLibrary receiver with
    | error fault =>
      rw [hui] at h
      cases h
    | ok ui =>
      rw [hui] at h
      cases ui <;> cases h <;> exact ⟨rfl, rfl, .inr ⟨hkey, rfl⟩⟩
  · cases h
    exact ⟨rfl, rfl, .inr ⟨hkey, rfl⟩⟩

/-- A call is made as it is written, and leaves its record behind those that are there. -/
theorem call_spec (h : s.call site = .ok (outcome, s')) :
    (outcome.callee, outcome.args) = site.written ∧ s'.calls = s.calls ++ site.record?.toList ∧
      ((∃ key, site.serviceKey? = some key ∧ outcome.handle = some (s.service key).1 ∧
          s'.objects = (s.service key).2.objects ∧ s'.slots = (s.service key).2.slots) ∨
        (site.serviceKey? = none ∧ s'.slots = s.slots)) := by
  obtain ⟨made, s₁, hresolve, hcallee, hargs, hhandle, rfl⟩ := call_resolves h
  obtain ⟨hwritten, hcalls, hplaces⟩ := resolve_spec hresolve
  rw [CallSite.record?, ← hwritten, hcallee, hargs, hhandle, ← hcalls]
  refine ⟨rfl, rfl, ?_⟩
  rcases hplaces with ⟨key, hkey, hgiven, rfl⟩ | hplaces
  · exact .inl ⟨key, hkey, hgiven, rfl, rfl⟩
  · exact .inr hplaces

/-! ### The boundary -/

/-- The segment of a callee behind its last dot or colon, or all of it if there is none. -/
structure IsLastSegment (callee segment : String) : Prop where
  plain : ∀ c ∈ segment.toList, c ≠ '.' ∧ c ≠ ':'
  ends : ∃ before, callee.toList = before ++ segment.toList ∧
    ∀ c, before.getLast? = some c → c = '.' ∨ c = ':'

/-- A character inside a segment. -/
def inSegment (c : Char) : Bool := c != '.' && c != ':'

theorem inSegment_iff {c : Char} : inSegment c = true ↔ c ≠ '.' ∧ c ≠ ':' := by
  rw [inSegment, Bool.and_eq_true, bne_iff_ne, bne_iff_ne]

theorem toList_lastSegment (callee : String) :
    (lastSegment callee).toList = (callee.toList.reverse.takeWhile inSegment).reverse :=
  String.toList_ofList

theorem isLastSegment_lastSegment (callee : String) :
    IsLastSegment callee (lastSegment callee) := by
  constructor
  · intro c hc
    rw [toList_lastSegment, mem_reverse] at hc
    exact inSegment_iff.mp (all_eq_true.mp all_takeWhile c hc)
  · refine ⟨(callee.toList.reverse.dropWhile inSegment).reverse, ?_, fun c hc => ?_⟩
    · rw [toList_lastSegment, ← reverse_append, takeWhile_append_dropWhile, reverse_reverse]
    · rw [getLast?_reverse] at hc
      have hout := head?_dropWhile_not inSegment callee.toList.reverse
      rw [hc] at hout
      by_cases hdot : c = '.'
      · exact .inl hdot
      by_cases hcolon : c = ':'
      · exact .inr hcolon
      · exact absurd (inSegment_iff.mpr ⟨hdot, hcolon⟩) (Bool.not_eq_true _ ▸ hout)

theorem IsLastSegment.eq {callee segment : String} (h : IsLastSegment callee segment) :
    segment = lastSegment callee := by
  obtain ⟨before, hcallee, hbefore⟩ := h.ends
  apply String.toList_injective
  have hnone : before.reverse.takeWhile inSegment = [] := by
    cases hlast : before.reverse with
    | nil => rfl
    | cons c rest =>
      have hc := hbefore c (by rw [← head?_reverse, hlast]; rfl)
      rw [takeWhile_cons_of_neg]
      rw [inSegment_iff]
      rintro ⟨hdot, hcolon⟩
      exact hc.elim hdot hcolon
  rw [toList_lastSegment, hcallee, reverse_append, takeWhile_append_of_pos, hnone,
    append_nil, reverse_reverse]
  exact fun c hc => inSegment_iff.mpr (h.plain c (mem_reverse.mp hc))

/-- A call crosses the boundary if the last segment of its callee is a function that does. -/
theorem category?_eq_some_iff {callee category : String} : category? callee = some category ↔
      ∃ segment, IsLastSegment callee segment ∧ (segment, category) ∈ boundaryCalls := by
  have hkeys : ∀ p ∈ boundaryCalls, boundaryCalls.lookup p.1 = some p.2 := fun p hp =>
    of_decide_eq_true (all_eq_true.mp
      (by decide : boundaryCalls.all fun p => boundaryCalls.lookup p.1 = some p.2) p hp)
  constructor
  · intro h
    obtain ⟨front, back, hpairs, -⟩ := lookup_eq_some_iff.mp h
    exact ⟨_, isLastSegment_lastSegment callee, hpairs ▸ mem_append_right _ mem_cons_self⟩
  · rintro ⟨segment, hsegment, hmem⟩
    rw [category?, ← hsegment.eq]
    exact hkeys _ hmem

/-- A call that crosses the boundary leaves a record of itself as it is written, and no other call
leaves one. -/
theorem CallSite.record?_eq_some_iff {record : CallRecord} :
    site.record? = some record ↔ record.name = site.written.1 ∧ record.args = site.written.2 ∧
      ∃ segment, IsLastSegment site.written.1 segment ∧
        (segment, record.category) ∈ boundaryCalls := by
  rw [← category?_eq_some_iff, record?, Option.map_eq_some_iff]
  constructor
  · rintro ⟨category, hcategory, rfl⟩
    exact ⟨rfl, rfl, hcategory⟩
  · rintro ⟨hname, hargs, hcategory⟩
    exact ⟨record.category, hcategory, by rw [← hname, ← hargs]⟩

end LuaRecovery.Scene

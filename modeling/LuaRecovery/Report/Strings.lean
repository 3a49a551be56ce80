/-
Reported strings.

A string is reported once, if it has a hint or is long, with a preview and its full
length.  Lengths count characters.  Whether a string without a hint is long cannot be
told while the length of long strings is open.
-/
import LuaRecovery.Options
import LuaRecovery.Report.Hint

namespace LuaRecovery.Report

/-- A reported string: a preview, why it is reported, and its full length. -/
structure StringReference where
  value : String
  hint : Option String
  fullLength : Int

/-- The length up to which a reported string is shown whole. -/
def previewLimit : Int := 60

/-- The text, or its start and an ellipsis if it is longer than the limit. -/
def preview (limit : Int) (s : String) : String :=
  if s.length ≤ limit then s
  else String.ofList (s.toList.take (limit - 3).toNat) ++ "..."

/-- The strings reported so far. -/
structure StringReport where
  /-- The length from which a string is long. -/
  threshold : Option Int
  /-- The strings that are reported, in full. -/
  seen : List String := []
  references : List StringReference := []

namespace StringReport

/-- Whether a string is long. -/
def isLong (r : StringReport) (s : String) : Except OptionFault Bool :=
  match r.threshold with
  | some threshold => .ok (decide (threshold ≤ s.length))
  | none => .error .noThreshold

/-- Why a string is worth reporting, if it is.  A string with a hint of its own is not
measured. -/
def hintFor (r : StringReport) (s : String) : Except OptionFault (Option String) :=
  match hint? s with
  | some hint => .ok (some hint)
  | none => (r.isLong s).map fun long => if long then some longHint else none

/-- The reference that a string with a hint adds to the report, if it adds one. -/
def newReference? (r : StringReport) (s : String) : Option String → Option StringReference
  | some hint =>
    if r.seen.contains s then none else some ⟨preview previewLimit s, some hint, s.length⟩
  | none => none

/-- The reference that a string adds to the report, if it adds one. -/
def reference (r : StringReport) (s : String) : Except OptionFault (Option StringReference) :=
  (r.hintFor s).map (r.newReference? s)

/-- The report with a reference to a string, if there is one. -/
def add (r : StringReport) (s : String) : Option StringReference → StringReport
  | some reference => { r with seen := s :: r.seen, references := r.references ++ [reference] }
  | none => r

/-- The report after a string was met. -/
def observe (r : StringReport) (s : String) : Except OptionFault StringReport :=
  (r.reference s).map (r.add s)

end StringReport

end LuaRecovery.Report

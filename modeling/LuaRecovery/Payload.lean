/-
Payloads.

A bytecode reader hands over a function as a tree of plain values.  A payload is such
a tree: the values of a JSON document, where an integer is unbounded and differs from
a float of the same value, together with byte strings.  An object keeps its fields in
the order in which they were written.
-/
import LuaRecovery.Table

namespace LuaRecovery

/-- A plain value, as a bytecode reader hands it over. -/
inductive Payload where
  | null
  | bool (b : Bool)
  | int (n : Int)
  | float (x : Float)
  | text (s : String)
  | bytes (bs : List UInt8)
  | list (items : List Payload)
  | object (fields : List (String × Payload))
  deriving Inhabited

namespace Payload

/-- The word for a payload's kind in messages. -/
def kind : Payload → String
  | null => "NoneType"
  | bool _ => "bool"
  | int _ => "int"
  | float _ => "float"
  | text _ => "str"
  | bytes _ => "bytes"
  | list _ => "list"
  | object _ => "dict"

/-- Whether a payload counts as given: null, false, zero and everything empty do not. -/
def isTruthy : Payload → Bool
  | null => false
  | bool b => b
  | int n => n != 0
  | float x => x != 0.0
  | text s => s != ""
  | bytes bs => bs != []
  | list items => !items.isEmpty
  | object fields => !fields.isEmpty

/-- Whether a payload is null. -/
def isNull : Payload → Bool
  | null => true
  | _ => false

/-- The elements of a payload that has elements: the characters of a text, the numbers
of a byte string, the items of a list, the names of an object's fields. -/
def elements? : Payload → Option (List Payload)
  | text s => some (s.toList.map fun c => .text (String.singleton c))
  | bytes bs => some (bs.map fun b => .int b.toNat)
  | list items => some items
  | object fields => some (fields.map fun f => .text f.1)
  | _ => none

/-- The value of the field `k`. -/
def field? (fields : List (String × Payload)) (k : String) : Option Payload :=
  Table.find k fields

/-- The value of the field `k` unless it is null. -/
def given? (fields : List (String × Payload)) (k : String) : Option Payload :=
  match field? fields k with
  | some .null => none
  | other => other

/-- The value of the first of the fields `ks` that is present and not null. -/
def firstGiven? (fields : List (String × Payload)) : List String → Option Payload
  | [] => none
  | k :: ks => match given? fields k with
    | some v => some v
    | none => firstGiven? fields ks

theorem mem_of_field? {fields : List (String × Payload)} {k : String} {v : Payload}
    (h : field? fields k = some v) : (k, v) ∈ fields := by
  induction fields with
  | nil => simp [field?, Table.find] at h
  | cons f rest ih =>
    obtain ⟨k', v'⟩ := f
    by_cases hk : k' = k
    · subst hk
      simp_all [field?, Table.find]
    · have h' : field? rest k = some v := by simpa [field?, Table.find, hk] using h
      exact List.mem_cons_of_mem _ (ih h')

theorem field?_of_given? {fields : List (String × Payload)} {k : String} {v : Payload}
    (h : given? fields k = some v) : field? fields k = some v := by
  unfold given? at h
  split at h <;> simp_all

/-- What `firstGiven?` finds is the value of some field. -/
theorem mem_of_firstGiven? {fields : List (String × Payload)} {ks : List String} {v : Payload}
    (h : firstGiven? fields ks = some v) : ∃ k, (k, v) ∈ fields := by
  induction ks with
  | nil => simp [firstGiven?] at h
  | cons k ks ih =>
    unfold firstGiven? at h
    split at h
    · rename_i w hw
      obtain rfl : w = v := by simpa using h
      exact ⟨k, mem_of_field? (field?_of_given? hw)⟩
    · exact ih h

end Payload

end LuaRecovery

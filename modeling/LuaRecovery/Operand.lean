/-
Operands.

An operand is a text together with the number it is known to be, which may be an exact
integer.  Terms are operands, and what an operation gives is a term again: its number is
the nearest float, and the operation is refused if the exact result is an integer past
the largest float.  On operands that are terms nothing is refused, and the results are
those of terms (`combine_ofTerm`, `negate_ofTerm`, `compare_ofTerm`).
-/
import LuaRecovery.Number
import LuaRecovery.Term

namespace LuaRecovery

/-- A text and the number it is known to be. -/
structure Operand where
  text : String
  value : Option Number := none

/-- Why an operation on operands is refused. -/
inductive OperandFault where
  /-- Two known numbers with a sign that no operator has. -/
  | unknownSign (sign : String)
  /-- An operator of two operands with one. -/
  | missingOperand (sign : String)
  /-- The exact result is past the largest float. -/
  | tooLarge

/-- The message for a refused operation. -/
def OperandFault.message : OperandFault → String
  | unknownSign sign => Payload.shownText sign
  | missingOperand sign => s!"binary operator {Payload.shownText sign} needs two operands"
  | tooLarge => LoadFault.integerTooLarge.message

/-- The number in a payload, which may be missing.  Integers stay exact. -/
def Number.ofPayload? : Payload → Except LoadFault (Option Number)
  | .null => .ok none
  | .bool b => .ok (some (.int (Payload.truthInt b)))
  | .int n => .ok (some (.int n))
  | p => p.toFloat.map fun x => some (.float x)

namespace Operand

/-- A term as an operand. -/
def ofTerm (t : Term) : Operand := ⟨t.text, t.value.map .float⟩

/-- The float that a result counts as: none if it is not finite. -/
def settle : Option Number → Except OperandFault (Option Float)
  | none => .ok none
  | some (.float z) => .ok (if z.isFinite then some z else none)
  | some (.int n) =>
    match Binary64.ofInt? n with
    | some z => .ok (some z)
    | none => .error .tooLarge

/-- The number that an operation on two operands gives, if it is known and finite. -/
def fold (op : ArithOp) (l r : Operand) : Except OperandFault (Option Float) :=
  match l.value, r.value with
  | some x, some y => settle (op.onNumbers? x y)
  | _, _ => .ok none

/-- An operation on two operands. -/
def combine (op : ArithOp) (l r : Operand) : Except OperandFault Term := do
  match ← fold op l r with
  | some z => return .known z
  | none => return .symbol (operationText op.sign l.text r.text)

/-- An operation given by its sign.  A sign that no operator has is refused on two known
numbers, and only written down otherwise. -/
def combineBySign (sign : String) (l r : Operand) : Except OperandFault Term :=
  match ArithOp.ofSign? sign, l.value, r.value with
  | some op, _, _ => combine op l r
  | none, some _, some _ => .error (.unknownSign sign)
  | none, _, _ => .ok (.symbol (operationText sign l.text r.text))

/-- The negative of an operand. -/
def negate (o : Operand) : Except OperandFault Term :=
  match o.value with
  | some (.float x) => .ok (.known (-x))
  | some (.int n) =>
    match Binary64.ofInt? (-n) with
    | some z => .ok (.known z)
    | none => .error .tooLarge
  | none => .ok (.symbol (negativeText o.text))

/-- A comparison of two operands. -/
def compare (rel : Relation) (l r : Operand) : Verdict :=
  match l.value, r.value with
  | some x, some y => Verdict.ofBool (rel.between x y)
  | _, _ => ⟨operationText rel.sign l.text r.text, none⟩

/-- A comparison given by its sign, refused like an operation. -/
def compareBySign (sign : String) (l r : Operand) : Except OperandFault Verdict :=
  match Relation.ofSign? sign, l.value, r.value with
  | some rel, _, _ => .ok (compare rel l r)
  | none, some _, some _ => .error (.unknownSign sign)
  | none, _, _ => .ok ⟨operationText sign l.text r.text, none⟩

/-- An operation that a scene carries out: `unm` negates its first operand, any other sign
needs two. -/
def arith (sign : String) (l : Operand) (r : Option Operand) : Except OperandFault Term :=
  if sign = "unm" then l.negate
  else match r with
    | some r => combineBySign sign l r
    | none => .error (.missingOperand sign)

/-! ### Terms as operands -/

/-- An operation on terms is that of terms. -/
theorem combine_ofTerm (op : ArithOp) (l r : Term) :
    combine op (ofTerm l) (ofTerm r) = .ok (Term.combine op l r) := by
  obtain ⟨lt, lv⟩ := l
  obtain ⟨rt, rv⟩ := r
  cases lv with
  | none => rfl
  | some x =>
    cases rv with
    | none => rfl
    | some y =>
      simp only [combine, fold, ofTerm, Option.map_some, ArithOp.onNumbers?_float,
        Term.combine, Term.fold?]
      cases op.carryOut? x y with
      | none => rfl
      | some z =>
        simp only [Option.map_some, settle, Option.filter]
        split <;> rfl

/-- The negative of a term is that of terms. -/
theorem negate_ofTerm (t : Term) : negate (ofTerm t) = .ok t.negate := by
  obtain ⟨text, value⟩ := t
  cases value <;> rfl

/-- A comparison of terms is that of terms. -/
theorem compare_ofTerm (rel : Relation) (l r : Term) :
    compare rel (ofTerm l) (ofTerm r) = Term.compare rel l r := by
  obtain ⟨lt, lv⟩ := l
  obtain ⟨rt, rv⟩ := r
  cases lv <;> cases rv <;> rfl

end Operand

end LuaRecovery

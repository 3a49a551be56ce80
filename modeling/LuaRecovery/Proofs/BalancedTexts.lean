/-
Texts whose brackets match.

Whether an operand needs parentheses is told by a scan that keeps the bracket depth and knows where
strings begin and end.  A text is balanced if a scan of all of it never falls below depth zero, and
ends there outside strings.  A scan that starts deeper goes the same way, only deeper, so a balanced
text can be put anywhere: in parentheses it has no gap, and between operators it leaves the depth as
it was.

The operands of a recovery stay balanced from then on.  What is made of them is a number, or their
texts with parentheses where they are needed and an operator between.
-/
import LuaRecovery.Operand
import LuaRecovery.Proofs.ExpressionText
import LuaRecovery.Proofs.NumeralTexts

namespace LuaRecovery

namespace Lua

namespace Scan

variable {s : Scan} {cs : List Char} {d : Int}

/-- The scan after some more characters. -/
def run (s : Scan) (cs : List Char) : Scan := cs.foldl step s

/-- Whether the depth is nowhere below zero. -/
def staysUp (s : Scan) : List Char → Bool
  | [] => decide (0 ≤ s.depth)
  | c :: rest => decide (0 ≤ s.depth) && (s.step c).staysUp rest

/-- The scan at a greater depth. -/
def deeper (s : Scan) (d : Int) : Scan := { s with depth := s.depth + d }

@[simp] theorem run_nil (s : Scan) : s.run [] = s := rfl

@[simp] theorem run_cons (s : Scan) (c : Char) (cs : List Char) :
    s.run (c :: cs) = (s.step c).run cs := rfl

theorem run_append (s : Scan) (xs ys : List Char) : s.run (xs ++ ys) = (s.run xs).run ys :=
  List.foldl_append

theorem staysUp_append (s : Scan) (xs ys : List Char) :
    s.staysUp (xs ++ ys) = (s.staysUp xs && (s.run xs).staysUp ys) := by
  induction xs generalizing s with
  | nil =>
    show s.staysUp ys = (s.staysUp [] && s.staysUp ys)
    cases ys with
    | nil => exact (Bool.and_self _).symm
    | cons c rest => simp [staysUp]
  | cons c rest ih => simp [staysUp, ih, Bool.and_assoc]

theorem hasGap_append (s : Scan) (xs ys : List Char) :
    s.hasGap (xs ++ ys) = (s.hasGap xs || (s.run xs).hasGap ys) := by
  induction xs generalizing s with
  | nil => simp [hasGap]
  | cons c rest ih => simp [hasGap, ih, Bool.or_assoc]

/-! ### Scanning at a greater depth -/

theorem step_deeper (s : Scan) (d : Int) (c : Char) :
    (s.deeper d).step c = (s.step c).deeper d := by
  obtain ⟨depth, quote, escaped⟩ := s
  cases quote with
  | some q =>
    by_cases hescaped : escaped = true
    · simp [step, deeper, hescaped]
    by_cases hbackslash : c = '\\'
    · simp [step, deeper, hescaped, hbackslash]
    by_cases hquote : c = q
    · subst hquote
      simp [step, deeper, hescaped, hbackslash]
    · simp [step, deeper, hescaped, hbackslash, hquote]
  | none =>
    by_cases hquote : c = '"' ∨ c = '\''
    · simp [step, deeper, hquote]
    by_cases hopen : c = '(' ∨ c = '[' ∨ c = '\x7b'
    · simp [step, deeper, hquote, hopen]
      omega
    by_cases hclose : c = ')' ∨ c = ']' ∨ c = '\x7d'
    · simp [step, deeper, hquote, hopen, hclose]
      omega
    · simp [step, deeper, hquote, hopen, hclose]

theorem run_deeper (s : Scan) (d : Int) (cs : List Char) :
    (s.deeper d).run cs = (s.run cs).deeper d := by
  induction cs generalizing s with
  | nil => rfl
  | cons c rest ih => rw [run_cons, run_cons, step_deeper, ih]

theorem staysUp_deeper (h : s.staysUp cs = true) (hd : 0 ≤ d) : (s.deeper d).staysUp cs = true := by
  induction cs generalizing s with
  | nil =>
    have hdepth : 0 ≤ s.depth := of_decide_eq_true h
    exact decide_eq_true (Int.add_nonneg hdepth hd)
  | cons c rest ih =>
    simp only [staysUp, Bool.and_eq_true, decide_eq_true_eq] at h ⊢
    exact ⟨Int.add_nonneg h.1 hd, by rw [step_deeper]; exact ih h.2⟩

/-- Above depth zero nothing is a gap. -/
theorem hasGap_deeper (h : s.staysUp cs = true) (hd : 0 < d) : (s.deeper d).hasGap cs = false := by
  induction cs generalizing s with
  | nil => rfl
  | cons c rest ih =>
    simp only [staysUp, Bool.and_eq_true, decide_eq_true_eq] at h
    have hdepth : ¬ s.depth + d = 0 := by omega
    rw [hasGap, step_deeper, ih h.2]
    simp [isGap, deeper, hdepth]

/-! ### Ends of strings -/

/-- Outside strings no character is escaped, and this stays so. -/
theorem escaped_run (h : s.quote = none → s.escaped = false) (cs : List Char) :
    (s.run cs).quote = none → (s.run cs).escaped = false := by
  induction cs generalizing s with
  | nil => exact h
  | cons c rest ih =>
    refine ih ?_
    obtain ⟨depth, quote, escaped⟩ := s
    cases quote with
    | some q => cases escaped <;> grind [step]
    | none => grind [step]

end Scan

/-! ### Balanced texts -/

/-- The brackets of a text match: a scan of all of it is nowhere below depth zero, and it ends at
depth zero and outside strings. -/
structure Balanced (t : String) : Prop where
  above : Scan.staysUp {} t.toList = true
  level : (Scan.run {} t.toList).depth = 0
  outside : (Scan.run {} t.toList).quote = none

instance : DecidablePred Balanced := fun t =>
  decidable_of_decidable_of_iff (p := Scan.staysUp {} t.toList = true ∧
    (Scan.run {} t.toList).depth = 0 ∧ (Scan.run {} t.toList).quote = none)
    ⟨fun h => ⟨h.1, h.2.1, h.2.2⟩, fun h => ⟨h.above, h.level, h.outside⟩⟩

variable {t : String}

/-- A scan ends after a balanced text as it began. -/
theorem Balanced.run_eq (h : Balanced t) : Scan.run {} t.toList = {} := by
  have hescaped := Scan.escaped_run (s := {}) (fun _ => rfl) t.toList h.outside
  have hlevel := h.level
  have houtside := h.outside
  generalize Scan.run {} t.toList = s at hescaped hlevel houtside ⊢
  obtain ⟨depth, quote, escaped⟩ := s
  cases hescaped
  cases hlevel
  cases houtside
  rfl

theorem Balanced.append {s t : String} (hs : Balanced s) (ht : Balanced t) : Balanced (s ++ t) := by
  have hrun : Scan.run {} (s ++ t).toList = {} := by
    rw [String.toList_append, Scan.run_append, hs.run_eq, ht.run_eq]
  refine ⟨?_, by rw [hrun], by rw [hrun]⟩
  rw [String.toList_append, Scan.staysUp_append, hs.above, hs.run_eq, ht.above]
  rfl

/-- Parentheses around a balanced text match too, and they hide its gaps. -/
theorem Balanced.parens (h : Balanced t) :
    Balanced ("(" ++ t ++ ")") ∧ needsParens ("(" ++ t ++ ")") = false := by
  have hchars : ("(" ++ t ++ ")").toList = '(' :: (t.toList ++ [')']) := by
    rw [String.toList_append, String.toList_append]
    rfl
  -- The text stands one level deeper, and so does the closing parenthesis.
  have hopened : Scan.step {} '(' = Scan.deeper {} 1 := rfl
  have hinner : Scan.run (Scan.deeper {} 1) t.toList = Scan.deeper {} 1 := by
    rw [Scan.run_deeper, h.run_eq]
  refine ⟨⟨?_, ?_, ?_⟩, ?_⟩
  · rw [hchars, Scan.staysUp, hopened, Scan.staysUp_append, hinner,
      Scan.staysUp_deeper h.above (by decide)]
    decide
  · rw [hchars, Scan.run_cons, hopened, Scan.run_append, hinner]
    rfl
  · rw [hchars, Scan.run_cons, hopened, Scan.run_append, hinner]
    rfl
  · rw [needsParens, hchars, Scan.hasGap, hopened, Scan.hasGap_append, hinner,
      Scan.hasGap_deeper h.above (by decide)]
    decide

/-- As an operand a balanced text is balanced and has no gap. -/
theorem Balanced.wrap (h : Balanced t) : Balanced (wrap t) ∧ needsParens (Lua.wrap t) = false := by
  unfold Lua.wrap
  split
  · exact h.parens
  · rename_i hgap
    exact ⟨h, Bool.not_eq_true _ ▸ hgap⟩

theorem wrap_of_not_needsParens (h : needsParens t = false) : wrap t = t := by
  rw [wrap, if_neg (by rw [h]; exact Bool.false_ne_true)]

/-! ### Texts without brackets -/

theorem Scan.step_plain {c : Char} (h : isPlain c = true) : Scan.step {} c = {} := by
  simp only [isPlain, Bool.not_eq_true', Bool.or_eq_false_iff, beq_eq_false_iff_ne] at h
  simp [Scan.step, h]

theorem balanced_of_plain (h : t.toList.all isPlain = true) : Balanced t := by
  have hscan : Scan.run {} t.toList = {} ∧ Scan.staysUp {} t.toList = true := by
    generalize t.toList = cs at h
    induction cs with
    | nil => exact ⟨rfl, rfl⟩
    | cons c rest ih =>
      rw [List.all_cons, Bool.and_eq_true] at h
      rw [Scan.run_cons, Scan.staysUp, Scan.step_plain h.1]
      exact ⟨(ih h.2).1, by rw [(ih h.2).2]; rfl⟩
  exact ⟨hscan.2, by rw [hscan.1], by rw [hscan.1]⟩

theorem isPlain_of_isNumberChar {c : Char} (h : isNumberChar c = true) : isPlain c = true :=
  isPlain_of_kind (by decide) h

theorem balanced_numberText (x : Float) : Balanced (numberText x) := by
  rcases numeral_numberText x with h | h
  · rw [h]
    decide
  · exact balanced_of_plain (List.all_eq_true.mpr fun c hc => isPlain_of_isNumberChar (h c hc))

end Lua

open Lua

/-! ### Operations -/

theorem balanced_operationText {sign left right : String} (hsign : Balanced sign)
    (hleft : Balanced left) (hright : Balanced right) :
    Balanced (operationText sign left right) :=
  .append (.append (.append (.append hleft.wrap.1 (by decide)) hsign) (by decide)) hright.wrap.1

theorem balanced_negativeText {text : String} (h : Balanced text) : Balanced (negativeText text) :=
  .append (by decide) h.wrap.1

theorem ArithOp.balanced_sign (op : ArithOp) : Balanced op.sign := by
  cases op <;> decide

theorem Relation.balanced_sign (rel : Relation) : Balanced rel.sign := by
  cases rel <;> decide

theorem Verdict.balanced_ofBool (truth : Bool) : Balanced (Verdict.ofBool truth).text := by
  cases truth <;> decide

/-! ### Exact integers -/

theorem Number.onFloats_float {f : Float → Float → Float} {x y z : Number}
    (h : onFloats f x y = some z) : ∃ w, z = .float w := by
  unfold onFloats at h
  cases hx : x.toFloat? with
  | none => simp [hx] at h
  | some a =>
    cases hy : y.toFloat? with
    | none => simp [hx, hy] at h
    | some b =>
      simp [hx, hy] at h
      exact ⟨_, h.symm⟩

theorem Number.exact_of_onBoth {f : Int → Int → Int} {g : Float → Float → Float} {x y : Number}
    {n : Int} (h : onBoth f g x y = some (.int n)) : (∃ a, x = .int a) ∧ ∃ b, y = .int b := by
  unfold onBoth at h
  split at h
  · exact ⟨⟨_, rfl⟩, _, rfl⟩
  · obtain ⟨w, hw⟩ := onFloats_float h
    cases hw

/-- An operation has an integer for its result only if both operands are integers. -/
theorem ArithOp.exact_of_onNumbers? {op : ArithOp} {x y : Number} {n : Int}
    (h : op.onNumbers? x y = some (.int n)) : (∃ a, x = .int a) ∧ ∃ b, y = .int b := by
  cases op with
  | add | sub | mul => exact Number.exact_of_onBoth h
  | div =>
    unfold onNumbers? at h
    dsimp only at h
    split at h
    · cases h
    · obtain ⟨z, -, hz⟩ := Option.map_eq_some_iff.mp h
      cases hz
  | mod =>
    change x.remainder? y = _ at h
    unfold Number.remainder? at h
    split at h
    · cases h
    · obtain ⟨q, -, h⟩ := Option.bind_eq_some_iff.mp h
      obtain ⟨k, -, h⟩ := Option.bind_eq_some_iff.mp h
      obtain ⟨p, hp, h⟩ := Option.bind_eq_some_iff.mp h
      obtain ⟨hx, b, rfl⟩ := Number.exact_of_onBoth h
      exact ⟨hx, (Number.exact_of_onBoth hp).2⟩
  | pow =>
    change x.power? y = _ at h
    unfold Number.power? at h
    split at h
    · exact ⟨⟨_, rfl⟩, _, rfl⟩
    · obtain ⟨w, hw⟩ := Number.onFloats_float h
      cases hw

namespace Operand

variable {l r : Operand}

/-- An operand that is known to be an exact integer. -/
def IsExact (o : Operand) : Prop := ∃ n, o.value = some (.int n)

/-- Only the exact result of two integers may be past the largest float. -/
theorem exact_of_fold_error {op : ArithOp} {fault : OperandFault}
    (h : fold op l r = .error fault) : fault = .tooLarge ∧ l.IsExact ∧ r.IsExact := by
  unfold fold at h
  split at h
  · rename_i x y hx hy
    unfold settle at h
    split at h
    · cases h
    · cases h
    · rename_i n hn
      obtain ⟨⟨a, rfl⟩, b, rfl⟩ := ArithOp.exact_of_onNumbers? hn
      split at h
      · cases h
      · cases h
        exact ⟨rfl, ⟨a, hx⟩, b, hy⟩
  · cases h

theorem combine_balanced (op : ArithOp) (hl : Balanced l.text) (hr : Balanced r.text) :
    (∃ t, combine op l r = .ok t ∧ Balanced t.text) ∨
      combine op l r = .error .tooLarge ∧ l.IsExact ∧ r.IsExact := by
  unfold combine
  cases hfold : fold op l r with
  | error fault =>
    obtain ⟨rfl, hexact⟩ := exact_of_fold_error hfold
    exact .inr ⟨rfl, hexact⟩
  | ok folded =>
    cases folded with
    | some z => exact .inl ⟨.known z, rfl, balanced_numberText z⟩
    | none => exact .inl ⟨_, rfl, balanced_operationText op.balanced_sign hl hr⟩

theorem negate_balanced {o : Operand} (h : Balanced o.text) :
    (∃ t, o.negate = .ok t ∧ Balanced t.text) ∨ o.negate = .error .tooLarge ∧ o.IsExact := by
  unfold negate
  split
  · exact .inl ⟨_, rfl, balanced_numberText _⟩
  · rename_i n hn
    split
    · exact .inl ⟨_, rfl, balanced_numberText _⟩
    · exact .inr ⟨rfl, n, hn⟩
  · exact .inl ⟨_, rfl, balanced_negativeText h⟩

theorem compare_balanced (rel : Relation) (hl : Balanced l.text) (hr : Balanced r.text) :
    Balanced (compare rel l r).text := by
  unfold compare
  split
  · exact Verdict.balanced_ofBool _
  · exact balanced_operationText rel.balanced_sign hl hr

end Operand

namespace Term

variable {l r : Term}

/-- Terms have no exact integers, so nothing is refused. -/
theorem combine_balanced (op : ArithOp) (hl : Balanced l.text) (hr : Balanced r.text) :
    Balanced (combine op l r).text := by
  have hcombined := Operand.combine_balanced (l := .ofTerm l) (r := .ofTerm r) op hl hr
  rw [Operand.combine_ofTerm] at hcombined
  rcases hcombined with ⟨t, ht, hbalanced⟩ | ⟨hrefused, -⟩
  · cases ht
    exact hbalanced
  · cases hrefused

theorem negate_balanced {t : Term} (h : Balanced t.text) : Balanced t.negate.text := by
  have hnegated := Operand.negate_balanced (o := .ofTerm t) h
  rw [Operand.negate_ofTerm] at hnegated
  rcases hnegated with ⟨u, hu, hbalanced⟩ | ⟨hrefused, -⟩
  · cases hu
    exact hbalanced
  · cases hrefused

theorem compare_balanced (rel : Relation) (hl : Balanced l.text) (hr : Balanced r.text) :
    Balanced (compare rel l r).text := by
  rw [← Operand.compare_ofTerm]
  exact Operand.compare_balanced rel hl hr

end Term

/-- Balanced texts stay so.  As an operand a balanced text is balanced, has no gap and is not
changed by being made an operand again.  And whatever is made of operands with balanced texts has
one: their combinations, negatives and comparisons.  Of terms there is always a result; of operands
that are exact integers there is none if it is past the largest float. -/
theorem operand_texts_stay_balanced : (∀ t, Balanced t →
      Balanced (wrap t) ∧ needsParens (wrap t) = false ∧ wrap (wrap t) = wrap t) ∧
    (∀ l r : Term, Balanced l.text → Balanced r.text →
      (∀ op, Balanced (Term.combine op l r).text) ∧ Balanced l.negate.text ∧
        ∀ rel, Balanced (Term.compare rel l r).text) ∧
    ∀ l r : Operand, Balanced l.text → Balanced r.text →
      (∀ op, (∃ t, Operand.combine op l r = .ok t ∧ Balanced t.text) ∨
        Operand.combine op l r = .error .tooLarge ∧ l.IsExact ∧ r.IsExact) ∧
      ((∃ t, l.negate = .ok t ∧ Balanced t.text) ∨ l.negate = .error .tooLarge ∧ l.IsExact) ∧
      ∀ rel, Balanced (Operand.compare rel l r).text := by
  refine ⟨fun t ht => ?_, fun l r hl hr => ?_, fun l r hl hr => ?_⟩
  · obtain ⟨hbalanced, hgap⟩ := ht.wrap
    exact ⟨hbalanced, hgap, wrap_of_not_needsParens hgap⟩
  · exact ⟨fun op => Term.combine_balanced op hl hr, Term.negate_balanced hl,
      fun rel => Term.compare_balanced rel hl hr⟩
  · exact ⟨fun op => Operand.combine_balanced op hl hr, Operand.negate_balanced hl,
      fun rel => Operand.compare_balanced rel hl hr⟩

/-- A parenthesis in a string does not count, and the space behind the call is a gap. -/
theorem quoted_parenthesis_stays_balanced :
    needsParens "f(\")\") + 1" = true ∧ wrap (wrap "f(\")\") + 1") = wrap "f(\")\") + 1" ∧
      Balanced (Term.combine .mul (.symbol "f(\")\") + 1") (.symbol "x[i]")).text ∧
      Balanced (Operand.compare .lt ⟨"f(\")\") + 1", none⟩ ⟨"3", some (.int 3)⟩).text := by
  have hcall : Balanced "f(\")\") + 1" := by decide
  obtain ⟨hwrap, hterms, hoperands⟩ := operand_texts_stay_balanced
  refine ⟨by decide, (hwrap _ hcall).2.2, ?_, ?_⟩
  · exact (hterms (.symbol _) (.symbol "x[i]") hcall (by decide)).1 .mul
  · exact (hoperands ⟨_, none⟩ ⟨"3", some (.int 3)⟩ hcall (by decide)).2.2 .lt

end LuaRecovery

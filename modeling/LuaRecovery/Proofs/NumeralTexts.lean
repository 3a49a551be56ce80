/-
The characters of numbers.

Whatever a number is, its text is made of letters, digits, points and signs.  Only the number
that is none is written otherwise, as a division in parentheses, because there is no literal for
it.  So nothing that opens, closes or breaks a text gets into it with a number.
-/
import LuaRecovery.Lua.Number
import LuaRecovery.Proofs.Literals

namespace LuaRecovery

/-- A character of a numeral, of its exponent, or of a name that stands for a number. -/
def isNumberChar (c : Char) : Bool := c.isAlphanum || c == '.' || c == '-' || c == '+'

/-- A text that is made of such characters. -/
def Numeral (cs : List Char) : Prop := ∀ c ∈ cs, isNumberChar c = true

instance : DecidablePred Numeral := fun cs =>
  decidable_of_decidable_of_iff (p := cs.all isNumberChar = true) List.all_eq_true

variable {c : Char}

/-- A character that no numeral has is not among those of one. -/
theorem Numeral.not_mem {cs : List Char} (h : Numeral cs) (hc : isNumberChar c = false) :
    c ∉ cs := by
  intro hmem
  rw [h c hmem] at hc
  cases hc

theorem numeral_cons {cs : List Char} (hc : isNumberChar c = true) (h : Numeral cs) :
    Numeral (c :: cs) :=
  List.forall_mem_cons.mpr ⟨hc, h⟩

theorem Numeral.append {xs ys : List Char} (hx : Numeral xs) (hy : Numeral ys) :
    Numeral (xs ++ ys) :=
  List.forall_mem_append.mpr ⟨hx, hy⟩

/-! ### Digits -/

theorem isNumberChar_of_isDigit (h : c.isDigit = true) : isNumberChar c = true := by
  have halphanum : c.isAlphanum = (c.isAlpha || c.isDigit) := rfl
  rw [isNumberChar, halphanum, h, Bool.or_true]
  rfl

theorem numeral_toDigits (n : Nat) : Numeral (Nat.toDigits 10 n) := fun _ hc =>
  isNumberChar_of_isDigit (Nat.isDigit_of_mem_toDigits (by decide) (by decide) hc)

theorem numeral_zeroPadded (width n : Nat) : Numeral (Text.zeroPadded width n) := fun _ hc =>
  isNumberChar_of_isDigit (Lua.isDigit_of_mem_zeroPadded hc)

theorem numeral_zeros (n : Nat) : Numeral (List.replicate n '0') := by
  intro c hc
  rw [List.eq_of_mem_replicate hc]
  rfl

theorem numeral_toString_nat (n : Nat) : Numeral (toString n).toList := by
  show Numeral (String.ofList (Nat.toDigits 10 n)).toList
  rw [String.toList_ofList]
  exact numeral_toDigits n

theorem numeral_toString_int (n : Int) : Numeral (toString n).toList := by
  cases n with
  | ofNat n => exact numeral_toString_nat n
  | negSucc n =>
    show Numeral ("-" ++ toString (n + 1)).toList
    rw [String.toList_append]
    exact .append (by decide) (numeral_toString_nat _)

/-! ### Decimals -/

namespace Decimal

theorem numeral_positional {ds : List Char} (h : Numeral ds) (leading : Int) :
    Numeral (positional ds leading) := by
  unfold positional
  split
  · exact numeral_cons rfl (numeral_cons rfl (.append (numeral_zeros _) h))
  · dsimp only
    split
    · exact .append (.append h (numeral_zeros _)) (by decide)
    · refine .append (fun c hc => h c (List.mem_of_mem_take hc)) (numeral_cons rfl ?_)
      exact fun c hc => h c (List.mem_of_mem_drop hc)

theorem numeral_scientific {ds : List Char} (h : Numeral ds) (leading : Int) :
    Numeral (scientific ds leading) := by
  have hsign : isNumberChar (if leading < 0 then '-' else '+') = true := by split <;> rfl
  unfold scientific
  refine .append ?_ (numeral_cons rfl (numeral_cons hsign (numeral_zeroPadded 2 _)))
  split
  · rename_i d e rest
    have hrest := List.forall_mem_cons.mp h
    exact numeral_cons hrest.1 (numeral_cons rfl hrest.2)
  · exact h

theorem numeral_text (x : Decimal) : Numeral x.text := by
  have hdigits := numeral_toDigits x.digits
  unfold text
  dsimp only
  split
  · exact numeral_positional hdigits _
  · exact numeral_scientific hdigits _

theorem numeral_write (x : Float) : Numeral (write x).toList := by
  unfold write
  split
  · split
    · decide
    · split <;> decide
  · rename_i f _
    have hdigits : Numeral (if f.mantissa = 0 then ['0', '.', '0']
        else (shortest f.mantissa f.exponent).text) := by
      split
      · decide
      · exact numeral_text _
    rw [String.toList_ofList]
    split
    · exact numeral_cons rfl hdigits
    · exact hdigits

end Decimal

/-- The text of a number is made of the characters of numerals, but for the number that is
none. -/
theorem Lua.numeral_numberText (x : Float) :
    numberText x = "(0/0)" ∨ Numeral (numberText x).toList := by
  unfold numberText
  split
  · split
    · exact .inl rfl
    · right
      split <;> decide
  · right
    split
    · split
      · exact numeral_toString_int _
      · exact Decimal.numeral_write x
    · exact Decimal.numeral_write x

end LuaRecovery

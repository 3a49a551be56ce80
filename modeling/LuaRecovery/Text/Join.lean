/-
Joining texts with a separator, and padding.
-/
namespace LuaRecovery.Text

/-- The texts in order with `sep` between neighbours. -/
def join (sep : String) : List String → String
  | [] => ""
  | [s] => s
  | s :: t :: rest => s ++ sep ++ join sep (t :: rest)

/-- The texts in order with a comma and a space between neighbours. -/
def commaList (parts : List String) : String := join ", " parts

/-- The characters of the decimal numeral of `n`, filled up with zeros to `width` places. -/
def zeroPadded (width n : Nat) : List Char :=
  let ds := Nat.toDigits 10 n
  List.replicate (width - ds.length) '0' ++ ds

end LuaRecovery.Text

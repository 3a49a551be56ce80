/-
Capital letters.

Mnemonics are written in the capitals A to Z and are looked up by the capital form
of a text.  The capital form of a character can have several letters: the ligature
U+FB01 becomes FI.  Only the characters whose whole capital form lies in A to Z can
be part of a mnemonic, so the table holds exactly those; every other character
stands for itself, and its capital form would not lie in A to Z either.
-/
namespace LuaRecovery.Text

/-- The capital form of a character, where that lies in A to Z; otherwise the
character itself. -/
def capital (c : Char) : List Char :=
  if 'a' ≤ c ∧ c ≤ 'z' then [c.toUpper]
  else match c.toNat with
    | 0x00DF => ['S', 'S']
    | 0x0131 => ['I']
    | 0x017F => ['S']
    | 0xFB00 => ['F', 'F']
    | 0xFB01 => ['F', 'I']
    | 0xFB02 => ['F', 'L']
    | 0xFB03 => ['F', 'F', 'I']
    | 0xFB04 => ['F', 'F', 'L']
    | 0xFB05 => ['S', 'T']
    | 0xFB06 => ['S', 'T']
    | _ => [c]

/-- The text with every character in capital form. -/
def capitals (s : String) : String := String.ofList (s.toList.flatMap capital)

end LuaRecovery.Text

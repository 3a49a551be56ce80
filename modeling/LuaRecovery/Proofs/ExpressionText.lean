/-
The texts of expressions.

The text of an expression is put together from those of its operands, each in parentheses if
it has a space outside parentheses.  This is so for every operand with an operator between
its own operands and for one that starts with a `not`, but not for one that starts with a
minus or a length sign.  Two things can go wrong there: two minus signs in a row are a
comment, and a sign before a power takes the whole power.

So a text without a double minus is read as the expression in which every sign before the base
of a power stands before the power (`regroup`), and a text with one is no expression.
-/
import LuaRecovery.Proofs.ExpressionGrammar

namespace LuaRecovery.Lua

open List

/-- What an operator before its operand is written with. -/
def UnaryOp.sign : UnaryOp → String
  | minus => "-"
  | invert => "not "
  | length => "#"

namespace Expr

/-! ### Texts -/

mutual

/-- The text of an expression. -/
def text : Expr → String
  | name id => id.val
  | unary op e => op.sign ++ wrap e.text
  | arith op l r => operationText op.sign l.text r.text
  | concat a b more => Text.join " .. " ((a.text :: b.text :: texts more).map wrap)

/-- The texts of expressions. -/
def texts : List Expr → List String
  | [] => []
  | e :: es => e.text :: texts es

end

theorem texts_eq_map (es : List Expr) : texts es = es.map text := by
  induction es with
  | nil => rfl
  | cons e es ih => rw [texts, ih, map_cons]

/-- The characters of an expression as an operand. -/
def operandChars (e : Expr) : List Char := (wrap e.text).toList

/-- The characters of the operands after the first one of a concatenation. -/
def chainChars (es : List Expr) : List Char :=
  es.flatMap fun e => ' ' :: '.' :: '.' :: ' ' :: e.operandChars

theorem toList_join_chain (first : String) (es : List Expr) :
    (Text.join " .. " (first :: es.map fun e => wrap e.text)).toList
      = first.toList ++ chainChars es := by
  induction es generalizing first with
  | nil => simp [Text.join, chainChars]
  | cons e es ih =>
    rw [map_cons, Text.join, String.toList_append, String.toList_append, ih]
    simp [chainChars, operandChars]

theorem toList_text_unary (op : UnaryOp) (e : Expr) :
    (unary op e).text.toList = op.sign.toList ++ e.operandChars := by
  rw [text, String.toList_append, operandChars]

theorem toList_text_arith (op : ArithOp) (l r : Expr) : (arith op l r).text.toList
      = l.operandChars ++ ' ' :: (op.sign.toList ++ ' ' :: r.operandChars) := by
  simp [text, operationText, operandChars]

theorem toList_text_concat (a b : Expr) (more : List Expr) :
    (concat a b more).text.toList = a.operandChars ++ chainChars (b :: more) := by
  rw [text, map_cons, map_cons, texts_eq_map, map_map]
  exact toList_join_chain (wrap a.text) (b :: more)

/-! ### Parentheses -/

/-- Whether the text of an expression has a space outside parentheses. -/
def isSpaced : Expr → Bool
  | name _ => false
  | unary op _ => op == .invert
  | arith _ _ _ => true
  | concat _ _ _ => true

end Expr

/-- A character that neither opens nor closes anything and is no space. -/
def isPlain (c : Char) : Bool :=
  !(c == '"' || c == '\'' || c == '(' || c == '[' || c == '\x7b' || c == ')' || c == ']'
    || c == '\x7d' || c == ' ')

/-- Characters without quotes in which brackets match: they have a gap if `gap` says so and
they are outside brackets, and the scan goes on as it was. -/
def Flat (gap : Bool) (cs : List Char) : Prop :=
  ∀ (d : Int) (rest : List Char), 0 ≤ d → Scan.hasGap { depth := d } (cs ++ rest)
      = ((gap && decide (d = 0)) || Scan.hasGap { depth := d } rest)

theorem Flat.append {g h : Bool} {xs ys : List Char} (hx : Flat g xs) (hy : Flat h ys) :
    Flat (g || h) (xs ++ ys) := by
  intro d rest hd
  rw [append_assoc, hx d _ hd, hy d _ hd]
  cases g <;> cases h <;> simp

theorem flat_nil : Flat false [] := fun d rest _ => by simp

variable {c : Char} {g : Bool}

theorem flat_plain (h : isPlain c = true) : Flat false [c] := by
  intro d rest _
  simp only [isPlain, Bool.not_eq_true', Bool.or_eq_false_iff, beq_eq_false_iff_ne] at h
  simp [Scan.hasGap, Scan.isGap, Scan.step, h]

theorem flat_space : Flat true [' '] := by
  intro d rest _
  by_cases hd : d = 0 <;> simp [Scan.hasGap, Scan.isGap, Scan.step, hd]

theorem flat_of_plain {cs : List Char} (h : cs.all isPlain = true) : Flat false cs := by
  induction cs with
  | nil => exact flat_nil
  | cons c cs ih =>
    rw [all_cons, Bool.and_eq_true] at h
    exact (flat_plain h.1).append (ih h.2)

/-- Nothing in parentheses is a gap. -/
theorem Flat.parens {cs : List Char} (h : Flat g cs) : Flat false ('(' :: (cs ++ [')'])) := by
  intro d rest hd
  have hin := h (d + 1) (')' :: rest) (by omega)
  have hne : ¬ d + 1 = 0 := by omega
  simp only [hne, decide_false, Bool.and_false, Bool.false_or] at hin
  simp [Scan.hasGap, Scan.isGap, Scan.step] at hin ⊢
  rw [hin]

theorem needsParens_of_flat {s : String} (h : Flat g s.toList) : needsParens s = g := by
  have hscan := h 0 [] (Int.le_refl 0)
  rw [append_nil] at hscan
  simpa [needsParens, Scan.hasGap] using hscan

theorem flat_wrap {s : String} (h : Flat g s.toList) : Flat false (wrap s).toList := by
  rw [wrap, needsParens_of_flat h]
  cases g with
  | false => exact h
  | true => simpa using h.parens

/-- A kind of character to which none of those belongs that the scan looks for. -/
theorem isPlain_of_kind {kind : Char → Bool}
    (hkind : ['"', '\'', '(', '[', '\x7b', ')', ']', '\x7d', ' '].all (!kind ·) = true)
    (h : kind c = true) : isPlain c = true := by
  have hne : ∀ x, kind x = false → (c == x) = false := by
    intro x hx
    rw [beq_eq_false_iff_ne]
    rintro rfl
    rw [h] at hx
    cases hx
  simp only [all_cons, Bool.and_eq_true, Bool.not_eq_true'] at hkind
  simp [isPlain, hne, hkind]

theorem isPlain_of_isNameChar (h : isNameChar c = true) : isPlain c = true :=
  isPlain_of_kind (by decide) h

/-- The characters of a name. -/
theorem Identifier.chars (id : Identifier) :
    ∃ c cs, id.val.toList = c :: cs ∧ isNameStart c = true ∧ (∀ x ∈ cs, isNameChar x = true) ∧
      isKeyword id.val = false := by
  obtain ⟨s, hs⟩ := id
  unfold isIdentifier at hs
  split at hs
  · cases hs
  · next c cs hchars =>
      simp only [Bool.and_eq_true, all_eq_true, Bool.not_eq_true'] at hs
      exact ⟨c, cs, hchars, hs.1.1, hs.1.2, hs.2⟩

theorem isNameChar_of_isNameStart (h : isNameStart c = true) : isNameChar c = true := by
  simp only [isNameStart, isNameChar, Char.isAlphanum, Bool.or_eq_true] at h ⊢
  exact h.imp_left .inl

theorem Identifier.isNameChar (id : Identifier) : ∀ c ∈ id.val.toList, isNameChar c = true := by
  obtain ⟨c, cs, hchars, hc, hcs, -⟩ := id.chars
  rw [hchars]
  exact forall_mem_cons.mpr ⟨isNameChar_of_isNameStart hc, hcs⟩

namespace Expr

theorem chainChars_cons (e : Expr) (es : List Expr) :
    chainChars (e :: es) = ' ' :: '.' :: '.' :: ' ' :: e.operandChars ++ chainChars es := rfl

theorem flat_chain {es : List Expr} (h : ∀ e ∈ es, Flat false e.operandChars) :
    Flat (!es.isEmpty) (chainChars es) := by
  induction es with
  | nil => exact flat_nil
  | cons e es ih =>
    have hrest := ih fun x hx => h x (mem_cons_of_mem _ hx)
    have hdots : Flat false ['.', '.'] := flat_of_plain (by decide)
    have hfirst := flat_space.append (hdots.append (flat_space.append (h e mem_cons_self)))
    exact hfirst.append hrest

/-- An expression is spaced exactly if its text has a gap. -/
theorem flat_text (e : Expr) : Flat e.isSpaced e.text.toList := by
  induction e using Expr.induct with
  | name id =>
    refine flat_of_plain (all_eq_true.mpr fun c hc => ?_)
    exact isPlain_of_isNameChar (id.isNameChar c hc)
  | unary op e ih =>
    rw [toList_text_unary]
    have hoperand : Flat false e.operandChars := flat_wrap ih
    cases op with
    | minus => exact (flat_plain (by decide)).append hoperand
    | length => exact (flat_plain (by decide)).append hoperand
    | invert =>
      have hnot : Flat false ['n', 'o', 't'] := flat_of_plain (by decide)
      exact (hnot.append flat_space).append hoperand
  | arith op l r ihl ihr =>
    rw [toList_text_arith]
    have hl : Flat false l.operandChars := flat_wrap ihl
    have hr : Flat false r.operandChars := flat_wrap ihr
    have hsign : Flat false op.sign.toList := flat_of_plain (by cases op <;> decide)
    exact hl.append (flat_space.append (hsign.append (flat_space.append hr)))
  | concat a b more iha ihb ihmore =>
    rw [toList_text_concat]
    have ha : Flat false a.operandChars := flat_wrap iha
    refine ha.append (flat_chain ?_)
    exact forall_mem_cons.mpr ⟨flat_wrap ihb, fun e he => flat_wrap (ihmore e he)⟩

theorem operandChars_eq (e : Expr) : e.operandChars =
    if e.isSpaced then '(' :: (e.text.toList ++ [')']) else e.text.toList := by
  rw [operandChars, wrap, needsParens_of_flat e.flat_text]
  cases e.isSpaced <;> simp

end Expr

/-! ### Words -/

theorem words_nil : words [] = [] := by
  rw [words, lexemes]
  rfl

variable {c : Char}

theorem words_sign {rest : List Char} (h : lexemeAt c rest = (.sign, 0)) :
    words (c :: rest) = ⟨.sign, [c]⟩ :: words rest := by
  rw [words, lexemes, h]
  rfl

variable (rest : List Char)

theorem words_dots : words ('.' :: '.' :: ' ' :: rest)
    = BinaryOp.concat.word :: words (' ' :: rest) := by
  have h : lexemeAt '.' ('.' :: ' ' :: rest) = (.sign, 1) := rfl
  rw [words, lexemes, h]
  rfl

theorem isNameStart_of_isBlank (h : Text.isBlank c = true) :
    isNameStart c = false ∧ c.isDigit = false := by
  simp only [Text.isBlank, Bool.or_eq_true, Bool.and_eq_true, decide_eq_true_eq, beq_iff_eq] at h
  have hunderscore : (c == '_') = false := by
    rw [beq_eq_false_iff_ne]
    rintro rfl
    revert h
    decide
  have halpha : c.isAlpha = (decide (c.val ≥ 'A'.val ∧ c.val ≤ 'Z'.val) ||
      (decide (c.val ≥ 'a'.val) && decide (c.val ≤ 'z'.val))) := rfl
  have hdigit : c.isDigit = (decide (c.val ≥ '0'.val) && decide (c.val ≤ '9'.val)) := rfl
  rw [isNameStart, hunderscore, halpha, hdigit]
  simp only [Bool.or_false, Bool.or_eq_false_iff, Bool.and_eq_false_iff, decide_eq_false_iff_not,
    ge_iff_le, UInt32.le_iff_toNat_le]
  have hval : c.toNat = c.val.toNat := rfl
  rw [hval] at h
  simp only [Char.reduceVal, UInt32.reduceToNat, Char.toNat_val, not_and, Nat.not_le]
  omega

theorem lexemeAt_blank (h : Text.isBlank c = true) (rest : List Char) :
    lexemeAt c rest = (.space, runLength Text.isBlank rest) := by
  have hne : ∀ x, Text.isBlank x = false → c ≠ x := by
    rintro x hx rfl
    rw [h] at hx
    cases hx
  obtain ⟨hstart, hdigit⟩ := isNameStart_of_isBlank h
  simp [lexemeAt, hne '-' (by decide), hne '[' (by decide), hne '"' (by decide),
    hne '\'' (by decide), hstart, hdigit, h]

theorem drop_runLength (p : Char → Bool) (cs : List Char) :
    cs.drop (runLength p cs) = cs.dropWhile p := by
  calc cs.drop (runLength p cs)
      = (cs.takeWhile p ++ cs.dropWhile p).drop (cs.takeWhile p).length := by
        rw [takeWhile_append_dropWhile, runLength]
    _ = cs.dropWhile p := drop_left

/-- Blanks before a word drop out. -/
theorem words_dropWhile (cs : List Char) : words (cs.dropWhile Text.isBlank) = words cs := by
  cases cs with
  | nil => rfl
  | cons c rest =>
    cases hc : Text.isBlank c with
    | false => rw [dropWhile_cons_of_neg (by rw [hc]; decide)]
    | true =>
      rw [dropWhile_cons_of_pos hc, words, words, lexemes.eq_def (c :: rest)]
      dsimp only
      rw [lexemeAt_blank hc, drop_runLength]
      rfl

theorem words_space : words (' ' :: rest) = words rest := by
  rw [← words_dropWhile, ← words_dropWhile rest]
  rfl

/-- Characters at which a word before them ends. -/
def Ends (rest : List Char) : Prop := ∀ c ∈ rest.head?, c = ' ' ∨ c = ')'

theorem ends_nil : Ends [] := nofun

theorem ends_space : Ends (' ' :: rest) := by
  rintro c ⟨⟩
  exact .inl rfl

theorem ends_paren : Ends (')' :: rest) := by
  rintro c ⟨⟩
  exact .inr rfl

theorem runLength_name {cs rest : List Char} (hcs : ∀ x ∈ cs, isNameChar x = true)
    (hrest : Ends rest) : runLength isNameChar (cs ++ rest) = cs.length := by
  rw [runLength, takeWhile_append_of_pos hcs]
  have hnone : rest.takeWhile isNameChar = [] := by
    cases rest with
    | nil => rfl
    | cons c rest =>
      rw [takeWhile_cons_of_neg]
      rcases hrest c rfl with rfl | rfl <;> decide
  rw [hnone, append_nil]

theorem words_name {cs rest : List Char} (hc : isNameStart c = true)
    (hcs : ∀ x ∈ cs, isNameChar x = true) (hrest : Ends rest) :
    words (c :: (cs ++ rest)) = ⟨.name, c :: cs⟩ :: words rest := by
  have hne : ∀ x, isNameStart x = false → c ≠ x := by
    rintro x hx rfl
    rw [hc] at hx
    cases hx
  have hat : lexemeAt c (cs ++ rest) = (.name, cs.length) := by
    simp [lexemeAt, hne '-' (by decide), hne '[' (by decide), hne '"' (by decide),
      hne '\'' (by decide), hc, runLength_name hcs hrest]
  rw [words, lexemes, hat, take_left, drop_left]
  rfl

/-- Characters that are read as words, before anything at which a word ends. -/
def Spelled (cs : List Char) (ws : List Lexeme) : Prop :=
  ∀ rest, Ends rest → words (cs ++ rest) = ws ++ words rest

/-- Words with parentheses around, if they are needed. -/
def grouped (spaced : Bool) (ws : List Lexeme) : List Lexeme :=
  if spaced then opening :: (ws ++ [closing]) else ws

namespace Expr

mutual

/-- The words of an expression. -/
def spelling : Expr → List Lexeme
  | name id => [⟨.name, id.val.toList⟩]
  | unary op e => op.word :: grouped e.isSpaced e.spelling
  | arith op l r => grouped l.isSpaced l.spelling ++
      (BinaryOp.arith op).word :: grouped r.isSpaced r.spelling
  | concat a b more => grouped a.isSpaced a.spelling ++
      BinaryOp.concat.word :: (grouped b.isSpaced b.spelling ++ chainSpelling more)

/-- The words of the operands after the second one of a concatenation. -/
def chainSpelling : List Expr → List Lexeme
  | [] => []
  | e :: es => BinaryOp.concat.word :: (grouped e.isSpaced e.spelling ++ chainSpelling es)

end

/-- The words of an expression as an operand. -/
def operand (e : Expr) : List Lexeme := grouped e.isSpaced e.spelling

/-- Whether an expression is a minus before something. -/
def isNegative : Expr → Bool
  | unary op _ => op == .minus
  | _ => false

mutual

/-- Whether somewhere in an expression a minus stands before a minus. -/
def doubles : Expr → Bool
  | name _ => false
  | unary op e => (op == .minus && e.isNegative) || e.doubles
  | arith _ l r => l.doubles || r.doubles
  | concat a b more => a.doubles || (b.doubles || anyDoubles more)

/-- Whether somewhere in one of some expressions a minus stands before a minus. -/
def anyDoubles : List Expr → Bool
  | [] => false
  | e :: es => e.doubles || anyDoubles es

end

theorem anyDoubles_eq_any (es : List Expr) : anyDoubles es = es.any doubles := by
  induction es with
  | nil => rfl
  | cons e es ih => rw [anyDoubles, ih, any_cons]

/-- What the text of an operand starts with. -/
theorem operandChars_head (e : Expr) :
    ∃ c cs, e.operandChars = c :: cs ∧ c ≠ '[' ∧ (c = '-' ↔ e.isNegative = true) := by
  rw [operandChars_eq]
  cases e with
  | name id =>
    obtain ⟨c, cs, hchars, hc, -⟩ := id.chars
    have hne : ∀ x, isNameStart x = false → c ≠ x := by
      rintro x hx rfl
      rw [hc] at hx
      cases hx
    exact ⟨c, cs, hchars, hne '[' (by decide), fun h => absurd h (hne '-' (by decide)), nofun⟩
  | unary op e =>
    rw [toList_text_unary]
    cases op with
    | minus => exact ⟨'-', _, rfl, by decide, fun _ => rfl, fun _ => rfl⟩
    | length => exact ⟨'#', _, rfl, by decide, fun h => absurd h (by decide), nofun⟩
    | invert => exact ⟨'(', _, rfl, by decide, fun h => absurd h (by decide), nofun⟩
  | arith op l r => exact ⟨'(', _, rfl, by decide, fun h => absurd h (by decide), nofun⟩
  | concat a b more => exact ⟨'(', _, rfl, by decide, fun h => absurd h (by decide), nofun⟩

theorem spelled_operand {e : Expr} (h : Spelled e.text.toList e.spelling) :
    Spelled e.operandChars e.operand := by
  rw [operandChars_eq, operand, grouped]
  cases e.isSpaced with
  | false => exact h
  | true =>
    intro rest _
    have hin := h (')' :: rest) (ends_paren rest)
    rw [words_sign rfl] at hin
    show words ('(' :: (e.text.toList ++ [')'] ++ rest)) = _
    rw [words_sign rfl, append_assoc, singleton_append, hin]
    simp [opening, closing]

end Expr

theorem lexemeAt_minus {c : Char} (h : c ≠ '-') (cs : List Char) :
    lexemeAt '-' (c :: cs) = (.sign, 0) := by
  have hnone : commentRest? (c :: cs) = none := by
    unfold commentRest?
    split
    · next heq => exact absurd (List.cons.inj heq).1 h
    · rfl
  simp only [lexemeAt, if_pos, hnone]
  rfl

theorem words_arithSign (op : ArithOp) (rest : List Char) :
    words (op.sign.toList ++ ' ' :: rest) = (BinaryOp.arith op).word :: words rest := by
  have hsign : ∃ c, op.sign.toList = [c] ∧ lexemeAt c (' ' :: rest) = (.sign, 0) := by
    cases op <;> exact ⟨_, rfl, rfl⟩
  obtain ⟨c, hc, hat⟩ := hsign
  rw [BinaryOp.word, hc, singleton_append, words_sign hat, words_space]

namespace Expr

theorem spelled_chain {es : List Expr} (h : ∀ e ∈ es, Spelled e.operandChars e.operand) :
    Spelled (chainChars es) (chainSpelling es) := by
  induction es with
  | nil => exact fun rest _ => rfl
  | cons e es ih =>
    intro rest hrest
    have hends : Ends (chainChars es ++ rest) := by
      cases es with
      | nil => exact hrest
      | cons => exact ends_space _
    have hmore := ih (fun x hx => h x (mem_cons_of_mem _ hx)) rest hrest
    rw [chainChars_cons]
    show words (' ' :: '.' :: '.' :: ' ' :: (e.operandChars ++ chainChars es ++ rest)) = _
    rw [words_space, words_dots, words_space, append_assoc,
      h e mem_cons_self _ hends, hmore, chainSpelling]
    simp [operand]

/-- A sign is a word of its own unless it is a minus before a minus. -/
theorem words_unary {op : UnaryOp} {e : Expr} (h : (op == .minus && e.isNegative) = false)
    (rest : List Char) :
    words ((unary op e).text.toList ++ rest) = op.word :: words (e.operandChars ++ rest) := by
  rw [toList_text_unary]
  cases op with
  | minus =>
    obtain ⟨c, cs, hchars, -, hminus⟩ := e.operandChars_head
    have hpositive : e.isNegative = false := by simpa using h
    have hc : c ≠ '-' := fun hc => by rw [hminus.mp hc] at hpositive; cases hpositive
    have hat : lexemeAt '-' (e.operandChars ++ rest) = (.sign, 0) := by
      rw [hchars]
      exact lexemeAt_minus hc _
    exact words_sign hat
  | length => exact words_sign rfl
  | invert =>
    show words ('n' :: (['o', 't'] ++ ' ' :: (e.operandChars ++ rest))) = _
    have hname : ∀ x ∈ ['o', 't'], isNameChar x = true := all_eq_true.mp (by decide)
    rw [words_name (by decide) hname (ends_space _), words_space]
    rfl

/-- Without a double minus, the text of an expression is read as its words. -/
theorem spelled_text (e : Expr) (h : e.doubles = false) : Spelled e.text.toList e.spelling := by
  induction e using Expr.induct with
  | name id =>
    intro rest hrest
    obtain ⟨c, cs, hchars, hc, hcs, -⟩ := id.chars
    rw [text, hchars, cons_append, words_name hc hcs hrest, spelling, hchars]
    rfl
  | unary op e ih =>
    rw [doubles, Bool.or_eq_false_iff] at h
    intro rest hrest
    rw [words_unary h.1, spelled_operand (ih h.2) rest hrest, spelling]
    rfl
  | arith op l r ihl ihr =>
    rw [doubles, Bool.or_eq_false_iff] at h
    intro rest hrest
    have hchars : (arith op l r).text.toList ++ rest
        = l.operandChars ++ ' ' :: (op.sign.toList ++ ' ' :: (r.operandChars ++ rest)) := by
      simp [toList_text_arith]
    rw [hchars, spelled_operand (ihl h.1) _ (ends_space _), words_space, words_arithSign,
      spelled_operand (ihr h.2) _ hrest, spelling]
    simp [operand]
  | concat a b more iha ihb ihmore =>
    rw [doubles, Bool.or_eq_false_iff, Bool.or_eq_false_iff] at h
    have hmore : ∀ e ∈ more, e.doubles = false := by
      simpa [anyDoubles_eq_any] using h.2.2
    intro rest hrest
    have hchain : Spelled (chainChars (b :: more)) (chainSpelling (b :: more)) :=
      spelled_chain (forall_mem_cons.mpr ⟨spelled_operand (ihb h.2.1),
        fun e he => spelled_operand (ihmore e he (hmore e he))⟩)
    have hfirst := spelled_operand (iha h.1) (chainChars (b :: more) ++ rest) (ends_space _)
    rw [toList_text_concat, append_assoc, hfirst, hchain rest hrest, spelling, chainSpelling]
    simp [operand]

end Expr

/-! ### Comments -/

theorem words_comment {c : Char} {cs : List Char} (hc : c ≠ '[') (hline : '\n' ∉ c :: cs) :
    words ('-' :: '-' :: c :: cs) = [] := by
  have hrun : runLength (· != '\n') (c :: cs) = (c :: cs).length := by
    have hall : ∀ x ∈ c :: cs, (x != '\n') = true := fun x hx =>
      bne_iff_ne.mpr fun heq => hline (heq ▸ hx)
    have htake : ((c :: cs) ++ []).takeWhile (· != '\n') = (c :: cs) ++ [] :=
      takeWhile_append_of_pos hall
    rw [append_nil] at htake
    rw [runLength, htake]
  have hrest : commentRest? ('-' :: c :: cs) = some (.comment, (c :: cs).length + 1) := by
    unfold commentRest?
    split
    · next rest heq =>
        obtain rfl : c :: cs = rest := (List.cons.inj heq).2
        split
        · next heq' => exact absurd (List.cons.inj heq').1 hc
        · rw [hrun, Nat.add_comm]
    · next hno => exact absurd rfl (hno (c :: cs))
  have hat : lexemeAt '-' ('-' :: c :: cs) = (.comment, (c :: cs).length + 1) := by
    simp only [lexemeAt, if_pos, hrest]
  have hdrop : ('-' :: c :: cs).drop ((c :: cs).length + 1) = [] := by simp
  rw [words, lexemes, hat, hdrop, lexemes]
  rfl

theorem not_endsOperand_nil : ¬ EndsOperand [] := by
  rintro ⟨t, h, -⟩
  cases h

theorem not_endsOperand_append {ws : List Lexeme} (h : ¬ EndsOperand ws) (hne : ws ≠ [])
    (before : List Lexeme) : ¬ EndsOperand (before ++ ws) := by
  rintro ⟨t, hlast, ht⟩
  rw [getLast?_append, getLast?_eq_some_getLast hne, Option.some_or] at hlast
  exact h ⟨t, (getLast?_eq_some_getLast hne).trans hlast, ht⟩

/-- A word that is neither a name nor a closing parenthesis. -/
def IsJoint (t : Lexeme) : Prop := t ≠ closing ∧ identifierOf? t = none

theorem not_endsOperand_cons {t : Lexeme} {ws : List Lexeme} (ht : IsJoint t)
    (h : ¬ EndsOperand ws) : ¬ EndsOperand (t :: ws) := by
  cases ws with
  | nil =>
    rintro ⟨x, hlast, hx⟩
    obtain rfl : t = x := Option.some.inj hlast
    rcases hx with hx | hx
    · exact ht.1 hx
    · rw [ht.2] at hx
      cases hx
  | cons w ws => exact not_endsOperand_append h (cons_ne_nil _ _) [t]

theorem isJoint_unary (op : UnaryOp) : IsJoint op.word := by
  cases op <;> exact ⟨by decide, by decide +kernel⟩

theorem isJoint_binary (op : BinaryOp) : IsJoint op.word := by
  rcases op with op | _
  · cases op <;> exact ⟨by decide, by decide +kernel⟩
  · exact ⟨by decide, by decide +kernel⟩

theorem isJoint_opening : IsJoint opening := ⟨by decide, by decide +kernel⟩

/-- Characters whose words do not end with an operand, whatever follows on the line. -/
def BreaksOff (cs : List Char) : Prop :=
  ∀ rest, '\n' ∉ rest → ¬ EndsOperand (words (cs ++ rest))

namespace Expr

variable {e : Expr}

theorem operandChars_inline (h : '\n' ∉ e.text.toList) : '\n' ∉ e.operandChars := by
  rw [operandChars_eq]
  split
  · simpa using h
  · exact h

theorem chainChars_inline {es : List Expr} (h : ∀ e ∈ es, '\n' ∉ e.operandChars) :
    '\n' ∉ chainChars es := by
  simpa [chainChars] using h

/-- The text of an expression is one line. -/
theorem text_inline (e : Expr) : '\n' ∉ e.text.toList := by
  induction e using Expr.induct with
  | name id =>
    intro h
    exact absurd (id.isNameChar _ h) (by decide)
  | unary op e ih =>
    rw [toList_text_unary, mem_append, not_or]
    exact ⟨by cases op <;> decide, operandChars_inline ih⟩
  | arith op l r ihl ihr =>
    have hsign : '\n' ∉ op.sign.toList := by cases op <;> decide
    have hl := operandChars_inline ihl
    have hr := operandChars_inline ihr
    simp [toList_text_arith, hsign, hl, hr]
  | concat a b more iha ihb ihmore =>
    rw [toList_text_concat, mem_append, not_or]
    refine ⟨operandChars_inline iha, chainChars_inline (forall_mem_cons.mpr ⟨?_, ?_⟩)⟩
    · exact operandChars_inline ihb
    · exact fun e he => operandChars_inline (ihmore e he)

theorem breaksOff_operand (h : BreaksOff e.text.toList) : BreaksOff e.operandChars := by
  rw [operandChars_eq]
  cases e.isSpaced with
  | false => exact h
  | true =>
    intro rest hrest
    show ¬ EndsOperand (words ('(' :: (e.text.toList ++ [')'] ++ rest)))
    rw [words_sign rfl, append_assoc]
    refine not_endsOperand_cons isJoint_opening (h _ ?_)
    simpa using hrest

theorem ends_chain (e : Expr) (es : List Expr) (rest : List Char) :
    Ends (chainChars (e :: es) ++ rest) := ends_space _

theorem words_chain (e : Expr) (es : List Expr) (rest : List Char) :
    words (chainChars (e :: es) ++ rest)
      = BinaryOp.concat.word :: words (e.operandChars ++ (chainChars es ++ rest)) := by
  have hchars : chainChars (e :: es) ++ rest
      = ' ' :: '.' :: '.' :: ' ' :: (e.operandChars ++ (chainChars es ++ rest)) := by
    simp [chainChars_cons]
  rw [hchars, words_space, words_dots, words_space]

theorem breaksOff_chain {es : List Expr}
    (h : ∀ e ∈ es, e.doubles = true → BreaksOff e.text.toList) (hes : es.any doubles = true) :
    BreaksOff (chainChars es) := by
  induction es with
  | nil => cases hes
  | cons e es ih =>
    intro rest hrest
    rw [words_chain]
    refine not_endsOperand_cons (isJoint_binary .concat) ?_
    cases hdoubles : e.doubles with
    | true =>
      refine breaksOff_operand (h e mem_cons_self hdoubles) _ ?_
      rw [mem_append, not_or]
      exact ⟨chainChars_inline fun x _ => operandChars_inline x.text_inline, hrest⟩
    | false =>
      rw [any_cons, hdoubles, Bool.false_or] at hes
      have hoff := ih (fun x hx => h x (mem_cons_of_mem _ hx)) hes rest hrest
      cases es with
      | nil => cases hes
      | cons next es =>
        rw [spelled_operand (e.spelled_text hdoubles) _ (ends_chain _ _ _)]
        refine not_endsOperand_append hoff ?_ _
        rw [words_chain]
        exact cons_ne_nil _ _

theorem double_of_isNegative {op : UnaryOp} (h : (op == .minus && e.isNegative) = true) :
    op = .minus ∧ ∃ e', e = unary .minus e' := by
  rw [Bool.and_eq_true, beq_iff_eq] at h
  cases e with
  | unary op' e' => exact ⟨h.1, e', by rw [beq_iff_eq.mp h.2]⟩
  | name | arith | concat => cases h.2

/-- With a double minus, the text of an expression breaks off in a comment. -/
theorem breaksOff_text (e : Expr) (h : e.doubles = true) : BreaksOff e.text.toList := by
  induction e using Expr.induct with
  | name id => cases h
  | unary op e ih =>
    intro rest hrest
    cases hpair : op == .minus && e.isNegative with
    | true =>
      obtain ⟨rfl, e', rfl⟩ := double_of_isNegative hpair
      obtain ⟨c, cs, hchars, hc, -⟩ := e'.operandChars_head
      have hline : '\n' ∉ e'.operandChars ++ rest := by
        simp [operandChars_inline e'.text_inline, hrest]
      have htext : (unary .minus (unary .minus e')).text.toList
          = '-' :: '-' :: e'.operandChars := by
        rw [toList_text_unary, operandChars_eq, toList_text_unary]
        rfl
      rw [hchars, cons_append] at hline
      rw [htext, hchars]
      show ¬ EndsOperand (words ('-' :: '-' :: c :: (cs ++ rest)))
      rw [words_comment hc hline]
      exact not_endsOperand_nil
    | false =>
      rw [doubles, hpair, Bool.false_or] at h
      rw [words_unary hpair]
      exact not_endsOperand_cons (isJoint_unary op) (breaksOff_operand (ih h) rest hrest)
  | arith op l r ihl ihr =>
    intro rest hrest
    have hchars : (arith op l r).text.toList ++ rest
        = l.operandChars ++ ' ' :: (op.sign.toList ++ ' ' :: (r.operandChars ++ rest)) := by
      simp [toList_text_arith]
    rw [hchars]
    cases hl : l.doubles with
    | true =>
      refine breaksOff_operand (ihl hl) _ ?_
      have hsign : '\n' ∉ op.sign.toList := by cases op <;> decide
      simp [hsign, operandChars_inline r.text_inline, hrest]
    | false =>
      rw [doubles, hl, Bool.false_or] at h
      rw [spelled_operand (l.spelled_text hl) _ (ends_space _), words_space, words_arithSign]
      refine not_endsOperand_append ?_ (cons_ne_nil _ _) _
      exact not_endsOperand_cons (isJoint_binary _) (breaksOff_operand (ihr h) rest hrest)
  | concat a b more iha ihb ihmore =>
    intro rest hrest
    rw [toList_text_concat, append_assoc]
    cases ha : a.doubles with
    | true =>
      refine breaksOff_operand (iha ha) _ ?_
      rw [mem_append, not_or]
      exact ⟨chainChars_inline fun x _ => operandChars_inline x.text_inline, hrest⟩
    | false =>
      rw [doubles, ha, Bool.false_or, anyDoubles_eq_any, ← any_cons] at h
      rw [spelled_operand (a.spelled_text ha) _ (ends_chain _ _ _)]
      refine not_endsOperand_append ?_ ?_ _
      · exact breaksOff_chain (forall_mem_cons.mpr ⟨ihb, ihmore⟩) h rest hrest
      · rw [words_chain]
        exact cons_ne_nil _ _

end Expr

end LuaRecovery.Lua

/-
How the texts of expressions are read.

A sign that stands before the base of a power is read as standing before the power.  With all
such signs moved there (`regroup`), an expression is what its text is read as, if there is no
double minus in it.  So its text is read as the expression itself exactly if it has neither a
double minus nor a power whose base is a minus or a length.
-/
import LuaRecovery.Proofs.ExpressionText

namespace LuaRecovery.Lua

open List

namespace Expr

/-! ### Signs before powers -/

/-- The number of signs that the text of an expression starts with. -/
def signCount : Expr → Nat
  | unary op e => if op = .invert then 0 else e.signCount + 1
  | _ => 0

/-- The power of a base, with the first signs of the base before the power. -/
def sink : Nat → Expr → Expr → Expr
  | k + 1, unary op e, r => unary op (sink k e r)
  | _, l, r => arith .pow l r

mutual

/-- The expression in which the signs before the base of a power stand before the power. -/
def regroup : Expr → Expr
  | name id => name id
  | unary op e => unary op e.regroup
  | arith op l r =>
    if op = .pow then sink l.signCount l.regroup r.regroup else arith op l.regroup r.regroup
  | concat a b more => concat a.regroup b.regroup (regroupAll more)

@[inherit_doc regroup]
def regroupAll : List Expr → List Expr
  | [] => []
  | e :: es => e.regroup :: regroupAll es

end

theorem signCount_of_isSpaced {e : Expr} (h : e.isSpaced = true) : e.signCount = 0 := by
  cases e with
  | name | arith | concat => rfl
  | unary op e => rw [signCount, if_pos (beq_iff_eq.mp h)]

theorem sink_zero (l r : Expr) : sink 0 l r = arith .pow l r := by
  rw [sink]
  nofun

/-! ### Reading -/

/-- As an operand an expression is read as it is regrouped, if no power follows a sign. -/
def AsOperand (e : Expr) : Prop :=
  ∀ limit rest v rest', e.signCount = 0 ∨ Stops unaryPriority rest →
    GoesOn limit e.regroup.alone rest v rest' → ReadsAs limit (e.operand ++ rest) v rest'

/-- As the base of a power an expression leaves its signs to the power. -/
def AsBase (l : Expr) : Prop :=
  ∀ r, AsOperand r → ∀ limit rest v rest', limit < (BinaryOp.arith .pow).leftPriority →
    Stops unaryPriority rest →
    GoesOn limit (sink l.signCount l.regroup r.regroup).alone rest v rest' →
    ReadsAs limit (l.operand ++ (BinaryOp.arith .pow).word :: (r.operand ++ rest)) v rest'

/-- By itself an expression is read as it is regrouped. -/
def AsWhole (e : Expr) : Prop :=
  ∃ u, Chain.seal u = e.regroup ∧ ∀ rest, Stops 0 rest → ReadsAs 0 (e.spelling ++ rest) u rest

end Expr

theorem Stops.mono {limit limit' : Nat} {ts : List Lexeme} (h : Stops limit ts)
    (hlimit : limit ≤ limit') : Stops limit' ts :=
  fun t ht op hop => Nat.le_trans (h t ht op hop) hlimit

theorem stops_nil (limit : Nat) : Stops limit [] := nofun

theorem unaryOf?_word (op : UnaryOp) : unaryOf? op.word = some op := by
  cases op <;> decide

theorem binaryOf?_word (op : BinaryOp) : binaryOf? op.word = some op := by
  rcases op with op | _
  · cases op <;> decide
  · decide

theorem stops_binary {limit : Nat} {op : BinaryOp} (h : op.leftPriority ≤ limit)
    (ts : List Lexeme) : Stops limit (op.word :: ts) := by
  rintro t ⟨⟩ op' hop
  rw [binaryOf?_word] at hop
  exact Option.some.inj hop ▸ h

theorem stops_closing (limit : Nat) (ts : List Lexeme) : Stops limit (closing :: ts) := by
  rintro t ⟨⟩ op hop
  rw [show binaryOf? closing = none by decide] at hop
  cases hop

/-- A name is no keyword, so it is no operator. -/
theorem unaryOf?_name (id : Identifier) : unaryOf? ⟨.name, id.val.toList⟩ = none := by
  obtain ⟨-, -, -, -, -, hkeyword⟩ := id.chars
  have hnot : UnaryOp.invert.word ≠ ⟨.name, id.val.toList⟩ := by
    intro h
    have hchars : "not".toList = id.val.toList := congrArg Lexeme.chars h
    rw [← String.toList_inj.mp hchars] at hkeyword
    revert hkeyword
    decide +kernel
  rw [unaryOf?, find?_eq_none]
  intro op _
  cases op with
  | minus | length => exact fun h => nomatch beq_iff_eq.mp h
  | invert => exact fun h => hnot (beq_iff_eq.mp h)

theorem identifierOf?_name (id : Identifier) : identifierOf? ⟨.name, id.val.toList⟩ = some id := by
  have htext : Lexeme.text ⟨.name, id.val.toList⟩ = id.val := String.ofList_toList
  unfold identifierOf?
  rw [dif_pos ⟨rfl, by rw [htext]; exact id.property⟩]
  exact congrArg some (Subtype.ext htext)

namespace Expr

theorem asOperand_name (id : Identifier) : AsOperand (name id) := by
  intro limit rest v rest' _ h
  have hunary : unaryOf? ⟨.name, id.val.toList⟩ = none := unaryOf?_name id
  have hid : identifierOf? ⟨.name, id.val.toList⟩ = some id := identifierOf?_name id
  exact reads_name hunary nofun hid h

variable {e : Expr}

theorem asOperand_of_asWhole (hspaced : e.isSpaced = true) (h : AsWhole e) : AsOperand e := by
  intro limit rest v rest' _ hgo
  obtain ⟨u, hu, hread⟩ := h
  have hinside := hread (closing :: rest) (stops_closing 0 rest)
  rw [operand, grouped, if_pos hspaced, cons_append, append_assoc]
  exact reads_group hinside (hu ▸ hgo)

theorem asWhole_of_asOperand (hspaced : e.isSpaced = false) (h : AsOperand e) : AsWhole e := by
  refine ⟨e.regroup.alone, rfl, fun rest hrest => ?_⟩
  have hread := h 0 rest _ _ (.inr (hrest.mono (Nat.zero_le _))) (goesOn_stop hrest)
  rwa [operand, grouped, hspaced, if_neg Bool.false_ne_true] at hread

theorem asOperand_sign {op : UnaryOp} (hop : op ≠ .invert) (h : AsOperand e) :
    AsOperand (unary op e) := by
  intro limit rest v rest' hrest hgo
  have hstops : Stops unaryPriority rest := by
    rcases hrest with hzero | hstops
    · rw [signCount, if_neg hop] at hzero
      cases hzero
    · exact hstops
  have hin := h unaryPriority rest _ _ (.inr hstops) (goesOn_stop hstops)
  have hspaced : (unary op e).isSpaced = false := beq_eq_false_iff_ne.mpr hop
  rw [operand, grouped, hspaced, if_neg Bool.false_ne_true, spelling]
  exact reads_unary (unaryOf?_word op) hin hgo

theorem asBase_of_asOperand {l : Expr} (hsigns : l.signCount = 0) (h : AsOperand l) : AsBase l := by
  intro r hr limit rest v rest' hlimit hrest hgo
  rw [hsigns, sink_zero] at hgo
  have hright : ReadsAs (BinaryOp.arith .pow).rightPriority (r.operand ++ rest) r.regroup.alone
      rest := hr _ _ _ _ (.inr hrest) (goesOn_stop (hrest.mono (by decide)))
  exact h limit _ _ _ (.inl hsigns) (goesOn_binary (binaryOf?_word _) hlimit hright hgo)

theorem asBase_sign {op : UnaryOp} (hop : op ≠ .invert) (h : AsBase e) : AsBase (unary op e) := by
  intro r hr limit rest v rest' hlimit hrest hgo
  rw [signCount, if_neg hop, regroup, sink] at hgo
  have hin := h r hr unaryPriority rest _ _ (by decide) hrest (goesOn_stop hrest)
  have hspaced : (unary op e).isSpaced = false := beq_eq_false_iff_ne.mpr hop
  rw [operand, grouped, hspaced, if_neg Bool.false_ne_true, spelling]
  exact reads_unary (unaryOf?_word op) hin hgo

theorem asWhole_invert (h : AsOperand e) : AsWhole (unary .invert e) := by
  refine ⟨(unary .invert e).regroup.alone, rfl, fun rest hrest => ?_⟩
  have hstops : Stops unaryPriority rest := hrest.mono (Nat.zero_le _)
  rw [spelling, regroup]
  exact reads_unary (unaryOf?_word .invert) (h _ rest _ _ (.inr hstops) (goesOn_stop hstops))
    (goesOn_stop hrest)

theorem asWhole_arith {op : ArithOp} {l r : Expr} (hl : AsOperand l) (hbase : AsBase l)
    (hr : AsOperand r) : AsWhole (arith op l r) := by
  refine ⟨(arith op l r).regroup.alone, rfl, fun rest hrest => ?_⟩
  have hstops : Stops unaryPriority rest := hrest.mono (Nat.zero_le _)
  rw [spelling, append_assoc, regroup]
  by_cases hop : op = .pow
  · subst hop
    rw [if_pos rfl]
    exact hbase r hr 0 rest _ _ (by decide) hstops (goesOn_stop hrest)
  · rw [if_neg hop]
    have htight : (BinaryOp.arith op).leftPriority ≤ unaryPriority := by
      cases op with
      | pow => exact absurd rfl hop
      | _ => decide
    have hright : ReadsAs (BinaryOp.arith op).rightPriority (r.operand ++ rest) r.regroup.alone
        rest := hr _ rest _ _ (.inr hstops) (goesOn_stop (hrest.mono (Nat.zero_le _)))
    have hloose : 0 < (BinaryOp.arith op).leftPriority := by cases op <;> decide
    refine hl 0 _ _ _ (.inr (stops_binary htight _)) ?_
    exact goesOn_binary (binaryOf?_word _) hloose hright (goesOn_stop hrest)

theorem reads_chain {b : Expr} {more : List Expr} (hb : AsOperand b)
    (hmore : ∀ e ∈ more, AsOperand e) {rest : List Lexeme} (hrest : Stops 0 rest) :
    ReadsAs BinaryOp.concat.rightPriority (b.operand ++ (chainSpelling more ++ rest))
      (b.regroup, regroupAll more) rest := by
  induction more generalizing b with
  | nil =>
    exact hb _ rest _ _ (.inr (hrest.mono (Nat.zero_le _)))
      (goesOn_stop (hrest.mono (Nat.zero_le _)))
  | cons e es ih =>
    have hnext := ih (hmore e mem_cons_self) fun x hx => hmore x (mem_cons_of_mem _ hx)
    have hwords : chainSpelling (e :: es) ++ rest
        = BinaryOp.concat.word :: (e.operand ++ (chainSpelling es ++ rest)) := by
      simp [chainSpelling, operand]
    rw [hwords]
    refine hb _ _ _ _ (.inr (stops_binary (by decide) _)) ?_
    exact goesOn_binary (binaryOf?_word .concat) (by decide) hnext
      (goesOn_stop (hrest.mono (Nat.zero_le _)))

theorem asWhole_concat {a b : Expr} {more : List Expr} (ha : AsOperand a) (hb : AsOperand b)
    (hmore : ∀ e ∈ more, AsOperand e) : AsWhole (concat a b more) := by
  refine ⟨(a.regroup, b.regroup :: regroupAll more), by rw [regroup]; rfl, fun rest hrest => ?_⟩
  have hwords : (concat a b more).spelling ++ rest = a.operand ++
      BinaryOp.concat.word :: (b.operand ++ (chainSpelling more ++ rest)) := by
    simp [spelling, operand]
  rw [hwords]
  refine ha 0 _ _ _ (.inr (stops_binary (by decide) _)) ?_
  exact goesOn_binary (binaryOf?_word .concat) (by decide) (reads_chain hb hmore hrest)
    (goesOn_stop hrest)

/-- Every expression is read in all three places. -/
theorem readable (e : Expr) : AsWhole e ∧ AsOperand e ∧ AsBase e := by
  -- With a space in its text it stands in parentheses where it is an operand.
  have hspaced : ∀ {e : Expr}, e.isSpaced = true → AsWhole e →
      AsWhole e ∧ AsOperand e ∧ AsBase e := fun hs h =>
    ⟨h, asOperand_of_asWhole hs h,
      asBase_of_asOperand (signCount_of_isSpaced hs) (asOperand_of_asWhole hs h)⟩
  induction e using Expr.induct with
  | name id =>
    have h := asOperand_name id
    exact ⟨asWhole_of_asOperand rfl h, h, asBase_of_asOperand rfl h⟩
  | unary op e ih =>
    by_cases hop : op = .invert
    · subst hop
      exact hspaced rfl (asWhole_invert ih.2.1)
    · have h := asOperand_sign hop ih.2.1
      exact ⟨asWhole_of_asOperand (beq_eq_false_iff_ne.mpr hop) h, h, asBase_sign hop ih.2.2⟩
  | arith op l r ihl ihr => exact hspaced rfl (asWhole_arith ihl.2.1 ihl.2.2 ihr.2.1)
  | concat a b more iha ihb ihmore =>
    exact hspaced rfl (asWhole_concat iha.2.1 ihb.2.1 fun e he => (ihmore e he).2.1)

/-- The text of an expression without a double minus is read as the expression regrouped. -/
theorem readExpr_text (h : e.doubles = false) : readExpr e.text = some e.regroup := by
  obtain ⟨⟨u, hu, hread⟩, -, -⟩ := e.readable
  have hwords := e.spelled_text h [] ends_nil
  rw [append_nil, words_nil] at hwords
  have hwhole := hread [] (stops_nil 0)
  rw [← hwords] at hwhole
  rw [readExpr_of_reads hwhole, hu]

/-- The text of an expression with a double minus is no expression. -/
theorem readExpr_text_of_doubles (h : e.doubles = true) : readExpr e.text = none := by
  have hoff := e.breaksOff_text h [] not_mem_nil
  rw [append_nil] at hoff
  exact readExpr_eq_none hoff

/-! ### Expressions that are read as they are -/

mutual

/-- Whether somewhere in an expression a power has a sign before its base. -/
def raisesSign : Expr → Bool
  | name _ => false
  | unary _ e => e.raisesSign
  | arith op l r => (op == .pow && l.signCount != 0) || (l.raisesSign || r.raisesSign)
  | concat a b more => a.raisesSign || (b.raisesSign || anyRaisesSign more)

/-- Whether somewhere in one of some expressions a power has a sign before its base. -/
def anyRaisesSign : List Expr → Bool
  | [] => false
  | e :: es => e.raisesSign || anyRaisesSign es

end

theorem regroupAll_eq_iff {es : List Expr} (h : ∀ e ∈ es, e.regroup = e ↔ e.raisesSign = false) :
    regroupAll es = es ↔ anyRaisesSign es = false := by
  induction es with
  | nil => simp [regroupAll, anyRaisesSign]
  | cons e es ih =>
    have hrest := ih fun x hx => h x (mem_cons_of_mem _ hx)
    rw [regroupAll, anyRaisesSign, List.cons.injEq, h e mem_cons_self, hrest, Bool.or_eq_false_iff]

/-- A power with signs before its base is not a power once it is regrouped. -/
theorem sink_regroup_ne {l : Expr} (h : l.signCount ≠ 0) (r : Expr) (op : ArithOp) (x y : Expr) :
    sink l.signCount l.regroup r ≠ arith op x y := by
  cases l with
  | name | arith | concat => exact absurd rfl h
  | unary op' e =>
    by_cases hop : op' = .invert
    · exact absurd (by rw [signCount, if_pos hop]) h
    · rw [signCount, if_neg hop, regroup, sink]
      nofun

theorem regroup_arith_eq_iff (op : ArithOp) (l r : Expr) : (arith op l r).regroup = arith op l r ↔
      ¬ (op = .pow ∧ l.signCount ≠ 0) ∧ l.regroup = l ∧ r.regroup = r := by
  rw [regroup]
  by_cases hop : op = .pow
  · subst hop
    by_cases hsigns : l.signCount = 0
    · simp [hsigns, sink_zero]
    · simp [hsigns, sink_regroup_ne hsigns]
  · simp [hop]

/-- Regrouping changes an expression exactly if a power has a sign before its base. -/
theorem regroup_eq_iff (e : Expr) : e.regroup = e ↔ e.raisesSign = false := by
  induction e using Expr.induct with
  | name id => simp [regroup, raisesSign]
  | unary op e ih => rw [regroup, raisesSign, unary.injEq, ih, and_iff_right rfl]
  | arith op l r ihl ihr =>
    rw [regroup_arith_eq_iff, ihl, ihr, raisesSign, Bool.or_eq_false_iff, Bool.or_eq_false_iff]
    simp
  | concat a b more iha ihb ihmore =>
    rw [regroup, raisesSign, concat.injEq, iha, ihb, regroupAll_eq_iff ihmore,
      Bool.or_eq_false_iff, Bool.or_eq_false_iff]

/-- The text of an expression is read as the expression exactly if it has neither a double
minus nor a power with a sign before its base. -/
theorem readExpr_text_eq_iff (e : Expr) :
    readExpr e.text = some e ↔ e.doubles = false ∧ e.raisesSign = false := by
  cases h : e.doubles with
  | true =>
    rw [readExpr_text_of_doubles h]
    simp
  | false => rw [readExpr_text h, Option.some.injEq, regroup_eq_iff, and_iff_right rfl]

end Expr

end LuaRecovery.Lua

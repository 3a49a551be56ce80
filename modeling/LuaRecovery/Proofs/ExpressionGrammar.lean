/-
Reading expressions.

Expressions over names, with the arithmetic operators, the operators before an operand and
concatenation, are read by the grammar of Lua 5.1: an operator takes what binds more tightly,
a chain of concatenations is one expression with all its operands, and two dashes start a
comment.  Reading is recursive descent with a limit: `subexpression` reads an expression whose
operators bind more tightly than the limit, and `operatorsAfter` goes on after its first operand.

The two work with a fuel, and twice the number of words suffices.  The rules at the end say so
once and for all, and later proofs use nothing else.
-/
import LuaRecovery.Term

namespace LuaRecovery.Lua

open List

/-! ### Expressions -/

/-- Whether a text is a name as the language has them. -/
def isIdentifier (s : String) : Bool :=
  match s.toList with
  | [] => false
  | c :: rest => isNameStart c && rest.all isNameChar && !isKeyword s

/-- A name as the language has them. -/
abbrev Identifier := { s : String // isIdentifier s = true }

/-- The operators before their operand. -/
inductive UnaryOp where
  | minus | invert | length
  deriving DecidableEq, Repr

/-- An expression over names.  A concatenation has at least two operands. -/
inductive Expr where
  | name (id : Identifier)
  | unary (op : UnaryOp) (e : Expr)
  | arith (op : ArithOp) (l r : Expr)
  | concat (first second : Expr) (more : List Expr)

/-- Induction on expressions. -/
theorem Expr.induct {P : Expr → Prop} (name : ∀ id, P (.name id))
    (unary : ∀ op e, P e → P (.unary op e))
    (arith : ∀ op l r, P l → P r → P (.arith op l r))
    (concat : ∀ a b more, P a → P b → (∀ e ∈ more, P e) → P (.concat a b more)) : ∀ e, P e := by
  intro e
  refine @Expr.rec P (fun es => ∀ e ∈ es, P e) name unary arith
    (fun a b more ha hb hmore => concat a b more ha hb hmore) nofun ?_ e
  intro e es he hes x hx
  rcases mem_cons.mp hx with rfl | hx
  · exact he
  · exact hes x hx

/-! ### Words -/

/-- The lexemes of a text that the grammar sees. -/
def words (cs : List Char) : List Lexeme := (lexemes cs).filter (!·.isSilent)

/-- The parentheses. -/
def opening : Lexeme := ⟨.sign, ['(']⟩

@[inherit_doc opening]
def closing : Lexeme := ⟨.sign, [')']⟩

/-- The word that an operator before its operand is written with. -/
def UnaryOp.word : UnaryOp → Lexeme
  | minus => ⟨.sign, ['-']⟩
  | invert => ⟨.name, ['n', 'o', 't']⟩
  | length => ⟨.sign, ['#']⟩

/-- The operators between operands. -/
inductive BinaryOp where
  | arith (op : ArithOp)
  | concat
  deriving DecidableEq, Repr

namespace BinaryOp

/-- All operators between operands. -/
def all : List BinaryOp :=
  [arith .add, arith .sub, arith .mul, arith .div, arith .mod, arith .pow, concat]

/-- The word that an operator is written with. -/
def word : BinaryOp → Lexeme
  | arith op => ⟨.sign, op.sign.toList⟩
  | concat => ⟨.sign, ['.', '.']⟩

/-- How tightly an operator binds what stands to its left. -/
def leftPriority : BinaryOp → Nat
  | arith .add | arith .sub => 6
  | arith .mul | arith .div | arith .mod => 7
  | arith .pow => 10
  | concat => 5

/-- How tightly an operator binds what stands to its right: less tightly than to its left, if
it groups to the right. -/
def rightPriority : BinaryOp → Nat
  | arith .add | arith .sub => 6
  | arith .mul | arith .div | arith .mod => 7
  | arith .pow => 9
  | concat => 4

end BinaryOp

/-- How tightly an operator before its operand binds. -/
def unaryPriority : Nat := 8

/-- The operator before an operand that a word is. -/
def unaryOf? (l : Lexeme) : Option UnaryOp := [.minus, .invert, .length].find? (·.word == l)

/-- The operator between operands that a word is. -/
def binaryOf? (l : Lexeme) : Option BinaryOp := BinaryOp.all.find? (·.word == l)

/-- The name that a word is. -/
def identifierOf? (l : Lexeme) : Option Identifier :=
  if h : l.kind = .name ∧ isIdentifier l.text = true then some ⟨l.text, h.2⟩ else none

/-! ### Reading -/

/-- An expression while it is read: the operands of a chain of concatenations that is not in
parentheses, or a single expression. -/
abbrev Chain := Expr × List Expr

/-- The expression that a chain is. -/
def Chain.seal : Chain → Expr
  | (a, []) => a
  | (a, b :: more) => .concat a b more

/-- A single expression. -/
def Expr.alone (e : Expr) : Chain := (e, [])

/-- An operator with what it was read between. -/
def BinaryOp.apply (op : BinaryOp) (u v : Chain) : Chain :=
  match op with
  | arith op => (Expr.arith op (Chain.seal u) (Chain.seal v)).alone
  | concat => (Chain.seal u, v.1 :: v.2)

mutual

/-- An expression whose operators bind more tightly than `limit`, and the words after it. -/
def subexpression : Nat → Nat → List Lexeme → Option (Chain × List Lexeme)
  | 0, _, _ => none
  | _ + 1, _, [] => none
  | fuel + 1, limit, t :: ts =>
    match unaryOf? t with
    | some op => do
      let (u, rest) ← subexpression fuel unaryPriority ts
      operatorsAfter fuel limit (Expr.unary op (Chain.seal u)).alone rest
    | none =>
      if t = opening then
        match subexpression fuel 0 ts with
        | some (u, c :: rest) =>
          if c = closing then operatorsAfter fuel limit (Chain.seal u).alone rest else none
        | _ => none
      else do operatorsAfter fuel limit (Expr.name (← identifierOf? t)).alone ts

/-- The operators after an operand `u`, as far as they bind more tightly than `limit`. -/
def operatorsAfter : Nat → Nat → Chain → List Lexeme → Option (Chain × List Lexeme)
  | 0, _, _, _ => none
  | _ + 1, _, u, [] => some (u, [])
  | fuel + 1, limit, u, t :: ts =>
    match binaryOf? t with
    | some op =>
      if limit < op.leftPriority then do
        let (v, rest) ← subexpression fuel op.rightPriority ts
        operatorsAfter fuel limit (op.apply u v) rest
      else some (u, t :: ts)
    | none => some (u, t :: ts)

end

/-- The expression that a text is. -/
def readExpr (text : String) : Option Expr :=
  let ts := words text.toList
  match subexpression (2 * ts.length + 1) 0 ts with
  | some (u, []) => some (Chain.seal u)
  | _ => none

/-! ### Rules -/

/-- Words are read as an expression up to some rest, with any fuel that suffices. -/
structure ReadsAs (limit : Nat) (ts : List Lexeme) (u : Chain) (rest : List Lexeme) : Prop where
  shorter : rest.length < ts.length
  run : ∀ fuel, 2 * ts.length ≤ fuel → subexpression fuel limit ts = some (u, rest)

/-- After an operand, words are read as operators with their operands up to some rest. -/
structure GoesOn (limit : Nat) (u : Chain) (ts : List Lexeme) (v : Chain) (rest : List Lexeme) :
    Prop where
  shorter : rest.length ≤ ts.length
  run : ∀ fuel, 2 * ts.length + 1 ≤ fuel → operatorsAfter fuel limit u ts = some (v, rest)

/-- Words at which operators end that bind no more tightly than `limit`. -/
def Stops (limit : Nat) (ts : List Lexeme) : Prop :=
  ∀ t ∈ ts.head?, ∀ op, binaryOf? t = some op → op.leftPriority ≤ limit

section

variable {limit : Nat} {t : Lexeme} {ts rest rest' : List Lexeme} {u v : Chain}

theorem goesOn_stop (h : Stops limit ts) : GoesOn limit u ts u ts := by
  refine ⟨Nat.le_refl _, fun fuel hfuel => ?_⟩
  obtain ⟨fuel, rfl⟩ : ∃ k, fuel = k + 1 := ⟨fuel - 1, by omega⟩
  cases ts with
  | nil => rw [operatorsAfter]
  | cons t ts =>
    rw [operatorsAfter]
    cases hop : binaryOf? t with
    | none => rfl
    | some op => exact if_neg (Nat.not_lt.mpr (h t rfl op hop))

theorem goesOn_binary {op : BinaryOp} {x : Chain} (ht : binaryOf? t = some op)
    (hlimit : limit < op.leftPriority) (hv : ReadsAs op.rightPriority ts v rest)
    (h : GoesOn limit (op.apply u v) rest x rest') : GoesOn limit u (t :: ts) x rest' := by
  have hshorter := hv.shorter
  have hshorter' := h.shorter
  refine ⟨by rw [length_cons]; omega, fun fuel hfuel => ?_⟩
  rw [length_cons] at hfuel
  obtain ⟨fuel, rfl⟩ : ∃ k, fuel = k + 1 := ⟨fuel - 1, by omega⟩
  rw [operatorsAfter, ht]
  dsimp only
  rw [if_pos hlimit, hv.run fuel (by omega)]
  exact h.run fuel (by omega)

theorem reads_unary {op : UnaryOp} (ht : unaryOf? t = some op)
    (hu : ReadsAs unaryPriority ts u rest)
    (h : GoesOn limit (Expr.unary op (Chain.seal u)).alone rest v rest') :
    ReadsAs limit (t :: ts) v rest' := by
  have hshorter := hu.shorter
  have hshorter' := h.shorter
  refine ⟨by rw [length_cons]; omega, fun fuel hfuel => ?_⟩
  rw [length_cons] at hfuel
  obtain ⟨fuel, rfl⟩ : ∃ k, fuel = k + 1 := ⟨fuel - 1, by omega⟩
  rw [subexpression, ht]
  dsimp only
  rw [hu.run fuel (by omega)]
  exact h.run fuel (by omega)

theorem reads_group (hu : ReadsAs 0 ts u (closing :: rest))
    (h : GoesOn limit (Chain.seal u).alone rest v rest') :
    ReadsAs limit (opening :: ts) v rest' := by
  have hshorter := hu.shorter
  have hshorter' := h.shorter
  rw [length_cons] at hshorter
  refine ⟨by rw [length_cons]; omega, fun fuel hfuel => ?_⟩
  rw [length_cons] at hfuel
  obtain ⟨fuel, rfl⟩ : ∃ k, fuel = k + 1 := ⟨fuel - 1, by omega⟩
  rw [subexpression, show unaryOf? opening = none by decide]
  dsimp only
  rw [if_pos rfl, hu.run fuel (by omega)]
  dsimp only
  rw [if_pos rfl]
  exact h.run fuel (by omega)

theorem reads_name {id : Identifier} (hunary : unaryOf? t = none) (hopening : t ≠ opening)
    (ht : identifierOf? t = some id) (h : GoesOn limit (Expr.name id).alone ts v rest) :
    ReadsAs limit (t :: ts) v rest := by
  have hshorter := h.shorter
  refine ⟨by rw [length_cons]; omega, fun fuel hfuel => ?_⟩
  rw [length_cons] at hfuel
  obtain ⟨fuel, rfl⟩ : ∃ k, fuel = k + 1 := ⟨fuel - 1, by omega⟩
  rw [subexpression, hunary]
  dsimp only
  rw [if_neg hopening, ht]
  exact h.run fuel (by omega)

end

theorem readExpr_of_reads {text : String} {u : Chain} (h : ReadsAs 0 (words text.toList) u []) :
    readExpr text = some (Chain.seal u) := by
  unfold readExpr
  dsimp only
  rw [h.run _ (Nat.le_succ _)]

/-! ### What is read ends with an operand -/

/-- Words that end with a name or a closing parenthesis. -/
def EndsOperand (ts : List Lexeme) : Prop :=
  ∃ t, ts.getLast? = some t ∧ (t = closing ∨ (identifierOf? t).isSome = true)

theorem EndsOperand.append {ts : List Lexeme} (h : EndsOperand ts) (before : List Lexeme) :
    EndsOperand (before ++ ts) := by
  obtain ⟨t, hlast, ht⟩ := h
  exact ⟨t, by rw [getLast?_append, hlast, Option.some_or], ht⟩

theorem EndsOperand.cons {ts : List Lexeme} (h : EndsOperand ts) (t : Lexeme) :
    EndsOperand (t :: ts) := h.append [t]

/-- Words that are left out of what is read, after some that end with an operand. -/
theorem EndsOperand.before {xs ys : List Lexeme} (hx : EndsOperand xs)
    (hy : ys = [] ∨ EndsOperand ys) : EndsOperand (xs ++ ys) := by
  rcases hy with rfl | hy
  · rwa [append_nil]
  · exact hy.append xs

/-- What is read with a fuel ends with an operand. -/
structure OperandLast (fuel : Nat) : Prop where
  read : ∀ limit ts u rest, subexpression fuel limit ts = some (u, rest) →
    ∃ used, ts = used ++ rest ∧ EndsOperand used
  goOn : ∀ limit u ts v rest, operatorsAfter fuel limit u ts = some (v, rest) →
    ∃ used, ts = used ++ rest ∧ (used = [] ∨ EndsOperand used)

theorem OperandLast.read_succ {fuel : Nat} (ih : OperandLast fuel) (limit : Nat)
    (ts : List Lexeme) (u : Chain) (rest : List Lexeme)
    (h : subexpression (fuel + 1) limit ts = some (u, rest)) :
    ∃ used, ts = used ++ rest ∧ EndsOperand used := by
  cases ts with
  | nil =>
    rw [subexpression] at h
    cases h
  | cons t ts =>
    rw [subexpression] at h
    split at h
    · obtain ⟨⟨v, rest₁⟩, hread, hgo⟩ := Option.bind_eq_some_iff.mp h
      obtain ⟨used, rfl, hused⟩ := ih.read _ _ _ _ hread
      obtain ⟨more, rfl, hmore⟩ := ih.goOn _ _ _ _ _ hgo
      exact ⟨t :: (used ++ more), by simp, (hused.before hmore).cons t⟩
    · split at h
      · split at h
        · next v c rest₁ hread =>
            obtain ⟨used, rfl, -⟩ := ih.read _ _ _ _ hread
            split at h
            · next hclosing =>
                obtain ⟨more, rfl, hmore⟩ := ih.goOn _ _ _ _ _ h
                refine ⟨t :: (used ++ [c]) ++ more, by simp, EndsOperand.before ?_ hmore⟩
                exact EndsOperand.cons ⟨c, getLast?_concat, .inl hclosing⟩ t
            · cases h
        · cases h
      · obtain ⟨id, hid, hgo⟩ := Option.bind_eq_some_iff.mp h
        obtain ⟨more, rfl, hmore⟩ := ih.goOn _ _ _ _ _ hgo
        refine ⟨[t] ++ more, rfl, EndsOperand.before ?_ hmore⟩
        exact ⟨t, rfl, .inr (by rw [hid]; rfl)⟩

theorem OperandLast.goOn_succ {fuel : Nat} (ih : OperandLast fuel) (limit : Nat) (u : Chain)
    (ts : List Lexeme) (v : Chain) (rest : List Lexeme)
    (h : operatorsAfter (fuel + 1) limit u ts = some (v, rest)) :
    ∃ used, ts = used ++ rest ∧ (used = [] ∨ EndsOperand used) := by
  cases ts with
  | nil =>
    rw [operatorsAfter] at h
    cases h
    exact ⟨[], rfl, .inl rfl⟩
  | cons t ts =>
    rw [operatorsAfter] at h
    split at h
    · split at h
      · obtain ⟨⟨x, rest₁⟩, hread, hgo⟩ := Option.bind_eq_some_iff.mp h
        obtain ⟨used, rfl, hused⟩ := ih.read _ _ _ _ hread
        obtain ⟨more, rfl, hmore⟩ := ih.goOn _ _ _ _ _ hgo
        exact ⟨t :: (used ++ more), by simp, .inr ((hused.before hmore).cons t)⟩
      · cases h
        exact ⟨[], rfl, .inl rfl⟩
    · cases h
      exact ⟨[], rfl, .inl rfl⟩

theorem operandLast (fuel : Nat) : OperandLast fuel := by
  induction fuel with
  | zero =>
    refine ⟨fun limit ts u rest h => ?_, fun limit u ts v rest h => ?_⟩
    · rw [subexpression.eq_def] at h
      cases h
    · rw [operatorsAfter.eq_def] at h
      cases h
  | succ fuel ih => exact ⟨ih.read_succ, ih.goOn_succ⟩

/-- A text whose words do not end with an operand is no expression. -/
theorem readExpr_eq_none {text : String} (h : ¬ EndsOperand (words text.toList)) :
    readExpr text = none := by
  unfold readExpr
  dsimp only
  split
  · next u hread =>
      obtain ⟨used, hused, hends⟩ := (operandLast _).read _ _ _ _ hread
      rw [append_nil] at hused
      exact absurd (hused ▸ hends) h
  · rfl

end LuaRecovery.Lua

/-
Expressions that read back.

There is code for every expression: the operands of an operation go to registers below that of
the result, so that computing one keeps the others.  The text that the recovered function
returns is then read by the grammar.  It is read as the expression again unless two minus
signs meet in it or a sign stands before the base of a power.
-/
import LuaRecovery.Proofs.ExpressionCode

namespace LuaRecovery

open List

open Lua (Expr Identifier UnaryOp)

/-! ### Code for expressions -/

/-- The opcode of an operator before its operand. -/
def Lua.UnaryOp.opcode : UnaryOp → Opcode
  | minus => .negate
  | invert => .invert
  | length => .length

/-- The opcode of an arithmetic operator. -/
def ArithOp.opcode : ArithOp → Opcode
  | add => .add
  | sub => .sub
  | mul => .mul
  | div => .div
  | mod => .mod
  | pow => .pow

namespace Lua.Expr

mutual

/-- The names in an expression. -/
def names : Expr → List String
  | name id => [id.val]
  | unary _ e => e.names
  | arith _ l r => l.names ++ r.names
  | concat a b more => a.names ++ (b.names ++ namesAll more)

/-- The names in expressions. -/
def namesAll : List Expr → List String
  | [] => []
  | e :: es => e.names ++ namesAll es

end

mutual

/-- Code that puts an expression in a register and writes none above it.  The names of
globals are looked up in `pool`. -/
def code (pool : List String) : Expr → Int → List Instruction
  | name id, reg => [{ opcode := .getGlobal, a := reg, b := pool.idxOf id.val }]
  | unary op e, reg => e.code pool reg ++ [{ opcode := op.opcode, a := reg, b := reg }]
  | arith op l r, reg =>
    l.code pool reg ++ (r.code pool (reg - 1)
      ++ [{ opcode := op.opcode, a := reg, b := reg, c := reg - 1 }])
  | concat a b more, reg =>
    codeAll pool more reg ++ b.code pool (reg - more.length)
      ++ a.code pool (reg - (more.length + 1 : Nat))
      ++ [{ opcode := .concat, a := reg, b := reg - (more.length + 1 : Nat), c := reg }]

/-- Code that puts expressions in the registers up to one. -/
def codeAll (pool : List String) : List Expr → Int → List Instruction
  | [], _ => []
  | e :: es, reg => codeAll pool es reg ++ e.code pool (reg - es.length)

end

/-- A function that computes an expression. -/
def function (e : Expr) : Prototype :=
  { instructions := e.code e.names 255 ++ [{ opcode := .ret, a := 255, b := 2 }]
    constants := e.names.map .string }

end Lua.Expr

namespace Sheet

variable {constants : List Constant} {s : Sheet} {e : Expr} {reg : Int}

theorem run_append (xs ys : List Instruction) :
    ∀ s : Sheet, s.run constants (xs ++ ys) = (s.run constants xs).bind (·.run constants ys) := by
  induction xs with
  | nil => exact fun _ => rfl
  | cons i xs ih =>
    intro s
    rw [cons_append, run, run, Option.bind_eq_bind, Option.bind_assoc]
    exact Option.bind_congr fun e _ => ih (s.put i.a e)

theorem run_singleton {i : Instruction} (h : s.value? constants i = some e) :
    s.run constants [i] = some (s.put i.a e) := by
  rw [run, h]
  rfl

theorem put_self (s : Sheet) (reg : Int) (e : Expr) : s.put reg e reg = some e := if_pos rfl

theorem put_above {r : Int} (h : reg < r) (s : Sheet) (e : Expr) : s.put reg e r = s r :=
  if_neg (by omega)

theorem all?_congr {s s' : Sheet} (registers : List Int) (h : ∀ r ∈ registers, s' r = s r) :
    s'.all? registers = s.all? registers := by
  induction registers with
  | nil => rfl
  | cons reg rest ih =>
    rw [all?, all?, h reg mem_cons_self, ih fun r hr => h r (mem_cons_of_mem _ hr)]

/-- Code that puts an expression in a register, whatever the sheet, and keeps the registers
above. -/
def Puts (constants : List Constant) (code : List Instruction) (reg : Int) (e : Expr) : Prop :=
  ∀ s : Sheet, ∃ s', s.run constants code = some s' ∧ s' reg = some e ∧ ∀ r, reg < r → s' r = s r

/-- Code that puts expressions in the registers up to one and keeps those above. -/
def PutsAll (constants : List Constant) (code : List Instruction) (reg : Int) (es : List Expr) :
    Prop :=
  ∀ s : Sheet, ∃ s', s.run constants code = some s' ∧
    s'.all? (Walking.range (reg - es.length + 1) reg) = some es ∧ ∀ r, reg < r → s' r = s r

/-- An instruction that ends code. -/
theorem run_append_value {code : List Instruction} {i : Instruction} {s s' : Sheet}
    (hrun : s.run constants code = some s') (hvalue : s'.value? constants i = some e) :
    s.run constants (code ++ [i]) = some (s'.put i.a e) := by
  rw [run_append, hrun]
  exact run_singleton hvalue

variable {pool : List String}

theorem getElem?_idxOf {name : String} (h : name ∈ pool) : pool[pool.idxOf name]? = some name := by
  have hlt : pool.idxOf name < pool.length := idxOf_lt_length_of_mem h
  have hsame : pool[pool.idxOf name] = name :=
    eq_of_beq (findIdx_getElem (p := (· == name)) (w := hlt))
  rw [getElem?_eq_getElem hlt, hsame]

theorem puts_name {id : Identifier} (h : id.val ∈ pool) (reg : Int) :
    Puts (pool.map .string) ((Expr.name id).code pool reg) reg (.name id) := by
  intro s
  have hvalue : s.value? (pool.map .string)
      { opcode := .getGlobal, a := reg, b := pool.idxOf id.val } = some (.name id) := by
    have hconstant : ({ constants := pool.map .string } : Registers).constant?
        (pool.idxOf id.val) = some (.string id.val) := by
      rw [Registers.constant?, if_pos (by omega), Int.toNat_natCast, getElem?_map, getElem?_idxOf h]
      rfl
    show (globalAt? (pool.map .string) (pool.idxOf id.val)).map Expr.name = _
    rw [globalAt?, hconstant]
    simp only [dif_pos id.property]
    rfl
  refine ⟨s.put reg (.name id), ?_, put_self _ _ _, fun r hr => put_above hr _ _⟩
  rw [Expr.code]
  exact run_singleton hvalue

theorem puts_unary (op : UnaryOp) (h : Puts constants (e.code pool reg) reg e) :
    Puts constants ((Expr.unary op e).code pool reg) reg (.unary op e) := by
  intro s
  obtain ⟨s₁, hrun, he, habove⟩ := h s
  have hvalue : s₁.value? constants { opcode := op.opcode, a := reg, b := reg } =
      some (.unary op e) := by
    have hmap : (s₁ reg).map (Expr.unary op) = some (.unary op e) := by rw [he]; rfl
    cases op <;> exact hmap
  refine ⟨s₁.put reg (.unary op e), ?_, put_self _ _ _, fun r hr => ?_⟩
  · rw [Expr.code]
    exact run_append_value hrun hvalue
  · rw [put_above hr, habove r hr]

theorem puts_arith {l r : Expr} (op : ArithOp) (hbase : reg < Registers.constantBase)
    (hl : Puts constants (l.code pool reg) reg l)
    (hr : Puts constants (r.code pool (reg - 1)) (reg - 1) r) :
    Puts constants ((Expr.arith op l r).code pool reg) reg (.arith op l r) := by
  intro s
  obtain ⟨s₁, hrun₁, hl₁, habove₁⟩ := hl s
  obtain ⟨s₂, hrun₂, hr₂, habove₂⟩ := hr s₁
  have hvalue : s₂.value? constants { opcode := op.opcode, a := reg, b := reg, c := reg - 1 } =
      some (.arith op l r) := by
    have hoperation : s₂.operation? op { opcode := op.opcode, a := reg, b := reg, c := reg - 1 } =
        some (.arith op l r) := by
      rw [operation?, if_pos ⟨hbase, by simp only; omega⟩]
      simp only [habove₂ reg (by omega), hl₁, hr₂]
      rfl
    cases op <;> exact hoperation
  refine ⟨s₂.put reg (.arith op l r), ?_, put_self _ _ _, fun k hk => ?_⟩
  · rw [Expr.code, run_append, hrun₁]
    exact run_append_value hrun₂ hvalue
  · rw [put_above hk, habove₂ k (by omega), habove₁ k hk]

theorem putsAll_nil (reg : Int) : PutsAll constants [] reg [] := by
  intro s
  refine ⟨s, rfl, ?_, fun _ _ => rfl⟩
  rw [Walking.range_of_lt (by simp only [length_nil]; omega)]
  rfl

theorem putsAll_cons {code first : List Instruction} {es : List Expr}
    (hes : PutsAll constants code reg es)
    (he : Puts constants first (reg - es.length) e) :
    PutsAll constants (code ++ first) reg (e :: es) := by
  intro s
  obtain ⟨s₁, hrun₁, hall₁, habove₁⟩ := hes s
  obtain ⟨s₂, hrun₂, he₂, habove₂⟩ := he s₁
  refine ⟨s₂, ?_, ?_, fun r hr => ?_⟩
  · rw [run_append, hrun₁]
    exact hrun₂
  · have hsame : s₂.all? (Walking.range (reg - es.length + 1) reg) = some es := by
      rw [← hall₁]
      refine all?_congr _ fun r hr => habove₂ r ?_
      obtain ⟨k, _, rfl⟩ := mem_map.mp hr
      omega
    rw [length_cons, Walking.range_of_le (by omega),
      show reg - ((es.length + 1 : Nat) : Int) + 1 = reg - es.length by omega, all?, he₂, hsame]
    rfl
  · rw [habove₂ r (by omega), habove₁ r hr]

theorem puts_concat {a b : Expr} {more : List Expr}
    (h : PutsAll constants (Expr.codeAll pool (a :: b :: more) reg) reg (a :: b :: more)) :
    Puts constants ((Expr.concat a b more).code pool reg) reg (.concat a b more) := by
  intro s
  obtain ⟨s₁, hrun, hall, habove⟩ := h s
  have hvalue : s₁.value? constants
      { opcode := .concat, a := reg, b := reg - (more.length + 1 : Nat), c := reg } =
      some (.concat a b more) := by
    show s₁.chain? (Walking.range (reg - (more.length + 1 : Nat)) reg) = _
    rw [chain?, show reg - ((more.length + 1 : Nat) : Int) =
      reg - (a :: b :: more).length + 1 by simp only [length_cons]; omega, hall]
  refine ⟨s₁.put reg (.concat a b more), ?_, put_self _ _ _, fun r hr => ?_⟩
  · rw [Expr.code]
    rw [Expr.codeAll, Expr.codeAll] at hrun
    exact run_append_value hrun hvalue
  · rw [put_above hr, habove r hr]

/-- The code for an expression puts it in its register. -/
theorem puts_code (pool : List String) (e : Expr) :
    ∀ {reg : Int}, reg < Registers.constantBase → e.names ⊆ pool →
      Puts (pool.map .string) (e.code pool reg) reg e := by
  induction e using Expr.induct with
  | name id =>
    intro reg _ hnames
    exact puts_name (hnames (by simp [Expr.names])) reg
  | unary op e ih =>
    intro reg hbase hnames
    exact puts_unary op (ih hbase hnames)
  | arith op l r ihl ihr =>
    intro reg hbase hnames
    rw [Expr.names, append_subset] at hnames
    exact puts_arith op hbase (ihl hbase hnames.1) (ihr (by omega) hnames.2)
  | concat a b more iha ihb ihmore =>
    intro reg hbase hnames
    rw [Expr.names, append_subset, append_subset] at hnames
    have hmore : ∀ es : List Expr, (∀ e ∈ es, e ∈ more) → Expr.namesAll es ⊆ pool →
        PutsAll (pool.map .string) (Expr.codeAll pool es reg) reg es := by
      intro es
      induction es with
      | nil =>
        intro _ _
        rw [Expr.codeAll]
        exact putsAll_nil reg
      | cons e es ih =>
        intro hmem hnames
        rw [Expr.namesAll, append_subset] at hnames
        rw [Expr.codeAll]
        exact putsAll_cons (ih (fun x hx => hmem x (mem_cons_of_mem _ hx)) hnames.2)
          (ihmore e (hmem e mem_cons_self) (by omega) hnames.1)
    refine puts_concat ?_
    rw [Expr.codeAll, Expr.codeAll]
    exact putsAll_cons (putsAll_cons (hmore more (fun _ h => h) hnames.2.2)
      (ihb (by omega) hnames.2.1)) (iha (by omega) hnames.1)

end Sheet

theorem Lua.Expr.computes_function (e : Expr) : e.function.Computes e := by
  obtain ⟨s, hrun, he, _⟩ := Sheet.puts_code e.names e (show 255 < Registers.constantBase by decide)
    (fun _ h => h) Sheet.blank
  exact ⟨_, _, s, rfl, rfl, rfl, hrun, he⟩

/-! ### Reading back -/

/-- Every expression is computed by a function, and every function that computes it is recovered
as the return of a text.  The text is read as the expression again exactly if no two minus
signs meet in it and no sign stands before the base of a power. -/
theorem expression_reads_back_iff (e : Expr) {o : Options} (ho : o.Plain) :
    (∃ p : Prototype, p.Computes e) ∧
    ∀ p : Prototype, p.Computes e → ∀ name path upvalues,
      ∃ r c text, p.build name path upvalues (Context.start o) = .ok r c ∧
        r.body = [.ret [text] none] ∧
        (Lua.readExpr text = some e ↔ e.doubles = false ∧ e.raisesSign = false) := by
  refine ⟨⟨e.function, e.computes_function⟩, fun p hp name path upvalues => ?_⟩
  obtain ⟨r, c, hbuild, hbody⟩ := Prototype.build_computes hp ho name path upvalues
  exact ⟨r, c, e.text, hbuild, hbody, e.readExpr_text_eq_iff⟩

/-- Options that only switch the simulation off. -/
def Options.unsimulated : Options := { simulate := some false }

theorem Options.unsimulated_plain : Options.unsimulated.Plain :=
  ⟨rfl, rfl, fun _ => rfl, by decide, 40, rfl⟩

/-- A product of a sum and a `not`, with a minus and a length sign inside. -/
def Lua.Expr.mixedOperators : Expr :=
  .arith .mul (.arith .add (.name ⟨"x", by decide +kernel⟩)
      (.unary .minus (.name ⟨"y", by decide +kernel⟩)))
    (.unary .invert (.concat (.unary .length (.name ⟨"t", by decide +kernel⟩))
      (.name ⟨"x", by decide +kernel⟩) []))

theorem mixedOperators_reads_back :
    ∃ r c text, Lua.Expr.mixedOperators.function.build "main" "main" []
        (Context.start .unsimulated) = .ok r c ∧
      r.body = [.ret [text] none] ∧ Lua.readExpr text = some Lua.Expr.mixedOperators := by
  obtain ⟨r, c, text, hbuild, hbody, hread⟩ :=
    (expression_reads_back_iff Lua.Expr.mixedOperators Options.unsimulated_plain).2 _
      Lua.Expr.mixedOperators.computes_function "main" "main" []
  exact ⟨r, c, text, hbuild, hbody, hread.mpr (by decide +kernel)⟩

/-- The global `x`, negated twice. -/
def Lua.Expr.negatedTwice : Expr :=
  .unary .minus (.unary .minus (.name ⟨"x", by decide +kernel⟩))

/-- A function that negates the global `x` twice and returns the result. -/
def Prototype.negatesTwice : Prototype :=
  { instructions :=
      [{ opcode := .getGlobal }, { opcode := .negate }, { opcode := .negate },
        { opcode := .ret, b := 2 }]
    constants := [.string "x"] }

/-- Two minus signs in a row start a comment, so a text with them is no expression. -/
theorem double_minus_does_not_read_back : Prototype.negatesTwice.Computes Lua.Expr.negatedTwice ∧
    ∃ r c, Prototype.negatesTwice.build "main" "main" [] (Context.start .unsimulated) = .ok r c ∧
      r.body = [.ret ["--x"] none] ∧ Lua.readExpr "--x" = none := by
  have hcomputes : Prototype.negatesTwice.Computes Lua.Expr.negatedTwice :=
    ⟨[{ opcode := .getGlobal }, { opcode := .negate }, { opcode := .negate }],
      { opcode := .ret, b := 2 }, _, rfl, rfl, rfl, rfl, rfl⟩
  have htext : Lua.Expr.negatedTwice.text = "--x" := by decide +kernel
  obtain ⟨r, c, hbuild, hbody⟩ := Prototype.build_computes hcomputes Options.unsimulated_plain
    "main" "main" []
  refine ⟨hcomputes, r, c, hbuild, by rw [hbody, htext], ?_⟩
  rw [← htext]
  exact Lua.Expr.readExpr_text_of_doubles (by decide +kernel)

end LuaRecovery

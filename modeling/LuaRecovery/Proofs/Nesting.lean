/-
Bodies whose markers nest.

A body is a flat list, and its blocks are only shown by markers.  `Nested` is the grammar
of the bodies whose markers nest: a plain statement, a block from its opening marker to
its closing one, or a branch that is divided once.  An else part therefore belongs to the
innermost block, which is a branch and has no other.  The bodies of the routines inside a
plain statement have to nest too, and a strict layout never refuses such a body.

While a body grows, blocks of it are open.  `Unfinished` has these blocks, innermost first,
each with its kind and whether it is divided yet.
-/
import LuaRecovery.Blocks.Basic
import LuaRecovery.Layout

namespace LuaRecovery

namespace Statement

/-- A statement that is no marker. -/
def IsPlain : Statement → Prop
  | .marker _ _ => False
  | .foreign _ => False
  | _ => True

/-- The routine inside a statement. -/
def routine? : Statement → Option Routine
  | .define _ r _ _ => some r
  | .function r => some r
  | _ => none

end Statement

/-- The marker that opens a block of a kind under a condition. -/
def BlockKind.opening (condition : String) : BlockKind → Statement
  | .branch => .marker ("if " ++ condition ++ " then") .opens
  | .loop => .marker ("while " ++ condition ++ " do") .opens

/-- A body whose markers nest, as do those of every routine inside it. -/
inductive Nested : List Statement → Prop
  | nil : Nested []
  | plain {s : Statement} {rest : List Statement} : s.IsPlain →
      (∀ r, s.routine? = some r → Nested r.body) → Nested rest → Nested (s :: rest)
  | block (kind : BlockKind) (condition : String) {inner rest : List Statement} :
      Nested inner → Nested rest →
      Nested (kind.opening condition :: (inner ++ .closing :: rest))
  | divided (condition : String) {yes no rest : List Statement} :
      Nested yes → Nested no → Nested rest →
      Nested (BlockKind.branch.opening condition :: (yes ++ .dividing :: (no ++ .closing :: rest)))

theorem Nested.append {xs ys : List Statement} (hx : Nested xs) (hy : Nested ys) :
    Nested (xs ++ ys) := by
  induction hx with
  | nil => exact hy
  | plain hs hinner _ _ ih => exact .plain hs hinner ih
  | @block kind condition inner rest hinner _ _ ih =>
    have h := Nested.block kind condition hinner ih
    simpa using h
  | @divided condition yes no rest hyes hno _ _ _ ih =>
    have h := Nested.divided condition hyes hno ih
    simpa using h

theorem nested_remark (text : String) : Nested [.remark text] := .plain trivial nofun .nil

/-! ### Bodies with open blocks -/

/-- An open block: its kind, and whether it is divided. -/
structure OpenPart where
  kind : BlockKind
  divided : Bool

/-- A body in which blocks are open, innermost first. -/
inductive Unfinished : List OpenPart → List Statement → Prop
  | done {body : List Statement} : Nested body → Unfinished [] body
  | opened (kind : BlockKind) (condition : String) {outer : List OpenPart}
      {body inner : List Statement} : Unfinished outer body → Nested inner →
      Unfinished (⟨kind, false⟩ :: outer) (body ++ kind.opening condition :: inner)
  | divided {outer : List OpenPart} {body inner : List Statement} :
      Unfinished (⟨.branch, false⟩ :: outer) body → Nested inner →
      Unfinished (⟨.branch, true⟩ :: outer) (body ++ .dividing :: inner)

namespace Unfinished

variable {part : OpenPart} {outer parts : List OpenPart} {body : List Statement}

/-- What nests may be added to the innermost part. -/
theorem append {more : List Statement} (h : Unfinished parts body) (hmore : Nested more) :
    Unfinished parts (body ++ more) := by
  cases h with
  | done hbody => exact .done (hbody.append hmore)
  | opened kind condition hbody hinner =>
    have h := Unfinished.opened kind condition hbody (hinner.append hmore)
    simpa using h
  | divided hbody hinner =>
    have h := Unfinished.divided hbody (hinner.append hmore)
    simpa using h

theorem open_ (h : Unfinished outer body) (kind : BlockKind) (condition : String) :
    Unfinished (⟨kind, false⟩ :: outer) (body ++ [kind.opening condition]) :=
  .opened kind condition h .nil

theorem divide (h : Unfinished (⟨.branch, false⟩ :: outer) body) :
    Unfinished (⟨.branch, true⟩ :: outer) (body ++ [.dividing]) :=
  .divided h .nil

/-- Closing the innermost block makes it part of the body around it. -/
theorem close (h : Unfinished (part :: outer) body) : Unfinished outer (body ++ [.closing]) := by
  cases h with
  | opened kind condition hbody hinner =>
    have h := hbody.append (Nested.block kind condition hinner .nil)
    simpa using h
  | divided hbody hinner =>
    cases hbody with
    | opened _ condition hbody hyes =>
      have h := hbody.append (Nested.divided condition hyes hinner .nil)
      simpa using h

theorem nested (h : Unfinished [] body) : Nested body := by
  cases h with
  | done h => exact h

end Unfinished

/-! ### Laying out -/

namespace Layout

variable (l : Layout)

/-- The page after an action has the level it had before. -/
def Level (p : Page) (result : Except LayoutFault Page) : Prop :=
  ∃ q, result = .ok q ∧ q.level = p.level

variable {floor : Nat}

theorem statements_cons {s : Statement} {p q : Page} (h : l.statement floor s p = .ok q)
    (rest : List Statement) : l.statements floor (s :: rest) p = l.statements floor rest q := by
  rw [statements, h]
  rfl

theorem statements_append {xs : List Statement} {p q : Page} (h : l.statements floor xs p = .ok q)
    (ys : List Statement) : l.statements floor (xs ++ ys) p = l.statements floor ys q := by
  induction xs generalizing p with
  | nil =>
    rw [statements] at h
    cases h
    rfl
  | cons s rest ih =>
    rw [statements] at h
    cases hs : l.statement floor s p with
    | error fault =>
      rw [hs] at h
      cases h
    | ok p' =>
      rw [hs] at h
      rw [List.cons_append, statements_cons l hs]
      exact ih h

@[simp] theorem Page.line_level (p : Page) (width : Nat) (text : String) :
    (p.line width text).level = p.level := rfl

@[simp] theorem Page.indent_level (p : Page) : p.indent.level = p.level + 1 := rfl

@[simp] theorem Page.atLevel_level (p : Page) (level : Nat) : (p.atLevel level).level = level := rfl

theorem foldl_line_level (texts : List String) (p : Page) :
    (texts.foldl (fun p t => p.line l.width t) p).level = p.level := by
  induction texts generalizing p with
  | nil => rfl
  | cons t rest ih => rw [List.foldl_cons, ih]; rfl

theorem dedent_ok {p : Page} (h : floor < p.level) (marker : String) :
    l.dedent floor marker p = .ok (p.atLevel (p.level - 1)) := by
  unfold dedent
  rw [if_neg (by omega)]

theorem statement_opening (floor : Nat) (kind : BlockKind) (condition : String) (p : Page) :
    ∃ q, l.statement floor (kind.opening condition) p = .ok q ∧ q.level = p.level + 1 := by
  cases kind <;> exact ⟨_, rfl, rfl⟩

theorem statement_dividing (floor : Nat) (p : Page) (h : floor < p.level) :
    l.statement floor .dividing p =
      .ok ((p.atLevel (p.level - 1)).line l.width "else").indent := by
  rw [Statement.dividing, statement, dedent_ok l h]
  rfl

theorem statement_closing (floor : Nat) (p : Page) (h : floor < p.level) :
    l.statement floor .closing p = .ok ((p.atLevel (p.level - 1)).line l.width "end") := by
  rw [Statement.closing, statement, dedent_ok l h]
  rfl

/-- A body leaves the level as it was. -/
def LaysOut (body : List Statement) : Prop :=
  ∀ floor p, floor ≤ p.level → Level p (l.statements floor body p)

theorem LaysOut.endBody {body : List Statement} (h : l.LaysOut body) {p : Page}
    (hp : p.level = floor) :
    ∃ q, l.statements floor body p = .ok q ∧ l.endBody floor q = .ok q := by
  obtain ⟨q, hq, hlevel⟩ := h floor p (Nat.le_of_eq hp.symm)
  exact ⟨q, hq, if_pos (hlevel.trans hp)⟩

theorem function_level {r : Routine} (hr : l.LaysOut r.body) (header : String) (p : Page) :
    Level p (l.function header r p) := by
  obtain ⟨name, body, anonymous, captured, params, vararg, bindings⟩ := r
  have hstart : ((upvalueLines captured).foldl (fun p t => p.line l.width t)
      (p.line l.width header).indent).level = p.level + 1 := foldl_line_level l _ _
  obtain ⟨q, hq, hend⟩ := hr.endBody l hstart
  refine ⟨(q.atLevel p.level).line l.width "end", ?_, rfl⟩
  rw [function]
  show (l.statements (p.level + 1) body _ >>= fun q => _) = _
  rw [hq]
  show (l.endBody (p.level + 1) q >>= fun q => _) = _
  rw [hend]
  rfl

theorem statement_plain {s : Statement} (hs : s.IsPlain)
    (hinner : ∀ r, s.routine? = some r → l.LaysOut r.body) (floor : Nat) (p : Page) :
    Level p (l.statement floor s p) := by
  cases s with
  | marker text role => exact hs.elim
  | foreign value => exact hs.elim
  | define target r declares comment => exact l.function_level (hinner r rfl) _ p
  | function r => exact l.function_level (hinner r rfl) _ p
  | assign | call | ret | verbatim => exact ⟨_, rfl, rfl⟩

/-- A body whose markers nest leaves the level as it was. -/
theorem nested_laysOut {body : List Statement} (hbody : Nested body) : l.LaysOut body := by
  induction hbody with
  | nil => exact fun floor p _ => ⟨p, by rw [statements], rfl⟩
  | @plain s rest hs _ _ ihinner ihrest =>
    intro floor p hp
    obtain ⟨q₁, h₁, hl₁⟩ := l.statement_plain hs ihinner floor p
    obtain ⟨q₂, h₂, hl₂⟩ := ihrest floor q₁ (by omega)
    exact ⟨q₂, by rw [statements_cons l h₁, h₂], by omega⟩
  | @block kind condition inner rest _ _ ihinner ihrest =>
    intro floor p hp
    obtain ⟨q₁, h₁, hl₁⟩ := l.statement_opening floor kind condition p
    obtain ⟨q₂, h₂, hl₂⟩ := ihinner floor q₁ (by omega)
    obtain ⟨q₃, h₃, hl₃⟩ := ihrest floor ((q₂.atLevel (q₂.level - 1)).line l.width "end")
      (by simp only [Page.line_level, Page.atLevel_level]; omega)
    simp only [Page.line_level, Page.atLevel_level] at hl₃
    refine ⟨q₃, ?_, by omega⟩
    rw [statements_cons l h₁, statements_append l h₂,
      statements_cons l (l.statement_closing floor q₂ (by omega)), h₃]
  | @divided condition yes no rest _ _ _ ihyes ihno ihrest =>
    intro floor p hp
    obtain ⟨q₁, h₁, hl₁⟩ := l.statement_opening floor .branch condition p
    obtain ⟨q₂, h₂, hl₂⟩ := ihyes floor q₁ (by omega)
    obtain ⟨q₃, h₃, hl₃⟩ := ihno floor ((q₂.atLevel (q₂.level - 1)).line l.width "else").indent
      (by simp only [Page.indent_level, Page.line_level, Page.atLevel_level]; omega)
    simp only [Page.indent_level, Page.line_level, Page.atLevel_level] at hl₃
    obtain ⟨q₄, h₄, hl₄⟩ := ihrest floor ((q₃.atLevel (q₃.level - 1)).line l.width "end")
      (by simp only [Page.line_level, Page.atLevel_level]; omega)
    simp only [Page.line_level, Page.atLevel_level] at hl₄
    refine ⟨q₄, ?_, by omega⟩
    rw [statements_cons l h₁, statements_append l h₂,
      statements_cons l (l.statement_dividing floor q₂ (by omega)), statements_append l h₃,
      statements_cons l (l.statement_closing floor q₃ (by omega)), h₄]

/-- A routine whose markers nest is laid out, strictly or not. -/
theorem bodyText_nested {r : Routine} (hr : Nested r.body) : ∃ text, l.bodyText r = .ok text := by
  have hstart : ((upvalueLines r.captured).foldl (fun p t => p.line l.width t)
      ({} : Page)).level = 0 := foldl_line_level l _ _
  obtain ⟨q, hq, hend⟩ := (l.nested_laysOut hr).endBody l hstart
  refine ⟨Text.join "\n" q.lines, ?_⟩
  show (l.statements 0 r.body _ >>= fun q => _) = _
  rw [hq]
  show (l.endBody 0 q >>= fun q => _) = _
  rw [hend]
  rfl

end Layout

end LuaRecovery

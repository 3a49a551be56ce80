/-
The lines of a routine.

A lenient layout prints the lines of every routine that can be printed.  A strict layout prints
the same lines if every body is balanced, and refuses the routine otherwise: in an unbalanced body
a marker divides or closes a block where none is open, or blocks are open at the end.
-/
import LuaRecovery.Proofs.Declarations

namespace LuaRecovery

open List

/-! ### Printable routines -/

namespace Statement

/-- Whether a statement can be printed. -/
def IsPrintable : Statement → Prop
  | .foreign _ => False
  | _ => True

/-- The texts that the line of a statement is made from. -/
def texts : Statement → List String
  | .assign target value _ comment => target :: value :: comment.toList
  | .define target r _ comment => target :: (r.params ++ comment.toList)
  | .call callee args comment => callee :: (args ++ comment.toList)
  | .ret values comment => values ++ comment.toList
  | .marker text _ => [text]
  | .verbatim text => [text]
  | .function r => r.name :: r.params
  | .foreign _ => []

end Statement

/-- A routine is refused for its markers, and not for what it holds. -/
def LayoutFault.IsMalformed : LayoutFault → Prop
  | .stray _ => True
  | .leftOpen _ => True
  | .unprintable _ => False

/-- A text without a line break. -/
def OneLine (s : String) : Prop := '\n' ∉ s.toList

/-- Every statement of a routine can be printed, and none of its texts has a line break. -/
structure RoutineOf.Printable (r : Routine) : Prop where
  statements : ∀ s ∈ r.body, s.IsPrintable
  texts : ∀ s ∈ r.body, ∀ t ∈ s.texts, OneLine t
  captured : ∀ t ∈ r.captured, OneLine t

/-- A routine that is another one or stands inside it. -/
inductive RoutineOf.Encloses : Routine → Routine → Prop
  | self (r : Routine) : Encloses r r
  | inside {r inner q : Routine} {s : Statement} : s ∈ r.body → s.routine? = some inner →
      Encloses inner q → Encloses r q

/-! ### Outlines -/

namespace Statement

/-- A statement that belongs to a block which is open before it. -/
def Needs (s : Statement) : Prop := s.role? = some .divides ∨ s.role? = some .closes

end Statement

namespace Layout

theorem routineLines_eq (level : Nat) (r : Routine) :
    routineLines level r = (upvalueLines r.captured).map (Line.mk level level) ++
      bodyLines level 0 r.body := by
  obtain ⟨name, body, anonymous, captured, params, vararg, bindings⟩ := r
  rw [routineLines]

theorem bodyLines_cons (floor depth : Nat) (s : Statement) (rest : List Statement) :
    bodyLines floor depth (s :: rest) = statementLines floor (floor + s.depthAt depth) s ++
      bodyLines floor (s.depthAfter depth) rest := by
  rw [bodyLines]

theorem statementLines_of_none {s : Statement} (h : s.routine? = none) (floor level : Nat) :
    statementLines floor level s = [⟨floor, level, s.line⟩] := by
  cases s with
  | define | function => cases h
  | _ => rw [statementLines]; all_goals nofun

theorem statementLines_of_some {s : Statement} {r : Routine} (h : s.routine? = some r)
    (floor level : Nat) :
    statementLines floor level s =
      ⟨floor, level, s.line⟩ :: (routineLines (level + 1) r ++ [⟨floor, level, "end"⟩]) := by
  cases s with
  | define | function =>
    cases h
    rw [statementLines]
  | _ => cases h

/-! ### Balance -/

/-- The number of blocks that a body opens. -/
def opened (body : List Statement) : Nat := body.countP fun s => s.role? = some .opens

/-- The number of blocks that a body closes. -/
def closed (body : List Statement) : Nat := body.countP fun s => s.role? = some .closes

/-- A marker divides or closes a block where none is open, or blocks are open at the end. -/
def Unbalanced (body : List Statement) : Prop :=
  (∃ before s after, body = before ++ s :: after ∧ s.Needs ∧ opened before = closed before) ∨
    opened body ≠ closed body

/-- With a number of blocks open before a body, every marker that needs one finds a block open. -/
def Finds : Nat → List Statement → Prop
  | _, [] => True
  | depth, s :: rest => (s.Needs → 0 < depth) ∧ Finds (s.depthAfter depth) rest

/-- The number of blocks that are open after a body. -/
def depthAfterAll (depth : Nat) (body : List Statement) : Nat :=
  body.foldl Statement.depthAfter depth

theorem opened_cons (s : Statement) (rest : List Statement) :
    opened (s :: rest) = opened rest + if s.role? = some .opens then 1 else 0 := by
  simp [opened, countP_cons]

theorem closed_cons (s : Statement) (rest : List Statement) :
    closed (s :: rest) = closed rest + if s.role? = some .closes then 1 else 0 := by
  simp [closed, countP_cons]

/-- A statement that finds its block open changes the depth by what it opens and closes. -/
theorem depthAfter_add {s : Statement} {depth : Nat} (h : s.Needs → 0 < depth) :
    s.depthAfter depth + (if s.role? = some .closes then 1 else 0) =
      depth + if s.role? = some .opens then 1 else 0 := by
  unfold Statement.depthAfter
  cases hrole : s.role? with
  | none => simp
  | some role =>
    cases role with
    | opens => simp
    | divides =>
      have := h (.inl hrole)
      simp
      omega
    | closes =>
      have := h (.inr hrole)
      simp
      omega

theorem Finds.depthAfterAll_add {body : List Statement} : ∀ {depth : Nat}, Finds depth body →
    depthAfterAll depth body + closed body = depth + opened body := by
  induction body with
  | nil => exact fun _ => rfl
  | cons s rest ih =>
    intro depth h
    have hrest := ih h.2
    have hs := depthAfter_add h.1
    rw [opened_cons, closed_cons, depthAfterAll, foldl_cons]
    unfold depthAfterAll at hrest
    omega

/-- Markers find their blocks open if there is no prefix after which none is. -/
theorem finds_iff {body : List Statement} : ∀ {depth : Nat}, Finds depth body ↔
    ∀ before s after, body = before ++ s :: after → s.Needs →
      closed before ≠ depth + opened before := by
  induction body with
  | nil => exact fun {depth} => ⟨fun _ before s after h => by simp at h, fun _ => trivial⟩
  | cons t rest ih =>
    intro depth
    constructor
    · rintro ⟨ht, hrest⟩ before s after h hs
      cases before with
      | nil =>
        obtain ⟨rfl, -⟩ := List.cons.inj h
        have := ht hs
        simp [closed, opened]
        omega
      | cons u before =>
        obtain ⟨rfl, hsplit⟩ := List.cons.inj h
        have hne := ih.mp hrest before s after hsplit hs
        have hadd := depthAfter_add ht
        rw [opened_cons, closed_cons]
        omega
    · intro h
      have ht : t.Needs → 0 < depth := fun hneeds => by
        have := h [] t rest rfl hneeds
        simp [closed, opened] at this
        omega
      refine ⟨ht, ih.mpr fun before s after hsplit hs => ?_⟩
      have hne := h (t :: before) s after (by rw [hsplit]; rfl) hs
      have hadd := depthAfter_add ht
      rw [opened_cons, closed_cons] at hne
      omega

/-- A body is balanced if all markers find their blocks open and no block is left open. -/
theorem not_unbalanced_iff {body : List Statement} :
    ¬ Unbalanced body ↔ Finds 0 body ∧ depthAfterAll 0 body = 0 := by
  constructor
  · intro h
    have hfinds : Finds 0 body := finds_iff.mpr fun before s after hsplit hs heq =>
      h (.inl ⟨before, s, after, hsplit, hs, by omega⟩)
    have hadd := hfinds.depthAfterAll_add
    have heq : opened body = closed body :=
      Decidable.byContradiction fun hne => h (.inr hne)
    exact ⟨hfinds, by omega⟩
  · rintro ⟨hfinds, hlast⟩ (⟨before, s, after, hsplit, hs, heq⟩ | hne)
    · exact finds_iff.mp hfinds before s after hsplit hs (by omega)
    · have hadd := hfinds.depthAfterAll_add
      omega

/-! ### Printing an outline -/

variable {l : Layout} {floor depth : Nat} {s : Statement} {body : List Statement} {r : Routine}
  {p : Page}

/-- A page with more lines, at a level. -/
def Page.plus (p : Page) (width : Nat) (lines : List Line) (level : Nat) : Page :=
  ⟨p.lines ++ lines.map (Line.render width), level⟩

theorem Page.plus_plus (p : Page) (width : Nat) (xs ys : List Line) (m n : Nat) :
    (p.plus width xs m).plus width ys n = p.plus width (xs ++ ys) n := by
  simp [Page.plus]

theorem Page.line_eq_plus (p : Page) (width floor : Nat) (text : String) :
    p.line width text = p.plus width [⟨floor, p.level, text⟩] p.level := rfl

/-- The page after a whole body. -/
def wholeBody (l : Layout) (floor : Nat) (body : List Statement) (p : Page) :
    Except LayoutFault Page :=
  l.statements floor body p >>= l.endBody floor

theorem foldl_line_eq_plus (texts : List String) (p : Page) (width floor : Nat) :
    texts.foldl (fun p t => p.line width t) p =
      p.plus width (texts.map (Line.mk floor p.level)) p.level := by
  induction texts generalizing p with
  | nil => simp [Page.plus]
  | cons t rest ih =>
    rw [foldl_cons, ih, Page.line_eq_plus p width floor, Page.plus_plus]
    rfl

theorem function_eq (header : String) (r : Routine) (floor : Nat) (p : Page) :
    l.function header r p =
      (l.wholeBody (p.level + 1) r.body (p.plus l.width (⟨floor, p.level, header⟩ ::
        (upvalueLines r.captured).map (Line.mk (p.level + 1) (p.level + 1))) (p.level + 1))).bind
        fun q => .ok ((q.atLevel p.level).line l.width "end") := by
  obtain ⟨name, body, anonymous, captured, params, vararg, bindings⟩ := r
  have hstart : (upvalueLines captured).foldl (fun p t => p.line l.width t)
      (p.line l.width header).indent = p.plus l.width (⟨floor, p.level, header⟩ ::
        (upvalueLines captured).map (Line.mk (p.level + 1) (p.level + 1))) (p.level + 1) := by
    rw [foldl_line_eq_plus _ _ _ (p.level + 1)]
    simp [Page.plus, Page.line, Page.indent, Line.render]
  rw [function, hstart, wholeBody]
  show Except.bind _ _ = Except.bind (Except.bind _ _) _
  cases l.statements (p.level + 1) body _ with
  | error fault => rfl
  | ok q => rfl

theorem bodyText_eq (r : Routine) : l.bodyText r = (l.wholeBody 0 r.body (Page.plus {} l.width
        ((upvalueLines r.captured).map (Line.mk 0 0)) 0)).bind
        fun q => .ok (Text.join "\n" q.lines) := by
  rw [bodyText, foldl_line_eq_plus _ _ _ 0, wholeBody]
  show Except.bind _ _ = Except.bind (Except.bind _ _) _
  cases l.statements 0 r.body _ with
  | error fault => rfl
  | ok q => rfl

/-- The body of a routine is printed as its outline says. -/
def Draws (l : Layout) (r : Routine) : Prop :=
  ∀ floor (p : Page) lines, l.wholeBody floor r.body (p.plus l.width lines floor) =
    .ok (p.plus l.width (lines ++ bodyLines floor 0 r.body) floor)

/-- The body of a routine is refused for its markers. -/
def Refuses (l : Layout) (r : Routine) : Prop :=
  ∀ floor (p : Page) lines, ∃ fault,
    l.wholeBody floor r.body (p.plus l.width lines floor) = .error fault ∧ fault.IsMalformed

theorem Draws.function (h : l.Draws r) (header : String) (floor : Nat) (p : Page) :
    l.function header r p = .ok (p.plus l.width
      (⟨floor, p.level, header⟩ :: (routineLines (p.level + 1) r ++ [⟨floor, p.level, "end"⟩]))
      p.level) := by
  rw [function_eq header r floor p, h]
  simp [Except.bind, Page.plus, Page.atLevel, Page.line, routineLines_eq, Line.render]

theorem Refuses.function (h : l.Refuses r) (header : String) (p : Page) :
    ∃ fault, l.function header r p = .error fault ∧ fault.IsMalformed := by
  obtain ⟨fault, hfault, hmalformed⟩ := h (p.level + 1) p (⟨0, p.level, header⟩ ::
    (upvalueLines r.captured).map (Line.mk (p.level + 1) (p.level + 1)))
  exact ⟨fault, by rw [function_eq header r 0 p, hfault]; rfl, hmalformed⟩

theorem Draws.bodyText (h : l.Draws r) :
    l.bodyText r = .ok (Text.join "\n" ((routineLines 0 r).map (Line.render l.width))) := by
  rw [bodyText_eq, h, ← routineLines_eq]
  rfl

theorem Refuses.bodyText (h : l.Refuses r) :
    ∃ fault, l.bodyText r = .error fault ∧ fault.IsMalformed := by
  obtain ⟨fault, hfault, hmalformed⟩ := h 0 {} ((upvalueLines r.captured).map (Line.mk 0 0))
  exact ⟨fault, by rw [bodyText_eq, hfault]; rfl, hmalformed⟩

theorem statement_of_some (h : s.routine? = some r) (floor : Nat) (p : Page) :
    l.statement floor s p = l.function s.line r p := by
  cases s with
  | define | function =>
    cases h
    rw [statement, Statement.line]
  | _ => cases h

theorem statement_of_none (hroutine : s.routine? = none) (hrole : s.role? = none)
    (hprint : s.IsPrintable) (floor : Nat) (p : Page) :
    l.statement floor s p = .ok (p.line l.width s.line) := by
  cases s with
  | define | function => cases hroutine
  | marker => cases hrole
  | foreign => exact hprint.elim
  | assign | call | ret | verbatim => rw [statement, Statement.line]

theorem dedent_eq (h : l.lenient = true ∨ 0 < depth) (hp : p.level = floor + depth)
    (marker : String) : l.dedent floor marker p = .ok (p.atLevel (floor + (depth - 1))) := by
  unfold dedent
  by_cases hlevel : p.level ≤ floor
  · rw [if_pos hlevel, if_pos (h.resolve_right (by omega)), show depth - 1 = 0 by omega]
    rfl
  · rw [if_neg hlevel, show p.level - 1 = floor + (depth - 1) by omega]

/-- A statement is printed as the outline says if the layout is lenient or the statement finds its
block open. -/
theorem statement_outline (hprint : s.IsPrintable) (hinner : ∀ r, s.routine? = some r → l.Draws r)
    (h : l.lenient = true ∨ (s.Needs → 0 < depth)) (hp : p.level = floor + depth) :
    l.statement floor s p = .ok (p.plus l.width
      (statementLines floor (floor + s.depthAt depth) s) (floor + s.depthAfter depth)) := by
  cases hroutine : s.routine? with
  | some r =>
    have hrole : s.role? = none := by
      cases s <;> first | rfl | cases hroutine
    rw [statement_of_some hroutine, (hinner r hroutine).function _ floor,
      statementLines_of_some hroutine,
      Statement.depthAt, Statement.depthAfter, hrole, ← hp]
  | none =>
    rw [statementLines_of_none hroutine]
    cases hrole : s.role? with
    | none =>
      rw [statement_of_none hroutine hrole hprint, Page.line_eq_plus _ _ floor,
        Statement.depthAt, Statement.depthAfter, hrole, ← hp]
    | some role =>
      cases s with
      | marker text role' =>
        cases hrole
        cases role with
        | opens =>
          rw [statement, Page.line_eq_plus _ _ floor, hp]
          rfl
        | divides =>
          rw [statement, dedent_eq (h.imp_right fun h => h (.inl rfl)) hp]
          rfl
        | closes =>
          rw [statement, dedent_eq (h.imp_right fun h => h (.inr rfl)) hp]
          rfl
      | _ => cases hrole

/-- A strict layout refuses a marker that finds no block open. -/
theorem statement_refused (hstrict : l.lenient = false) (h : s.Needs) (hp : p.level = floor) :
    ∃ fault, l.statement floor s p = .error fault ∧ fault.IsMalformed := by
  have hdedent (marker : String) : l.dedent floor marker p = .error (.stray marker) := by
    rw [dedent, if_pos (Nat.le_of_eq hp), if_neg (by simp [hstrict])]
  cases s with
  | marker text role =>
    cases role with
    | opens => rcases h with h | h <;> cases h
    | divides | closes => exact ⟨.stray text, by rw [statement, hdedent]; rfl, trivial⟩
  | _ => rcases h with h | h <;> cases h

/-- A body is printed as the outline says if the layout is lenient or its markers find their blocks
open. -/
theorem statements_outline (floor : Nat) : ∀ (depth : Nat) (p : Page), (∀ s ∈ body, s.IsPrintable) →
    (∀ s ∈ body, ∀ r, s.routine? = some r → l.Draws r) →
    (l.lenient = true ∨ Finds depth body) → p.level = floor + depth →
    l.statements floor body p = .ok (p.plus l.width (bodyLines floor depth body)
      (floor + depthAfterAll depth body)) := by
  induction body with
  | nil =>
    intro depth p _ _ _ hp
    rw [statements, bodyLines, depthAfterAll, foldl_nil, ← hp]
    simp [Page.plus]
  | cons s rest ih =>
    intro depth p hprint hinner h hp
    have hs := statement_outline (hprint s mem_cons_self)
      (hinner s mem_cons_self) (h.imp_right And.left) hp
    rw [l.statements_cons hs, ih _ _ (fun t ht => hprint t (mem_cons_of_mem _ ht))
      (fun t ht => hinner t (mem_cons_of_mem _ ht)) (h.imp_right And.right) rfl,
      Page.plus_plus, bodyLines_cons]
    rfl

/-- A strict layout refuses a body with a marker that finds no block open, or with a function that
it refuses. -/
theorem statements_refused (hstrict : l.lenient = false) (floor : Nat) : ∀ (depth : Nat) (p : Page),
    (∀ s ∈ body, s.IsPrintable) →
    (∀ s ∈ body, ∀ r, s.routine? = some r → l.Draws r ∨ l.Refuses r) →
    (¬ Finds depth body ∨ ∃ s ∈ body, ∃ r, s.routine? = some r ∧ l.Refuses r) →
    p.level = floor + depth →
    ∃ fault, l.statements floor body p = .error fault ∧ fault.IsMalformed := by
  induction body with
  | nil =>
    rintro depth p - - (h | ⟨s, hs, -⟩) -
    · exact absurd trivial h
    · cases hs
  | cons s rest ih =>
    intro depth p hprint hinner h hp
    have hfirst {fault : LayoutFault} (hs : l.statement floor s p = .error fault) :
        l.statements floor (s :: rest) p = .error fault := by
      rw [statements, hs]
      rfl
    by_cases hrefused : ∃ r, s.routine? = some r ∧ l.Refuses r
    · obtain ⟨r, hr, hrefuses⟩ := hrefused
      obtain ⟨fault, hfault, hmalformed⟩ := hrefuses.function s.line p
      exact ⟨fault, hfirst (by rw [statement_of_some hr, hfault]), hmalformed⟩
    · have hdraws : ∀ r, s.routine? = some r → l.Draws r := fun r hr =>
        (hinner s mem_cons_self r hr).resolve_right fun hno => hrefused ⟨r, hr, hno⟩
      by_cases hneeds : s.Needs → 0 < depth
      · have hs := statement_outline (hprint s mem_cons_self) hdraws (.inr hneeds) hp
        rw [l.statements_cons hs]
        refine ih _ _ (fun t ht => hprint t (mem_cons_of_mem _ ht))
          (fun t ht => hinner t (mem_cons_of_mem _ ht)) ?_ rfl
        refine h.imp (fun hfinds hrest => hfinds ⟨hneeds, hrest⟩) ?_
        rintro ⟨t, ht, r, hr, hrefuses⟩
        rcases mem_cons.mp ht with rfl | ht
        · exact absurd ⟨r, hr, hrefuses⟩ hrefused
        · exact ⟨t, ht, r, hr, hrefuses⟩
      · obtain ⟨hneeds, hdepth⟩ := Classical.not_imp.mp hneeds
        obtain ⟨fault, hfault, hmalformed⟩ :=
          statement_refused hstrict hneeds (hp.trans (by omega : floor + depth = floor))
        exact ⟨fault, hfirst hfault, hmalformed⟩

/-- The end of a body at which blocks are left open only if the layout is lenient. -/
theorem endBody_eq {last : Nat} (h : l.lenient = true ∨ last = 0) (p : Page) (lines : List Line) :
    l.endBody floor (p.plus l.width lines (floor + last)) = .ok (p.plus l.width lines floor) := by
  unfold endBody
  by_cases hlast : last = 0
  · rw [hlast]
    exact if_pos rfl
  · rw [if_neg (by simpa [Page.plus] using hlast), if_pos (h.resolve_right hlast)]
    rfl

/-- A routine is printed as its outline says if the layout is lenient or every body is balanced. -/
theorem draws_of_balanced (hprint : Throughout RoutineOf.Printable r)
    (h : l.lenient = true ∨ ∀ q, r.Encloses q → ¬ Unbalanced q.body) : l.Draws r := by
  induction hprint with
  | @intro r hr _ ih =>
    intro floor p lines
    have hinner : ∀ s ∈ r.body, ∀ q, s.routine? = some q → l.Draws q := fun s hs q hq =>
      ih s hs q hq (h.imp_right fun h q' hq' => h q' (.inside hs hq hq'))
    have hbody := h.imp_right fun h => not_unbalanced_iff.mp (h r (.self r))
    have hrun := statements_outline floor 0 (p.plus l.width lines floor) hr.statements hinner
      (hbody.imp_right And.left) rfl
    rw [wholeBody, hrun, Page.plus_plus]
    exact endBody_eq (hbody.imp_right And.right) p _

/-- A strict layout refuses a body that is unbalanced, or with a function that it refuses. -/
theorem refuses_of_body (hstrict : l.lenient = false) (hprint : r.Printable)
    (hinner : ∀ s ∈ r.body, ∀ q, s.routine? = some q → l.Draws q ∨ l.Refuses q)
    (h : Unbalanced r.body ∨ ∃ s ∈ r.body, ∃ q, s.routine? = some q ∧ l.Refuses q) :
    l.Refuses r := by
  intro floor p lines
  by_cases hbad : ¬ Finds 0 r.body ∨ ∃ s ∈ r.body, ∃ q, s.routine? = some q ∧ l.Refuses q
  · obtain ⟨fault, hfault, hmalformed⟩ := statements_refused hstrict floor 0
      (p.plus l.width lines floor) hprint.statements hinner hbad rfl
    exact ⟨fault, by rw [wholeBody, hfault]; rfl, hmalformed⟩
  · obtain ⟨hfinds, hnone⟩ := not_or.mp hbad
    have hfinds := Classical.not_not.mp hfinds
    -- All markers find their blocks, so some block is left open at the end.
    have hlast : depthAfterAll 0 r.body ≠ 0 := fun hlast =>
      absurd (h.resolve_right hnone) (not_unbalanced_iff.mpr ⟨hfinds, hlast⟩)
    have hdraws : ∀ s ∈ r.body, ∀ q, s.routine? = some q → l.Draws q := fun s hs q hq =>
      (hinner s hs q hq).resolve_right fun hrefuses => hnone ⟨s, hs, q, hq, hrefuses⟩
    have hrun := statements_outline floor 0 (p.plus l.width lines floor) hprint.statements hdraws
      (.inr hfinds) rfl
    refine ⟨.leftOpen (floor + depthAfterAll 0 r.body - floor), ?_, trivial⟩
    rw [wholeBody, hrun]
    show l.endBody floor _ = _
    unfold endBody
    rw [if_neg (by simpa [Page.plus] using hlast), if_neg (by simp [hstrict])]
    rfl

/-- A strict layout refuses a routine with a body that is unbalanced. -/
theorem refuses_of_unbalanced (hstrict : l.lenient = false)
    (hprint : Throughout RoutineOf.Printable r)
    (h : ∃ q, r.Encloses q ∧ Unbalanced q.body) : l.Refuses r := by
  induction hprint with
  | @intro r hr hinner ih =>
    refine refuses_of_body hstrict hr (fun s hs q hq => ?_) ?_
    · by_cases hbad : ∃ q', q.Encloses q' ∧ Unbalanced q'.body
      · exact .inr (ih s hs q hq hbad)
      · exact .inl (draws_of_balanced (hinner s hs q hq)
          (.inr fun q' hq' hun => hbad ⟨q', hq', hun⟩))
    · obtain ⟨q, hq, hun⟩ := h
      cases hq with
      | self => exact .inl hun
      | @inside _ inner _ s hs hq hencloses =>
        exact .inr ⟨s, hs, inner, hq, ih s hs inner hq ⟨q, hencloses, hun⟩⟩

end Layout

end LuaRecovery

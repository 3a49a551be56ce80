/-
The text of structured programs.

The statements of a structured program are laid out as its lines, and the text that these
make has no blanks at its end.
-/
import LuaRecovery.Proofs.Shapes

namespace LuaRecovery

open List Text

/-! ### Lines -/

namespace Layout

open Shape

/-- The page with more lines. -/
def Page.add (p : Page) (lines : List String) : Page := { p with lines := p.lines ++ lines }

theorem Page.add_add (p : Page) (xs ys : List String) : (p.add xs).add ys = p.add (xs ++ ys) := by
  simp only [add, append_assoc]

variable {l : Layout}

/-- Statements that are laid out as lines, which depend on the level they start at. -/
def Lays (l : Layout) (nodes : List Statement) (lines : Nat → List String) : Prop :=
  ∀ floor p, floor ≤ p.level → l.statements floor nodes p = .ok (p.add (lines p.level))

theorem lays_nil : l.Lays [] fun _ => [] := by
  intro floor p _
  rw [statements, Page.add, append_nil]

theorem lays_append {xs ys : List Statement} {f g : Nat → List String} (hx : l.Lays xs f)
    (hy : l.Lays ys g) : l.Lays (xs ++ ys) fun level => f level ++ g level := by
  intro floor p hp
  rw [statements_append l (hx floor p hp), hy floor (p.add (f p.level)) hp, Page.add_add]
  rfl

theorem lays_assign : l.Lays [.assign "y" "x" false none] fun level =>
    [lineAt l.width level "y = x"] := by
  intro floor p _
  rw [statements_cons l (show l.statement floor _ p = .ok (p.line l.width "y = x") from rfl),
    statements]
  rfl

/-- What stands one level further in is laid out there. -/
theorem Lays.inside {body : List Statement} {lines : Nat → List String} (h : l.Lays body lines)
    {floor : Nat} {p : Page} (hp : floor ≤ p.level) (rest : List Statement) :
    l.statements floor (body ++ rest) p.indent =
      l.statements floor rest (p.indent.add (lines (p.level + 1))) :=
  statements_append l (h floor p.indent (Nat.le_succ_of_le hp)) rest

/-- A block is laid out with its body one level further in. -/
theorem lays_block (text : String) {body : List Statement} {lines : Nat → List String}
    (hbody : l.Lays body lines) :
    l.Lays (.marker text .opens :: (body ++ [.closing])) fun level =>
      lineAt l.width level text :: (lines (level + 1) ++ [lineAt l.width level "end"]) := by
  intro floor p hp
  rw [statements_cons l (show l.statement floor _ p = .ok (p.line l.width text).indent from rfl),
    hbody.inside (by exact hp), statements_cons l
      (l.statement_closing floor _ (Nat.lt_succ_of_le hp)), statements]
  simp [Page.add, Page.line, Page.indent, Page.atLevel, lineAt]

/-- A divided block is laid out with its two parts one level further in. -/
theorem lays_divided (text : String) {yes no : List Statement} {f g : Nat → List String}
    (hyes : l.Lays yes f) (hno : l.Lays no g) :
    l.Lays (.marker text .opens :: (yes ++ .dividing :: (no ++ [.closing]))) fun level =>
      lineAt l.width level text :: (f (level + 1) ++
        lineAt l.width level "else" :: (g (level + 1) ++ [lineAt l.width level "end"])) := by
  intro floor p hp
  obtain ⟨q, hq⟩ : ∃ q, q = (((p.line l.width text).indent.add (f (p.level + 1))).atLevel
    p.level).line l.width "else" := ⟨_, rfl⟩
  have helse : l.statement floor .dividing
      ((p.line l.width text).indent.add (f (p.level + 1))) = .ok q.indent := by
    rw [hq]
    exact l.statement_dividing floor _ (Nat.lt_succ_of_le hp)
  have hlevel : q.level = p.level := by
    rw [hq]
    rfl
  rw [← hlevel] at hp
  rw [statements_cons l (show l.statement floor _ p = .ok (p.line l.width text).indent from rfl),
    hyes.inside (by exact hlevel ▸ hp), Page.line_level, statements_cons l helse, hno.inside hp,
    statements_cons l (l.statement_closing floor _ (Nat.lt_succ_of_le hp)), statements, hlevel]
  simp [hq, Page.add, Page.line, Page.indent, Page.atLevel, lineAt]

theorem opening_texts : BlockKind.branch.opening "x == 1" = .marker "if x == 1 then" .opens ∧
      BlockKind.loop.opening "x < 1" = .marker "while x < 1 do" .opens ∧
      BlockKind.loop.opening "true" = .marker "while true do" .opens := ⟨rfl, rfl, rfl⟩

/-- The statements of a program are laid out as its lines. -/
theorem lays_nodesAll (shapes : List Shape) :
    l.Lays (nodesAll shapes) fun level => linesAll l.width level shapes := by
  induction shapes using induct_programs with
  | nil => exact lays_nil
  | assign rest ih =>
    have h := lays_append lays_assign ih
    simpa only [nodesAll, nodes, opening_texts, linesAll, lines] using h
  | branch body rest ihbody ih =>
    have h := lays_append (lays_block "if x == 1 then" ihbody) ih
    simpa only [nodesAll, nodes, opening_texts, linesAll, lines] using h
  | either yes no more rest ihyes ihno ih =>
    have h := lays_append (lays_divided "if x == 1 then" ihyes ihno) ih
    simpa only [nodesAll, nodes, opening_texts, linesAll, lines, append_assoc] using h
  | whileLoop body rest ihbody ih =>
    have h := lays_append (lays_block "while x < 1 do" ihbody) ih
    simpa only [nodesAll, nodes, opening_texts, linesAll, lines] using h
  | endless body rest ihbody ih =>
    have h := lays_append (lays_block "while true do" ihbody) ih
    simpa only [nodesAll, nodes, opening_texts, linesAll, lines] using h

theorem bodyText_nodesAll {shapes : List Shape} {r : Routine} (hbody : r.body = nodesAll shapes)
    (hcaptured : r.captured = []) :
    l.bodyText r = .ok (join "\n" (linesAll l.width 0 shapes)) := by
  have hlays : l.statements 0 (nodesAll shapes) {} =
      .ok (Page.add {} (linesAll l.width 0 shapes)) := lays_nodesAll shapes 0 {} (Nat.le_refl _)
  unfold bodyText
  rw [hbody, hcaptured]
  show (l.statements 0 (nodesAll shapes) {} >>= fun p => _) = _
  rw [hlays]
  rfl

end Layout

namespace Shape

/-! ### The end of the text -/

theorem toList_join_last (lines : List String) (line : String) :
    ∃ before, (join "\n" (lines ++ [line])).toList = before ++ line.toList := by
  induction lines with
  | nil => exact ⟨[], rfl⟩
  | cons first lines ih =>
    obtain ⟨before, hbefore⟩ := ih
    obtain ⟨second, rest, hrest⟩ : ∃ second rest, lines ++ [line] = second :: rest :=
      exists_cons_of_ne_nil (by simp)
    refine ⟨first.toList ++ '\n' :: before, ?_⟩
    rw [cons_append, hrest, join, ← hrest, String.toList_append, String.toList_append, hbefore]
    simp

theorem lines_last (width level : Nat) (s : Shape) :
    ∃ lines text, s.lines width level = lines ++ [lineAt width level text] ∧
      (text = "y = x" ∨ text = "end") := by
  cases s with
  | assign => exact ⟨[], _, rfl, Or.inl rfl⟩
  | branch body => exact ⟨_ :: linesAll width (level + 1) body, _, rfl, Or.inr rfl⟩
  | either yes no more =>
    refine ⟨lineAt width level "if x == 1 then" :: (linesAll width (level + 1) yes ++
      lineAt width level "else" :: linesAll width (level + 1) (no :: more)), "end", ?_,
      Or.inr rfl⟩
    simp [lines, linesAll]
  | whileLoop body => exact ⟨_ :: linesAll width (level + 1) body, _, rfl, Or.inr rfl⟩
  | endless body => exact ⟨_ :: linesAll width (level + 1) body, _, rfl, Or.inr rfl⟩

/-- The last line of a program is an assignment or the end of a block. -/
theorem linesAll_last (width level : Nat) {shapes : List Shape} (h : shapes ≠ []) :
    ∃ lines text, linesAll width level shapes = lines ++ [lineAt width level text] ∧
      (text = "y = x" ∨ text = "end") := by
  induction shapes with
  | nil => exact absurd rfl h
  | cons s rest ih =>
    by_cases hrest : rest = []
    · obtain ⟨lines, text, hlines, htext⟩ := lines_last width level s
      exact ⟨lines, text, by rw [hrest, linesAll, linesAll, append_nil, hlines], htext⟩
    · obtain ⟨lines, text, hlines, htext⟩ := ih hrest
      exact ⟨s.lines width level ++ lines, text, by rw [linesAll, hlines, append_assoc], htext⟩

theorem trimEnd_of_last {s : String} {before : List Char} {c : Char}
    (h : s.toList = before ++ [c]) (hc : isBlank c = false) : trimEnd s = s := by
  have hdrop : dropEndWhile isBlank s.toList = s.toList := by
    rw [h, dropEndWhile, reverse_append, reverse_singleton, singleton_append,
      dropWhile_cons_of_neg (by rw [hc]; decide), reverse_cons, reverse_reverse]
  rw [trimEnd, hdrop, String.ofList_toList]

/-- The text of a program has no blanks at its end. -/
theorem trimEnd_linesAll (width level : Nat) (shapes : List Shape) :
    trimEnd (join "\n" (linesAll width level shapes)) =
      join "\n" (linesAll width level shapes) := by
  by_cases h : shapes = []
  · rw [h]
    rfl
  obtain ⟨lines, text, hlines, htext⟩ := linesAll_last width level h
  obtain ⟨before, hbefore⟩ := toList_join_last lines (lineAt width level text)
  obtain ⟨cs, c, hchars, hc⟩ : ∃ cs c, text.toList = cs ++ [c] ∧ isBlank c = false := by
    rcases htext with rfl | rfl
    · exact ⟨['y', ' ', '=', ' '], 'x', rfl, rfl⟩
    · exact ⟨['e', 'n'], 'd', rfl, rfl⟩
  have hlast : (join "\n" (lines ++ [lineAt width level text])).toList =
      (before ++ List.replicate (width * level) ' ' ++ cs) ++ [c] := by
    rw [hbefore, lineAt, String.toList_append, String.toList_ofList, hchars]
    simp
  rw [hlines]
  exact trimEnd_of_last hlast hc

end Shape

end LuaRecovery

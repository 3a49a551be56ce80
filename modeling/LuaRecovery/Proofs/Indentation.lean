/-
How lines are indented.

No line of a routine stands below the level of the body that it belongs to.  If every body is
balanced, then the lines are indented by nesting: `Indented` is the grammar of bodies together with
their lines, in which the parts of a block stand one level further in than the markers around them,
and what is inside a function one level further in than its header and its `end`.
-/
import LuaRecovery.Proofs.Outlines

namespace LuaRecovery

open List Statement

namespace Layout

variable {floor depth : Nat} {s : Statement} {body : List Statement} {r : Routine}

/-! ### The lines of an outline -/

@[simp] theorem oneLine_append {s t : String} : OneLine (s ++ t) ↔ OneLine s ∧ OneLine t := by
  simp [OneLine]

theorem oneLine_commaList (parts : List String) (h : ∀ t ∈ parts, OneLine t) :
    OneLine (Text.commaList parts) := by
  unfold Text.commaList
  induction parts with
  | nil => exact not_mem_nil
  | cons first rest ih =>
    cases rest with
    | nil => exact h first mem_cons_self
    | cons next rest =>
      rw [Text.join, oneLine_append, oneLine_append]
      exact ⟨⟨h first mem_cons_self, by simp [OneLine]⟩, ih fun t ht => h t (mem_cons_of_mem _ ht)⟩

theorem oneLine_withComment {text : String} {comment : Option String} (htext : OneLine text)
    (hcomment : ∀ t ∈ comment.toList, OneLine t) : OneLine (withComment text comment) := by
  cases comment with
  | none => exact htext
  | some comment =>
    simp only [withComment]
    split
    · exact htext
    · simp only [oneLine_append]
      exact ⟨⟨htext, by simp [OneLine]⟩, hcomment comment (by simp)⟩

theorem oneLine_paramList (params : List String) (h : ∀ t ∈ params, OneLine t) (vararg : Bool) :
    OneLine (paramList params vararg) := by
  refine oneLine_commaList _ fun t ht => ?_
  cases vararg with
  | false => exact h t ht
  | true =>
    rcases mem_append.mp ht with ht | ht
    · exact h t ht
    · rw [mem_singleton.mp ht]
      simp [OneLine]

/-- A statement whose texts have no line break has none in its line. -/
theorem oneLine_line (h : ∀ t ∈ s.texts, OneLine t) : OneLine s.line := by
  cases s with
  | assign target value declares comment =>
    refine oneLine_withComment ?_ fun t ht => h t (by simp [texts, ht])
    have htarget := h target (by simp [texts])
    have hvalue := h value (by simp [texts])
    cases declares <;> simp only [oneLine_append] <;>
      exact ⟨⟨⟨by simp [OneLine], htarget⟩, by simp [OneLine]⟩, hvalue⟩
  | define target r declares comment =>
    refine oneLine_withComment ?_ fun t ht => h t (by simp [texts, ht])
    have htarget := h target (by simp [texts])
    have hparams := oneLine_paramList r.params (fun t ht => h t (by simp [texts, ht])) r.vararg
    cases declares <;> simp only [↓reduceIte, Bool.false_eq_true, oneLine_append] <;>
      simp [hparams, htarget] <;> simp [OneLine]
  | call callee args comment =>
    refine oneLine_withComment ?_ fun t ht => h t (by simp [texts, ht])
    have hcallee := h callee (by simp [texts])
    have hargs := oneLine_commaList args fun t ht => h t (by simp [texts, ht])
    simp only [Lua.callText, oneLine_append]
    exact ⟨⟨⟨hcallee, by simp [OneLine]⟩, hargs⟩, by simp [OneLine]⟩
  | ret values comment =>
    refine oneLine_withComment ?_ fun t ht => h t (by simp [texts, ht])
    have hvalues := oneLine_commaList values fun t ht => h t (by simp [texts, ht])
    split
    · simp [OneLine]
    · rw [oneLine_append]
      exact ⟨by simp [OneLine], hvalues⟩
  | marker text role => exact h text mem_cons_self
  | verbatim text => exact h text mem_cons_self
  | function r =>
    have hname := h r.name mem_cons_self
    have hparams := oneLine_paramList r.params (fun t ht => h t (mem_cons_of_mem _ ht)) r.vararg
    simp only [line, oneLine_append]
    exact ⟨⟨⟨⟨by simp [OneLine], hname⟩, by simp [OneLine]⟩, hparams⟩, by simp [OneLine]⟩
  | foreign value => exact not_mem_nil

/-- What holds of the lines of every statement of a body holds of the lines of the body. -/
theorem forall_bodyLines {Q : Line → Prop} : ∀ {depth : Nat},
    (∀ s ∈ body, ∀ level, floor ≤ level → ∀ line ∈ statementLines floor level s, Q line) →
    ∀ line ∈ bodyLines floor depth body, Q line := by
  induction body with
  | nil =>
    intro depth _ line hline
    rw [bodyLines] at hline
    cases hline
  | cons s rest ih =>
    intro depth h line hline
    rw [bodyLines_cons] at hline
    rcases mem_append.mp hline with hline | hline
    · exact h s mem_cons_self _ (Nat.le_add_right _ _) line hline
    · exact ih (fun t ht => h t (mem_cons_of_mem _ ht)) line hline

/-- No line of a routine stands below the level of its body, and none has a line break. -/
theorem lines_of_printable (h : Throughout RoutineOf.Printable r) : ∀ {level : Nat},
    ∀ line ∈ routineLines level r, line.floor ≤ line.level ∧ OneLine line.text := by
  induction h with
  | @intro r hr _ ih =>
    intro level line hline
    rw [routineLines_eq] at hline
    rcases mem_append.mp hline with hline | hline
    · obtain ⟨text, htext, rfl⟩ := mem_map.mp hline
      refine ⟨Nat.le_refl _, ?_⟩
      unfold upvalueLines at htext
      split at htext
      · cases htext
      · rw [mem_singleton.mp htext, oneLine_append]
        exact ⟨by simp [OneLine], oneLine_commaList _ hr.captured⟩
    · refine forall_bodyLines (Q := fun line => line.floor ≤ line.level ∧ OneLine line.text)
        (fun s hs here hhere line hline => ?_) line hline
      have hfirst := oneLine_line (hr.texts s hs)
      cases hroutine : s.routine? with
      | none =>
        rw [statementLines_of_none hroutine, mem_singleton] at hline
        rw [hline]
        exact ⟨hhere, hfirst⟩
      | some q =>
        rw [statementLines_of_some hroutine] at hline
        rcases mem_cons.mp hline with rfl | hline
        · exact ⟨hhere, hfirst⟩
        · rcases mem_append.mp hline with hline | hline
          · exact ih s hs q hroutine line hline
          · rw [mem_singleton.mp hline]
            exact ⟨hhere, by simp [OneLine]⟩

/-! ### Indentation by nesting -/

mutual

/-- The lines inside a function whose header is one level further out. -/
inductive Inside : Nat → Routine → List Line → Prop
  | intro {level : Nat} {r : Routine} {lines : List Line} : Indented level level r.body lines →
      Inside level r ((upvalueLines r.captured).map (Line.mk level level) ++ lines)

/-- Statements of a body with a level, all at one level, and their lines. -/
inductive Indented : Nat → Nat → List Statement → List Line → Prop
  | nil (floor level : Nat) : Indented floor level [] []
  | plain {floor level : Nat} {s : Statement} {rest : List Statement} {lines : List Line} :
      s.role? = none → s.routine? = none → Indented floor level rest lines →
      Indented floor level (s :: rest) (⟨floor, level, s.line⟩ :: lines)
  | function {floor level : Nat} {s : Statement} {r : Routine} {rest : List Statement}
      {inner lines : List Line} :
      s.routine? = some r → Inside (level + 1) r inner → Indented floor level rest lines →
      Indented floor level (s :: rest)
        (⟨floor, level, s.line⟩ :: (inner ++ ⟨floor, level, "end"⟩ :: lines))
  | block {floor level : Nat} {s : Statement} {parts rest : List Statement}
      {inner lines : List Line} :
      s.role? = some .opens → Parts floor level parts inner → Indented floor level rest lines →
      Indented floor level (s :: (parts ++ rest)) (⟨floor, level, s.line⟩ :: (inner ++ lines))

/-- The rest of a block after its opening marker: one part or more, each with the marker behind it
at the level of the opening one. -/
inductive Parts : Nat → Nat → List Statement → List Line → Prop
  | last {floor level : Nat} {s : Statement} {body : List Statement} {lines : List Line} :
      Indented floor (level + 1) body lines → s.role? = some .closes →
      Parts floor level (body ++ [s]) (lines ++ [⟨floor, level, s.line⟩])
  | next {floor level : Nat} {s : Statement} {body parts : List Statement}
      {lines more : List Line} :
      Indented floor (level + 1) body lines → s.role? = some .divides →
      Parts floor level parts more →
      Parts floor level (body ++ s :: parts) (lines ++ ⟨floor, level, s.line⟩ :: more)

end

/-- The rest of a body in which blocks are open: the rest of each of them, innermost first, and then
statements of the body itself. -/
def Hangs (floor : Nat) : Nat → List Statement → List Line → Prop
  | 0, body, lines => Indented floor floor body lines
  | depth + 1, body, lines => ∃ parts rest inner more, body = parts ++ rest ∧
      lines = inner ++ more ∧ Parts floor (floor + depth) parts inner ∧ Hangs floor depth rest more

variable (xs : List Statement) (ls : List Line)

/-- What may stand before statements may stand before the rest of a block. -/
theorem Parts.prepend {level : Nat}
    {parts : List Statement} {inner : List Line}
    (h : ∀ {rest lines}, Indented floor (level + 1) rest lines →
      Indented floor (level + 1) (xs ++ rest) (ls ++ lines))
    (hparts : Parts floor level parts inner) : Parts floor level (xs ++ parts) (ls ++ inner) := by
  cases hparts with
  | last hbody hs =>
    rw [← append_assoc, ← append_assoc]
    exact .last (h hbody) hs
  | next hbody hs hmore =>
    rw [← append_assoc, ← append_assoc]
    exact .next (h hbody) hs hmore

theorem Hangs.prepend {rest : List Statement}
    {lines : List Line}
    (h : ∀ {rest lines}, Indented floor (floor + depth) rest lines →
      Indented floor (floor + depth) (xs ++ rest) (ls ++ lines))
    (hrest : Hangs floor depth rest lines) : Hangs floor depth (xs ++ rest) (ls ++ lines) := by
  cases depth with
  | zero => exact h hrest
  | succ depth =>
    obtain ⟨parts, rest, inner, more, rfl, rfl, hparts, hrest⟩ := hrest
    exact ⟨xs ++ parts, rest, ls ++ inner, more, (append_assoc _ _ _).symm,
      (append_assoc _ _ _).symm, hparts.prepend xs ls h, hrest⟩

/-- The lines of a body whose markers find their blocks open and that leaves none open. -/
theorem hangs_bodyLines (hinner : ∀ s ∈ body, ∀ r, s.routine? = some r →
      ∀ level, Inside level r (routineLines level r)) :
    ∀ {depth : Nat}, Finds depth body → depthAfterAll depth body = 0 →
      Hangs floor depth body (bodyLines floor depth body) := by
  induction body with
  | nil =>
    intro depth _ hlast
    obtain rfl : depth = 0 := hlast
    rw [bodyLines]
    exact .nil floor floor
  | cons s rest ih =>
    intro depth hfinds hlast
    have hrest := ih (fun t ht => hinner t (mem_cons_of_mem _ ht)) hfinds.2 hlast
    rw [bodyLines_cons]
    cases hrole : s.role? with
    | none =>
      simp only [depthAt, depthAfter, hrole] at hrest ⊢
      cases hroutine : s.routine? with
      | none =>
        rw [statementLines_of_none hroutine]
        exact hrest.prepend [s] _ fun h => .plain hrole hroutine h
      | some r =>
        have hinside := hinner s mem_cons_self r hroutine (floor + depth + 1)
        rw [statementLines_of_some hroutine]
        refine hrest.prepend [s] _ fun h => ?_
        simpa using Indented.function hroutine hinside h
    | some role =>
      have hroutine : s.routine? = none := by
        cases s <;> first | rfl | cases hrole
      rw [statementLines_of_none hroutine]
      have hneeds := hfinds.1
      cases role with
      | opens =>
        simp only [depthAt, depthAfter, hrole] at hrest ⊢
        obtain ⟨parts, rest, inner, more, rfl, hlines, hparts, hrest⟩ := hrest
        rw [hlines]
        have hblock := hrest.prepend (s :: parts)
          (⟨floor, floor + depth, s.line⟩ :: inner) fun h => .block hrole hparts h
        simpa using hblock
      | divides =>
        obtain ⟨depth, rfl⟩ := Nat.exists_eq_succ_of_ne_zero
          (Nat.pos_iff_ne_zero.mp (hneeds (.inl hrole)))
        simp only [depthAt, depthAfter, hrole, Nat.succ_eq_add_one, Nat.add_sub_cancel] at hrest ⊢
        obtain ⟨parts, rest, inner, more, rfl, hlines, hparts, hrest⟩ := hrest
        rw [hlines]
        exact ⟨s :: parts, rest, ⟨floor, floor + depth, s.line⟩ :: inner, more, rfl, rfl,
          .next (.nil _ _) hrole hparts, hrest⟩
      | closes =>
        obtain ⟨depth, rfl⟩ := Nat.exists_eq_succ_of_ne_zero
          (Nat.pos_iff_ne_zero.mp (hneeds (.inr hrole)))
        simp only [depthAt, depthAfter, hrole, Nat.succ_eq_add_one, Nat.add_sub_cancel] at hrest ⊢
        exact ⟨[s], rest, [⟨floor, floor + depth, s.line⟩], _, rfl, rfl,
          .last (.nil _ _) hrole, hrest⟩

/-- The lines of a routine in which every body is balanced are indented by nesting. -/
theorem inside_routineLines (hprint : Throughout RoutineOf.Printable r)
    (h : ∀ q, r.Encloses q → ¬ Unbalanced q.body) :
    ∀ level, Inside level r (routineLines level r) := by
  induction hprint with
  | @intro r _ _ ih =>
    intro level
    obtain ⟨hfinds, hlast⟩ := not_unbalanced_iff.mp (h r (.self r))
    have hinner : ∀ s ∈ r.body, ∀ q, s.routine? = some q → ∀ level,
        Inside level q (routineLines level q) := fun s hs q hq =>
      ih s hs q hq fun q' hq' => h q' (.inside hs hq hq')
    rw [routineLines_eq]
    exact .intro (hangs_bodyLines hinner hfinds hlast)

end Layout

open Layout

/-- The lines of a routine, from the level 0 on. -/
def RoutineOf.outline (r : Routine) : List Line := routineLines 0 r

/-- **The strict and the lenient layout agree.**  A lenient layout prints the outline of every
routine that can be printed, and no line of the outline stands below the level of its body.  A
strict layout refuses a routine for its markers exactly if some body in it is unbalanced; otherwise
it prints the same text, whose lines are indented by nesting. -/
theorem layouts_agree_unless_unbalanced (width : Nat) {r : Routine}
    (h : Throughout RoutineOf.Printable r) :
    ({ width, lenient := true } : Layout).bodyText r =
        .ok (Text.join "\n" (r.outline.map (Line.render width))) ∧
      (∀ line ∈ r.outline, line.floor ≤ line.level ∧ OneLine (line.render width)) ∧
      ((∃ fault, ({ width } : Layout).bodyText r = .error fault ∧ fault.IsMalformed) ↔
        ∃ q, r.Encloses q ∧ Unbalanced q.body) ∧
      ((¬ ∃ fault, ({ width } : Layout).bodyText r = .error fault ∧ fault.IsMalformed) →
        ({ width } : Layout).bodyText r = ({ width, lenient := true } : Layout).bodyText r ∧
          Inside 0 r r.outline) := by
  have hlenient := (draws_of_balanced (l := { width, lenient := true }) h (.inl rfl)).bodyText
  have hrefused (hbad : ∃ q, r.Encloses q ∧ Unbalanced q.body) :=
    (refuses_of_unbalanced (l := { width }) rfl h hbad).bodyText
  have hstrict (hgood : ¬ ∃ q, r.Encloses q ∧ Unbalanced q.body) :=
    (draws_of_balanced (l := { width }) h (.inr fun q hq hun => hgood ⟨q, hq, hun⟩)).bodyText
  refine ⟨hlenient, fun line hline => ?_, ⟨?_, hrefused⟩, fun hnone => ?_⟩
  · obtain ⟨hlevel, htext⟩ := lines_of_printable h line hline
    refine ⟨hlevel, oneLine_append.mpr ⟨?_, htext⟩⟩
    simp [OneLine]
  · rintro ⟨fault, hfault, -⟩
    refine Classical.byContradiction fun hgood => ?_
    rw [hstrict hgood] at hfault
    cases hfault
  · have hgood : ¬ ∃ q, r.Encloses q ∧ Unbalanced q.body := fun hbad => hnone (hrefused hbad)
    refine ⟨(hstrict hgood).trans hlenient.symm, ?_⟩
    exact inside_routineLines h (fun q hq hun => hgood ⟨q, hq, hun⟩) 0

/-- A function inside a block, with a body. -/
def functionInBlock (body : List Statement) : Routine where
  name := "main"
  body := [.marker "while a do" .opens,
    .define "f" { name := "f", body, captured := ["x"], params := ["b"], vararg := false } true
      none,
    .marker "end" .closes]

theorem functionInBlock_printable {body : List Statement}
    (hprint : ∀ s ∈ body, s.IsPrintable) (htexts : ∀ s ∈ body, ∀ t ∈ s.texts, OneLine t)
    (hnone : ∀ s ∈ body, s.routine? = none) :
    Throughout RoutineOf.Printable (functionInBlock body) := by
  refine .intro ⟨?_, ?_, nofun⟩ fun s hs inner hinner => ?_
  · simp [functionInBlock, Statement.IsPrintable]
  · simp [functionInBlock, texts, OneLine]
  · obtain rfl : inner =
        { name := "f", body, captured := ["x"], params := ["b"], vararg := false } := by
      simp only [functionInBlock, mem_cons, not_mem_nil, or_false] at hs
      rcases hs with rfl | rfl | rfl
      · cases hinner
      · exact (Option.some.inj hinner).symm
      · cases hinner
    refine .intro ⟨hprint, htexts, by simp [OneLine]⟩ fun s hs inner hinner => ?_
    rw [hnone s hs] at hinner
    cases hinner

/-- A branch with an else part. -/
def bothWays : List Statement :=
  [.marker "if b then" .opens, .call "g" ["b"] none, .marker "else" .divides, .ret ["x"] none,
    .marker "end" .closes]

/-- A branch in a function in a loop is printed three levels deep.  With one `end` too many it is
refused, although the loop is balanced. -/
theorem layouts_agree_inside_block : (functionInBlock bothWays).outline.map (Line.render 4) =
        ["while a do", "    local function f(b)", "        -- upvalues: x",
          "        if b then",
          "            g(b)",
          "        else",
          "            return x",
          "        end",
          "    end",
          "end"] ∧
      (({ width := 4 } : Layout).bodyText (functionInBlock bothWays) =
        ({ width := 4, lenient := true } : Layout).bodyText (functionInBlock bothWays)) ∧
      Inside 0 (functionInBlock bothWays) (functionInBlock bothWays).outline ∧
      ∃ fault, ({ width := 4 } : Layout).bodyText (functionInBlock (bothWays ++ [.closing])) =
        .error fault ∧ fault.IsMalformed := by
  have hprint : Throughout RoutineOf.Printable (functionInBlock bothWays) :=
    functionInBlock_printable (by simp [bothWays, Statement.IsPrintable])
      (by simp [bothWays, texts, OneLine]) (by simp [bothWays, routine?])
  have hprint' : Throughout RoutineOf.Printable (functionInBlock (bothWays ++ [.closing])) :=
    functionInBlock_printable (by simp [bothWays, Statement.IsPrintable, closing])
      (by simp [bothWays, texts, OneLine, closing])
      (by simp [bothWays, routine?, closing])
  obtain ⟨-, -, -, hagree⟩ := layouts_agree_unless_unbalanced 4 hprint
  obtain ⟨-, -, hrefused, -⟩ := layouts_agree_unless_unbalanced 4 hprint'
  have hok : (({ width := 4 } : Layout).bodyText (functionInBlock bothWays)).isOk = true := by
    decide +kernel
  have hnone : ¬ ∃ fault, ({ width := 4 } : Layout).bodyText (functionInBlock bothWays) =
      .error fault ∧ fault.IsMalformed := by
    rintro ⟨fault, hfault, -⟩
    rw [hfault] at hok
    cases hok
  obtain ⟨hsame, hinside⟩ := hagree hnone
  refine ⟨by decide +kernel, hsame, hinside, hrefused.mpr ⟨_, .inside (s := .define "f"
    { name := "f", body := bothWays ++ [.closing], captured := ["x"], params := ["b"],
      vararg := false } true none) (by simp [functionInBlock]) rfl (.self _), ?_⟩⟩
  exact .inl ⟨bothWays, .closing, [], rfl, .inr rfl, rfl⟩

end LuaRecovery

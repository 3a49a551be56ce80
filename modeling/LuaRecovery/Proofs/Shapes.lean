/-
Structured programs.

A shape is a statement or a block of the source language, and a program is a list of
shapes.  `Shape.codeAll` is the code that a compiler gives for a program, `nodesAll` the
statements that should be recovered from that code, and `linesAll` their text.  `loopsAll`
has the loops of the program by their places in the code, and the search for loops finds
exactly these.
-/
import LuaRecovery.Proofs.Nesting
import LuaRecovery.Prototype

namespace LuaRecovery

open List

/-- A statement or a block of a structured program.  An else part is never empty. -/
inductive Shape where
  | assign
  | branch (body : List Shape)
  | either (yes : List Shape) (no : Shape) (more : List Shape)
  | whileLoop (body : List Shape)
  | endless (body : List Shape)

namespace Shape

/-- Induction over programs: the parts of the first shape and the rest of the program. -/
theorem induct_programs {motive : List Shape → Prop} (nil : motive [])
    (assign : ∀ rest, motive rest → motive (.assign :: rest))
    (branch : ∀ body rest, motive body → motive rest → motive (.branch body :: rest))
    (either : ∀ yes no more rest, motive yes → motive (no :: more) → motive rest →
      motive (.either yes no more :: rest))
    (whileLoop : ∀ body rest, motive body → motive rest → motive (.whileLoop body :: rest))
    (endless : ∀ body rest, motive body → motive rest → motive (.endless body :: rest))
    (shapes : List Shape) : motive shapes := by
  refine @Shape.rec_1 (fun s => ∀ rest, motive rest → motive (s :: rest)) motive
    assign ?_ ?_ ?_ ?_ nil ?_ shapes
  · exact fun body hbody rest hrest => branch body rest hbody hrest
  · exact fun yes no more hyes hno hmore rest hrest =>
      either yes no more rest hyes (hno more hmore) hrest
  · exact fun body hbody rest hrest => whileLoop body rest hbody hrest
  · exact fun body hbody rest hrest => endless body rest hbody hrest
  · exact fun s rest hs hrest => hs rest hrest

/-! ### Code -/

/-- Load `x`. -/
def loadX : Instruction := { opcode := .getGlobal, a := 0, b := 0 }

/-- Assign `x` to `y`. -/
def storeY : Instruction := { opcode := .setGlobal, a := 0, b := 2 }

/-- Compare `x` with one. -/
def test (opcode : Opcode) : Instruction := { opcode, a := 0, b := 0, c := 257 }

/-- A jump. -/
def jumpBy (offset : Int) : Instruction := { opcode := .jump, b := offset }

/-- A return of nothing. -/
def leave : Instruction := { opcode := .ret, b := 1 }

mutual

/-- The code of a shape. -/
def code : Shape → List Instruction
  | .assign => [storeY]
  | .branch body =>
    test .compareEq :: jumpBy (codeAll body).length :: codeAll body
  | .either yes no more =>
    test .compareEq :: jumpBy ((codeAll yes).length + 1) :: (codeAll yes ++
      jumpBy (no.code ++ codeAll more).length :: (no.code ++ codeAll more))
  | .whileLoop body =>
    test .compareLt :: jumpBy (-1) :: (codeAll body ++ [jumpBy (-((codeAll body).length + 3))])
  | .endless body => codeAll body ++ [jumpBy (-((codeAll body).length + 1))]

/-- The code of a program. -/
def codeAll : List Shape → List Instruction
  | [] => []
  | s :: rest => s.code ++ codeAll rest

end

/-- The compiled form of a program, with a load before it and a return after it. -/
def prototype (shapes : List Shape) : Prototype :=
  { instructions := loadX :: (codeAll shapes ++ [leave])
    constants := [.string "x", .number 1, .string "y", .string "z"] }

/-! ### Statements and lines -/

mutual

/-- The statements of a shape. -/
def nodes : Shape → List Statement
  | .assign => [.assign "y" "x" false none]
  | .branch body => BlockKind.branch.opening "x == 1" :: (nodesAll body ++ [.closing])
  | .either yes no more =>
    BlockKind.branch.opening "x == 1" :: (nodesAll yes ++
      .dividing :: (no.nodes ++ nodesAll more ++ [.closing]))
  | .whileLoop body => BlockKind.loop.opening "x < 1" :: (nodesAll body ++ [.closing])
  | .endless body => BlockKind.loop.opening "true" :: (nodesAll body ++ [.closing])

/-- The statements of a program. -/
def nodesAll : List Shape → List Statement
  | [] => []
  | s :: rest => s.nodes ++ nodesAll rest

end

/-- A line at a level. -/
def lineAt (width level : Nat) (text : String) : String :=
  String.ofList (List.replicate (width * level) ' ') ++ text

mutual

/-- The lines of a shape at a level. -/
def lines (width level : Nat) : Shape → List String
  | .assign => [lineAt width level "y = x"]
  | .branch body =>
    lineAt width level "if x == 1 then" :: (linesAll width (level + 1) body
      ++ [lineAt width level "end"])
  | .either yes no more =>
    lineAt width level "if x == 1 then" :: (linesAll width (level + 1) yes
      ++ lineAt width level "else" :: (no.lines width (level + 1)
        ++ linesAll width (level + 1) more ++ [lineAt width level "end"]))
  | .whileLoop body =>
    lineAt width level "while x < 1 do" :: (linesAll width (level + 1) body
      ++ [lineAt width level "end"])
  | .endless body =>
    lineAt width level "while true do" :: (linesAll width (level + 1) body
      ++ [lineAt width level "end"])

/-- The lines of a program at a level. -/
def linesAll (width level : Nat) : List Shape → List String
  | [] => []
  | s :: rest => s.lines width level ++ linesAll width level rest

end

/-! ### Loops -/

/-- A loop by its places in the code: where an endless loop starts, and the jump that closes
the loop.  A loop with a condition is opened by its compare. -/
structure Span where
  head : Option Int
  tail : Int

mutual

/-- The loops of a shape whose code starts at an index. -/
def loops (index : Int) : Shape → List Span
  | .assign => []
  | .branch body => loopsAll (index + 2) body
  | .either yes no more =>
    loopsAll (index + 2) yes ++ (no.loops (index + 3 + (codeAll yes).length)
      ++ loopsAll (index + 3 + (codeAll yes).length + no.code.length) more)
  | .whileLoop body => loopsAll (index + 2) body ++ [⟨none, index + 2 + (codeAll body).length⟩]
  | .endless body => loopsAll index body ++ [⟨some index, index + (codeAll body).length⟩]

/-- The loops of a program whose code starts at an index. -/
def loopsAll (index : Int) : List Shape → List Span
  | [] => []
  | s :: rest => s.loops index ++ loopsAll (index + s.code.length) rest

end

/-! ### Equations for programs -/

theorem codeAll_cons (s : Shape) (rest : List Shape) :
    codeAll (s :: rest) = s.code ++ codeAll rest := rfl

theorem codeAll_branch (body rest : List Shape) : codeAll (.branch body :: rest) =
      test .compareEq :: jumpBy (codeAll body).length :: (codeAll body ++ codeAll rest) := rfl

variable (index : Int) (yes : List Shape) (no : Shape)

theorem codeAll_either (more rest : List Shape) : codeAll (.either yes no more :: rest) =
      test .compareEq :: jumpBy ((codeAll yes).length + 1) :: (codeAll yes ++
        jumpBy (codeAll (no :: more)).length :: (codeAll (no :: more) ++ codeAll rest)) := by
  show _ :: _ :: ((codeAll yes ++ _ :: (no.code ++ codeAll more)) ++ codeAll rest) = _
  rw [append_assoc, cons_append, codeAll_cons no more]

theorem codeAll_whileLoop (body rest : List Shape) : codeAll (.whileLoop body :: rest) =
      test .compareLt :: jumpBy (-1) :: (codeAll body ++
        jumpBy (-((codeAll body).length + 3)) :: codeAll rest) := by
  show _ :: _ :: ((codeAll body ++ [_]) ++ codeAll rest) = _
  rw [append_assoc, singleton_append]

theorem codeAll_endless (body rest : List Shape) : codeAll (.endless body :: rest) =
      codeAll body ++ jumpBy (-((codeAll body).length + 1)) :: codeAll rest := by
  show (codeAll body ++ [_]) ++ codeAll rest = _
  rw [append_assoc, singleton_append]

theorem loopsAll_branch (body rest : List Shape) : loopsAll index (.branch body :: rest) =
      loopsAll (index + 2) body ++ loopsAll (index + 2 + (codeAll body).length) rest := by
  show loopsAll (index + 2) body ++
    loopsAll (index + ((_ :: _ :: codeAll body : List Instruction).length : Nat)) rest = _
  congr 2
  simp only [length_cons]
  omega

theorem loopsAll_either (more rest : List Shape) : loopsAll index (.either yes no more :: rest) =
      loopsAll (index + 2) yes ++ (loopsAll (index + 3 + (codeAll yes).length) (no :: more) ++
        loopsAll (index + 3 + (codeAll yes).length + (codeAll (no :: more)).length) rest) := by
  show (loopsAll (index + 2) yes ++ loopsAll _ (no :: more)) ++
    loopsAll (index + ((_ :: _ :: (codeAll yes ++ _ :: codeAll (no :: more)) :
      List Instruction).length : Nat)) rest = _
  rw [append_assoc]
  congr 3
  simp only [length_cons, length_append]
  omega

theorem loopsAll_whileLoop (body rest : List Shape) : loopsAll index (.whileLoop body :: rest) =
      loopsAll (index + 2) body ++ (⟨none, index + 2 + (codeAll body).length⟩ ::
        loopsAll (index + 3 + (codeAll body).length) rest) := by
  show (loopsAll (index + 2) body ++ [_]) ++
    loopsAll (index + ((_ :: _ :: (codeAll body ++ [_]) : List Instruction).length : Nat)) rest = _
  rw [append_assoc, singleton_append]
  congr 3
  simp only [length_cons, length_append, length_nil]
  omega

theorem loopsAll_endless (body rest : List Shape) : loopsAll index (.endless body :: rest) =
      loopsAll index body ++ (⟨some index, index + (codeAll body).length⟩ ::
        loopsAll (index + 1 + (codeAll body).length) rest) := by
  show (loopsAll index body ++ [_]) ++
    loopsAll (index + ((codeAll body ++ [_] : List Instruction).length : Nat)) rest = _
  rw [append_assoc, singleton_append]
  congr 3
  simp only [length_append, length_cons, length_nil]
  omega

/-- The places of a loop lie between two indexes. -/
def Span.Within (first last : Int) (span : Span) : Prop :=
  first ≤ span.tail ∧ span.tail < last ∧ ∀ k, span.head = some k → first ≤ k ∧ k < last

theorem Span.Within.mono {first last first' last' : Int} {span : Span}
    (h : span.Within first last) (hfirst : first' ≤ first) (hlast : last ≤ last') :
    span.Within first' last' := by
  obtain ⟨h₁, h₂, h₃⟩ := h
  refine ⟨by omega, by omega, fun k hk => ?_⟩
  have := h₃ k hk
  omega

/-- The loops of a program lie in its code. -/
theorem within_loopsAll (shapes : List Shape) : ∀ index, ∀ span ∈ loopsAll index shapes,
      span.Within index (index + (codeAll shapes).length) := by
  induction shapes using induct_programs with
  | nil => exact fun index span hspan => absurd hspan not_mem_nil
  | assign rest ih =>
    intro index span hspan
    simp only [loopsAll, loops, nil_append, code, length_singleton] at hspan
    refine (ih _ span hspan).mono (by omega) ?_
    simp only [codeAll, code, length_append, length_singleton]
    omega
  | branch body rest ihbody ihrest =>
    intro index span hspan
    rw [loopsAll_branch, mem_append] at hspan
    rw [codeAll_branch, length_cons, length_cons, length_append]
    rcases hspan with hspan | hspan
    · exact (ihbody _ span hspan).mono (by omega) (by omega)
    · exact (ihrest _ span hspan).mono (by omega) (by omega)
  | either yes no more rest ihyes ihno ihrest =>
    intro index span hspan
    rw [loopsAll_either, mem_append, mem_append] at hspan
    rw [codeAll_either, length_cons, length_cons, length_append, length_cons, length_append]
    rcases hspan with hspan | hspan | hspan
    · exact (ihyes _ span hspan).mono (by omega) (by omega)
    · exact (ihno _ span hspan).mono (by omega) (by omega)
    · exact (ihrest _ span hspan).mono (by omega) (by omega)
  | whileLoop body rest ihbody ihrest =>
    intro index span hspan
    rw [loopsAll_whileLoop, mem_append, mem_cons] at hspan
    rw [codeAll_whileLoop, length_cons, length_cons, length_append, length_cons]
    rcases hspan with hspan | rfl | hspan
    · exact (ihbody _ span hspan).mono (by omega) (by omega)
    · exact ⟨by dsimp only; omega, by dsimp only; omega, nofun⟩
    · exact (ihrest _ span hspan).mono (by omega) (by omega)
  | endless body rest ihbody ihrest =>
    intro index span hspan
    rw [loopsAll_endless, mem_append, mem_cons] at hspan
    rw [codeAll_endless, length_append, length_cons]
    rcases hspan with hspan | rfl | hspan
    · exact (ihbody _ span hspan).mono (by omega) (by omega)
    · refine ⟨by dsimp only; omega, by dsimp only; omega, fun k hk => ?_⟩
      cases hk
      omega
    · exact (ihrest _ span hspan).mono (by omega) (by omega)

end Shape

/-! ### The search for loops -/

namespace Loops

open Shape

/-- The loops found in between. -/
structure Found (l l' : Loops) (spans : List Span) : Prop where
  headers : ∀ k, (l'.headers.get? k).getD 0 =
    (l.headers.get? k).getD 0 + spans.countP fun span => span.head == some k
  closers : ∀ k, k ∈ l'.closers ↔ k ∈ l.closers ∨ ∃ span ∈ spans, span.tail = k

theorem Found.refl (l : Loops) : Found l l [] := ⟨by simp, by simp⟩

theorem Found.trans {l₁ l₂ l₃ : Loops} {xs ys : List Span} (h₁ : Found l₁ l₂ xs)
    (h₂ : Found l₂ l₃ ys) : Found l₁ l₃ (xs ++ ys) := by
  refine ⟨fun k => ?_, fun k => ?_⟩
  · rw [h₂.headers, h₁.headers, countP_append, Nat.add_assoc]
  · simp only [h₂.closers, h₁.closers, mem_append, or_and_right, exists_or, or_assoc]

theorem found_closer (l : Loops) (tail : Int) : Found l (l.addCloser tail) [⟨none, tail⟩] := by
  refine ⟨fun k => ?_, fun k => ?_⟩
  · simp [addCloser]
  · simp [addCloser, or_comm, eq_comm]

theorem found_header (l : Loops) (head tail : Int) :
    Found l ((l.addHeader head).addCloser tail) [⟨some head, tail⟩] := by
  refine ⟨fun k => ?_, fun k => ?_⟩
  · by_cases hk : head = k
    · simp [addCloser, addHeader, hk]
    · simp [addCloser, addHeader, hk]
  · simp [addCloser, addHeader, or_comm, eq_comm]

variable {l : Loops} {waiting : List Int} {index : Int} {rest : List Instruction}

variable {i : Instruction}

theorem scan_plain (hi : i.opcode.isCompare = false) (hjump : i.opcode = .jump → 0 ≤ i.b)
    (hrest : rest ≠ []) : l.scan waiting index (i :: rest) = l.scan waiting (index + 1) rest := by
  obtain ⟨j, more, rfl⟩ := exists_cons_of_ne_nil hrest
  have hforward : (!i.opcode.isCompare && i.opcode == .jump && decide (i.b < 0)) = false := by
    rw [hi]
    cases hop : (i.opcode == .jump) with
    | false => rfl
    | true =>
      have := hjump (by simpa using hop)
      simp
      omega
  rw [scan, hforward, hi]
  rfl

theorem scan_compare {i j : Instruction} (hi : i.opcode.isCompare = true) (hj : j.opcode = .jump) :
    l.scan waiting index (i :: j :: rest) =
      l.scan (if j.b < 0 then index :: waiting else waiting) (index + 2) rest := by
  rw [scan, hi, hj]
  rfl

theorem scan_back (hi : i.opcode = .jump) (hb : i.b < 0) (hrest : rest ≠ []) :
    l.scan waiting index (i :: rest) = (l.backJump waiting index (jumpTarget index i.b)).2.scan
        (l.backJump waiting index (jumpTarget index i.b)).1 (index + 1) rest := by
  obtain ⟨j, more, rfl⟩ := exists_cons_of_ne_nil hrest
  rw [scan, hi, decide_eq_true hb]
  rfl

/-- A jump back to the innermost waiting compare closes its loop. -/
theorem backJump_waiting {w : Int} {outer : List Int} :
    l.backJump (w :: outer) index w = (outer, l.addCloser index) := by
  rw [backJump]
  exact if_pos (Int.le_refl w)

/-- A jump back to after all waiting compares closes an endless loop. -/
theorem backJump_alone {target : Int} (hwaiting : ∀ w ∈ waiting, w < target)
    (h₀ : 0 ≤ target) (h : target ≤ index) :
    l.backJump waiting index target = (waiting, (l.addHeader target).addCloser index) := by
  unfold backJump
  rw [if_pos ⟨h₀, h⟩]
  cases waiting with
  | nil => rfl
  | cons w outer =>
    have := hwaiting w (by simp)
    exact if_neg (by omega)

/-- Searching a piece of code finds its loops and goes on after it, before any code that
follows. -/
def Scans (waiting : List Int) (index : Int) (code : List Instruction) (spans : List Span)
    (waiting' : List Int) : Prop :=
  ∀ l rest, rest ≠ [] → ∃ l', Found l l' spans ∧
    l.scan waiting index (code ++ rest) = l'.scan waiting' (index + code.length) rest

theorem Scans.trans {waiting₁ waiting₂ waiting₃ : List Int} {index k : Int}
    {code more : List Instruction} {xs ys : List Span}
    (h₁ : Scans waiting₁ index code xs waiting₂) (hk : index + code.length = k)
    (h₂ : Scans waiting₂ k more ys waiting₃) :
    Scans waiting₁ index (code ++ more) (xs ++ ys) waiting₃ := by
  intro l rest hrest
  obtain ⟨l₁, hfound₁, hscan₁⟩ := h₁ l (more ++ rest) (by simp [hrest])
  obtain ⟨l₂, hfound₂, hscan₂⟩ := h₂ l₁ rest hrest
  refine ⟨l₂, hfound₁.trans hfound₂, ?_⟩
  rw [append_assoc, hscan₁, hk, hscan₂, ← hk, length_append]
  congr 1
  omega

/-- An instruction that is no compare and does not go back. -/
theorem scans_plain (waiting : List Int) (index : Int) (hi : i.opcode.isCompare = false)
    (hjump : i.opcode = .jump → 0 ≤ i.b) : Scans waiting index [i] [] waiting :=
  fun l _ hrest => ⟨l, .refl l, scan_plain hi hjump hrest⟩

/-- A compare whose jump goes forward. -/
theorem scans_branch (waiting : List Int) (index : Int) {opcode : Opcode}
    (hcompare : opcode.isCompare = true) (offset : Nat) :
    Scans waiting index [test opcode, jumpBy offset] [] waiting := by
  intro l rest _
  refine ⟨l, .refl l, (scan_compare hcompare rfl).trans ?_⟩
  rw [if_neg (by simp only [jumpBy]; omega)]
  rfl

/-- A compare whose jump goes back waits. -/
theorem scans_loop (waiting : List Int) (index : Int) {opcode : Opcode}
    (hcompare : opcode.isCompare = true) {offset : Int} (hoffset : offset < 0) :
    Scans waiting index [test opcode, jumpBy offset] [] (index :: waiting) := by
  intro l rest _
  refine ⟨l, .refl l, (scan_compare hcompare rfl).trans ?_⟩
  rw [if_pos (by exact hoffset)]
  rfl

/-- A jump back to the innermost waiting compare. -/
theorem scans_closer {w : Int} (outer : List Int) (index offset : Int) (hoffset : offset < 0)
    (htarget : jumpTarget index offset = w) :
    Scans (w :: outer) index [jumpBy offset] [⟨none, index⟩] outer := by
  intro l rest hrest
  refine ⟨l.addCloser index, found_closer l index, (scan_back rfl hoffset hrest).trans ?_⟩
  rw [show jumpTarget index (jumpBy offset).b = w from htarget, backJump_waiting]
  rfl

/-- A jump back to after all waiting compares. -/
theorem scans_header {waiting : List Int} {target : Int} (index offset : Int)
    (hoffset : offset < 0) (htarget : jumpTarget index offset = target)
    (hwaiting : ∀ w ∈ waiting, w < target) (h₀ : 0 ≤ target) (h : target ≤ index) :
    Scans waiting index [jumpBy offset] [⟨some target, index⟩] waiting := by
  intro l rest hrest
  refine ⟨(l.addHeader target).addCloser index, found_header l target index,
    (scan_back rfl hoffset hrest).trans ?_⟩
  rw [show jumpTarget index (jumpBy offset).b = target from htarget, backJump_alone hwaiting h₀ h]
  rfl

/-- In the code of a program exactly its loops are found. -/
theorem scans_codeAll (shapes : List Shape) :
    ∀ (waiting : List Int) (index : Int), 0 ≤ index → (∀ w ∈ waiting, w < index) →
      Scans waiting index (codeAll shapes) (loopsAll index shapes) waiting := by
  induction shapes using induct_programs with
  | nil => exact fun waiting index _ _ l rest _ => ⟨l, .refl l, by simp [codeAll]⟩
  | assign more ih =>
    intro waiting index h₀ hwaiting
    have hmore := ih waiting (index + 1) (by omega) fun w hw => by
      have := hwaiting w hw
      omega
    exact (scans_plain waiting index rfl (by decide)).trans rfl hmore
  | branch body more ihbody ihmore =>
    intro waiting index h₀ hwaiting
    have hafter : ∀ k, index ≤ k → ∀ w ∈ waiting, w < k := fun k hk w hw => by
      have := hwaiting w hw
      omega
    have hbody := ihbody waiting (index + 2) (by omega) (hafter _ (by omega))
    have hmore := ihmore waiting (index + 2 + (codeAll body).length) (by omega)
      (hafter _ (by omega))
    rw [codeAll_branch, loopsAll_branch]
    exact (scans_branch waiting index rfl _).trans rfl (hbody.trans rfl hmore)
  | either yes no others more ihyes ihno ihmore =>
    intro waiting index h₀ hwaiting
    have hafter : ∀ k, index ≤ k → ∀ w ∈ waiting, w < k := fun k hk w hw => by
      have := hwaiting w hw
      omega
    have hyes := ihyes waiting (index + 2) (by omega) (hafter _ (by omega))
    have hno := ihno waiting (index + 3 + (codeAll yes).length) (by omega) (hafter _ (by omega))
    have hmore := ihmore waiting
      (index + 3 + (codeAll yes).length + (codeAll (no :: others)).length) (by omega)
      (hafter _ (by omega))
    have hjump := scans_plain waiting (index + 2 + (codeAll yes).length)
      (i := jumpBy (codeAll (no :: others)).length) rfl fun _ => by simp [jumpBy]
    rw [codeAll_either, loopsAll_either]
    refine (scans_branch waiting index rfl ((codeAll yes).length + 1)).trans rfl ?_
    refine hyes.trans rfl (hjump.trans ?_ (hno.trans rfl hmore))
    simp only [length_singleton]
    omega
  | whileLoop body more ihbody ihmore =>
    intro waiting index h₀ hwaiting
    have hafter : ∀ k, index ≤ k → ∀ w ∈ waiting, w < k := fun k hk w hw => by
      have := hwaiting w hw
      omega
    -- The compare waits while the body is searched, and the jump after it goes back to it.
    have hbody := ihbody (index :: waiting) (index + 2) (by omega) fun w hw => by
      rcases mem_cons.mp hw with rfl | hw
      · omega
      · exact hafter _ (by omega) w hw
    have hclose := scans_closer (w := index) waiting (index + 2 + (codeAll body).length)
      (-((codeAll body).length + 3)) (by omega) (by unfold jumpTarget; omega)
    have hmore := ihmore waiting (index + 3 + (codeAll body).length) (by omega)
      (hafter _ (by omega))
    rw [codeAll_whileLoop, loopsAll_whileLoop]
    refine (scans_loop waiting index rfl (by decide)).trans rfl (hbody.trans rfl ?_)
    refine hclose.trans ?_ hmore
    simp only [length_singleton]
    omega
  | endless body more ihbody ihmore =>
    intro waiting index h₀ hwaiting
    have hbody := ihbody waiting index h₀ hwaiting
    have hclose := scans_header (index + (codeAll body).length) (-((codeAll body).length + 1))
      (by omega) (by unfold jumpTarget; omega) hwaiting h₀ (by omega)
    have hmore := ihmore waiting (index + 1 + (codeAll body).length) (by omega) fun w hw => by
      have := hwaiting w hw
      omega
    rw [codeAll_endless, loopsAll_endless]
    refine hbody.trans rfl (hclose.trans ?_ hmore)
    simp only [length_singleton]
    omega

end Loops

end LuaRecovery

/-
What a function reports, and where it shows.

A walk reports what it cannot recover as it stands, and shows it in the body: by a remark, or by
a comment on a statement.  The ledger of a job brings the two together: it goes through the body
of the function, with the functions inside, and says for every statement which reports it shows.

If a failure ends a job then it went through a row of functions, from the job to the one in whose
walk it arose (`Broken`).  What each of them had recovered has a ledger; in the last one comes the
remark that shows the failure, in the others the function inside.
-/
import LuaRecovery.Proofs.Jobs

namespace LuaRecovery

/-! ### Places in the code -/

namespace Prototype

/-- A jump of the code goes forward to an index. -/
def JumpsTo (p : Prototype) (target : Int) : Prop :=
  ∃ (index : Nat) (i : Instruction), p.instructions[index]? = some i ∧ i.opcode = .jump ∧
    0 ≤ i.b ∧ jumpTarget index i.b = target

/-- An index of the code, its end, or where a jump goes. -/
def Lands (p : Prototype) (index : Int) : Prop :=
  0 ≤ index ∧ index ≤ p.instructions.length ∨ p.JumpsTo index

/-- A call with an open list of arguments whose results are held open for the next
instruction. -/
def HoldsOpen (p : Prototype) (index : Nat) : Prop :=
  ∃ i next, p.instructions[index]? = some i ∧ i.opcode = .call ∧ i.b = 0 ∧ i.c = 0 ∧
    p.instructions[index + 1]? = some next ∧ (next.opcode = .call ∨ next.opcode = .ret) ∧
    next.b = 0

end Prototype

/-- A failure has its place in the code of a function. -/
def Failure.LiesIn (f : Failure) (p : Prototype) : Prop :=
  ∃ index : Nat, f.index = some (index : Int) ∧ index < p.instructions.length

/-- The remark by which a failure is shown. -/
def Failure.remark (f : Failure) : Statement := .remark (f.code.word ++ ": " ++ f.message)

/-! ### What shows a report -/

/-- The messages of reports that are shown as they are. -/
inductive Anomaly : Code → String → Prop
  | opcode (i : Instruction) :
      Anomaly .unknownOpcode s!"unknown opcode {i.mnemonic} (A={i.a}, B={i.b}, C={i.c})"
  | constant (index : Int) (size : Nat) : Anomaly .constantIndexOutOfRange
        s!"constant index {index} out of range (pool size {size})"
  | closure (index : Int) (count : Nat) : Anomaly .constantIndexOutOfRange
        s!"closure prototype index {index} out of range ({count} children)"

namespace Statement

/-- The comment on a statement. -/
def comment? : Statement → Option String
  | .assign _ _ _ comment | .define _ _ _ comment | .call _ _ comment | .ret _ comment => comment
  | _ => none

/-- A statement that is no remark and has no function. -/
def IsSilent : Statement → Prop
  | .assign _ _ _ _ | .call _ _ _ | .ret _ _ | .marker _ _ => True
  | _ => False

/-- The function in a statement, and the name it has there. -/
def inner? : Statement → Option (String × Routine)
  | .define target routine _ _ => some (target, routine)
  | .function routine => some (routine.name, routine)
  | _ => none

end Statement

/-! ### Places in a body -/

/-- The statement at a place, and the path of the function in which it stands.  A place is a row
of positions: those of the functions around the statement, from the outside, and its own. -/
def statementAt (path : String) (body : List Statement) : List Nat → Option (String × Statement)
  | [] => none
  | [n] => body[n]?.map fun s => (path, s)
  | n :: m :: rest => (body[n]?.bind Statement.inner?).bind fun (name, r) =>
    statementAt (path ++ "/" ++ name) r.body (m :: rest)

section Places

variable {path : String} {body : List Statement} {s : Statement} {n : Nat} {rest : List Nat}

theorem statementAt_succ :
    statementAt path (s :: body) ((n + 1) :: rest) = statementAt path body (n :: rest) := by
  cases rest <;> rfl

/-- What stands at a place hangs on one statement of the body only. -/
theorem statementAt_congr {body' : List Statement} {n' : Nat} (h : body[n]? = body'[n']?) :
    statementAt path body (n :: rest) = statementAt path body' (n' :: rest) := by
  cases rest <;> rw [statementAt, statementAt, h]

theorem statementAt_inner {name : String} {r : Routine} (hs : s.inner? = some (name, r))
    {place : List Nat} (hplace : place ≠ []) :
    statementAt path (s :: body) (0 :: place) = statementAt (path ++ "/" ++ name) r.body place := by
  cases place with
  | nil => exact absurd rfl hplace
  | cons m rest =>
    show (s.inner?.bind _) = _
    rw [hs]
    rfl

end Places

namespace Job

open Walking

/-- The path of a function inside. -/
theorem Opens.path {j : Job} {index : Nat} {i : Instruction} {q : Prototype} {ready : Prepared}
    {w : Walk} (h : j.Opens index i q ready w) :
    (Job.inside q ready w).path = j.path ++ "/" ++ ready.name :=
  congrArg (fun path => path ++ "/" ++ ready.name) h.hands.1.path

/-- The function of a job could be entered. -/
def IsEntered (j : Job) : Prop := ∃ limits, j.context.limits.enter = .ok limits

/-- A job, and those of the functions inside that were entered, at any depth. -/
inductive Runs : Job → Job → Prop
  | self {j : Job} : Runs j j
  | inside {j k : Job} {index : Nat} {i : Instruction} {q : Prototype} {ready : Prepared}
      {w : Walk} (opens : j.Opens index i q ready w) (entered : (Job.inside q ready w).IsEntered)
      (rest : Runs (Job.inside q ready w) k) : Runs j k

theorem Runs.entered {j k : Job} (h : j.Runs k) (hj : j.IsEntered) : k.IsEntered := by
  induction h with
  | self => exact hj
  | inside _ hentered _ ih => exact ih hentered

/-- A report on the function of a job. -/
def diagnostic (j : Job) (code : Code) (message : String) (index : Int) : Diagnostic :=
  ⟨code, message, j.path, some index⟩

/-- The reports that notes on the blocks of a job give. -/
def blockDiagnostics (j : Job) (notes : List (Int × String)) : List Diagnostic :=
  notes.map fun note => j.diagnostic .unbalancedBlock note.2 note.1

/-- The reports that notes on constants give, which are taken up at an index. -/
def constantDiagnostics (j : Job) (index : Nat) (messages : List String) : List Diagnostic :=
  messages.map fun message => j.diagnostic .constantIndexOutOfRange message index

/-- The reports that go with the body of a function, statement by statement.  A report on a call
whose results are held open goes with no statement, and a function inside has a ledger of its
own. -/
inductive Ledger : Job → List Diagnostic → List Statement → Prop
  | nil {j : Job} : Ledger j [] []
  | silent {j : Job} {ds : List Diagnostic} {s : Statement} {body : List Statement}
      (silent : s.IsSilent) (rest : Ledger j ds body) : Ledger j ds (s :: body)
  | goto {j : Job} {ds : List Diagnostic} {body : List Statement} (target : Int)
      (rest : Ledger j ds body) : Ledger j ds (Blocks.gotoRemark target :: body)
  | anomaly {j : Job} {code : Code} {message : String} {index : Nat} {ds : List Diagnostic}
      {body : List Statement} (place : index ≤ j.source.instructions.length)
      (anomaly : Anomaly code message) (rest : Ledger j ds body) :
      Ledger j (j.diagnostic code message index :: ds) (.remark message :: body)
  | block {j : Job} {message text : String} {index : Int} {ds : List Diagnostic}
      {body : List Statement} (place : j.source.Lands index) (note : BlockNote message text)
      (rest : Ledger j ds body) :
      Ledger j (j.diagnostic .unbalancedBlock message index :: ds) (.remark text :: body)
  | guess {j : Job} {message : String} {index : Nat} {ds : List Diagnostic} {s : Statement}
      {body : List Statement} (place : index < j.source.instructions.length)
      (silent : s.IsSilent) (comment : s.comment? = some variableArgs) (rest : Ledger j ds body) :
      Ledger j (j.diagnostic .ambiguousArgCount message index :: ds) (s :: body)
  | held {j : Job} {message : String} {index : Nat} {ds : List Diagnostic}
      {body : List Statement} (held : j.source.HoldsOpen index) (rest : Ledger j ds body) :
      Ledger j (j.diagnostic .ambiguousArgCount message index :: ds) body
  | inside {j : Job} {index : Nat} {i : Instruction} {q : Prototype} {ready : Prepared} {w : Walk}
      {r : Routine} {c : Context} {ds inner : List Diagnostic} {body : List Statement}
      (opens : j.Opens index i q ready w) (recovered : (Job.inside q ready w).result = .ok r c)
      (ledger : Ledger (Job.inside q ready w) inner r.body) (rest : Ledger j ds body) :
      Ledger j (inner ++ ds) (.define ready.name r ready.declares none :: body)

variable {j : Job} {ds ds' : List Diagnostic} {nodes nodes' : List Statement}

theorem Ledger.append (h : j.Ledger ds nodes) (h' : j.Ledger ds' nodes') :
    j.Ledger (ds ++ ds') (nodes ++ nodes') := by
  induction h with
  | nil => exact h'
  | silent hs _ ih => exact .silent hs (ih h')
  | goto target _ ih => exact .goto target (ih h')
  | anomaly hplace hanomaly _ ih => exact .anomaly hplace hanomaly (ih h')
  | block hplace hnote _ ih => exact .block hplace hnote (ih h')
  | guess hplace hs hcomment _ ih => exact .guess hplace hs hcomment (ih h')
  | held hheld _ ih => exact .held hheld (ih h')
  | inside hopens hrecovered hledger _ _ ih =>
    rw [List.append_assoc]
    exact .inside hopens hrecovered hledger (ih h')

/-! ### Failures -/

/-- Every function inside that a job has entered was recovered whole. -/
def Whole (j : Job) : Prop :=
  ∀ {index i q ready w}, j.Opens index i q ready w → (Job.inside q ready w).IsEntered →
    ∃ r c, (Job.inside q ready w).result = .ok r c

/-- A failure arose in the walk of a job: it ended the job, and not that of a function inside. -/
structure Arises (j : Job) (failure : Failure) : Prop where
  entered : j.IsEntered
  failed : ∃ r c, j.result = .error (.failed failure (some r)) c
  whole : j.Whole

/-- A failure ended a job: in its own walk, or in that of a function inside.  What had been
recovered before has a ledger, of which some reports were dropped, and only markers and comments
come behind what shows the failure. -/
inductive Broken (failure : Failure) : Job → List Diagnostic → Routine → Prop
  | here {j : Job} {new dropped ds : List Diagnostic} {body nodes : List Statement}
      {notes : List (Int × String)} {r : Routine} (whole : j.Whole)
      (place : failure.LiesIn j.source) (ledger : j.Ledger ds body)
      (reports : (new ++ dropped).Perm ds) (rest : Utters (fun _ => True) notes nodes)
      (shown : r.body = body ++ failure.remark :: nodes) : Broken failure j new r
  | inside {j : Job} {index : Nat} {i : Instruction} {q : Prototype} {ready : Prepared} {w : Walk}
      {inner r : Routine} {c : Context} {new dropped ds more : List Diagnostic}
      {body nodes : List Statement} {notes : List (Int × String)}
      (opens : j.Opens index i q ready w)
      (failed : (Job.inside q ready w).result = .error (.failed failure (some inner)) c)
      (broken : Broken failure (Job.inside q ready w) more inner) (ledger : j.Ledger ds body)
      (reports : (new ++ dropped).Perm ds) (rest : Utters (fun _ => True) notes nodes)
      (shown : r.body = body ++ .define ready.name inner ready.declares none :: nodes) :
      Broken failure j (new ++ more) r

/-- What a job ends in agrees with what it has reported. -/
def Squares (j : Job) : EStateM.Result Stop Context Routine → Prop
  | .ok r c => ∃ new ds, c.diagnostics = j.context.diagnostics ++ new ∧ j.Ledger ds r.body ∧
      new.Perm ds
  | .error (.failed failure (some r)) c =>
    ∃ new, c.diagnostics = j.context.diagnostics ++ new ∧ Broken failure j new r
  | .error (.failed failure none) c =>
    c.diagnostics = j.context.diagnostics ∧ failure.index = none
  | .error _ _ => True

/-- A failure that ended a job has a place, whether in its code or in that of a function
inside. -/
theorem Broken.index_isSome {failure : Failure} {new : List Diagnostic} {r : Routine}
    (h : Broken failure j new r) : failure.index.isSome = true := by
  induction h with
  | here _ place =>
    obtain ⟨index, hindex, -⟩ := place
    rw [hindex]
    rfl
  | inside _ _ _ _ _ _ _ ih => exact ih

end Job

end LuaRecovery

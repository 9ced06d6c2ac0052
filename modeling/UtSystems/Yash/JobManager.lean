import Mathlib.Data.List.Basic
import Mathlib.Logic.Function.Basic

/-!
# The job table of the stand-alone shell

`shell->jobs` and the functions of `jobManager.c` on it. A job and its processes are values of
their slot, and a slot that nothing was written to reads as the null pointer; what each function
uses of the table goes with what it computes.
-/

namespace UtSystems.Yash.JobManager

set_option autoImplicit false

def nrJobs : Nat := 20

inductive Status where
  | running
  | done
  | suspended
deriving DecidableEq

def Status.continued : Status := .running

def Status.terminated : Status := .done

inductive CommandType where
  | external
  | jobs
  | fg
  | bg
deriving DecidableEq

inductive Mode where
  | background
  | foreground
deriving DecidableEq

structure Process where
  command : String
  argc : Nat
  inputPath : Option String
  pid : Int
  type : CommandType
  status : Status
  -- not in the source: which `fork` made it, as a pid can come again
  birth : Option Nat

structure Job where
  id : Int
  processes : List Process
  rooted : processes ≠ []
  pgid : Int
  mode : Mode

def Job.root (job : Job) : Process := job.processes.head job.rooted

def setFirst (pid : Int) (status : Status) : List Process → List Process
  | [] => []
  | proc :: next =>
      if proc.pid = pid then { proc with status := status } :: next
      else proc :: setFirst pid status next

theorem set_first_length (pid : Int) (status : Status) (processes : List Process) :
    (setFirst pid status processes).length = processes.length := by
  induction processes with
  | nil => rfl
  | cons proc next ih =>
      unfold setFirst
      split
      · rfl
      · simp [ih]

/-- The job after a change of its processes. -/
def Job.change (job : Job) (processes : List Process)
    (same : processes.length = job.processes.length) : Job :=
  { job with
    processes := processes
    rooted := by
      intro empty
      apply job.rooted
      rw [← List.length_eq_zero_iff, ← same, empty]
      rfl }

def Job.setStatus (job : Job) (pid : Int) (status : Status) : Job :=
  job.change (setFirst pid status job.processes) (set_first_length pid status job.processes)

def Job.setRemaining (job : Job) (status : Status) : Job :=
  job.change
    (job.processes.map fun proc => if proc.status = .done then proc else { proc with status := status })
    (List.length_map _)

/-! ## Uses of the table -/

abbrev Table : Type := Int → Option Job

/-- What is computed from the table, the indexes at which it is read or written for that, and the
ids passed to the functions that work on one job, each with the slot where the caller has put the
job it means. -/
structure Use (Result : Type) where
  value : Result
  indexes : List Int
  passed : List (Int × Option Int)

instance : Monad Use where
  pure value := { value := value, indexes := [], passed := [] }
  bind first next :=
    let second := next first.value
    { value := second.value
      indexes := first.indexes ++ second.indexes
      passed := first.passed ++ second.passed }

def Use.access (id : Int) : Use Unit := { value := (), indexes := [id], passed := [] }

def Use.pass (id : Int) (slot : Option Int) : Use Unit :=
  { value := (), indexes := [], passed := [(id, slot)] }

section
variable {Result Next : Type}

@[simp] theorem pure_value (result : Result) : (pure result : Use Result).value = result := rfl

@[simp] theorem pure_indexes (result : Result) : (pure result : Use Result).indexes = [] := rfl

@[simp] theorem pure_passed (result : Result) : (pure result : Use Result).passed = [] := rfl

@[simp] theorem bind_value (first : Use Result) (next : Result → Use Next) :
    (first >>= next).value = (next first.value).value := rfl

@[simp] theorem bind_indexes (first : Use Result) (next : Result → Use Next) :
    (first >>= next).indexes = first.indexes ++ (next first.value).indexes := rfl

@[simp] theorem bind_passed (first : Use Result) (next : Result → Use Next) :
    (first >>= next).passed = first.passed ++ (next first.value).passed := rfl

@[simp] theorem access_indexes (id : Int) : (Use.access id).indexes = [id] := rfl

@[simp] theorem access_passed (id : Int) : (Use.access id).passed = [] := rfl

@[simp] theorem pass_indexes (id : Int) (slot : Option Int) : (Use.pass id slot).indexes = [] := rfl

@[simp] theorem pass_passed (id : Int) (slot : Option Int) :
    (Use.pass id slot).passed = [(id, slot)] := rfl

end

def readSlot (t : Table) (id : Int) : Use (Option Job) := do
  Use.access id
  return t id

def Table.alter (t : Table) (id : Int) (change : Job → Job) : Table :=
  Function.update t id ((t id).map change)

/-- `for (i = 1; i <= NR_JOBS; i++)` with a `return` at the first slot that is `found`. -/
def scanFrom (t : Table) (found : Option Job → Bool) : Nat → Int → Use (Option Int)
  | 0, _ => return none
  | rounds + 1, i => do
      let job ← readSlot t i
      if found job then return some i else scanFrom t found rounds (i + 1)

def scan (t : Table) (found : Option Job → Bool) : Use (Option Int) := scanFrom t found nrJobs 1

/-! ## The functions -/

def hasPid (pid : Int) (job : Option Job) : Bool :=
  job.any fun job => job.processes.any fun proc => proc.pid = pid

def getJobIdByPid (t : Table) (pid : Int) : Use Int := do
  match ← scan t (hasPid pid) with
  | some i => return i
  | none => return -1

def getLastJobId (t : Table) : Use Int := do
  match ← scan t Option.isNone with
  | some i => return i - 1
  | none => return -1

def getNextJobId (t : Table) : Use Int := do
  match ← scan t Option.isNone with
  | some i => return i
  | none => return -1

/-- Also the test with which the functions on one job begin. -/
def getJobById (t : Table) (id : Int) : Use (Option Job) :=
  if nrJobs < id then return none else readSlot t id

def getPgidByJobId (t : Table) (id : Int) : Use Int := do
  match ← getJobById t id with
  | none => return -1
  | some job => return job.pgid

inductive ProcFilter where
  | all
  | done
  | remaining

def ProcFilter.counts (filter : ProcFilter) (proc : Process) : Bool :=
  match filter with
  | .all => true
  | .done => proc.status = .done
  | .remaining => proc.status ≠ .done

def Job.procCount (job : Job) (filter : ProcFilter) : Nat := job.processes.countP filter.counts

def getProcCount (t : Table) (id : Int) (filter : ProcFilter) : Use Int := do
  match ← getJobById t id with
  | none => return -1
  | some job => return job.procCount filter

def printProcessesOfJob (t : Table) (id : Int) : Use (Option (List Int)) := do
  match ← getJobById t id with
  | none => return none
  | some job => return some (job.processes.map Process.pid)

inductive PrintOptions where
  | completedJobs
  | commandFg
  | commandBg

/-- What is printed of a job. -/
structure Report where
  id : Int
  printOptions : PrintOptions
  -- `+` and not `-`
  isLast : Bool
  commands : List String
  status : Status

def printJobStatus (t : Table) (id : Int) (printOptions : PrintOptions) : Use (List Report) := do
  match ← getJobById t id with
  | none => return []
  | some job =>
      let lastId ← getLastJobId t
      return [{
        id := id
        printOptions := printOptions
        isLast := lastId = id
        commands := job.processes.map Process.command
        status := (job.processes.getLast job.rooted).status }]

def insertJob (t : Table) (job : Job) : Use (Int × Table) := do
  let id ← getNextJobId t
  if id < 0 then return (-1, t)
  else
    Use.access id
    return (id, Function.update t id (some { job with id := id }))

/-- With `release_job`. -/
def removeJob (t : Table) (id : Int) : Use Table := do
  match ← getJobById t id with
  | none => return t
  | some _ => return Function.update t id none

def isJobCompleted (t : Table) (id : Int) : Use Bool := do
  match ← getJobById t id with
  | none => return false
  | some job => return job.processes.all fun proc => proc.status = .done

def setProcessStatus (t : Table) (pid : Int) (status : Status) : Use Table := do
  match ← scan t (hasPid pid) with
  | some i => return t.alter i fun job => job.setStatus pid status
  | none => return t

def setJobStatus (t : Table) (id : Int) (status : Status) : Use Table := do
  match ← getJobById t id with
  | none => return t
  | some _ => return t.alter id fun job => job.setRemaining status

/-- What `waitpid` says of a child. -/
inductive Event where
  | exited
  | signaled
  | stopped
  | continued
deriving DecidableEq

/-- The first statement in the loop of `check_jobs`. -/
def noteEvent (t : Table) (pid : Int) : Event → Use Table
  | .exited => setProcessStatus t pid .done
  | .stopped => setProcessStatus t pid .suspended
  | .continued => setProcessStatus t pid .continued
  | .signaled => return t

/-- One turn of the loop of `check_jobs`. -/
def checkJob (t : Table) (pid : Int) (event : Event) : Use (Table × List Report) := do
  let t ← noteEvent t pid event
  let jobId ← getJobIdByPid t pid
  if 0 < jobId then
    let completed ← isJobCompleted t jobId
    if completed then
      let report ← printJobStatus t jobId .completedJobs
      Use.pass jobId (some jobId)
      let t ← removeJob t jobId
      return (t, report)
    else return (t, [])
  else return (t, [])

/-! ## Scans -/

theorem scan_from_some {t : Table} {found : Option Job → Bool} (rounds : Nat) {first i : Int}
    (hit : (scanFrom t found rounds first).value = some i) :
    first ≤ i ∧ i < first + rounds ∧ found (t i) = true ∧
      (∀ j, first ≤ j → j < i → found (t j) = false) ∧
      ∀ j ∈ (scanFrom t found rounds first).indexes, first ≤ j ∧ j ≤ i := by
  induction rounds generalizing first with
  | zero => cases hit
  | succ rounds ih =>
      simp only [scanFrom, readSlot, bind_value, bind_indexes, pure_value, pure_indexes,
        access_indexes] at hit ⊢
      by_cases isFound : found (t first) = true
      · rw [if_pos isFound] at hit ⊢
        cases hit
        refine ⟨Int.le_refl _, by omega, isFound, ?_, ?_⟩
        · intro j after before
          omega
        · intro j member
          simp at member
          omega
      · rw [if_neg isFound] at hit ⊢
        obtain ⟨low, high, last, earlier, used⟩ := ih hit
        refine ⟨by omega, by omega, last, ?_, ?_⟩
        · intro j after before
          by_cases isFirst : j = first
          · simp [isFirst, isFound]
          · exact earlier j (by omega) before
        · intro j member
          simp at member
          cases member with
          | inl isFirst => omega
          | inr later =>
              have bounds := used j later
              omega

theorem scan_from_none {t : Table} {found : Option Job → Bool} (rounds : Nat) {first : Int}
    (missed : (scanFrom t found rounds first).value = none) {j : Int} (low : first ≤ j)
    (high : j < first + rounds) : found (t j) = false := by
  induction rounds generalizing first with
  | zero => omega
  | succ rounds ih =>
      simp only [scanFrom, readSlot, bind_value, pure_value] at missed
      by_cases isFound : found (t first) = true
      · rw [if_pos isFound] at missed
        cases missed
      · rw [if_neg isFound] at missed
        by_cases isFirst : j = first
        · simp [isFirst, isFound]
        · exact ih missed (by omega) (by omega)

theorem scan_some {t : Table} {found : Option Job → Bool} {i : Int}
    (hit : (scan t found).value = some i) :
    1 ≤ i ∧ i ≤ nrJobs ∧ found (t i) = true ∧ ∀ j, 1 ≤ j → j < i → found (t j) = false := by
  obtain ⟨low, high, last, earlier, _⟩ := scan_from_some nrJobs hit
  exact ⟨low, by omega, last, earlier⟩

theorem scan_none {t : Table} {found : Option Job → Bool} (missed : (scan t found).value = none)
    {j : Int} (low : 1 ≤ j) (high : j ≤ nrJobs) : found (t j) = false :=
  scan_from_none nrJobs missed low (by omega)

/-- A scan uses no slot behind the one that it finds. -/
theorem scan_indexes {t : Table} {found : Option Job → Bool} {i : Int}
    (hit : (scan t found).value = some i) : ∀ j ∈ (scan t found).indexes, 1 ≤ j ∧ j ≤ i := by
  obtain ⟨_, _, _, _, used⟩ := scan_from_some nrJobs hit
  exact used

theorem has_pid_iff {job : Job} {pid : Int} :
    hasPid pid (some job) = true ↔ pid ∈ job.processes.map Process.pid := by
  simp [hasPid]

theorem has_pid_congr {job other : Job} (pid : Int)
    (same : job.processes.map Process.pid = other.processes.map Process.pid) :
    hasPid pid (some job) = hasPid pid (some other) := by
  rw [Bool.eq_iff_iff, has_pid_iff, has_pid_iff, same]

theorem scan_from_congr {t other : Table} {found : Option Job → Bool}
    (same : ∀ i, found (t i) = found (other i)) (rounds : Nat) (first : Int) :
    (scanFrom t found rounds first).value = (scanFrom other found rounds first).value := by
  induction rounds generalizing first with
  | zero => rfl
  | succ rounds ih =>
      simp only [scanFrom, readSlot, bind_value, pure_value, same first]
      split
      · rfl
      · exact ih (first + 1)

theorem scan_from_passed (t : Table) (found : Option Job → Bool) (rounds : Nat) (first : Int) :
    (scanFrom t found rounds first).passed = [] := by
  induction rounds generalizing first with
  | zero => rfl
  | succ rounds ih =>
      simp only [scanFrom, readSlot, bind_passed, pure_passed, access_passed, List.nil_append]
      split
      · rfl
      · exact ih (first + 1)

end UtSystems.Yash.JobManager

import UtSystems.Lib.GuardedRun
import UtSystems.Yash.JobManager

/-!
# The stand-alone shell

`process_loop` with `launch_commander` and the built-in commands, as steps of the shell and of its
children. A child is known by its pid until `waitpid` has reported its end, and stays in the
process group of its job. What the shell prints is left out, and so are signals to the shell
itself. Where the shell uses a job that has been freed, there is no step.
-/

namespace UtSystems.Yash.Commander

open Yash.JobManager

set_option autoImplicit false

/-! ## Commands -/

/-- What `parse_segment_commander` makes of a part of the line. -/
structure Segment where
  command : String
  -- `tokens[0]`
  name : String
  argc : Nat
  inputPath : Option String
  -- not set: what `malloc` finds there
  status : Status

def getProcessType (command : String) : CommandType :=
  if command = "jobs" then .jobs
  else if command = "fg" then .fg
  else if command = "bg" then .bg
  else .external

def Segment.process (segment : Segment) : Process :=
  { command := segment.command
    argc := segment.argc
    inputPath := segment.inputPath
    pid := -1
    type := getProcessType segment.name
    status := segment.status
    birth := none }

/-- What `parse_commander` makes of a line. -/
structure Line where
  segments : List Segment
  rooted : segments ≠ []
  mode : Mode
  -- not set either
  id : Int

def Line.job (line : Line) : Job :=
  { id := line.id
    processes := line.segments.map Segment.process
    rooted := by simp [line.rooted]
    pgid := -1
    mode := line.mode }

/-! ## Children -/

structure Child where
  birth : Nat
  pid : Int
  group : Int
deriving DecidableEq

inductive ChildState where
  -- whether `waitpid` has still to report that it was continued
  | running (continued : Bool)
  | stopped (reported : Bool)
  -- zombies
  | exited
  | killed
deriving DecidableEq

/-- What a child does, of itself or by a signal. -/
inductive Change where
  | exit
  | die
  | stop
  | resume

def ChildState.change : ChildState → Change → Option ChildState
  | .running _, .exit => some .exited
  | .running _, .die => some .killed
  | .running _, .stop => some (.stopped false)
  | .stopped _, .die => some .killed
  | .stopped _, .resume => some (.running true)
  | _, _ => none

/-- What `waitpid` reports with `WUNTRACED`, and with `WCONTINUED` or without. -/
def ChildState.report (continued : Bool) : ChildState → Option Event
  | .exited => some .exited
  | .killed => some .signaled
  | .stopped false => some .stopped
  | .running true => if continued then some .continued else none
  | _ => none

def ChildState.sigcont : ChildState → ChildState
  | .stopped _ => .running true
  | state => state

/-! ## The shell -/

structure Launch where
  -- `job_id`, none for -1: the job is not in the table
  slot : Option Int
  -- the number of the process that `proc` points to
  stage : Nat

def Launch.jobId (launch : Launch) : Int := launch.slot.getD (-1)

inductive Caller where
  | launchCommandHelper
  | commandFg

/-- The variables of `wait_for_job`. A status of -1 reads as the stop of a child. -/
structure Wait where
  procCount : Int
  waitCount : Int
  status : Event
  -- not in the source: whether a stop was counted
  stopSeen : Bool

inductive Pc where
  -- `process_loop` reads the next line
  | head
  -- `check_jobs` is called, at the begin of `launch_commander` or for an empty line
  | checking (job : Option Job)
  -- at the begin of the loop of `launch_commander`
  | stage (launch : Launch)
  | waiting (launch : Launch) (caller : Caller) (id : Int) (wait : Wait)
  -- `wait_for_job` returns
  | waited (launch : Launch) (caller : Caller) (id : Int) (status : Event)
  -- behind the loop of `launch_commander`, where `status` is below 0 or not
  | ended (launch : Launch) (status : Event)

structure Shell where
  jobs : Table
  -- the slots that have been written to
  initialised : Int → Bool
  -- the job that is launched when it is not in the table
  loose : Option Job
  children : List Child
  state : Int → ChildState
  births : Nat
  pc : Pc

/-- After `init`. -/
def Shell.start : Shell :=
  { jobs := fun _ => none
    initialised := fun i => 0 ≤ i ∧ i < nrJobs
    loose := none
    children := []
    state := fun _ => .exited
    births := 0
    pc := .head }

def Shell.job (s : Shell) (launch : Launch) : Option Job :=
  match launch.slot with
  | some id => s.jobs id
  | none => s.loose

def Shell.putJob (s : Shell) (launch : Launch) (job : Job) : Shell :=
  match launch.slot with
  | some id => { s with jobs := Function.update s.jobs id (some job) }
  | none => { s with loose := some job }

@[simp] theorem put_job_initialised (s : Shell) (launch : Launch) (job : Job) :
    (s.putJob launch job).initialised = s.initialised := by
  unfold Shell.putJob
  cases launch.slot with
  | none => rfl
  | some id => rfl

@[simp] theorem put_job_children (s : Shell) (launch : Launch) (job : Job) :
    (s.putJob launch job).children = s.children := by
  unfold Shell.putJob
  cases launch.slot with
  | none => rfl
  | some id => rfl

@[simp] theorem put_job_births (s : Shell) (launch : Launch) (job : Job) :
    (s.putJob launch job).births = s.births := by
  unfold Shell.putJob
  cases launch.slot with
  | none => rfl
  | some id => rfl

def Shell.hasChild (s : Shell) (pid : Int) : Bool := s.children.any fun child => child.pid = pid

/-- What `waitpid` leaves of a child when it reports this. -/
def Shell.reported (s : Shell) (pid : Int) : Event → Shell
  | .exited => { s with children := s.children.filter fun child => child.pid ≠ pid }
  | .signaled => { s with children := s.children.filter fun child => child.pid ≠ pid }
  | .stopped => { s with state := Function.update s.state pid (.stopped true) }
  | .continued => { s with state := Function.update s.state pid (.running false) }

@[simp] theorem reported_jobs (s : Shell) (pid : Int) (event : Event) :
    (s.reported pid event).jobs = s.jobs := by
  cases event with
  | _ => rfl

@[simp] theorem reported_initialised (s : Shell) (pid : Int) (event : Event) :
    (s.reported pid event).initialised = s.initialised := by
  cases event with
  | _ => rfl

@[simp] theorem reported_loose (s : Shell) (pid : Int) (event : Event) :
    (s.reported pid event).loose = s.loose := by
  cases event with
  | _ => rfl

@[simp] theorem reported_births (s : Shell) (pid : Int) (event : Event) :
    (s.reported pid event).births = s.births := by
  cases event with
  | _ => rfl

@[simp] theorem reported_pc (s : Shell) (pid : Int) (event : Event) :
    (s.reported pid event).pc = s.pc := by
  cases event with
  | _ => rfl

/-- `kill` with `SIGCONT` to a process group. -/
def Shell.sigcont (s : Shell) (group : Int) : Shell :=
  { s with
    state := fun pid =>
      if s.children.any fun child => child.pid = pid ∧ child.group = group then
        (s.state pid).sigcont
      else s.state pid }

def setStage (job : Job) (stage : Nat) (change : Process → Process) : Job :=
  job.change (job.processes.modify stage change) (by simp)

/-! ## Built-in commands -/

/-- The loop of `command_jobs`. The two literals that are compared there by their addresses are one
for the compiler. -/
def commandJobsFrom (t : Table) : Nat → Int → Use Table
  | 0, _ => return t
  | rounds + 1, i => do
      let job ← readSlot t i
      match job with
      | none => commandJobsFrom t rounds (i + 1)
      | some job =>
          let _ ← readSlot t (i + 1)
          if (job.processes.getLast job.rooted).status = .done then
            Use.pass i (some i)
            let t ← removeJob t i
            commandJobsFrom t rounds (i + 1)
          else commandJobsFrom t rounds (i + 1)

def commandJobs (t : Table) : Use Table := commandJobsFrom t nrJobs 0

/-- The part that `command_fg` and `command_bg` share. Whether `kill` succeeds is given. A job with
id 0 or less does not exist, so that `wait_for_pid` is not called. -/
def continueLastJob (s : Shell) (argc : Nat) (sent : Bool) (printOptions : PrintOptions) :
    Use (Option Int × Shell) :=
  if argc ≠ 1 then return (none, s)
  else do
    let jobId ← getLastJobId s.jobs
    let pid ← getPgidByJobId s.jobs jobId
    if pid < 0 ∨ sent = false ∨ jobId ≤ 0 then return (none, s)
    else
      let jobs ← setJobStatus s.jobs jobId .continued
      let _ ← printJobStatus jobs jobId printOptions
      return (some jobId, { s.sigcont pid with jobs := jobs })

/-- `wait_for_job` up to its loop. -/
def waitForJob (s : Shell) (launch : Launch) (caller : Caller) (id : Int) : Use Shell := do
  match ← getJobById s.jobs id with
  | none => return { s with pc := .waited launch caller id .stopped }
  | some _ =>
      let procCount ← getProcCount s.jobs id .remaining
      return { s with
        pc := .waiting launch caller id
          { procCount := procCount, waitCount := 0, status := .exited, stopSeen := false } }

/-- What the loop of `wait_for_job` writes to the table. -/
def noteWaited (t : Table) (pid : Int) : Event → Use Table
  | .exited => setProcessStatus t pid .done
  | .signaled => setProcessStatus t pid .terminated
  | _ => setProcessStatus t pid .suspended

/-- One turn of the loop of `wait_for_job`. -/
def waitTurn (s : Shell) (launch : Launch) (caller : Caller) (id : Int) (wait : Wait) (pid : Int)
    (event : Event) : Use Shell := do
  let count := wait.waitCount + 1
  let jobs ← noteWaited s.jobs pid event
  let _ ← (if event = .stopped ∧ count = wait.procCount then
      printJobStatus jobs id .completedJobs
    else return [])
  return { s with
    jobs := jobs
    pc :=
      if count < wait.procCount then
        .waiting launch caller id
          { wait with
            waitCount := count
            status := event
            stopSeen := wait.stopSeen || event = .stopped }
      else .waited launch caller id event }

/-! ## launch_commander -/

def afterStage (launch : Launch) (job : Job) (status : Event) : Pc :=
  if launch.stage + 1 < job.processes.length then
    .stage { launch with stage := launch.stage + 1 }
  else .ended launch status

/-- `launch_commander` behind `check_jobs`. -/
def startLaunch (s : Shell) (job : Job) : Use Shell := do
  if job.root.type = .external then
    let (id, jobs) ← insertJob s.jobs job
    if id < 0 then
      return { s with loose := some job, pc := .stage { slot := none, stage := 0 } }
    else
      return { s with
        jobs := jobs
        initialised := Function.update s.initialised id true
        pc := .stage { slot := some id, stage := 0 } }
  else return { s with loose := some job, pc := .stage { slot := none, stage := 0 } }

/-- The parts of `launch_command_helper`. The process is already marked as running. -/
def launchCustomCommand (s : Shell) (launch : Launch) (job : Job) (proc : Process) (sent : Bool) :
    Use Shell :=
  let next := afterStage launch job .exited
  match proc.type with
  | .jobs => do
      let jobs ← commandJobs s.jobs
      return { s with jobs := jobs, pc := next }
  | .fg => do
      let last ← continueLastJob s proc.argc sent .commandFg
      match last with
      | (none, s) => return { s with pc := next }
      | (some jobId, s) =>
          Use.pass jobId (some jobId)
          waitForJob s launch .commandFg jobId
  | .bg => do
      let last ← continueLastJob s proc.argc sent .commandBg
      return { last.2 with pc := next }
  | .external => return s

def launched (s : Shell) (launch : Launch) (job : Job) (pid : Int) : Shell × Job :=
  let pgid := if 0 < job.pgid then job.pgid else pid
  let job := { setStage job launch.stage fun proc =>
    { proc with status := .running, pid := pid, birth := some s.births } with pgid := pgid }
  ({ s.putJob launch job with
      children := { birth := s.births, pid := pid, group := pgid } :: s.children
      state := Function.update s.state pid (.running false)
      births := s.births + 1 }, job)

/-- In the parent. -/
def forked (s : Shell) (launch : Launch) (job : Job) (pid : Int) : Use Shell :=
  let next := launched s launch job pid
  if launch.stage + 1 = job.processes.length ∧ job.mode = .foreground then do
    Use.pass job.id launch.slot
    waitForJob next.1 launch .launchCommandHelper job.id
  else return { next.1 with pc := afterStage launch job .exited }

def finish (s : Shell) (launch : Launch) (job : Job) (status : Event) : Use Shell :=
  if job.root.type = .external then
    if status ≠ .stopped ∧ job.mode = .foreground then do
      Use.pass launch.jobId launch.slot
      let jobs ← removeJob s.jobs launch.jobId
      return { s with jobs := jobs, pc := .head }
    else if job.mode = .background then do
      Use.pass launch.jobId launch.slot
      let _ ← printProcessesOfJob s.jobs launch.jobId
      return { s with pc := .head }
    else return { s with pc := .head }
  else return { s with pc := .head }

/-! ## Steps -/

inductive Action where
  | child (pid : Int) (change : Change)
  -- `process_loop` has read a line, perhaps an empty one
  | line (line : Option Line)
  -- `waitpid` of `check_jobs` has returned, with a child or without
  | check (pid : Int)
  | checked
  -- `open` of the input path fails; otherwise it has succeeded when the process is launched
  | openFails
  -- with the success of `kill`
  | custom (sent : Bool)
  | fork (pid : Int)
  | forkFails
  -- `waitpid` of `wait_for_job` has returned
  | report (pid : Int)
  | noChild
  | advance

/-- The steps with the process at which `launch_commander` is. -/
def stageStep (s : Shell) (launch : Launch) (job : Job) (proc : Process) :
    Action → Option (Use Shell)
  | .openFails =>
      if launch.stage = 0 ∧ proc.inputPath.isSome then
        some do
          Use.pass launch.jobId launch.slot
          let jobs ← removeJob s.jobs launch.jobId
          return { s with jobs := jobs, pc := .head }
      else none
  | .custom sent =>
      if proc.type ≠ .external then
        let job := setStage job launch.stage fun proc => { proc with status := .running }
        some (launchCustomCommand (s.putJob launch job) launch job proc sent)
      else none
  | .fork pid =>
      if proc.type = .external ∧ 1 < pid ∧
          ∀ child ∈ s.children, child.pid ≠ pid ∧ child.group ≠ pid then
        some (forked s launch job pid)
      else none
  | .forkFails =>
      if proc.type = .external then
        let job := setStage job launch.stage fun proc => { proc with status := .running }
        some (return { s.putJob launch job with pc := afterStage launch job .stopped })
      else none
  | _ => none

def attempt (s : Shell) (action : Action) : Option (Use Shell) :=
  match action with
  | .child pid change =>
      if s.hasChild pid then
        ((s.state pid).change change).map fun state =>
          return { s with state := Function.update s.state pid state }
      else none
  | .line line =>
      match s.pc with
      | .head => some (return { s with pc := .checking (line.map Line.job) })
      | _ => none
  | .check pid =>
      match s.pc with
      | .checking _ =>
          if s.hasChild pid then
            ((s.state pid).report true).map fun event => do
              let next ← checkJob s.jobs pid event
              return { s.reported pid event with jobs := next.1 }
          else none
      | _ => none
  | .checked =>
      match s.pc with
      | .checking job =>
          if ∀ child ∈ s.children, (s.state child.pid).report true = none then
            match job with
            | none => some (return { s with pc := .head })
            | some job => some (startLaunch s job)
          else none
      | _ => none
  | .report pid =>
      match s.pc with
      | .waiting launch caller id wait =>
          match s.jobs id with
          | none => none
          | some job =>
              if s.children.any fun child => child.pid = pid ∧ child.group = job.pgid then
                ((s.state pid).report false).map fun event => do
                  Use.access id
                  waitTurn (s.reported pid event) launch caller id wait pid event
              else none
      | _ => none
  | .noChild =>
      match s.pc with
      | .waiting launch caller id wait =>
          match s.jobs id with
          | none => none
          | some job =>
              if ∀ child ∈ s.children, child.group ≠ job.pgid then
                some do
                  Use.access id
                  waitTurn s launch caller id wait (-1) wait.status
              else none
      | _ => none
  | .advance =>
      match s.pc with
      | .waited launch .launchCommandHelper _ status =>
          (s.job launch).map fun job => finish s launch job status
      | .waited launch .commandFg id status =>
          if status = .stopped then
            (s.job launch).map fun job => return { s with pc := afterStage launch job .exited }
          else
            (s.job launch).map fun job => do
              Use.pass id (some id)
              let jobs ← removeJob s.jobs id
              return { s with jobs := jobs, pc := afterStage launch job .exited }
      | .ended launch status => (s.job launch).map fun job => finish s launch job status
      | _ => none
  | action =>
      match s.pc with
      | .stage launch =>
          (s.job launch).bind fun job =>
            (job.processes[launch.stage]?).bind fun proc => stageStep s launch job proc action
      | _ => none

def step (s : Shell) (action : Action) : Option Shell := (attempt s action).map Use.value

/-- What a step can be. -/
inductive Attempts (s : Shell) : Action → Use Shell → Prop where
  | child {pid : Int} {change : Change} (state : ChildState) :
      Attempts s (.child pid change) (pure { s with state := Function.update s.state pid state })
  | line {line : Option Line} :
      Attempts s (.line line) (pure { s with pc := .checking (line.map Line.job) })
  | check {pid : Int} {job : Option Job} {event : Event} (at_pc : s.pc = .checking job)
      (reported : (s.state pid).report true = some event) :
      Attempts s (.check pid)
        (checkJob s.jobs pid event >>= fun next =>
          pure { s.reported pid event with jobs := next.1 })
  | idle : Attempts s .checked (pure { s with pc := .head })
  | launch {job : Job} (at_pc : s.pc = .checking (some job)) :
      Attempts s .checked (startLaunch s job)
  | stage {launch : Launch} {job : Job} {proc : Process} {action : Action} {u : Use Shell}
      (at_pc : s.pc = .stage launch) (there : s.job launch = some job)
      (current : job.processes[launch.stage]? = some proc)
      (taken : stageStep s launch job proc action = some u) : Attempts s action u
  | report {launch : Launch} {caller : Caller} {id pid : Int} {wait : Wait} {job : Job}
      {event : Event} (at_pc : s.pc = .waiting launch caller id wait) (there : s.jobs id = some job)
      (isChild : ∃ child ∈ s.children, child.pid = pid ∧ child.group = job.pgid)
      (reported : (s.state pid).report false = some event) :
      Attempts s (.report pid)
        (Use.access id >>= fun _ =>
          waitTurn (s.reported pid event) launch caller id wait pid event)
  | noChild {launch : Launch} {caller : Caller} {id : Int} {wait : Wait} {job : Job}
      (at_pc : s.pc = .waiting launch caller id wait) (there : s.jobs id = some job)
      (none : ∀ child ∈ s.children, child.group ≠ job.pgid) :
      Attempts s .noChild
        (Use.access id >>= fun _ => waitTurn s launch caller id wait (-1) wait.status)
  | returned {launch : Launch} {id : Int} {status : Event} {job : Job}
      (at_pc : s.pc = .waited launch .launchCommandHelper id status)
      (there : s.job launch = some job) : Attempts s .advance (finish s launch job status)
  | kept {launch : Launch} {id : Int} {job : Job}
      (at_pc : s.pc = .waited launch .commandFg id .stopped) :
      Attempts s .advance (pure { s with pc := afterStage launch job .exited })
  | removed {launch : Launch} {id : Int} {status : Event} {job : Job}
      (at_pc : s.pc = .waited launch .commandFg id status) (ended : status ≠ .stopped) :
      Attempts s .advance
        (Use.pass id (some id) >>= fun _ => removeJob s.jobs id >>= fun jobs =>
          pure { s with jobs := jobs, pc := afterStage launch job .exited })
  | ended {launch : Launch} {status : Event} {job : Job} (at_pc : s.pc = .ended launch status)
      (there : s.job launch = some job) : Attempts s .advance (finish s launch job status)

theorem advance_cases {s : Shell} {u : Use Shell} (taken : attempt s .advance = some u) :
    Attempts s .advance u := by
  simp only [attempt] at taken
  split at taken
  · next at_pc =>
    obtain ⟨job, there, result⟩ := Option.map_eq_some_iff.mp taken
    cases result
    exact .returned at_pc there
  · next launch id status at_pc =>
    split at taken
    · next stopped =>
      obtain ⟨job, _, result⟩ := Option.map_eq_some_iff.mp taken
      cases result
      subst stopped
      exact .kept at_pc
    · next ended =>
      obtain ⟨job, _, result⟩ := Option.map_eq_some_iff.mp taken
      cases result
      exact .removed at_pc ended
  · next at_pc =>
    obtain ⟨job, there, result⟩ := Option.map_eq_some_iff.mp taken
    cases result
    exact .ended at_pc there
  · cases taken

theorem attempt_cases {s : Shell} {action : Action} {u : Use Shell}
    (taken : attempt s action = some u) : Attempts s action u := by
  cases action with
  | child pid change =>
      simp only [attempt] at taken
      obtain ⟨_, changes⟩ := Option.ite_none_right_eq_some.mp taken
      obtain ⟨state, _, result⟩ := Option.map_eq_some_iff.mp changes
      cases result
      exact .child state
  | line line =>
      simp only [attempt] at taken
      split at taken
      · cases taken
        exact .line
      · cases taken
  | check pid =>
      simp only [attempt] at taken
      split at taken
      · next at_pc =>
        obtain ⟨_, reports⟩ := Option.ite_none_right_eq_some.mp taken
        obtain ⟨event, reported, result⟩ := Option.map_eq_some_iff.mp reports
        cases result
        exact .check at_pc reported
      · cases taken
  | checked =>
      simp only [attempt] at taken
      split at taken
      · next job at_pc =>
        obtain ⟨_, starts⟩ := Option.ite_none_right_eq_some.mp taken
        cases job with
        | none =>
            cases starts
            exact .idle
        | some job =>
            cases starts
            exact .launch at_pc
      · cases taken
  | report pid =>
      simp only [attempt] at taken
      split at taken
      · next at_pc =>
        split at taken
        · cases taken
        · next there =>
          obtain ⟨isChild, reports⟩ := Option.ite_none_right_eq_some.mp taken
          obtain ⟨event, reported, result⟩ := Option.map_eq_some_iff.mp reports
          cases result
          exact .report at_pc there (by simpa using isChild) reported
      · cases taken
  | noChild =>
      simp only [attempt] at taken
      split at taken
      · next at_pc =>
        split at taken
        · cases taken
        · next there =>
          obtain ⟨none, result⟩ := Option.ite_none_right_eq_some.mp taken
          cases result
          exact .noChild at_pc there none
      · cases taken
  | advance => exact advance_cases taken
  | _ =>
      simp only [attempt] at taken
      split at taken
      · next at_pc =>
        obtain ⟨job, there, stages⟩ := Option.bind_eq_some_iff.mp taken
        obtain ⟨proc, current, stage⟩ := Option.bind_eq_some_iff.mp stages
        exact .stage at_pc there current stage
      · cases taken

end UtSystems.Yash.Commander

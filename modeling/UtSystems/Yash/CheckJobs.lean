import Mathlib.Data.List.Induction
import Mathlib.Data.List.Pairwise
import UtSystems.Yash.JobManager

/-!
# check_jobs

The job table under a sequence of events of children, taken by one call of `check_jobs` after the
other. A process counts as done when it exits. Of a process that dies by a signal the table keeps
what it said before.
-/

namespace UtSystems.Yash.CheckJobs

open Yash.JobManager

set_option autoImplicit false

structure ChildEvent where
  pid : Int
  event : Event
deriving DecidableEq

/-- The table and what has been printed. -/
structure Shell where
  jobs : Table
  printed : List Report

def checkEvent (s : Shell) (e : ChildEvent) : Shell :=
  let next := (checkJob s.jobs e.pid e.event).value
  { jobs := next.1, printed := s.printed ++ next.2 }

/-- The argument is what `waitpid` returns until it returns nothing. -/
def checkJobs (s : Shell) (events : List ChildEvent) : Shell := events.foldl checkEvent s

def checkCalls (s : Shell) (calls : List (List ChildEvent)) : Shell := calls.foldl checkJobs s

/-- How `check_jobs` changes a job with this process. -/
def notice (job : Job) (pid : Int) : Event → Job
  | .exited => job.setStatus pid .done
  | .stopped => job.setStatus pid .suspended
  | .continued => job.setStatus pid .continued
  | .signaled => job

def jobCompleted (job : Job) : Bool := job.processes.all fun proc => proc.status = .done

/-! ## One event -/

theorem set_first_pids (pid : Int) (status : Status) (processes : List Process) :
    (setFirst pid status processes).map Process.pid = processes.map Process.pid := by
  induction processes with
  | nil => rfl
  | cons proc next ih =>
      unfold setFirst
      split
      · rfl
      · simp [ih]

theorem notice_pids (job : Job) (pid : Int) (event : Event) :
    (notice job pid event).processes.map Process.pid = job.processes.map Process.pid := by
  cases event with
  | signaled => rfl
  | _ => exact set_first_pids _ _ _

theorem check_job_missed {t : Table} {pid : Int} (event : Event)
    (missed : (scan t (hasPid pid)).value = none) : (checkJob t pid event).value = (t, []) := by
  cases event with
  | _ => simp [checkJob, noteEvent, setProcessStatus, getJobIdByPid, missed]

/-- The first statement of the loop. -/
theorem check_job_found {t : Table} {pid i : Int} {job : Job} (event : Event)
    (hit : (scan t (hasPid pid)).value = some i) (there : t i = some job) :
    ∃ report : Report, report.id = i ∧ (checkJob t pid event).value =
      if jobCompleted (notice job pid event) then (Function.update t i none, [report])
      else (Function.update t i (some (notice job pid event)), []) := by
  obtain ⟨low, high, _⟩ := scan_some hit
  let t' := Function.update t i (some (notice job pid event))
  have inside : ¬ (nrJobs : Int) < i := by omega
  have positive : 0 < i := by omega
  have first : (noteEvent t pid event).value = t' := by
    cases event with
    | signaled =>
        change t = Function.update t i (some job)
        rw [← there, Function.update_eq_self]
    | _ => simp [noteEvent, setProcessStatus, hit, Table.alter, there, t', notice]
  have again : (scan t' (hasPid pid)).value = some i := by
    rw [← hit]
    apply scan_from_congr
    intro j
    by_cases same : j = i
    · simp only [t', same, Function.update_self, there]
      exact has_pid_congr pid (notice_pids job pid event)
    · simp only [t', Function.update_of_ne same]
  refine ⟨{
    id := i
    printOptions := .completedJobs
    isLast := (getLastJobId t').value = i
    commands := (notice job pid event).processes.map Process.command
    status := ((notice job pid event).processes.getLast (notice job pid event).rooted).status },
    rfl, ?_⟩
  simp only [checkJob, bind_value, first, getJobIdByPid, again, pure_value, if_pos positive]
  have completed : (isJobCompleted t' i).value = jobCompleted (notice job pid event) := by
    simp [isJobCompleted, getJobById, readSlot, inside, t', jobCompleted]
  simp only [completed]
  split
  · simp [printJobStatus, removeJob, getJobById, readSlot, inside, t']
  · rfl

/-! ## Sequences of events -/

def terminates : Event → Bool
  | .exited => true
  | .signaled => true
  | _ => false

/-- What `waitpid` can report: nothing of a child after its end. -/
structure Reportable (events : List ChildEvent) : Prop where
  positive : ∀ e ∈ events, 0 < e.pid
  last : events.Pairwise fun e later => terminates e.event = true → later.pid ≠ e.pid

/-- The jobs as they have been launched, before the end of a process is noticed. A process that the
shell has not forked has no positive pid. -/
structure Launched (t : Table) : Prop where
  inside : ∀ i job, t i = some job → 1 ≤ i ∧ i ≤ nrJobs
  unfinished : ∀ i job, t i = some job → ∀ proc ∈ job.processes, proc.status ≠ .done
  own : ∀ i job, t i = some job →
    job.processes.Pairwise fun proc other => 0 < proc.pid → other.pid ≠ proc.pid
  apart : ∀ i j job other, t i = some job → t j = some other → ∀ pid, 0 < pid →
    pid ∈ job.processes.map Process.pid → pid ∈ other.processes.map Process.pid → i = j

def Exited (events : List ChildEvent) (pid : Int) : Prop :=
  { pid := pid, event := .exited } ∈ events

def Ended (events : List ChildEvent) (pid : Int) : Prop :=
  Exited events pid ∨ { pid := pid, event := .signaled } ∈ events

def AllExited (events : List ChildEvent) (job : Job) : Prop :=
  ∀ proc ∈ job.processes, Exited events proc.pid

def AllEnded (events : List ChildEvent) (job : Job) : Prop :=
  ∀ proc ∈ job.processes, Ended events proc.pid

def reports (s : Shell) (i : Int) : Nat := s.printed.countP fun report => report.id = i

/-- The processes that have exited are those whose status is Done. -/
def Marks (events : List ChildEvent) (start now : List Process) : Prop :=
  List.Forall₂
    (fun before after => after.pid = before.pid ∧
      (after.status = .done ↔ Exited events before.pid)) start now

theorem exited_append {events : List ChildEvent} {e : ChildEvent} {pid : Int} :
    Exited (events ++ [e]) pid ↔ Exited events pid ∨ (e.pid = pid ∧ e.event = .exited) := by
  unfold Exited
  rw [List.mem_append, List.mem_singleton]
  cases e with
  | mk p event => simp [eq_comm]

theorem marks_pids {events : List ChildEvent} {start now : List Process}
    (marks : Marks events start now) : now.map Process.pid = start.map Process.pid := by
  induction marks with
  | nil => rfl
  | cons head tail ih => simp [head.1, ih]

theorem marks_completed {events : List ChildEvent} {start now : List Process}
    (marks : Marks events start now) :
    (now.all fun proc => proc.status = .done) = true ↔
      ∀ proc ∈ start, Exited events proc.pid := by
  induction marks with
  | nil => simp
  | cons head tail ih => simp [head.2, ← ih]

/-- An event that is not the exit of a process of the job. -/
theorem marks_other {events : List ChildEvent} {e : ChildEvent} {start now : List Process}
    (marks : Marks events start now)
    (other : ∀ pid ∈ start.map Process.pid, ¬ (e.pid = pid ∧ e.event = .exited)) :
    Marks (events ++ [e]) start now := by
  induction marks with
  | nil => exact .nil
  | @cons before after start now head tail ih =>
      simp only [List.map_cons, List.forall_mem_cons] at other
      apply List.Forall₂.cons
      · simp [exited_append, head.1, head.2, other.1]
      · exact ih other.2

theorem marks_set_first {events : List ChildEvent} {e : ChildEvent} {status : Status}
    {start now : List Process} (marks : Marks events start now) (positive : 0 < e.pid)
    (own : start.Pairwise fun proc other => 0 < proc.pid → other.pid ≠ proc.pid)
    (isDone : status = .done ↔ e.event = .exited) (running : ¬ Exited events e.pid) :
    Marks (events ++ [e]) start (setFirst e.pid status now) := by
  induction marks with
  | nil => exact .nil
  | @cons before after start now head tail ih =>
      rw [List.pairwise_cons] at own
      unfold setFirst
      by_cases same : after.pid = e.pid
      · have named : before.pid = e.pid := by rw [← head.1, same]
        rw [if_pos same]
        apply List.Forall₂.cons
        · simp [exited_append, head.1, named, running, isDone]
        · apply marks_other tail
          intro pid member exit
          obtain ⟨proc, later, isPid⟩ := List.mem_map.mp member
          apply own.1 proc later (named ▸ positive)
          rw [isPid, ← exit.1, named]
      · have named : ¬ e.pid = before.pid := by
          intro isBefore
          exact same (head.1.trans isBefore.symm)
        rw [if_neg same]
        apply List.Forall₂.cons
        · simp [exited_append, head.1, head.2, named]
        · exact ih own.2

theorem marks_notice {events : List ChildEvent} {e : ChildEvent} {start now : Job}
    (marks : Marks events start.processes now.processes) (positive : 0 < e.pid)
    (own : start.processes.Pairwise fun proc other => 0 < proc.pid → other.pid ≠ proc.pid)
    (running : ¬ Exited events e.pid) :
    Marks (events ++ [e]) start.processes (notice now e.pid e.event).processes := by
  cases event : e.event with
  | signaled =>
      apply marks_other marks
      intro pid member exit
      rw [event] at exit
      cases exit.2
  | _ =>
      apply marks_set_first marks positive own _ running
      simp [event, Status.continued]

/-! ## The table -/

/-- Where a job stands that was in slot `i`. -/
inductive Tracked (events : List ChildEvent) (s : Shell) (i : Int) (job : Job) : Prop where
  | present (now : Job) (there : s.jobs i = some now)
      (marks : Marks events job.processes now.processes) (unfinished : ¬ AllExited events job)
      (unreported : reports s i = 0)
  | removed (gone : s.jobs i = none) (exited : AllExited events job) (reported : reports s i = 1)

structure Tracks (start : Table) (events : List ChildEvent) (s : Shell) : Prop where
  free : ∀ i, start i = none → s.jobs i = none
  job : ∀ i job, start i = some job → Tracked events s i job

theorem all_exited_append {events : List ChildEvent} {e : ChildEvent} {job : Job}
    (exited : AllExited events job) : AllExited (events ++ [e]) job := by
  intro proc member
  exact List.mem_append_left _ (exited proc member)

/-- Another job's event changes nothing for this one. -/
theorem tracked_other {events : List ChildEvent} {e : ChildEvent} {s next : Shell} {i : Int}
    {job : Job} (tracked : Tracked events s i job) (same : next.jobs i = s.jobs i)
    (printed : reports next i = reports s i)
    (other : ∀ now, s.jobs i = some now → e.pid ∉ now.processes.map Process.pid) :
    Tracked (events ++ [e]) next i job := by
  cases tracked with
  | present now there marks unfinished unreported =>
      have foreign := other now there
      rw [marks_pids marks] at foreign
      have apart : ∀ pid ∈ job.processes.map Process.pid, ¬ (e.pid = pid ∧ e.event = .exited) := by
        intro pid member exit
        exact foreign (exit.1 ▸ member)
      apply Tracked.present now (same.trans there) (marks_other marks apart) _
        (printed.trans unreported)
      intro exited
      apply unfinished
      intro proc member
      cases exited_append.mp (exited proc member) with
      | inl before => exact before
      | inr exit => exact absurd exit (apart proc.pid (List.mem_map_of_mem member))
  | removed gone exited reported =>
      exact .removed (same.trans gone) (all_exited_append exited) (printed.trans reported)

theorem tracked_named {events : List ChildEvent} {s : Shell} {i : Int} {job now : Job}
    (tracked : Tracked events s i job) (there : s.jobs i = some now) :
    Marks events job.processes now.processes ∧ reports s i = 0 := by
  cases tracked with
  | present now' there' marks unfinished unreported =>
      cases there'.symm.trans there
      exact ⟨marks, unreported⟩
  | removed gone =>
      rw [gone] at there
      cases there

theorem tracks_started {start : Table} {events : List ChildEvent} {s : Shell} {i : Int} {now : Job}
    (tracks : Tracks start events s) (there : s.jobs i = some now) :
    ∃ job, start i = some job ∧ Marks events job.processes now.processes ∧ reports s i = 0 := by
  cases started : start i with
  | none =>
      rw [tracks.free i started] at there
      cases there
  | some job => exact ⟨job, rfl, tracked_named (tracks.job i job started) there⟩

theorem tracks_found {start : Table} {events : List ChildEvent} {e : ChildEvent} {s : Shell}
    {i : Int} {now : Job} (launched : Launched start) (positive : 0 < e.pid)
    (running : ¬ Exited events e.pid) (tracks : Tracks start events s)
    (hit : (scan s.jobs (hasPid e.pid)).value = some i) (there : s.jobs i = some now)
    (named : e.pid ∈ now.processes.map Process.pid) :
    Tracks start (events ++ [e]) (checkEvent s e) := by
  obtain ⟨report, reportId, result⟩ := check_job_found e.event hit there
  obtain ⟨job, started, marks, unreported⟩ := tracks_started tracks there
  have after := marks_notice marks positive (launched.own i job started) running
  have completed : jobCompleted (notice now e.pid e.event) = true ↔
      AllExited (events ++ [e]) job := marks_completed after
  have others : ∀ j other now, j ≠ i → start j = some other → s.jobs j = some now →
      e.pid ∉ now.processes.map Process.pid := by
    intro j other nowToo apart startedToo thereToo member
    obtain ⟨marksToo, _⟩ := tracked_named (tracks.job j other startedToo) thereToo
    rw [marks_pids marksToo] at member
    rw [marks_pids marks] at named
    exact apart (launched.apart j i other job startedToo started e.pid positive member named)
  have elsewhere : ∀ slot printed, (∀ r ∈ printed, r.id = i) → ∀ j other, j ≠ i →
      start j = some other → Tracked (events ++ [e])
        { jobs := Function.update s.jobs i slot, printed := s.printed ++ printed } j other := by
    intro slot printed isHere j other apart startedToo
    apply tracked_other (tracks.job j other startedToo)
    · exact Function.update_of_ne apart _ _
    · have none : printed.countP (fun r => r.id = j) = 0 := by
        rw [List.countP_eq_zero]
        intro r member
        simp [isHere r member, Ne.symm apart]
      simp [reports, none]
    · intro nowToo thereToo
      exact others j other nowToo apart startedToo thereToo
  have free : ∀ slot j, start j = none → Function.update s.jobs i slot j = none := by
    intro slot j unstarted
    have apart : j ≠ i := by
      intro same
      rw [same, started] at unstarted
      cases unstarted
    rw [Function.update_of_ne apart]
    exact tracks.free j unstarted
  by_cases exited : AllExited (events ++ [e]) job
  · have next : checkEvent s e =
        { jobs := Function.update s.jobs i none, printed := s.printed ++ [report] } := by
      simp [checkEvent, result, completed.mpr exited]
    rw [next]
    refine { free := free none, job := ?_ }
    intro j other startedToo
    by_cases same : j = i
    · subst same
      cases started.symm.trans startedToo
      apply Tracked.removed (Function.update_self _ _ _) exited
      unfold reports at unreported ⊢
      simp [List.countP_append, unreported, reportId]
    · exact elsewhere none [report] (by simp [reportId]) j other same startedToo
  · have next : checkEvent s e =
        { jobs := Function.update s.jobs i (some (notice now e.pid e.event))
          printed := s.printed ++ [] } := by
      simp [checkEvent, result, mt completed.mp exited]
    rw [next]
    refine { free := free (some (notice now e.pid e.event)), job := ?_ }
    intro j other startedToo
    by_cases same : j = i
    · subst same
      cases started.symm.trans startedToo
      apply Tracked.present _ (Function.update_self _ _ _) after exited
      simpa [reports] using unreported
    · exact elsewhere _ [] (by simp) j other same startedToo

theorem tracks_step {start : Table} {events : List ChildEvent} {e : ChildEvent} {s : Shell}
    (launched : Launched start) (reportable : Reportable (events ++ [e]))
    (tracks : Tracks start events s) : Tracks start (events ++ [e]) (checkEvent s e) := by
  have positive : 0 < e.pid := reportable.positive e (by simp)
  have running : ¬ Exited events e.pid := by
    intro exited
    have later := (List.pairwise_append.mp reportable.last).2.2 _ exited e (by simp)
    exact later rfl rfl
  cases hit : (scan s.jobs (hasPid e.pid)).value with
  | some i =>
      obtain ⟨_, _, found, _⟩ := scan_some hit
      cases there : s.jobs i with
      | none =>
          rw [there] at found
          cases found
      | some now =>
          rw [there] at found
          exact tracks_found launched positive running tracks hit there (has_pid_iff.mp found)
  | none =>
      have same : checkEvent s e = s := by
        simp [checkEvent, check_job_missed e.event hit]
      rw [same]
      refine { free := tracks.free, job := ?_ }
      intro i job started
      apply tracked_other (tracks.job i job started) rfl rfl
      intro now there member
      obtain ⟨low, high⟩ := launched.inside i job started
      have missed := scan_none hit low high
      rw [there, has_pid_iff.mpr member] at missed
      cases missed

theorem tracks_start {start : Table} (launched : Launched start) (printed : List Report)
    (unprinted : printed = []) : Tracks start [] { jobs := start, printed := printed } where
  free := fun _ unstarted => unstarted
  job := by
    intro i job started
    apply Tracked.present job started
    · have unmarked : ∀ processes : List Process, (∀ proc ∈ processes, proc.status ≠ .done) →
          Marks [] processes processes := by
        intro processes unfinished
        induction processes with
        | nil => exact .nil
        | cons proc next ih =>
            rw [List.forall_mem_cons] at unfinished
            apply List.Forall₂.cons
            · simp [unfinished.1, Exited]
            · exact ih unfinished.2
      exact unmarked _ (launched.unfinished i job started)
    · intro exited
      have nothing := exited job.root (List.head_mem job.rooted)
      simp [Exited] at nothing
    · simp [reports, unprinted]

theorem tracks_run {start : Table} (launched : Launched start) (events : List ChildEvent)
    (reportable : Reportable events) :
    Tracks start events (checkJobs { jobs := start, printed := [] } events) := by
  induction events using List.reverseRecOn with
  | nil => exact tracks_start launched [] rfl
  | append_singleton events e ih =>
      have earlier : Reportable events := {
        positive := fun e member => reportable.positive e (List.mem_append_left _ member)
        last := (List.pairwise_append.mp reportable.last).1 }
      rw [checkJobs, List.foldl_append]
      exact tracks_step launched reportable (ih earlier)

theorem check_calls_flatten (s : Shell) (calls : List (List ChildEvent)) :
    checkCalls s calls = checkJobs s calls.flatten :=
  List.foldl_flatten.symm

theorem ends_once {events : List ChildEvent} {pid : Int} (reportable : Reportable events)
    (exited : Exited events pid) : { pid := pid, event := .signaled } ∉ events := by
  intro killed
  have apart : events.Pairwise fun e later =>
      terminates e.event = true → terminates later.event = true → e.pid ≠ later.pid := by
    apply reportable.last.imp
    intro e later last ends _ same
    exact last ends same.symm
  have symmetric : Std.Symm fun e later : ChildEvent =>
      terminates e.event = true → terminates later.event = true → e.pid ≠ later.pid := {
    symm := by
      intro e later apart ends laterEnds same
      exact apart laterEnds ends same.symm }
  have differ := @List.Pairwise.forall _ _ _ symmetric apart _ exited _ killed (by simp)
  exact differ rfl rfl rfl

/-- What becomes of the jobs over some calls of `check_jobs`. -/
def Reaped (start : Table) (calls : List (List ChildEvent)) : Prop :=
  let s := checkCalls { jobs := start, printed := [] } calls
  ∀ i job, start i = some job →
    (AllEnded calls.flatten job → s.jobs i = none ∧ reports s i = 1) ∧
    (s.jobs i = none → AllEnded calls.flatten job)

/-- A job leaves the table when its processes have ended, unless one of them was killed. -/
theorem ended_jobs_leave_iff {start : Table} (launched : Launched start)
    (calls : List (List ChildEvent)) (reportable : Reportable calls.flatten) :
    Reaped start calls ↔
      ∀ i job, start i = some job → AllEnded calls.flatten job →
        ∀ proc ∈ job.processes, { pid := proc.pid, event := .signaled } ∉ calls.flatten := by
  have tracks := tracks_run launched calls.flatten reportable
  rw [← check_calls_flatten] at tracks
  constructor
  · intro reaped i job started ended proc member killed
    cases tracks.job i job started with
    | present now there =>
        have left := ((reaped i job started).1 ended).1
        rw [there] at left
        cases left
    | removed _ exited => exact ends_once reportable (exited proc member) killed
  · intro unkilled i job started
    have exits : AllEnded calls.flatten job → AllExited calls.flatten job := by
      intro ended proc member
      cases ended proc member with
      | inl exited => exact exited
      | inr killed => exact absurd killed (unkilled i job started ended proc member)
    cases tracks.job i job started with
    | present now there _ unfinished =>
        constructor
        · intro ended
          exact absurd (exits ended) unfinished
        · intro gone
          rw [there] at gone
          cases gone
    | removed gone exited reported =>
        constructor
        · intro _
          exact ⟨gone, reported⟩
        · intro _ proc member
          exact Or.inl (exited proc member)

/-- `sleep 9 | cat &`, which runs as the processes 7 and 8. -/
def pipeline : Job :=
  let proc : Process :=
    { command := "sleep 9", argc := 2, inputPath := none, pid := 7, type := .external
      status := .running, birth := some 0 }
  { id := 1
    processes := [proc, { proc with command := "cat", argc := 1, pid := 8, birth := some 1 }]
    rooted := by decide
    pgid := 7
    mode := .background }

def onePipeline : Table := Function.update (fun _ => none) 1 (some pipeline)

theorem one_pipeline_iff {i : Int} {job : Job} :
    onePipeline i = some job ↔ i = 1 ∧ job = pipeline := by
  unfold onePipeline
  by_cases first : i = 1
  · simp [first, eq_comm]
  · simp [first]

theorem one_pipeline_launched : Launched onePipeline where
  inside := by
    intro i job there
    have first := (one_pipeline_iff.mp there).1
    rw [first]
    decide
  unfinished := by
    intro i job there
    rw [(one_pipeline_iff.mp there).2]
    decide
  own := by
    intro i job there
    rw [(one_pipeline_iff.mp there).2]
    decide
  apart := by
    intro i j job other there thereToo pid _ _ _
    rw [(one_pipeline_iff.mp there).1, (one_pipeline_iff.mp thereToo).1]

/-- Process 8 is stopped and continued, and both end in different calls of `check_jobs`. -/
def bothExit : List (List ChildEvent) :=
  [[{ pid := 8, event := .stopped }, { pid := 7, event := .exited }],
    [{ pid := 8, event := .continued }], [{ pid := 8, event := .exited }]]

theorem ended_jobs_leave_iff_exit : Reaped onePipeline bothExit := by
  have reportable : Reportable bothExit.flatten := {
    positive := by decide
    last := by decide }
  apply (ended_jobs_leave_iff one_pipeline_launched bothExit reportable).mpr
  intro i job there _
  rw [(one_pipeline_iff.mp there).2]
  decide

/-- Process 7 is killed. -/
def firstKilled : List (List ChildEvent) :=
  [[{ pid := 7, event := .signaled }, { pid := 8, event := .exited }]]

theorem killed_job_stays :
    Launched onePipeline ∧ Reportable firstKilled.flatten ∧ ¬ Reaped onePipeline firstKilled := by
  refine ⟨one_pipeline_launched, ?_, ?_⟩
  · constructor
    · decide
    · decide
  · intro reaped
    have ended : AllEnded firstKilled.flatten pipeline := by
      unfold AllEnded Ended Exited
      decide
    have left := ((reaped 1 pipeline (one_pipeline_iff.mpr ⟨rfl, rfl⟩)).1 ended).1
    have stays : ((checkCalls { jobs := onePipeline, printed := [] } firstKilled).jobs 1).isSome =
        true := by decide
    rw [left] at stays
    cases stays

end UtSystems.Yash.CheckJobs

import Mathlib.Data.List.Forall2
import UtSystems.Yash.Commander

/-!
# What changes in the table

The functions on the table change the statuses of processes and take jobs out. Of a process only
the status changes, and it becomes Done only by the function that is told so.
-/

namespace UtSystems.Yash.Relabeling

open Yash.JobManager Yash.Commander

set_option autoImplicit false

variable {ends : Int → Prop}

structure Follows (ends : Int → Prop) (proc now : Process) : Prop where
  same : now = { proc with status := now.status }
  done : now.status = .done → proc.status = .done ∨ ends proc.pid

structure Relabels (ends : Int → Prop) (job now : Job) : Prop where
  id : now.id = job.id
  pgid : now.pgid = job.pgid
  mode : now.mode = job.mode
  processes : List.Forall₂ (Follows ends) job.processes now.processes

/-- No job is added to the table. -/
def Shrinks (ends : Int → Prop) (t now : Table) : Prop :=
  ∀ i job, now i = some job → ∃ before, t i = some before ∧ Relabels ends before job

/-- No job is taken out of it. -/
def Keeps (t now : Table) : Prop := ∀ i, now i = none → t i = none

theorem follows_refl (proc : Process) : Follows ends proc proc where
  same := rfl
  done := Or.inl

theorem follows_status (proc : Process) {status : Status} (done : status = .done → ends proc.pid) :
    Follows ends proc { proc with status := status } where
  same := rfl
  done := fun isDone => Or.inr (done isDone)

theorem follows_trans {proc middle last : Process} (first : Follows ends proc middle)
    (second : Follows ends middle last) : Follows ends proc last where
  same := by rw [second.same, first.same]
  done := by
    intro isDone
    have pid : middle.pid = proc.pid := by rw [first.same]
    cases second.done isDone with
    | inl before => exact first.done before
    | inr ending => exact Or.inr (pid ▸ ending)

theorem forall_follows_refl (processes : List Process) :
    List.Forall₂ (Follows ends) processes processes := by
  induction processes with
  | nil => exact .nil
  | cons proc next ih => exact .cons (follows_refl proc) ih

theorem relabels_refl (job : Job) : Relabels ends job job where
  id := rfl
  pgid := rfl
  mode := rfl
  processes := forall_follows_refl job.processes

theorem relabels_trans {job middle last : Job} (first : Relabels ends job middle)
    (second : Relabels ends middle last) : Relabels ends job last where
  id := second.id.trans first.id
  pgid := second.pgid.trans first.pgid
  mode := second.mode.trans first.mode
  processes := by
    have chain : ∀ list middle last, List.Forall₂ (Follows ends) list middle →
        List.Forall₂ (Follows ends) middle last → List.Forall₂ (Follows ends) list last := by
      intro list middle last first
      induction first generalizing last with
      | nil => exact id
      | cons head _ ih =>
          intro second
          cases second with
          | cons headToo tail => exact .cons (follows_trans head headToo) (ih _ tail)
    exact chain _ _ _ first.processes second.processes

theorem relabels_root {job now : Job} (relabels : Relabels ends job now) :
    now.root.type = job.root.type := by
  have heads : ∀ (list after : List Process) (some : list ≠ []) (someToo : after ≠ []),
      List.Forall₂ (Follows ends) list after →
        (after.head someToo).type = (list.head some).type := by
    intro list after some someToo follows
    cases follows with
    | nil => exact absurd rfl some
    | cons head _ =>
        rw [List.head_cons, List.head_cons, head.same]
  exact heads _ _ job.rooted now.rooted relabels.processes

theorem set_status_relabels (job : Job) {pid : Int} {status : Status}
    (done : status = .done → ends pid) : Relabels ends job (job.setStatus pid status) where
  id := rfl
  pgid := rfl
  mode := rfl
  processes := by
    change List.Forall₂ _ job.processes (setFirst pid status job.processes)
    induction job.processes with
    | nil => exact .nil
    | cons proc next ih =>
        unfold setFirst
        split
        · next named => exact .cons (follows_status proc (named ▸ done)) (forall_follows_refl next)
        · exact .cons (follows_refl proc) ih

theorem set_remaining_relabels (job : Job) {status : Status} (running : status ≠ .done) :
    Relabels ends job (job.setRemaining status) where
  id := rfl
  pgid := rfl
  mode := rfl
  processes := by
    change List.Forall₂ _ job.processes (job.processes.map _)
    induction job.processes with
    | nil => exact .nil
    | cons proc next ih =>
        rw [List.map_cons]
        apply List.Forall₂.cons _ ih
        split
        · exact follows_refl proc
        · exact follows_status proc fun isDone => absurd isDone running

theorem set_stage_relabels (job : Job) (stage : Nat) :
    Relabels ends job (setStage job stage fun proc => { proc with status := .running }) where
  id := rfl
  pgid := rfl
  mode := rfl
  processes := by
    change List.Forall₂ _ job.processes (job.processes.modify stage _)
    induction job.processes generalizing stage with
    | nil =>
        rw [List.modify_nil]
        exact .nil
    | cons proc next ih =>
        cases stage with
        | zero =>
            exact .cons (follows_status proc fun isDone => nomatch isDone)
              (forall_follows_refl next)
        | succ stage => exact .cons (follows_refl proc) (ih stage)

/-! ## The functions -/

theorem shrinks_refl (t : Table) : Shrinks ends t t :=
  fun _ job there => ⟨job, there, relabels_refl job⟩

theorem keeps_refl (t : Table) : Keeps t t := fun _ none => none

theorem shrinks_trans {t middle last : Table} (first : Shrinks ends t middle)
    (second : Shrinks ends middle last) : Shrinks ends t last := by
  intro i job there
  obtain ⟨between, thereToo, relabels⟩ := second i job there
  obtain ⟨before, thereFirst, relabelsFirst⟩ := first i between thereToo
  exact ⟨before, thereFirst, relabels_trans relabelsFirst relabels⟩

theorem shrinks_update {t : Table} {id : Int} {job now : Job} (there : t id = some job)
    (relabels : Relabels ends job now) : Shrinks ends t (Function.update t id (some now)) := by
  intro i after found
  by_cases same : i = id
  · subst same
    rw [Function.update_self] at found
    cases found
    exact ⟨job, there, relabels⟩
  · rw [Function.update_of_ne same] at found
    exact ⟨after, found, relabels_refl after⟩

theorem shrinks_removed (t : Table) (id : Int) : Shrinks ends t (Function.update t id none) := by
  intro i after found
  by_cases same : i = id
  · subst same
    rw [Function.update_self] at found
    cases found
  · rw [Function.update_of_ne same] at found
    exact ⟨after, found, relabels_refl after⟩

theorem keeps_update {t : Table} {id : Int} {now : Job} :
    Keeps t (Function.update t id (some now)) := by
  intro i none
  by_cases same : i = id
  · subst same
    rw [Function.update_self] at none
    cases none
  · rw [Function.update_of_ne same] at none
    exact none

theorem alter_shrinks {t : Table} {id : Int} {change : Job → Job}
    (relabels : ∀ job, Relabels ends job (change job)) : Shrinks ends t (t.alter id change) := by
  unfold Table.alter
  cases there : t id with
  | none => exact shrinks_removed t id
  | some job => exact shrinks_update there (relabels job)

theorem alter_keeps (t : Table) (id : Int) (change : Job → Job) : Keeps t (t.alter id change) := by
  unfold Table.alter
  cases there : t id with
  | none =>
      change Keeps t (Function.update t id none)
      rw [← there, Function.update_eq_self]
      exact keeps_refl t
  | some job => exact keeps_update

theorem set_process_status_shrinks (t : Table) {pid : Int} {status : Status}
    (done : status = .done → ends pid) : Shrinks ends t (setProcessStatus t pid status).value := by
  cases hit : (scan t (hasPid pid)).value with
  | none => simp [setProcessStatus, hit, shrinks_refl]
  | some i =>
      simp only [setProcessStatus, hit, bind_value, pure_value]
      exact alter_shrinks fun job => set_status_relabels job done

theorem set_process_status_keeps (t : Table) (pid : Int) (status : Status) :
    Keeps t (setProcessStatus t pid status).value := by
  cases hit : (scan t (hasPid pid)).value with
  | none => simp [setProcessStatus, hit, keeps_refl]
  | some i =>
      simp only [setProcessStatus, hit, bind_value, pure_value]
      exact alter_keeps t i _

theorem set_job_status_shrinks (t : Table) (id : Int) {status : Status} (running : status ≠ .done) :
    Shrinks ends t (setJobStatus t id status).value := by
  cases there : (getJobById t id).value with
  | none => simp [setJobStatus, there, shrinks_refl]
  | some job =>
      simp only [setJobStatus, there, bind_value, pure_value]
      exact alter_shrinks fun job => set_remaining_relabels job running

theorem set_job_status_keeps (t : Table) (id : Int) (status : Status) :
    Keeps t (setJobStatus t id status).value := by
  cases there : (getJobById t id).value with
  | none => simp [setJobStatus, there, keeps_refl]
  | some job =>
      simp only [setJobStatus, there, bind_value, pure_value]
      exact alter_keeps t id _

theorem remove_job_shrinks (t : Table) (id : Int) : Shrinks ends t (removeJob t id).value := by
  cases there : (getJobById t id).value with
  | none => simp [removeJob, there, shrinks_refl]
  | some job => simp [removeJob, there, shrinks_removed]

theorem note_event_shrinks (t : Table) {pid : Int} {event : Event}
    (done : event = .exited → ends pid) : Shrinks ends t (noteEvent t pid event).value := by
  cases event with
  | exited => exact set_process_status_shrinks t fun _ => done rfl
  | stopped => exact set_process_status_shrinks t fun isDone => nomatch isDone
  | continued => exact set_process_status_shrinks t fun isDone => nomatch isDone
  | signaled => exact shrinks_refl t

theorem check_job_shrinks (t : Table) {pid : Int} {event : Event}
    (done : event = .exited → ends pid) : Shrinks ends t (checkJob t pid event).value.1 := by
  have noted := note_event_shrinks t done
  simp only [checkJob, bind_value]
  split
  · rw [bind_value]
    split
    · exact shrinks_trans noted (remove_job_shrinks _ _)
    · exact noted
  · exact noted

theorem command_jobs_shrinks (t : Table) (rounds : Nat) (first : Int) :
    Shrinks ends t (commandJobsFrom t rounds first).value := by
  induction rounds generalizing t first with
  | zero => exact shrinks_refl t
  | succ rounds ih =>
      simp only [commandJobsFrom, readSlot, bind_value, pure_value]
      split
      · exact ih t (first + 1)
      · split
        · exact shrinks_trans (remove_job_shrinks t first) (ih _ (first + 1))
        · exact ih t (first + 1)

/-! ## Scans -/

theorem follows_pids {list after : List Process} (follows : List.Forall₂ (Follows ends) list after) :
    after.map Process.pid = list.map Process.pid := by
  induction follows with
  | nil => rfl
  | cons head _ ih => rw [List.map_cons, List.map_cons, ih, head.same]

/-- The scans find in the table what they found before. -/
theorem has_pid_same {t now : Table} (pid : Int) (shrinks : Shrinks ends t now)
    (keeps : Keeps t now) (i : Int) : hasPid pid (now i) = hasPid pid (t i) := by
  cases there : now i with
  | none => rw [keeps i there]
  | some job =>
      obtain ⟨before, thereBefore, relabels⟩ := shrinks i job there
      rw [thereBefore]
      exact has_pid_congr pid (follows_pids relabels.processes)

theorem is_none_same {t now : Table} (shrinks : Shrinks ends t now) (keeps : Keeps t now) (i : Int) :
    (now i).isNone = (t i).isNone := by
  cases there : now i with
  | none => rw [keeps i there]
  | some job =>
      obtain ⟨before, thereBefore, _⟩ := shrinks i job there
      rw [thereBefore]
      rfl

theorem scan_same {t now : Table} {found : Option Job → Bool}
    (same : ∀ i, found (now i) = found (t i)) : (scan now found).value = (scan t found).value :=
  scan_from_congr same nrJobs 1

theorem note_event_keeps (t : Table) (pid : Int) (event : Event) :
    Keeps t (noteEvent t pid event).value := by
  cases event with
  | signaled => exact keeps_refl t
  | _ => exact set_process_status_keeps t pid _

/-! ## The functions of the shell -/

theorem note_waited_shrinks (t : Table) {pid : Int} {event : Event}
    (done : event = .exited ∨ event = .signaled → ends pid) :
    Shrinks ends t (noteWaited t pid event).value := by
  cases event with
  | exited => exact set_process_status_shrinks t fun _ => done (Or.inl rfl)
  | signaled => exact set_process_status_shrinks t fun _ => done (Or.inr rfl)
  | _ => exact set_process_status_shrinks t fun isDone => nomatch isDone

theorem note_waited_keeps (t : Table) (pid : Int) (event : Event) :
    Keeps t (noteWaited t pid event).value := by
  cases event with
  | _ => exact set_process_status_keeps t pid _

theorem get_job_some {t : Table} {id : Int} {job : Job} (there : (getJobById t id).value = some job) :
    t id = some job ∧ id ≤ nrJobs := by
  unfold getJobById at there
  split at there
  · cases there
  · next inside => exact ⟨there, by omega⟩

theorem wait_for_job_value (s : Shell) (launch : Launch) (caller : Caller) (id : Int) :
    (waitForJob s launch caller id).value = { s with pc := .waited launch caller id .stopped } ∨
    ∃ job, s.jobs id = some job ∧ (waitForJob s launch caller id).value =
      { s with
        pc := .waiting launch caller id
          { procCount := job.procCount .remaining, waitCount := 0, status := .exited
            stopSeen := false } } := by
  unfold waitForJob
  rw [bind_value]
  cases there : (getJobById s.jobs id).value with
  | none => exact Or.inl rfl
  | some job =>
      right
      refine ⟨job, (get_job_some there).1, ?_⟩
      simp [getProcCount, there]

theorem continue_last_job_value (s : Shell) (argc : Nat) (sent : Bool)
    (printOptions : PrintOptions) :
    (continueLastJob s argc sent printOptions).value = (none, s) ∨
    ∃ id job, argc = 1 ∧ (getLastJobId s.jobs).value = id ∧ s.jobs id = some job ∧
      (continueLastJob s argc sent printOptions).value =
        (some id, { s.sigcont job.pgid with jobs := (setJobStatus s.jobs id .continued).value }) := by
  unfold continueLastJob
  split
  · exact Or.inl rfl
  · next one =>
    simp only [bind_value]
    split
    · exact Or.inl rfl
    · next ready =>
      right
      cases there : (getJobById s.jobs (getLastJobId s.jobs).value).value with
      | none =>
          have missing : (getPgidByJobId s.jobs (getLastJobId s.jobs).value).value = -1 := by
            simp [getPgidByJobId, there]
          rw [missing] at ready
          exact absurd (Or.inl (by decide)) ready
      | some job =>
          refine ⟨_, job, Decidable.not_not.mp one, rfl, (get_job_some there).1, ?_⟩
          simp [getPgidByJobId, there]

theorem insert_job_value (t : Table) (job : Job) :
    (insertJob t job).value = (-1, t) ∨ ∃ id, 1 ≤ id ∧ t id = none ∧
      (insertJob t job).value = (id, Function.update t id (some { job with id := id })) := by
  cases hit : (scan t Option.isNone).value with
  | none =>
      left
      simp [insertJob, getNextJobId, hit]
  | some id =>
      right
      obtain ⟨low, _, free, _⟩ := scan_some hit
      have notNegative : ¬ id < 0 := by omega
      exact ⟨id, low, Option.isNone_iff_eq_none.mp free, by
        simp [insertJob, getNextJobId, hit, notNegative]⟩

/-- What the loop of `wait_for_job` does next. -/
def afterTurn (launch : Launch) (caller : Caller) (id : Int) (wait : Wait) (event : Event) : Pc :=
  if wait.waitCount + 1 < wait.procCount then
    .waiting launch caller id
      { wait with
        waitCount := wait.waitCount + 1
        status := event
        stopSeen := wait.stopSeen || event = .stopped }
  else .waited launch caller id event

theorem wait_turn_value (s : Shell) (launch : Launch) (caller : Caller) (id : Int) (wait : Wait)
    (pid : Int) (event : Event) : (waitTurn s launch caller id wait pid event).value =
      { s with
        jobs := (noteWaited s.jobs pid event).value
        pc := afterTurn launch caller id wait event } := rfl

theorem job_put (s : Shell) (launch : Launch) (job : Job) :
    (s.putJob launch job).job launch = some job := by
  unfold Shell.job Shell.putJob
  cases launch.slot with
  | none => rfl
  | some id => exact Function.update_self _ _ _

theorem put_job_shrinks {s : Shell} {launch : Launch} {job now : Job}
    (there : s.job launch = some job) (relabels : Relabels ends job now) :
    Shrinks ends s.jobs (s.putJob launch now).jobs ∧ Keeps s.jobs (s.putJob launch now).jobs := by
  unfold Shell.job at there
  unfold Shell.putJob
  cases slot : launch.slot with
  | none => exact ⟨shrinks_refl s.jobs, keeps_refl s.jobs⟩
  | some id =>
      rw [slot] at there
      exact ⟨shrinks_update there relabels, keeps_update⟩

theorem set_stage_root (job : Job) (stage : Nat) {change : Process → Process}
    (type : ∀ proc, (change proc).type = proc.type) :
    (setStage job stage change).root.type = job.root.type := by
  have heads : ∀ (list : List Process) (some : list ≠ []) (someToo : list.modify stage change ≠ []),
      ((list.modify stage change).head someToo).type = (list.head some).type := by
    intro list some someToo
    cases list with
    | nil => exact absurd rfl some
    | cons proc next =>
        cases stage with
        | zero => exact type proc
        | succ stage => rfl
  exact heads job.processes job.rooted (setStage job stage change).rooted

end UtSystems.Yash.Relabeling

import UtSystems.Yash.Relabeling

/-!
# Accesses to the job table

`init` sets the slots from 0 to 19, the functions on the table use those from 1 to 20.
`command_jobs` reads slot 0, a scan that finds nothing reads slot 20, and ids below 1 are used as
indexes where a command is launched that was not put in the table.
-/

namespace UtSystems.Yash.JobSlots

open Lib.GuardedRun Yash.JobManager Yash.Commander Yash.Relabeling

set_option autoImplicit false

/-- Every index is that of an initialised slot, and every job that is passed is in its slot. -/
def Safe (s : Shell) (u : Use Shell) : Prop :=
  (∀ i ∈ u.indexes, 1 ≤ i ∧ i ≤ nrJobs ∧ s.initialised i = true) ∧
    ∀ entry ∈ u.passed, entry.2 = some entry.1 ∧ ∃ job, s.jobs entry.1 = some job

def launchOf : Pc → Option Launch
  | .stage launch => some launch
  | .waiting launch _ _ _ => some launch
  | .waited launch _ _ _ => some launch
  | .ended launch _ => some launch
  | _ => none

/-- The jobs in the table have the ids of their slots, and a job that was put there to be launched
is still there. -/
structure InSlots (s : Shell) : Prop where
  ids : ∀ i job, s.jobs i = some job → 1 ≤ i ∧ i ≤ nrJobs ∧ job.id = i
  launched : ∀ launch id, launchOf s.pc = some launch → launch.slot = some id →
    ∃ job, s.jobs id = some job

/-! ## The condition -/

/-- A process with this pid is in the table, not in slot 20. -/
def Listed (t : Table) (pid : Int) : Prop :=
  0 < (getJobIdByPid t pid).value ∧ (getJobIdByPid t pid).value < nrJobs

/-- A slot is free, not only slot 20. -/
def Room (t : Table) : Prop := 0 < (getNextJobId t).value ∧ (getNextJobId t).value < nrJobs

/-- The last job of its job that is not done. -/
def Completes (t : Table) (pid : Int) (event : Event) : Prop :=
  (isJobCompleted (noteEvent t pid event).value (getJobIdByPid t pid).value).value = true

/-- `fg` and `bg` find a last job, `jobs` is not used. -/
def CarefulCommand (t : Table) (proc : Process) : Prop :=
  proc.type ≠ .jobs ∧ (proc.argc = 1 → 1 < (getNextJobId t).value ∧ Room t)

def Careful (s : Shell) : Action → Prop
  | .check pid => Listed s.jobs pid ∧
      match (s.state pid).report true with
      | none => True
      | some event => Completes s.jobs pid event → Room s.jobs
  | .checked =>
      match s.pc with
      | .checking (some job) => job.root.type = .external → Room s.jobs
      | _ => True
  | .openFails =>
      match s.pc with
      | .stage launch => launch.slot ≠ none
      | _ => True
  | .custom _ =>
      match s.pc with
      | .stage launch =>
          match (s.job launch).bind fun job => job.processes[launch.stage]? with
          | none => True
          | some proc => CarefulCommand s.jobs proc
      | _ => True
  | .fork _ =>
      match s.pc with
      | .stage launch =>
          match s.job launch with
          | none => True
          | some job => launch.slot = none → launch.stage + 1 = job.processes.length →
              job.mode ≠ .foreground
      | _ => True
  | .report pid => Listed s.jobs pid ∧
      match s.pc with
      | .waiting _ _ _ wait => (s.state pid).report false = some .stopped →
          wait.waitCount + 1 = wait.procCount → Room s.jobs
      | _ => True
  | .noChild => Listed s.jobs (-1) ∧
      match s.pc with
      | .waiting _ _ _ wait => wait.status = .stopped →
          wait.waitCount + 1 = wait.procCount → Room s.jobs
      | _ => True
  | .advance =>
      match s.pc with
      | .waited launch .commandFg id status => status ≠ .stopped → launch.slot ≠ some id
      | _ => True
  | _ => True

/-! ## What the functions use -/

/-- Only slots from 1 to 19, and only jobs in their slots. -/
def Tidy {Result : Type} (jobs : Table) (u : Use Result) : Prop :=
  (∀ i ∈ u.indexes, 1 ≤ i ∧ i < nrJobs) ∧
    ∀ entry ∈ u.passed, entry.2 = some entry.1 ∧ ∃ job, jobs entry.1 = some job

section
variable {Result Next : Type} {jobs : Table}

theorem tidy_pure (result : Result) : Tidy jobs (pure result : Use Result) := by
  simp [Tidy]

theorem tidy_bind {first : Use Result} {next : Result → Use Next} (tidy : Tidy jobs first)
    (tidyNext : Tidy jobs (next first.value)) : Tidy jobs (first >>= next) := by
  constructor
  · intro i member
    rw [bind_indexes, List.mem_append] at member
    cases member with
    | inl early => exact tidy.1 i early
    | inr late => exact tidyNext.1 i late
  · intro entry member
    rw [bind_passed, List.mem_append] at member
    cases member with
    | inl early => exact tidy.2 entry early
    | inr late => exact tidyNext.2 entry late

theorem tidy_access {id : Int} (low : 1 ≤ id) (high : id < nrJobs) :
    Tidy jobs (Use.access id) := by
  simp [Tidy, low, high]

theorem tidy_pass {id : Int} {job : Job} (there : jobs id = some job) :
    Tidy jobs (Use.pass id (some id)) := by
  simp [Tidy, there]

theorem tidy_scan {t : Table} {found : Option Job → Bool} {i : Int}
    (hit : (scan t found).value = some i) (high : i < nrJobs) : Tidy jobs (scan t found) := by
  constructor
  · intro j member
    have bounds := scan_indexes hit j member
    omega
  · intro entry member
    unfold scan at member
    rw [scan_from_passed] at member
    cases member

theorem tidy_get_job (t : Table) {id : Int} (low : 1 ≤ id) (high : id < nrJobs) :
    Tidy jobs (getJobById t id) := by
  unfold getJobById readSlot
  split
  · exact tidy_pure none
  · exact tidy_bind (tidy_access low high) (tidy_pure _)

/-- What begins with the test for a job in its slot. -/
theorem tidy_with_job (t : Table) {id : Int} {next : Option Job → Use Result} (low : 1 ≤ id)
    (high : id < nrJobs) (none : Tidy jobs (next none)) (some : ∀ job, Tidy jobs (next (some job))) :
    Tidy jobs (getJobById t id >>= next) := by
  apply tidy_bind (tidy_get_job t low high)
  cases (getJobById t id).value with
  | none => exact none
  | some job => exact some job

theorem listed_scan {t : Table} {pid : Int} (listed : Listed t pid) :
    ∃ i, (scan t (hasPid pid)).value = some i ∧ i < nrJobs ∧ (getJobIdByPid t pid).value = i := by
  unfold Listed at listed
  cases hit : (scan t (hasPid pid)).value with
  | none =>
      simp [getJobIdByPid, hit] at listed
  | some i =>
      have value : (getJobIdByPid t pid).value = i := by simp [getJobIdByPid, hit]
      rw [value] at listed
      exact ⟨i, rfl, listed.2, value⟩

theorem room_scan {t : Table} (room : Room t) :
    ∃ i, (scan t Option.isNone).value = some i ∧ i < nrJobs ∧ (getNextJobId t).value = i := by
  unfold Room at room
  cases hit : (scan t Option.isNone).value with
  | none =>
      simp [getNextJobId, hit] at room
  | some i =>
      have value : (getNextJobId t).value = i := by simp [getNextJobId, hit]
      rw [value] at room
      exact ⟨i, rfl, room.2, value⟩

/-- What begins with a scan that finds a slot. -/
theorem tidy_found {t : Table} {found : Option Job → Bool} {i : Int}
    {next : Option Int → Use Result} (hit : (scan t found).value = some i) (high : i < nrJobs)
    (tidy : Tidy jobs (next (some i))) : Tidy jobs (scan t found >>= next) := by
  apply tidy_bind (tidy_scan hit high)
  rw [hit]
  exact tidy

theorem tidy_set_process_status {t : Table} {pid : Int} (listed : Listed t pid) (status : Status) :
    Tidy jobs (setProcessStatus t pid status) := by
  obtain ⟨i, hit, high, _⟩ := listed_scan listed
  exact tidy_found hit high (tidy_pure _)

theorem tidy_job_id {t : Table} {pid : Int} (listed : Listed t pid) :
    Tidy jobs (getJobIdByPid t pid) := by
  obtain ⟨i, hit, high, _⟩ := listed_scan listed
  exact tidy_found hit high (tidy_pure _)

theorem tidy_last_job {t : Table} (room : Room t) : Tidy jobs (getLastJobId t) := by
  obtain ⟨i, hit, high, _⟩ := room_scan room
  exact tidy_found hit high (tidy_pure _)

theorem tidy_insert_job {t : Table} (room : Room t) (job : Job) :
    Tidy jobs (insertJob t job) := by
  obtain ⟨i, hit, high, value⟩ := room_scan room
  obtain ⟨low, _⟩ := scan_some hit
  have next : Tidy jobs (getNextJobId t) := tidy_found hit high (tidy_pure _)
  apply tidy_bind next
  rw [value]
  split
  · exact tidy_pure _
  · exact tidy_bind (tidy_access low high) (tidy_pure _)

theorem tidy_print_status {t : Table} {id : Int} (low : 1 ≤ id) (high : id < nrJobs)
    (room : Room t) (printOptions : PrintOptions) :
    Tidy jobs (printJobStatus t id printOptions) := by
  apply tidy_with_job t low high
  · exact tidy_pure _
  · intro _
    exact tidy_bind (tidy_last_job room) (tidy_pure _)

theorem tidy_remove_job (t : Table) {id : Int} (low : 1 ≤ id) (high : id < nrJobs) :
    Tidy jobs (removeJob t id) := by
  exact tidy_with_job t low high (tidy_pure _) fun _ => tidy_pure _

theorem tidy_set_job_status (t : Table) {id : Int} (low : 1 ≤ id) (high : id < nrJobs)
    (status : Status) : Tidy jobs (setJobStatus t id status) := by
  exact tidy_with_job t low high (tidy_pure _) fun _ => tidy_pure _

theorem tidy_proc_count (t : Table) {id : Int} (low : 1 ≤ id) (high : id < nrJobs)
    (filter : ProcFilter) : Tidy jobs (getProcCount t id filter) := by
  exact tidy_with_job t low high (tidy_pure _) fun _ => tidy_pure _

theorem tidy_print_processes (t : Table) {id : Int} (low : 1 ≤ id) (high : id < nrJobs) :
    Tidy jobs (printProcessesOfJob t id) := by
  exact tidy_with_job t low high (tidy_pure _) fun _ => tidy_pure _

theorem tidy_completed (t : Table) {id : Int} (low : 1 ≤ id) (high : id < nrJobs) :
    Tidy jobs (isJobCompleted t id) := by
  exact tidy_with_job t low high (tidy_pure _) fun _ => tidy_pure _

end

/-! ## Changes of statuses -/

section
variable {ends : Int → Prop} {t now : Table}

theorem listed_same {pid : Int} (shrinks : Shrinks ends t now) (keeps : Keeps t now)
    (listed : Listed t pid) : Listed now pid := by
  unfold Listed getJobIdByPid at listed ⊢
  rw [bind_value, scan_same (has_pid_same pid shrinks keeps)]
  exact listed

theorem room_same (shrinks : Shrinks ends t now) (keeps : Keeps t now) (room : Room t) :
    Room now := by
  unfold Room getNextJobId at room ⊢
  rw [bind_value, scan_same (is_none_same shrinks keeps)]
  exact room

theorem job_id_same (pid : Int) (shrinks : Shrinks ends t now) (keeps : Keeps t now) :
    (getJobIdByPid now pid).value = (getJobIdByPid t pid).value := by
  unfold getJobIdByPid
  rw [bind_value, bind_value, scan_same (has_pid_same pid shrinks keeps)]

end

theorem tidy_check_job {t : Table} {pid : Int} {event : Event} (listed : Listed t pid)
    (room : Completes t pid event → Room t) : Tidy t (checkJob t pid event) := by
  have shrinks : Shrinks (fun _ => True) t (noteEvent t pid event).value :=
    note_event_shrinks t fun _ => trivial
  have keeps := note_event_keeps t pid event
  have noted : Tidy t (noteEvent t pid event) := by
    cases event with
    | signaled => exact tidy_pure t
    | _ => exact tidy_set_process_status listed _
  obtain ⟨i, hit, high, value⟩ := listed_scan listed
  obtain ⟨low, _, found, _⟩ := scan_some hit
  apply tidy_bind noted
  apply tidy_bind (tidy_job_id (listed_same shrinks keeps listed))
  have id : (getJobIdByPid (noteEvent t pid event).value pid).value = i := by
    rw [job_id_same pid shrinks keeps, value]
  rw [id]
  split
  · apply tidy_bind (tidy_completed _ low high)
    split
    · next completed =>
      have free : Room t := by
        apply room
        unfold Completes
        rw [value]
        exact completed
      cases there : t i with
      | none =>
          rw [there] at found
          cases found
      | some job =>
          apply tidy_bind (tidy_print_status low high (room_same shrinks keeps free) _)
          apply tidy_bind (tidy_pass there)
          exact tidy_bind (tidy_remove_job _ low high) (tidy_pure _)
    · exact tidy_pure _
  · exact tidy_pure _

/-! ## The invariant -/

/-- A job is in the table while it is launched unless it begins with a built-in command. -/
def Placed (jobs : Table) (loose : Option Job) (launch : Launch) : Prop :=
  match launch.slot with
  | some id => ∃ job, jobs id = some job ∧ job.root.type = .external
  | none => ∃ job, loose = some job ∧ job.root.type ≠ .external

/-- The job of `wait_for_job`. -/
def Waited (jobs : Table) (launch : Launch) (caller : Caller) (id : Int) : Prop :=
  (∃ job, jobs id = some job) ∧ (caller = .launchCommandHelper → launch.slot = some id)

def GoodPc (jobs : Table) (loose : Option Job) : Pc → Prop
  | .head => True
  | .checking _ => True
  | .stage launch => Placed jobs loose launch
  | .waiting launch caller id _ => Placed jobs loose launch ∧ Waited jobs launch caller id
  | .waited launch caller id _ => Placed jobs loose launch ∧ Waited jobs launch caller id
  | .ended launch _ => Placed jobs loose launch

def GoodSlots (jobs : Table) : Prop :=
  ∀ i job, jobs i = some job → 1 ≤ i ∧ i < nrJobs ∧ job.id = i

structure Good (s : Shell) : Prop where
  slots : GoodSlots s.jobs
  ready : ∀ i : Int, 1 ≤ i → i < nrJobs → s.initialised i = true
  pc : GoodPc s.jobs s.loose s.pc

theorem start_good : Good Shell.start where
  slots := fun _ _ there => nomatch there
  ready := by
    intro i low high
    have positive : 0 ≤ i := by omega
    simp [Shell.start, positive, high]
  pc := trivial

section
variable {ends : Int → Prop} {t now : Table}

theorem slots_shrink (good : GoodSlots t) (shrinks : Shrinks ends t now) : GoodSlots now := by
  intro i job there
  obtain ⟨before, thereBefore, relabels⟩ := shrinks i job there
  obtain ⟨low, high, id⟩ := good i before thereBefore
  exact ⟨low, high, relabels.id.trans id⟩

theorem placed_same {loose : Option Job} {launch : Launch} (placed : Placed t loose launch)
    (shrinks : Shrinks ends t now) (keeps : Keeps t now) : Placed now loose launch := by
  unfold Placed at placed ⊢
  split
  · next id slot =>
    rw [slot] at placed
    obtain ⟨before, thereBefore, external⟩ := placed
    cases there : now id with
    | none =>
        rw [keeps id there] at thereBefore
        cases thereBefore
    | some job =>
        obtain ⟨first, thereFirst, relabels⟩ := shrinks id job there
        cases thereFirst.symm.trans thereBefore
        exact ⟨job, rfl, (relabels_root relabels).trans external⟩
  · next slot =>
    rw [slot] at placed
    exact placed

theorem occupied_keeps (keeps : Keeps t now) {id : Int} (there : ∃ job, t id = some job) :
    ∃ job, now id = some job := by
  obtain ⟨before, thereBefore⟩ := there
  cases found : now id with
  | none =>
      rw [keeps id found] at thereBefore
      cases thereBefore
  | some job => exact ⟨job, rfl⟩

end

theorem tidy_mono {Result : Type} {jobs other : Table} {u : Use Result}
    (more : ∀ id, (∃ job, other id = some job) → ∃ job, jobs id = some job)
    (tidy : Tidy other u) : Tidy jobs u := by
  refine ⟨tidy.1, ?_⟩
  intro entry member
  obtain ⟨slot, there⟩ := tidy.2 entry member
  exact ⟨slot, more entry.1 there⟩

/-! ## Steps -/

theorem wait_for_job_good {s : Shell} {launch : Launch} {caller : Caller} {id : Int}
    (slots : GoodSlots s.jobs) (ready : ∀ i : Int, 1 ≤ i → i < nrJobs → s.initialised i = true)
    (placed : Placed s.jobs s.loose launch) (waited : Waited s.jobs launch caller id) :
    Tidy s.jobs (waitForJob s launch caller id) ∧ Good (waitForJob s launch caller id).value := by
  constructor
  · obtain ⟨job, there⟩ := waited.1
    obtain ⟨low, high, _⟩ := slots id job there
    apply tidy_bind (tidy_get_job _ low high)
    split
    · exact tidy_pure _
    · exact tidy_bind (tidy_proc_count _ low high _) (tidy_pure _)
  · cases wait_for_job_value s launch caller id with
    | inl returns =>
        rw [returns]
        exact { slots := slots, ready := ready, pc := ⟨placed, waited⟩ }
    | inr loops =>
        obtain ⟨job, _, value⟩ := loops
        rw [value]
        exact { slots := slots, ready := ready, pc := ⟨placed, waited⟩ }

theorem wait_turn_good {s : Shell} {launch : Launch} {caller : Caller} {id : Int} {wait : Wait}
    {pid : Int} {event : Event} (good : Good s) (placed : Placed s.jobs s.loose launch)
    (waited : Waited s.jobs launch caller id) (listed : Listed s.jobs pid)
    (room : event = .stopped → wait.waitCount + 1 = wait.procCount → Room s.jobs) :
    Tidy s.jobs (waitTurn s launch caller id wait pid event) ∧
      Good (waitTurn s launch caller id wait pid event).value := by
  have shrinks : Shrinks (fun _ => True) s.jobs (noteWaited s.jobs pid event).value :=
    note_waited_shrinks s.jobs fun _ => trivial
  have keeps := note_waited_keeps s.jobs pid event
  constructor
  · obtain ⟨job, there⟩ := waited.1
    obtain ⟨low, high, _⟩ := good.slots id job there
    have noted : Tidy s.jobs (noteWaited s.jobs pid event) := by
      cases event with
      | _ => exact tidy_set_process_status listed _
    apply tidy_bind noted
    have printed : Tidy s.jobs (if event = .stopped ∧ wait.waitCount + 1 = wait.procCount then
        printJobStatus (noteWaited s.jobs pid event).value id .completedJobs else pure []) := by
      split
      · next last =>
        exact tidy_print_status low high (room_same shrinks keeps (room last.1 last.2)) _
      · exact tidy_pure _
    exact tidy_bind printed (tidy_pure _)
  · rw [wait_turn_value]
    have placedNow := placed_same placed shrinks keeps
    have waitedNow : Waited (noteWaited s.jobs pid event).value launch caller id :=
      ⟨occupied_keeps keeps waited.1, waited.2⟩
    exact {
      slots := slots_shrink good.slots shrinks
      ready := good.ready
      pc := by
        change GoodPc _ _ (afterTurn launch caller id wait event)
        unfold afterTurn
        split
        · exact ⟨placedNow, waitedNow⟩
        · exact ⟨placedNow, waitedNow⟩ }

theorem after_stage_good {jobs : Table} {loose : Option Job} {launch : Launch}
    (placed : Placed jobs loose launch) (job : Job) (status : Event) :
    GoodPc jobs loose (afterStage launch job status) := by
  unfold afterStage
  split
  · exact placed
  · exact placed

/-- A job that is launched keeps its slot and its first process. -/
theorem put_job_good {s : Shell} {launch : Launch} {job now : Job} (good : Good s)
    (placed : Placed s.jobs s.loose launch) (there : s.job launch = some job)
    (id : now.id = job.id) (root : now.root.type = job.root.type) :
    GoodSlots (s.putJob launch now).jobs ∧
      Placed (s.putJob launch now).jobs (s.putJob launch now).loose launch ∧
      ∀ i, (∃ job, (s.putJob launch now).jobs i = some job) → ∃ job, s.jobs i = some job := by
  unfold Shell.job at there
  unfold Placed at placed ⊢
  unfold Shell.putJob
  cases slot : launch.slot with
  | none =>
      rw [slot] at there placed
      obtain ⟨before, isLoose, custom⟩ := placed
      cases isLoose.symm.trans there
      exact ⟨good.slots, ⟨now, rfl, root ▸ custom⟩, fun _ found => found⟩
  | some k =>
      rw [slot] at there placed
      obtain ⟨before, inTable, external⟩ := placed
      cases inTable.symm.trans there
      refine ⟨?_, ⟨now, Function.update_self _ _ _, root.trans external⟩, ?_⟩
      · intro i other found
        by_cases same : i = k
        · subst same
          simp only [Function.update_self] at found
          cases found
          obtain ⟨low, high, named⟩ := good.slots i job there
          exact ⟨low, high, id.trans named⟩
        · simp only [Function.update_of_ne same] at found
          exact good.slots i other found
      · intro i found
        by_cases same : i = k
        · exact ⟨job, same ▸ there⟩
        · simp only [Function.update_of_ne same] at found
          exact found

theorem last_job_id {t : Table} (room : Room t) :
    (getLastJobId t).value = (getNextJobId t).value - 1 := by
  obtain ⟨i, hit, _⟩ := room_scan room
  simp [getLastJobId, getNextJobId, hit]

theorem continue_last_job_tidy {s : Shell} {jobs : Table} {argc : Nat} (sent : Bool)
    (printOptions : PrintOptions)
    (careful : argc = 1 → 1 < (getNextJobId s.jobs).value ∧ Room s.jobs) :
    Tidy jobs (continueLastJob s argc sent printOptions) := by
  unfold continueLastJob
  split
  · exact tidy_pure _
  · next one =>
    obtain ⟨second, room⟩ := careful (Decidable.not_not.mp one)
    have last := last_job_id room
    have low : 1 ≤ (getLastJobId s.jobs).value := by omega
    have high : (getLastJobId s.jobs).value < nrJobs := by
      have bound := room.2
      omega
    have group : Tidy jobs (getPgidByJobId s.jobs (getLastJobId s.jobs).value) := by
      apply tidy_bind (tidy_get_job _ low high)
      split
      · exact tidy_pure _
      · exact tidy_pure _
    apply tidy_bind (tidy_last_job room)
    apply tidy_bind group
    split
    · exact tidy_pure _
    · apply tidy_bind (tidy_set_job_status _ low high _)
      have shrinks : Shrinks (fun _ => True) s.jobs
          (setJobStatus s.jobs (getLastJobId s.jobs).value .continued).value :=
        set_job_status_shrinks s.jobs _ fun isDone => nomatch isDone
      have free := room_same shrinks (set_job_status_keeps _ _ _) room
      exact tidy_bind (tidy_print_status low high free _) (tidy_pure _)

theorem custom_good {s : Shell} {launch : Launch} {job : Job} {proc : Process} {sent : Bool}
    (slots : GoodSlots s.jobs) (ready : ∀ i : Int, 1 ≤ i → i < nrJobs → s.initialised i = true)
    (placed : Placed s.jobs s.loose launch) (custom : proc.type ≠ .external)
    (careful : CarefulCommand s.jobs proc) :
    Tidy s.jobs (launchCustomCommand s launch job proc sent) ∧
      Good (launchCustomCommand s launch job proc sent).value := by
  have idle : Good { s with pc := afterStage launch job .exited } := {
    slots := slots
    ready := ready
    pc := after_stage_good placed job .exited }
  have changed : ∀ id, Shrinks (fun _ => True) s.jobs (setJobStatus s.jobs id .continued).value ∧
      Keeps s.jobs (setJobStatus s.jobs id .continued).value := by
    intro id
    constructor
    · exact set_job_status_shrinks s.jobs id fun isDone => nomatch isDone
    · exact set_job_status_keeps s.jobs id .continued
  unfold launchCustomCommand
  cases type : proc.type with
  | external => exact absurd type custom
  | jobs => exact absurd type careful.1
  | bg =>
      have tidy := @continue_last_job_tidy s s.jobs proc.argc sent .commandBg careful.2
      refine ⟨tidy_bind tidy (tidy_pure _), ?_⟩
      simp only [bind_value, pure_value]
      cases continue_last_job_value s proc.argc sent .commandBg with
      | inl nothing =>
          rw [nothing]
          exact idle
      | inr found =>
          obtain ⟨id, last, _, _, _, value⟩ := found
          obtain ⟨shrinks, keeps⟩ := changed id
          rw [value]
          exact {
            slots := slots_shrink slots shrinks
            ready := ready
            pc := after_stage_good (placed_same placed shrinks keeps) job .exited }
  | fg =>
      have tidy := @continue_last_job_tidy s s.jobs proc.argc sent .commandFg careful.2
      dsimp only
      cases continue_last_job_value s proc.argc sent .commandFg with
      | inl nothing =>
          simp only [bind_value, nothing]
          refine ⟨tidy_bind tidy ?_, idle⟩
          rw [nothing]
          exact tidy_pure _
      | inr found =>
          obtain ⟨id, last, _, _, there, value⟩ := found
          obtain ⟨shrinks, keeps⟩ := changed id
          have waited : Waited (setJobStatus s.jobs id .continued).value launch .commandFg id :=
            ⟨occupied_keeps keeps ⟨last, there⟩, fun helper => nomatch helper⟩
          obtain ⟨tidyWait, goodWait⟩ := @wait_for_job_good
            { s.sigcont last.pgid with jobs := (setJobStatus s.jobs id .continued).value } launch
            .commandFg id (slots_shrink slots shrinks) ready (placed_same placed shrinks keeps)
            waited
          simp only [bind_value, value]
          refine ⟨tidy_bind tidy ?_, goodWait⟩
          rw [value]
          apply tidy_bind (tidy_pass there)
          apply tidy_mono _ tidyWait
          intro i found
          obtain ⟨now, thereNow⟩ := found
          obtain ⟨before, thereBefore, _⟩ := shrinks i now thereNow
          exact ⟨before, thereBefore⟩

theorem finish_good {s : Shell} {launch : Launch} {job : Job} (good : Good s)
    (placed : Placed s.jobs s.loose launch) (there : s.job launch = some job) (status : Event) :
    Tidy s.jobs (finish s launch job status) ∧ Good (finish s launch job status).value := by
  have idle : Good { s with pc := .head } := {
    slots := good.slots
    ready := good.ready
    pc := trivial }
  unfold Placed at placed
  unfold Shell.job at there
  unfold finish Launch.jobId
  split
  · next external =>
    cases slot : launch.slot with
    | none =>
        rw [slot] at placed there
        obtain ⟨before, isLoose, custom⟩ := placed
        cases isLoose.symm.trans there
        exact absurd external custom
    | some id =>
        rw [slot] at there
        obtain ⟨low, high, _⟩ := good.slots id job there
        split
        · refine ⟨tidy_bind (tidy_pass there) (tidy_bind (tidy_remove_job _ low high) (tidy_pure _)),
            ?_⟩
          exact {
            slots := slots_shrink good.slots (@remove_job_shrinks (fun _ => True) _ _)
            ready := good.ready
            pc := trivial }
        · split
          · refine ⟨tidy_bind (tidy_pass there) (tidy_bind (tidy_print_processes _ low high)
              (tidy_pure _)), idle⟩
          · exact ⟨tidy_pure _, idle⟩
  · exact ⟨tidy_pure _, idle⟩

theorem start_launch_good {s : Shell} {job : Job} (good : Good s)
    (room : job.root.type = .external → Room s.jobs) :
    Tidy s.jobs (startLaunch s job) ∧ Good (startLaunch s job).value := by
  unfold startLaunch
  split
  · next external =>
    have free := room external
    obtain ⟨i, hit, high, value⟩ := room_scan free
    obtain ⟨low, _⟩ := scan_some hit
    have inserted : (insertJob s.jobs job).value =
        (i, Function.update s.jobs i (some { job with id := i })) := by
      have notNegative : ¬ i < 0 := by omega
      simp [insertJob, value, notNegative]
    refine ⟨tidy_bind (tidy_insert_job free job) ?_, ?_⟩
    · rw [inserted]
      dsimp only
      split
      · exact tidy_pure _
      · exact tidy_pure _
    · have notNegative : ¬ i < 0 := by omega
      simp only [bind_value, inserted, if_neg notNegative, pure_value]
      exact {
        slots := by
          intro k other found
          by_cases same : k = i
          · subst same
            simp only [Function.update_self] at found
            cases found
            exact ⟨low, high, rfl⟩
          · simp only [Function.update_of_ne same] at found
            exact good.slots k other found
        ready := by
          intro k lowK highK
          by_cases same : k = i
          · simp [same]
          · simp only [Function.update_of_ne same]
            exact good.ready k lowK highK
        pc := ⟨{ job with id := i }, Function.update_self _ _ _, external⟩ }
  · next custom =>
    refine ⟨tidy_pure _, ?_⟩
    exact {
      slots := good.slots
      ready := good.ready
      pc := ⟨job, rfl, custom⟩ }

theorem fork_good {s : Shell} {launch : Launch} {job : Job} {pid : Int} (good : Good s)
    (placed : Placed s.jobs s.loose launch) (there : s.job launch = some job)
    (careful : launch.slot = none → launch.stage + 1 = job.processes.length →
      job.mode ≠ .foreground) :
    Tidy s.jobs (forked s launch job pid) ∧ Good (forked s launch job pid).value := by
  have root : (launched s launch job pid).2.root.type = job.root.type :=
    set_stage_root job launch.stage fun _ => rfl
  obtain ⟨slots, placedNow, occupied⟩ :=
    @put_job_good s launch job (launched s launch job pid).2 good placed there rfl root
  have ready : ∀ i : Int, 1 ≤ i → i < nrJobs →
      (launched s launch job pid).1.initialised i = true := by
    intro i low high
    change (s.putJob launch _).initialised i = true
    rw [put_job_initialised]
    exact good.ready i low high
  unfold forked
  split
  · next last =>
    cases slot : launch.slot with
    | none => exact absurd last.2 (careful slot last.1)
    | some id =>
        have inSlot : s.jobs id = some job := by
          unfold Shell.job at there
          rw [slot] at there
          exact there
        have named : job.id = id := (good.slots id job inSlot).2.2
        have again := job_put s launch (launched s launch job pid).2
        unfold Shell.job at again
        rw [slot] at again
        have waited : Waited (s.putJob launch (launched s launch job pid).2).jobs launch
            .launchCommandHelper id := ⟨⟨_, again⟩, fun _ => slot⟩
        obtain ⟨tidyWait, goodWait⟩ := @wait_for_job_good (launched s launch job pid).1 launch
          .launchCommandHelper id slots ready placedNow waited
        rw [named]
        exact ⟨tidy_bind (tidy_pass inSlot) (tidy_mono occupied tidyWait), goodWait⟩
  · refine ⟨tidy_pure _, ?_⟩
    exact {
      slots := slots
      ready := ready
      pc := after_stage_good placedNow _ _ }

theorem stage_step_good {s : Shell} {launch : Launch} {job : Job} {proc : Process}
    {action : Action} {u : Use Shell} (good : Good s) (careful : Careful s action)
    (at_pc : s.pc = .stage launch) (there : s.job launch = some job)
    (current : job.processes[launch.stage]? = some proc)
    (taken : stageStep s launch job proc action = some u) : Tidy s.jobs u ∧ Good u.value := by
  have placed : Placed s.jobs s.loose launch := by
    have pc := good.pc
    rw [at_pc] at pc
    exact pc
  have relabels : Relabels (fun _ => True) job
      (setStage job launch.stage fun proc => { proc with status := .running }) :=
    set_stage_relabels job launch.stage
  obtain ⟨shrinks, keeps⟩ := put_job_shrinks there relabels
  obtain ⟨slots, placedNow, occupied⟩ :=
    @put_job_good s launch job _ good placed there relabels.id (relabels_root relabels)
  have ready : ∀ i : Int, 1 ≤ i → i < nrJobs → (s.putJob launch
      (setStage job launch.stage fun proc => { proc with status := .running })).initialised i =
        true := by
    rw [put_job_initialised]
    exact good.ready
  cases action with
  | openFails =>
      simp only [stageStep] at taken
      obtain ⟨_, result⟩ := Option.ite_none_right_eq_some.mp taken
      cases result
      simp only [Careful, at_pc] at careful
      unfold Shell.job at there
      unfold Launch.jobId
      cases slot : launch.slot with
      | none => exact absurd slot careful
      | some id =>
          rw [slot] at there
          obtain ⟨low, high, _⟩ := good.slots id job there
          refine ⟨tidy_bind (tidy_pass there)
            (tidy_bind (tidy_remove_job _ low high) (tidy_pure _)), ?_⟩
          exact {
            slots := slots_shrink good.slots (@remove_job_shrinks (fun _ => True) _ _)
            ready := good.ready
            pc := trivial }
  | custom sent =>
      simp only [stageStep] at taken
      obtain ⟨custom, result⟩ := Option.ite_none_right_eq_some.mp taken
      cases result
      simp only [Careful, at_pc, there, Option.bind_some, current] at careful
      have carefulNow : CarefulCommand (s.putJob launch
          (setStage job launch.stage fun proc => { proc with status := .running })).jobs proc := by
        refine ⟨careful.1, ?_⟩
        intro one
        obtain ⟨second, room⟩ := careful.2 one
        refine ⟨?_, room_same shrinks keeps room⟩
        unfold getNextJobId at second ⊢
        rw [bind_value, scan_same (is_none_same shrinks keeps)]
        exact second
      obtain ⟨tidy, goodNow⟩ := custom_good slots ready placedNow custom carefulNow
      exact ⟨tidy_mono occupied tidy, goodNow⟩
  | fork pid =>
      simp only [stageStep] at taken
      obtain ⟨_, result⟩ := Option.ite_none_right_eq_some.mp taken
      cases result
      simp only [Careful, at_pc, there] at careful
      exact fork_good good placed there careful
  | forkFails =>
      simp only [stageStep] at taken
      obtain ⟨_, result⟩ := Option.ite_none_right_eq_some.mp taken
      cases result
      refine ⟨tidy_pure _, ?_⟩
      exact {
        slots := slots
        ready := ready
        pc := after_stage_good placedNow _ .stopped }
  | _ => cases taken

/-- `command_fg` takes another job out of the table than the one that is launched. -/
theorem placed_removed {t : Table} {loose : Option Job} {launch : Launch} {id : Int} {job : Job}
    (placed : Placed t loose launch) (apart : launch.slot ≠ some id) (there : t id = some job)
    (high : id < nrJobs) : Placed (removeJob t id).value loose launch := by
  have inside : ¬ (nrJobs : Int) < id := by omega
  have removed : (removeJob t id).value = Function.update t id none := by
    simp [removeJob, getJobById, readSlot, inside, there]
  rw [removed]
  unfold Placed at placed ⊢
  cases slot : launch.slot with
  | none =>
      rw [slot] at placed
      exact placed
  | some k =>
      rw [slot] at placed apart
      have other : k ≠ id := fun same => apart (congrArg some same)
      simp only [Function.update_of_ne other]
      exact placed

theorem attempt_good {s : Shell} {action : Action} {u : Use Shell} (good : Good s)
    (careful : Careful s action) (taken : attempt s action = some u) :
    Tidy s.jobs u ∧ Good u.value := by
  have pc := good.pc
  cases attempt_cases taken with
  | child state =>
      exact ⟨tidy_pure _, { slots := good.slots, ready := good.ready, pc := good.pc }⟩
  | line => exact ⟨tidy_pure _, { slots := good.slots, ready := good.ready, pc := trivial }⟩
  | @check pid job event at_pc reported =>
      simp only [Careful, reported] at careful
      refine ⟨tidy_bind (tidy_check_job careful.1 careful.2) (tidy_pure _), ?_⟩
      have shrinks : Shrinks (fun _ => True) s.jobs (checkJob s.jobs pid event).value.1 :=
        check_job_shrinks s.jobs fun _ => trivial
      exact {
        slots := slots_shrink good.slots shrinks
        ready := by
          simp only [bind_value, pure_value, reported_initialised]
          exact good.ready
        pc := by
          simp only [bind_value, pure_value, reported_pc, at_pc]
          trivial }
  | idle => exact ⟨tidy_pure _, { slots := good.slots, ready := good.ready, pc := trivial }⟩
  | launch at_pc =>
      simp only [Careful, at_pc] at careful
      exact start_launch_good good careful
  | stage at_pc there current stage =>
      exact stage_step_good good careful at_pc there current stage
  | @report launch caller id pid wait job event at_pc there _ reported =>
      simp only [Careful, at_pc, reported] at careful
      rw [at_pc] at pc
      obtain ⟨low, high, _⟩ := good.slots id job there
      have goodNow : Good (s.reported pid event) := {
        slots := by
          rw [reported_jobs]
          exact good.slots
        ready := by
          rw [reported_initialised]
          exact good.ready
        pc := by
          rw [reported_jobs, reported_loose, reported_pc]
          exact good.pc }
      have turn := @wait_turn_good (s.reported pid event) launch caller id wait pid event goodNow
      rw [reported_jobs, reported_loose] at turn
      obtain ⟨tidy, goodNext⟩ := turn pc.1 pc.2 careful.1 fun stopped =>
        careful.2 (congrArg some stopped)
      exact ⟨tidy_bind (tidy_access low high) tidy, goodNext⟩
  | @noChild launch caller id wait job at_pc there _ =>
      simp only [Careful, at_pc] at careful
      rw [at_pc] at pc
      obtain ⟨low, high, _⟩ := good.slots id job there
      obtain ⟨tidy, goodNext⟩ := wait_turn_good good pc.1 pc.2 careful.1 careful.2
      exact ⟨tidy_bind (tidy_access low high) tidy, goodNext⟩
  | returned at_pc there =>
      rw [at_pc] at pc
      exact finish_good good pc.1 there _
  | kept at_pc =>
      rw [at_pc] at pc
      refine ⟨tidy_pure _, ?_⟩
      exact {
        slots := good.slots
        ready := good.ready
        pc := after_stage_good pc.1 _ .exited }
  | @removed launch id status job at_pc ended =>
      simp only [Careful, at_pc] at careful
      rw [at_pc] at pc
      obtain ⟨waited, inSlot⟩ := pc.2.1
      obtain ⟨low, high, _⟩ := good.slots id waited inSlot
      refine ⟨tidy_bind (tidy_pass inSlot)
        (tidy_bind (tidy_remove_job _ low high) (tidy_pure _)), ?_⟩
      exact {
        slots := slots_shrink good.slots (@remove_job_shrinks (fun _ => True) _ _)
        ready := good.ready
        pc := after_stage_good (placed_removed pc.1 (careful ended) inSlot high) job .exited }
  | ended at_pc there =>
      rw [at_pc] at pc
      exact finish_good good pc there _

theorem good_in_slots {s : Shell} (good : Good s) : InSlots s where
  ids := by
    intro i job there
    obtain ⟨low, high, id⟩ := good.slots i job there
    exact ⟨low, by omega, id⟩
  launched := by
    intro launch id launching slot
    have placed : Placed s.jobs s.loose launch := by
      have pc := good.pc
      cases at_pc : s.pc with
      | head =>
          rw [at_pc] at launching
          cases launching
      | checking job =>
          rw [at_pc] at launching
          cases launching
      | stage other =>
          rw [at_pc] at launching pc
          cases launching
          exact pc
      | waiting other caller id wait =>
          rw [at_pc] at launching pc
          cases launching
          exact pc.1
      | waited other caller id status =>
          rw [at_pc] at launching pc
          cases launching
          exact pc.1
      | ended other status =>
          rw [at_pc] at launching pc
          cases launching
          exact pc
    unfold Placed at placed
    rw [slot] at placed
    obtain ⟨job, there, _⟩ := placed
    exact ⟨job, there⟩

theorem tidy_safe {s : Shell} {u : Use Shell} (good : Good s) (tidy : Tidy s.jobs u) :
    Safe s u := by
  refine ⟨?_, tidy.2⟩
  intro i member
  obtain ⟨low, high⟩ := tidy.1 i member
  exact ⟨low, by omega, good.ready i low high⟩

/-- In a careful run, every access is to an initialised slot and every job passed is in its slot. -/
theorem careful_runs_are_safe {s : Shell} (run : Reaches step Careful Shell.start s) :
    InSlots s ∧ ∀ action u, Careful s action → attempt s action = some u → Safe s u := by
  have good : Good s := by
    apply reaches_invariant Good start_good _ run
    intro state action next good careful taken
    obtain ⟨u, attempted, result⟩ := Option.map_eq_some_iff.mp taken
    cases result
    exact (attempt_good good careful attempted).2
  refine ⟨good_in_slots good, ?_⟩
  intro action u careful attempted
  exact tidy_safe good (attempt_good good careful attempted).1

instance (t : Table) (pid : Int) : Decidable (Listed t pid) := inferInstanceAs (Decidable (_ ∧ _))

instance (t : Table) : Decidable (Room t) := inferInstanceAs (Decidable (_ ∧ _))

instance (t : Table) (pid : Int) (event : Event) : Decidable (Completes t pid event) :=
  inferInstanceAs (Decidable (_ = _))

instance (t : Table) (proc : Process) : Decidable (CarefulCommand t proc) :=
  inferInstanceAs (Decidable (_ ∧ (_ → _ ∧ _)))

instance (s : Shell) (action : Action) : Decidable (Careful s action) :=
  match action with
  | .check pid =>
      match reports : (s.state pid).report true with
      | none => decidable_of_iff (Listed s.jobs pid) (by simp [Careful, reports])
      | some event =>
          decidable_of_iff (Listed s.jobs pid ∧ (Completes s.jobs pid event → Room s.jobs))
            (by simp [Careful, reports])
  | .checked =>
      match at_pc : s.pc with
      | .checking (some job) =>
          decidable_of_iff (job.root.type = .external → Room s.jobs) (by simp [Careful, at_pc])
      | .checking none | .head | .stage _ | .waiting _ _ _ _ | .waited _ _ _ _ | .ended _ _ =>
          isTrue (by simp [Careful, at_pc])
  | .openFails =>
      match at_pc : s.pc with
      | .stage launch => decidable_of_iff (launch.slot ≠ none) (by simp [Careful, at_pc])
      | .checking _ | .head | .waiting _ _ _ _ | .waited _ _ _ _ | .ended _ _ =>
          isTrue (by simp [Careful, at_pc])
  | .custom _ =>
      match at_pc : s.pc with
      | .stage launch =>
          match current : (s.job launch).bind fun job => job.processes[launch.stage]? with
          | none => isTrue (by simp [Careful, at_pc, current])
          | some proc =>
              decidable_of_iff (CarefulCommand s.jobs proc) (by simp [Careful, at_pc, current])
      | .checking _ | .head | .waiting _ _ _ _ | .waited _ _ _ _ | .ended _ _ =>
          isTrue (by simp [Careful, at_pc])
  | .fork _ =>
      match at_pc : s.pc with
      | .stage launch =>
          match there : s.job launch with
          | none => isTrue (by simp [Careful, at_pc, there])
          | some job =>
              decidable_of_iff (launch.slot = none → launch.stage + 1 = job.processes.length →
                job.mode ≠ .foreground) (by simp [Careful, at_pc, there])
      | .checking _ | .head | .waiting _ _ _ _ | .waited _ _ _ _ | .ended _ _ =>
          isTrue (by simp [Careful, at_pc])
  | .report pid =>
      match at_pc : s.pc with
      | .waiting _ _ _ wait =>
          decidable_of_iff (Listed s.jobs pid ∧ ((s.state pid).report false = some .stopped →
            wait.waitCount + 1 = wait.procCount → Room s.jobs)) (by simp [Careful, at_pc])
      | .stage _ | .checking _ | .head | .waited _ _ _ _ | .ended _ _ =>
          decidable_of_iff (Listed s.jobs pid) (by simp [Careful, at_pc])
  | .noChild =>
      match at_pc : s.pc with
      | .waiting _ _ _ wait =>
          decidable_of_iff (Listed s.jobs (-1) ∧ (wait.status = .stopped →
            wait.waitCount + 1 = wait.procCount → Room s.jobs)) (by simp [Careful, at_pc])
      | .stage _ | .checking _ | .head | .waited _ _ _ _ | .ended _ _ =>
          decidable_of_iff (Listed s.jobs (-1)) (by simp [Careful, at_pc])
  | .advance =>
      match at_pc : s.pc with
      | .waited launch .commandFg id status =>
          decidable_of_iff (status ≠ .stopped → launch.slot ≠ some id) (by simp [Careful, at_pc])
      | .waited _ .launchCommandHelper _ _ | .checking _ | .head | .stage _ | .waiting _ _ _ _
      | .ended _ _ => isTrue (by simp [Careful, at_pc])
  | .child _ _ | .line _ | .forkFails => instDecidableTrue

/-- `sleep 9 | cat &` -/
def pipeline : Line :=
  { segments := [
      { command := "sleep 9", name := "sleep", argc := 2, inputPath := none, status := .done },
      { command := "cat", name := "cat", argc := 1, inputPath := none, status := .suspended }]
    rooted := by decide
    mode := .background
    id := -7 }

/-- It runs as 7 and 8, and 7 has exited when the next line is read. -/
def launchPipeline : List Action :=
  [.line (some pipeline), .checked, .fork 7, .fork 8, .advance, .child 7 .exit, .line none,
    .check 7, .checked]

theorem careful_runs_are_safe_pipeline :
    ∃ s, Reaches step Careful Shell.start s ∧ (s.jobs 1).isSome = true ∧ InSlots s ∧
      ∀ action u, Careful s action → attempt s action = some u → Safe s u := by
  obtain ⟨s, run, occupied⟩ := @reaches_of_check _ _ step Careful _ Shell.start launchPipeline
    (fun s => (s.jobs 1).isSome) (by decide +kernel)
  exact ⟨s, run, occupied, careful_runs_are_safe run⟩

/-- `bg < nofile` -/
def redirected : Line :=
  { segments := [
      { command := "bg < nofile", name := "bg", argc := 1, inputPath := some "nofile"
        status := .running }]
    rooted := by decide
    mode := .foreground
    id := -7 }

/-- The job is not in the table, and `remove_job` is called with -1. -/
theorem failed_redirection_reads_before_the_table :
    ∃ s u, Reaches step (fun _ _ => True) Shell.start s ∧ attempt s .openFails = some u ∧
      u.indexes = [-1] ∧ ¬ Safe s u := by
  obtain ⟨s, run, reads⟩ := @reaches_of_check _ _ step (fun _ _ => True) _ Shell.start
    [.line (some redirected), .checked]
    (fun s => (attempt s .openFails).any fun u => u.indexes = [-1]) (by decide +kernel)
  cases attempted : attempt s .openFails with
  | none =>
      rw [attempted] at reads
      cases reads
  | some u =>
      rw [attempted] at reads
      have isBefore : u.indexes = [-1] := of_decide_eq_true reads
      refine ⟨s, u, run, attempted, isBefore, ?_⟩
      intro safe
      have bounds := safe.1 (-1) (by simp [isBefore])
      omega

end UtSystems.Yash.JobSlots

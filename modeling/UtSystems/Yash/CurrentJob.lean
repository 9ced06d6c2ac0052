import UtSystems.Yash.Relabeling

/-!
# The current job

`command_fg` and `command_bg` take the job in front of the first free slot. That is the job with
the largest id exactly when no slot is free before it, and a table that only grew at its first free
slot still gets such holes when a job is removed.
-/

namespace UtSystems.Yash.CurrentJob

open Lib.GuardedRun Yash.JobManager Yash.Commander Yash.Relabeling

set_option autoImplicit false

def Occupied (t : Table) (id : Int) : Prop := ∃ job, t id = some job

/-- What the job should be on which a command acts, none where it says that there is no such job. -/
def IsCurrent (t : Table) : Option Int → Prop
  | some id => Occupied t id ∧ ∀ other, Occupied t other → other ≤ id
  | none => ∀ id, ¬ Occupied t id

/-- The occupied slots are the first ones. -/
def Dense (t : Table) (count : Nat) : Prop := ∀ id : Int, Occupied t id ↔ 1 ≤ id ∧ id ≤ count

/-! ## Slots of a run -/

def InRange (t : Table) : Prop := ∀ id, Occupied t id → 1 ≤ id ∧ id ≤ nrJobs

theorem in_range_shrinks {ends : Int → Prop} {t now : Table} (inRange : InRange t)
    (shrinks : Shrinks ends t now) : InRange now := by
  intro id occupied
  obtain ⟨job, there⟩ := occupied
  obtain ⟨before, thereBefore, _⟩ := shrinks id job there
  exact inRange id ⟨before, thereBefore⟩

theorem in_range_removed {t : Table} (inRange : InRange t) (id : Int) :
    InRange (removeJob t id).value :=
  in_range_shrinks inRange (@remove_job_shrinks (fun _ => True) t id)

theorem in_range_insert {t : Table} (inRange : InRange t) (job : Job) :
    InRange (insertJob t job).value.2 := by
  cases hit : (scan t Option.isNone).value with
  | none =>
      simp only [insertJob, getNextJobId, hit, bind_value, pure_value]
      exact inRange
  | some first =>
      obtain ⟨low, high, _⟩ := scan_some hit
      have notNegative : ¬ first < 0 := by omega
      simp only [insertJob, getNextJobId, hit, bind_value, pure_value, if_neg notNegative]
      intro id occupied
      obtain ⟨found, there⟩ := occupied
      by_cases same : id = first
      · rw [same]
        exact ⟨low, high⟩
      · rw [Function.update_of_ne same] at there
        exact inRange id ⟨found, there⟩

theorem in_range_start_launch {s : Shell} (inRange : InRange s.jobs) (job : Job) :
    InRange (startLaunch s job).value.jobs := by
  have inserted := in_range_insert inRange job
  unfold startLaunch
  split
  · rw [bind_value]
    split
    next id jobs value =>
      rw [value] at inserted
      split
      · exact inRange
      · exact inserted
  · exact inRange

theorem in_range_wait {s : Shell} (inRange : InRange s.jobs) (launch : Launch) (caller : Caller)
    (id : Int) : InRange (waitForJob s launch caller id).value.jobs := by
  cases wait_for_job_value s launch caller id with
  | inl returns =>
      rw [returns]
      exact inRange
  | inr loops =>
      obtain ⟨_, _, value⟩ := loops
      rw [value]
      exact inRange

theorem in_range_put {s : Shell} {launch : Launch} {job now : Job} (inRange : InRange s.jobs)
    (there : s.job launch = some job) : InRange (s.putJob launch now).jobs := by
  unfold Shell.job at there
  unfold Shell.putJob
  cases slot : launch.slot with
  | none => exact inRange
  | some own =>
      rw [slot] at there
      intro id occupied
      obtain ⟨found, thereFound⟩ := occupied
      dsimp only at thereFound
      by_cases same : id = own
      · rw [same]
        exact inRange own ⟨job, there⟩
      · rw [Function.update_of_ne same] at thereFound
        exact inRange id ⟨found, thereFound⟩

theorem in_range_custom {s : Shell} (inRange : InRange s.jobs) (launch : Launch) (job : Job)
    (proc : Process) (sent : Bool) :
    InRange (launchCustomCommand s launch job proc sent).value.jobs := by
  have continued : ∀ printOptions,
      InRange (continueLastJob s proc.argc sent printOptions).value.2.jobs := by
    intro printOptions
    cases continue_last_job_value s proc.argc sent printOptions with
    | inl missing =>
        rw [missing]
        exact inRange
    | inr found =>
        obtain ⟨id, _, _, _, _, value⟩ := found
        rw [value]
        exact in_range_shrinks inRange
          (@set_job_status_shrinks (fun _ => True) s.jobs id .continued fun isDone => nomatch isDone)
  unfold launchCustomCommand
  cases proc.type with
  | jobs => exact in_range_shrinks inRange (@command_jobs_shrinks (fun _ => True) s.jobs nrJobs 0)
  | fg =>
      have next := continued .commandFg
      rw [bind_value]
      split
      · next after => 
        rw [after] at next
        exact next
      · next jobId now after =>
        rw [after] at next
        exact in_range_wait next launch .commandFg jobId
  | bg => exact continued .commandBg
  | external => exact inRange

theorem in_range_stage {s : Shell} {launch : Launch} {job : Job} {proc : Process} {action : Action}
    {u : Use Shell} (inRange : InRange s.jobs) (there : s.job launch = some job)
    (taken : stageStep s launch job proc action = some u) : InRange u.value.jobs := by
  cases action with
  | openFails =>
      simp only [stageStep] at taken
      obtain ⟨_, result⟩ := Option.ite_none_right_eq_some.mp taken
      cases result
      exact in_range_removed inRange launch.jobId
  | custom sent =>
      simp only [stageStep] at taken
      obtain ⟨_, result⟩ := Option.ite_none_right_eq_some.mp taken
      cases result
      exact in_range_custom (in_range_put inRange there) launch _ proc sent
  | fork pid =>
      simp only [stageStep] at taken
      obtain ⟨_, result⟩ := Option.ite_none_right_eq_some.mp taken
      cases result
      have forkedJobs : InRange (launched s launch job pid).1.jobs := in_range_put inRange there
      unfold forked
      split
      · exact in_range_wait forkedJobs launch .launchCommandHelper job.id
      · exact forkedJobs
  | forkFails =>
      simp only [stageStep] at taken
      obtain ⟨_, result⟩ := Option.ite_none_right_eq_some.mp taken
      cases result
      exact in_range_put inRange there
  | _ => cases taken

theorem in_range_finish {s : Shell} (inRange : InRange s.jobs) (launch : Launch) (job : Job)
    (status : Event) : InRange (finish s launch job status).value.jobs := by
  unfold finish
  split
  · split
    · exact in_range_removed inRange launch.jobId
    · split
      · exact inRange
      · exact inRange
  · exact inRange

theorem in_range_attempt {s : Shell} {action : Action} {u : Use Shell} (inRange : InRange s.jobs)
    (taken : attempt s action = some u) : InRange u.value.jobs := by
  cases attempt_cases taken with
  | child => exact inRange
  | line => exact inRange
  | @check pid _ event _ _ =>
      exact in_range_shrinks inRange
        (@check_job_shrinks (fun _ => True) s.jobs pid event fun _ => trivial)
  | idle => exact inRange
  | @launch job _ => exact in_range_start_launch inRange job
  | stage _ there _ stage => exact in_range_stage inRange there stage
  | @report launch caller id pid wait _ event _ _ _ _ =>
      change InRange (noteWaited (s.reported pid event).jobs pid event).value
      rw [reported_jobs]
      exact in_range_shrinks inRange
        (@note_waited_shrinks (fun _ => True) s.jobs pid event fun _ => trivial)
  | @noChild _ _ _ wait _ _ _ _ =>
      exact in_range_shrinks inRange
        (@note_waited_shrinks (fun _ => True) s.jobs (-1) wait.status fun _ => trivial)
  | @returned launch _ status job _ _ => exact in_range_finish inRange launch job status
  | kept => exact inRange
  | @removed _ id _ _ _ _ => exact in_range_removed inRange id
  | @ended launch status job _ _ => exact in_range_finish inRange launch job status

theorem runs_stay_in_range {s : Shell} (run : Reaches step (fun _ _ => True) Shell.start s) :
    InRange s.jobs := by
  apply reaches_invariant (fun s => InRange s.jobs) _ _ run
  · intro id occupied
    obtain ⟨_, there⟩ := occupied
    cases there
  · intro state action next inRange _ taken
    obtain ⟨u, attempted, result⟩ := Option.map_eq_some_iff.mp taken
    cases result
    exact in_range_attempt inRange attempted

/-! ## The job that is found -/

theorem occupied_of_not_free {t : Table} {id : Int} (taken : (t id).isNone = false) :
    Occupied t id := by
  have isSome : (t id).isSome = true := by simp [← Option.not_isNone, taken]
  exact Option.isSome_iff_exists.mp isSome

/-- The slots before the first free one are occupied; with no free slot the id is -1. -/
theorem last_job_id_cases (t : Table) :
    (∃ count : Nat, count < nrJobs ∧ (getLastJobId t).value = count ∧
      (∀ id : Int, 1 ≤ id → id ≤ count → Occupied t id) ∧ ¬ Occupied t (count + 1)) ∨
    (getLastJobId t).value = -1 ∧ ∀ id : Int, 1 ≤ id → id ≤ nrJobs → Occupied t id := by
  cases hit : (scan t Option.isNone).value with
  | none =>
      right
      refine ⟨by simp [getLastJobId, hit], ?_⟩
      intro id low high
      exact occupied_of_not_free (scan_none hit low high)
  | some first =>
      left
      obtain ⟨low, high, free, earlier⟩ := scan_some hit
      have count : ((first - 1).toNat : Int) = first - 1 := Int.toNat_of_nonneg (by omega)
      refine ⟨(first - 1).toNat, by omega, ?_, ?_, ?_⟩
      · rw [count]
        simp [getLastJobId, hit]
      · intro id lowToo before
        exact occupied_of_not_free (earlier id lowToo (by omega))
      · intro occupied
        obtain ⟨job, there⟩ := occupied
        rw [count, Int.sub_add_cancel] at there
        rw [there] at free
        cases free

theorem continues_iff {s : Shell} {sent : Bool} {printOptions : PrintOptions} {id : Int} :
    (continueLastJob s 1 sent printOptions).value.1 = some id ↔
      (getLastJobId s.jobs).value = id ∧ 0 < id ∧ sent = true ∧
        ∃ job, s.jobs id = some job ∧ 0 ≤ job.pgid := by
  have inside : (getLastJobId s.jobs).value ≤ nrJobs := by
    cases last_job_id_cases s.jobs with
    | inl free =>
        obtain ⟨count, high, value, _⟩ := free
        omega
    | inr full =>
        rw [full.1]
        decide
  have there : (getJobById s.jobs (getLastJobId s.jobs).value).value =
      s.jobs (getLastJobId s.jobs).value := by
    unfold getJobById
    rw [if_neg (by omega)]
    rfl
  have continued : (continueLastJob s 1 sent printOptions).value.1 =
      if (getPgidByJobId s.jobs (getLastJobId s.jobs).value).value < 0 ∨ sent = false ∨
        (getLastJobId s.jobs).value ≤ 0 then none else some (getLastJobId s.jobs).value := by
    unfold continueLastJob
    rw [if_neg (by decide), bind_value, bind_value]
    split
    · rfl
    · rfl
  have group : (getPgidByJobId s.jobs (getLastJobId s.jobs).value).value =
      ((s.jobs (getLastJobId s.jobs).value).map Job.pgid).getD (-1) := by
    unfold getPgidByJobId
    rw [bind_value, there]
    cases s.jobs (getLastJobId s.jobs).value with
    | none => rfl
    | some job => rfl
  rw [continued, group, Option.ite_none_left_eq_some, Option.some_inj]
  constructor
  · intro found
    obtain ⟨ready, last⟩ := found
    rw [last] at ready
    refine ⟨last, by omega, by simpa using fun notSent => ready (Or.inr (Or.inl notSent)), ?_⟩
    cases slot : s.jobs id with
    | none =>
        rw [slot] at ready
        exact absurd (Or.inl (by decide)) ready
    | some job =>
        rw [slot] at ready
        exact ⟨job, rfl, Int.not_lt.mp fun negative => ready (Or.inl negative)⟩
  · intro ready
    obtain ⟨last, positive, isSent, job, slot, notNegative⟩ := ready
    refine ⟨?_, last⟩
    rw [last, slot]
    intro fails
    cases fails with
    | inl negative => exact absurd negative (Int.not_lt.mpr notNegative)
    | inr others =>
        cases others with
        | inl notSent => exact absurd isSent (by simp [notSent])
        | inr low => omega

theorem dense_count {t : Table} {count : Nat} (dense : Dense t count) (some : count < nrJobs) :
    (getLastJobId t).value = count := by
  cases last_job_id_cases t with
  | inl free =>
      obtain ⟨first, _, value, before, isFree⟩ := free
      have notBelow : ¬ first < count := fun below =>
        isFree ((dense _).mpr ⟨by omega, by omega⟩)
      have notAbove : ¬ count < first := by
        intro above
        have taken := (dense _).mp (before first (by omega) (by omega))
        omega
      rw [value]
      omega
  | inr full =>
      have taken := (dense _).mp (full.2 nrJobs (by decide) (by omega))
      omega

theorem current_job_right_iff {s : Shell} (run : Reaches step (fun _ _ => True) Shell.start s)
    (sent : Bool) (printOptions : PrintOptions) :
    IsCurrent s.jobs (continueLastJob s 1 sent printOptions).value.1 ↔
      ∃ count : Nat, count < nrJobs ∧ Dense s.jobs count ∧
        (0 < count → sent = true ∧ ∀ job, s.jobs count = some job → 0 ≤ job.pgid) := by
  constructor
  · intro current
    cases found : (continueLastJob s 1 sent printOptions).value.1 with
    | some id =>
        rw [found] at current
        obtain ⟨last, positive, isSent, job, slot, group⟩ := continues_iff.mp found
        cases last_job_id_cases s.jobs with
        | inl free =>
            obtain ⟨count, high, value, before, _⟩ := free
            have isLast : id = count := last.symm.trans value
            refine ⟨count, high, ?_, ?_⟩
            · intro other
              constructor
              · intro occupied
                exact ⟨(runs_stay_in_range run other occupied).1, isLast ▸ current.2 other occupied⟩
              · intro between
                exact before other between.1 between.2
            · intro _
              refine ⟨isSent, ?_⟩
              intro atLast there
              rw [← isLast, slot] at there
              cases there
              exact group
        | inr full =>
            rw [full.1] at last
            omega
    | none =>
        rw [found] at current
        refine ⟨0, by decide, ?_, fun positive => absurd positive (Nat.lt_irrefl 0)⟩
        intro id
        constructor
        · intro occupied
          exact absurd occupied (current id)
        · intro between
          omega
  · intro right
    obtain ⟨count, high, dense, ready⟩ := right
    have last := dense_count dense high
    by_cases empty : count = 0
    · subst empty
      have found : (continueLastJob s 1 sent printOptions).value.1 = none := by
        rw [Option.eq_none_iff_forall_not_mem]
        intro id isFound
        obtain ⟨isLast, positive, _⟩ := continues_iff.mp isFound
        omega
      rw [found]
      intro id occupied
      have between := (dense id).mp occupied
      omega
    · obtain ⟨isSent, groups⟩ := ready (Nat.pos_of_ne_zero empty)
      have occupied : Occupied s.jobs count := (dense count).mpr ⟨by omega, Int.le_refl _⟩
      obtain ⟨job, there⟩ := occupied
      have found : (continueLastJob s 1 sent printOptions).value.1 = some (count : Int) :=
        continues_iff.mpr ⟨last, by omega, isSent, job, there, groups job there⟩
      rw [found]
      exact ⟨⟨job, there⟩, fun other occupied => ((dense other).mp occupied).2⟩

/-- `sleep 9 &` -/
def sleeper : Line :=
  { segments := [
      { command := "sleep 9", name := "sleep", argc := 2, inputPath := none, status := .done }]
    rooted := by decide
    mode := .background
    id := -7 }

def launchSleeper (pid : Int) : List Action := [.line (some sleeper), .checked, .fork pid, .advance]

def onlyFirst (s : Shell) : Bool :=
  (s.jobs 1).any (fun job => 0 ≤ job.pgid) && (List.range 19).all fun i => (s.jobs (i + 2)).isNone

theorem current_job_right_iff_sleeper :
    ∃ s, Reaches step (fun _ _ => True) Shell.start s ∧ Occupied s.jobs 1 ∧
      IsCurrent s.jobs (continueLastJob s 1 true .commandFg).value.1 := by
  obtain ⟨s, run, only⟩ := @reaches_of_check _ _ step (fun _ _ => True) _ Shell.start
    (launchSleeper 7) onlyFirst (by decide +kernel)
  obtain ⟨first, others⟩ := Bool.and_eq_true_iff.mp only
  obtain ⟨job, there, group⟩ := (Option.any_eq_true _ _).mp first
  have occupied : Occupied s.jobs 1 := ⟨job, there⟩
  refine ⟨s, run, occupied, (current_job_right_iff run true .commandFg).mpr ⟨1, by decide, ?_, ?_⟩⟩
  · intro id
    constructor
    · intro taken
      obtain ⟨low, high⟩ := runs_stay_in_range run id taken
      refine ⟨low, ?_⟩
      by_contra behind
      have member : (id - 2).toNat ∈ List.range 19 := by
        rw [List.mem_range]
        unfold nrJobs at high
        omega
      have free := List.all_eq_true.mp others _ member
      obtain ⟨other, thereOther⟩ := taken
      have isId : ((id - 2).toNat : Int) + 2 = id := by omega
      rw [isId, thereOther] at free
      cases free
    · intro between
      have isOne : id = 1 := by omega
      rw [isOne]
      exact occupied
  · intro _
    refine ⟨rfl, ?_⟩
    intro found thereFound
    rw [Int.natCast_one, there] at thereFound
    cases thereFound
    exact of_decide_eq_true group

/-- The first of two jobs has ended. -/
theorem removed_job_hides_the_next :
    ∃ s, Reaches step (fun _ _ => True) Shell.start s ∧ Occupied s.jobs 2 ∧
      (continueLastJob s 1 true .commandFg).value.1 = none ∧
      ¬ IsCurrent s.jobs (continueLastJob s 1 true .commandFg).value.1 := by
  obtain ⟨s, run, hidden⟩ := @reaches_of_check _ _ step (fun _ _ => True) _ Shell.start
    (launchSleeper 7 ++ launchSleeper 8 ++ [.child 7 .exit, .line none, .check 7, .checked])
    (fun s => (s.jobs 2).isSome && (continueLastJob s 1 true .commandFg).value.1.isNone)
    (by decide +kernel)
  obtain ⟨second, missing⟩ := Bool.and_eq_true_iff.mp hidden
  have occupied : Occupied s.jobs 2 := Option.isSome_iff_exists.mp second
  have isMissing := Option.isNone_iff_eq_none.mp missing
  refine ⟨s, run, occupied, isMissing, ?_⟩
  intro current
  rw [isMissing] at current
  exact current 2 occupied

end UtSystems.Yash.CurrentJob

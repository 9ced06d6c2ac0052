import UtSystems.Yash.JobChildren

/-!
# wait_for_job

`wait_for_job` counts as many events as its job has remaining processes, and its caller takes the
job out of the table if the last of them was an end. When no stop was counted, each event was the
end of another process.
-/

namespace UtSystems.Yash.WaitForJob

open Lib.GuardedRun Yash.JobManager Yash.Commander Yash.Relabeling Yash.JobChildren

set_option autoImplicit false

/-- A process that runs or is stopped. -/
def Alive (s : Shell) (proc : Process) : Prop :=
  ∃ child ∈ s.children, proc.birth = some child.birth ∧ s.state child.pid ≠ .exited ∧
    s.state child.pid ≠ .killed

/-- When `wait_for_job` has returned, the next step takes no job out of the table that has a
process alive. -/
def RemovesEnded (s : Shell) : Prop :=
  ∀ launch caller id status, s.pc = .waited launch caller id status →
    ∀ next, step s .advance = some next → ∀ k job, s.jobs k = some job → next.jobs k = none →
      ∀ proc ∈ job.processes, ¬ Alive s proc

/-- The last event that `wait_for_job` counts is not an end after a stop. -/
def NoEndAfterStop (s : Shell) : Action → Prop
  | .report pid =>
      match s.pc with
      | .waiting _ _ _ wait => wait.procCount ≤ wait.waitCount + 1 →
          (s.state pid).report false ≠ some .stopped → wait.stopSeen = false
      | _ => True
  | _ => True

/-! ## The invariant -/

/-- The job that is launched, when the stages before this one have been. -/
structure Launching (s : Shell) (slot : Option Int) (stage : Nat) (job : Job) : Prop where
  known : Known s.children s.births job
  own : ∀ child ∈ s.children, child.group = job.pgid → belongs job child = true
  later : ∀ proc ∈ job.processes.drop stage, proc.birth = none
  apart : ∀ child ∈ s.children, belongs job child = true → ∀ id other, s.jobs id = some other →
    belongs other child = true → slot = some id

def LaunchSound (s : Shell) (launch : Launch) (stage : Nat) : Prop :=
  ∀ job, s.job launch = some job → Launching s launch.slot stage job

/-- What is left to count. -/
def Counts (s : Shell) (id : Int) (wait : Wait) : Prop :=
  wait.stopSeen = false → ∀ job, s.jobs id = some job →
    unreaped s.children job = 0 ∨ unreaped s.children job + wait.waitCount ≤ wait.procCount

def AllReaped (s : Shell) (id : Int) : Prop :=
  ∀ job, s.jobs id = some job → unreaped s.children job = 0

/-- `launch_commander` waits for the job that it launches. -/
def Named (launch : Launch) (caller : Caller) (id : Int) : Prop :=
  caller = .launchCommandHelper → ∀ k, launch.slot = some k → k = id

def Unlaunched (job : Job) : Prop :=
  job.pgid = -1 ∧ ∀ proc ∈ job.processes, proc.birth = none

def SoundPc (s : Shell) : Pc → Prop
  | .head => True
  | .checking job => ∀ parsed, job = some parsed → Unlaunched parsed
  | .stage launch => LaunchSound s launch launch.stage
  | .waiting launch caller id wait =>
      LaunchSound s launch (launch.stage + 1) ∧ Named launch caller id ∧ Counts s id wait
  | .waited launch caller id status =>
      LaunchSound s launch (launch.stage + 1) ∧ Named launch caller id ∧
        (status ≠ .stopped → AllReaped s id)
  | .ended launch _ => LaunchSound s launch (launch.stage + 1)

structure SoundJobs (s : Shell) : Prop where
  ids : ∀ id job, s.jobs id = some job → 1 ≤ id ∧ job.id = id
  births : s.children.Pairwise fun child other => child.birth ≠ other.birth
  children : ∀ child ∈ s.children, 1 < child.pid ∧ 0 < child.group ∧ child.birth < s.births
  known : ∀ id job, s.jobs id = some job → Known s.children s.births job
  owners : ∀ child ∈ s.children, ∀ id job k other, s.jobs id = some job → s.jobs k = some other →
    belongs job child = true → belongs other child = true → id = k

structure Sound (s : Shell) : Prop where
  jobs : SoundJobs s
  pc : SoundPc s s.pc

theorem start_sound : Sound Shell.start where
  jobs := {
    ids := fun _ _ there => nomatch there
    births := List.Pairwise.nil
    children := fun _ member => absurd member List.not_mem_nil
    known := fun _ _ there => nomatch there
    owners := fun _ member => absurd member List.not_mem_nil }
  pc := trivial

/-! ## Steps without a new child -/

/-- Children are reaped and statuses change, Done only where the process has been reaped. -/
structure Quiet (s next : Shell) : Prop where
  children : next.children.Sublist s.children
  births : next.births = s.births
  jobs : Shrinks (Gone next.children) s.jobs next.jobs
  loose : ∀ job, next.loose = some job →
    ∃ before, s.loose = some before ∧ Relabels (Gone next.children) before job

section
variable {s next : Shell}

theorem quiet_job (quiet : Quiet s next) {launch : Launch} {job : Job}
    (there : next.job launch = some job) :
    ∃ before, s.job launch = some before ∧ Relabels (Gone next.children) before job := by
  unfold Shell.job at there ⊢
  cases slot : launch.slot with
  | none =>
      rw [slot] at there
      exact quiet.loose job there
  | some id =>
      rw [slot] at there
      exact quiet.jobs id job there

theorem jobs_quiet (sound : SoundJobs s) (quiet : Quiet s next) : SoundJobs next where
  ids := by
    intro id job there
    obtain ⟨before, thereBefore, relabels⟩ := quiet.jobs id job there
    obtain ⟨low, named⟩ := sound.ids id before thereBefore
    exact ⟨low, relabels.id.trans named⟩
  births := sound.births.sublist quiet.children
  children := by
    intro child member
    rw [quiet.births]
    exact sound.children child (quiet.children.subset member)
  known := by
    intro id job there
    obtain ⟨before, thereBefore, relabels⟩ := quiet.jobs id job there
    rw [quiet.births]
    apply known_relabels _ relabels
    exact known_fewer (sound.known id before thereBefore) quiet.children.subset
  owners := by
    intro child member id job k other there thereToo isJobs isOthers
    obtain ⟨before, thereBefore, relabels⟩ := quiet.jobs id job there
    obtain ⟨beforeToo, thereBeforeToo, relabelsToo⟩ := quiet.jobs k other thereToo
    rw [belongs_relabels relabels] at isJobs
    rw [belongs_relabels relabelsToo] at isOthers
    exact sound.owners child (quiet.children.subset member) id before k beforeToo thereBefore
      thereBeforeToo isJobs isOthers

theorem launching_relabels {slot : Option Int} {stage : Nat} {job now : Job}
    (launching : Launching s slot stage job) (quiet : Quiet s next)
    (relabels : Relabels (Gone next.children) job now) : Launching next slot stage now where
  known := by
    rw [quiet.births]
    exact known_relabels (known_fewer launching.known quiet.children.subset) relabels
  own := by
    intro child member group
    rw [relabels.pgid] at group
    rw [belongs_relabels relabels]
    exact launching.own child (quiet.children.subset member) group
  later := by
    intro proc member
    have follows : List.Forall₂ (Follows (Gone next.children)) (job.processes.drop stage)
        (now.processes.drop stage) := List.forall₂_drop stage relabels.processes
    obtain ⟨before, earlier, same⟩ := follows_mem follows member
    rw [same.same]
    exact launching.later before earlier
  apart := by
    intro child member isJobs id other there isOthers
    obtain ⟨before, thereBefore, relabelsOther⟩ := quiet.jobs id other there
    rw [belongs_relabels relabels] at isJobs
    rw [belongs_relabels relabelsOther] at isOthers
    exact launching.apart child (quiet.children.subset member) isJobs id before thereBefore isOthers

theorem launch_quiet {launch : Launch} {stage : Nat} (sound : LaunchSound s launch stage)
    (quiet : Quiet s next) : LaunchSound next launch stage := by
  intro job there
  obtain ⟨before, thereBefore, relabels⟩ := quiet_job quiet there
  exact launching_relabels (sound before thereBefore) quiet relabels

theorem launch_next {launch : Launch} {stage : Nat} (sound : LaunchSound s launch stage) :
    LaunchSound s launch (stage + 1) := by
  intro job there
  have launching := sound job there
  exact {
    known := launching.known
    own := launching.own
    later := by
      intro proc member
      apply launching.later proc
      rw [← List.drop_drop] at member
      exact List.mem_of_mem_drop member
    apart := launching.apart }

theorem after_stage_sound {launch : Launch} (sound : LaunchSound s launch (launch.stage + 1))
    (job : Job) (status : Event) : SoundPc s (afterStage launch job status) := by
  unfold afterStage
  split
  · exact sound
  · exact sound

theorem unreaped_quiet (quiet : Quiet s next) {id : Int} {now : Job} (there : next.jobs id = some now) :
    ∃ job, s.jobs id = some job ∧
      unreaped next.children now ≤ unreaped s.children job := by
  obtain ⟨job, thereBefore, relabels⟩ := quiet.jobs id now there
  refine ⟨job, thereBefore, ?_⟩
  rw [unreaped_relabels relabels]
  exact quiet.children.countP_le

end

/-! ## A new child -/

theorem modify_split {list : List Process} {stage : Nat} {proc : Process}
    (current : list[stage]? = some proc) (change : Process → Process) :
    ∃ front back, list = front ++ proc :: back ∧
      list.modify stage change = front ++ change proc :: back ∧ list.drop stage = proc :: back ∧
      (list.modify stage change).drop (stage + 1) = back := by
  induction list generalizing stage with
  | nil => cases current
  | cons first next ih =>
      cases stage with
      | zero =>
          cases current
          exact ⟨[], next, rfl, rfl, rfl, rfl⟩
      | succ stage =>
          obtain ⟨front, back, whole, changed, rest, later⟩ := ih current
          refine ⟨first :: front, back, ?_, ?_, rest, later⟩
          · rw [whole]
            rfl
          · rw [List.modify_succ_cons, changed]
            rfl

def newChild (s : Shell) (job : Job) (pid : Int) : Child :=
  { birth := s.births, pid := pid, group := if 0 < job.pgid then job.pgid else pid }

section
variable {s : Shell} {launch : Launch} {job : Job} {proc : Process} {pid : Int}

/-- What the kernel promises of the pid of a new child. -/
def Fresh (s : Shell) (pid : Int) : Prop :=
  1 < pid ∧ ∀ child ∈ s.children, child.pid ≠ pid ∧ child.group ≠ pid

theorem forked_processes (launching : Launching s launch.slot launch.stage job)
    (current : job.processes[launch.stage]? = some proc) :
    let new := { proc with status := .running, pid := pid, birth := some s.births }
    let processes := (launched s launch job pid).2.processes
    (∀ other ∈ processes, other ∈ job.processes ∨ other = new) ∧ new ∈ processes ∧
      (∀ other ∈ job.processes, other.birth ≠ none → other ∈ processes) ∧
      ∀ other ∈ processes.drop (launch.stage + 1), other.birth = none := by
  intro new processes
  obtain ⟨front, back, whole, changed, rest, later⟩ := modify_split current fun proc =>
    { proc with status := .running, pid := pid, birth := some s.births }
  have isProcesses : processes = front ++ new :: back := changed
  have unborn := launching.later
  rw [rest] at unborn
  refine ⟨?_, by simp [isProcesses], ?_, ?_⟩
  · intro other member
    rw [isProcesses, List.mem_append, List.mem_cons] at member
    rw [whole, List.mem_append, List.mem_cons]
    grind
  · intro other member born
    rw [whole, List.mem_append, List.mem_cons] at member
    rw [isProcesses, List.mem_append, List.mem_cons]
    cases member with
    | inl early => exact Or.inl early
    | inr late =>
        cases late with
        | inl isProc => exact absurd (unborn proc List.mem_cons_self) (isProc ▸ born)
        | inr after => exact Or.inr (Or.inr after)
  · intro other member
    have inBack : other ∈ back := by
      rw [← later]
      exact member
    exact unborn other (List.mem_cons_of_mem _ inBack)

theorem forked_belongs (launching : Launching s launch.slot launch.stage job)
    (current : job.processes[launch.stage]? = some proc) (child : Child) :
    belongs (launched s launch job pid).2 child = true ↔
      belongs job child = true ∨ child.birth = s.births := by
  obtain ⟨source, new, kept, _⟩ := @forked_processes _ _ _ _ pid launching current
  rw [belongs_iff, belongs_iff]
  constructor
  · intro found
    obtain ⟨other, member, isBirth⟩ := found
    cases source other member with
    | inl before => exact Or.inl ⟨other, before, isBirth⟩
    | inr isNew =>
        rw [isNew] at isBirth
        exact Or.inr (Option.some.inj isBirth).symm
  · intro found
    cases found with
    | inl before =>
        obtain ⟨other, member, isBirth⟩ := before
        exact ⟨other, kept other member (by simp [isBirth]), isBirth⟩
    | inr isNew => exact ⟨_, new, congrArg some isNew.symm⟩

/-- The process group of the new child is that of the job's other children. -/
theorem forked_group (launching : Launching s launch.slot launch.stage job) (fresh : Fresh s pid)
    {child : Child} (member : child ∈ s.children)
    (group : child.group = (newChild s job pid).group) : belongs job child = true := by
  unfold newChild at group
  dsimp only at group
  split at group
  · exact launching.own child member group
  · exact absurd group (fresh.2 child member).2

theorem forked_known (jobs : SoundJobs s) (launching : Launching s launch.slot launch.stage job)
    (current : job.processes[launch.stage]? = some proc) (fresh : Fresh s pid) :
    Known (newChild s job pid :: s.children) (s.births + 1) (launched s launch job pid).2 := by
  obtain ⟨source, new, kept, _⟩ := @forked_processes _ _ _ _ pid launching current
  have older : ∀ child ∈ s.children, child.birth ≠ s.births := by
    intro child member
    have bound := (jobs.children child member).2.2
    omega
  have olderProc : ∀ other ∈ job.processes, other.birth ≠ some s.births := by
    intro other member isBirth
    have bound := launching.known.born other member _ isBirth
    omega
  have group : ∀ child ∈ s.children, belongs job child = true →
      child.group = (newChild s job pid).group := by
    intro child member isJobs
    have isGroup := launching.known.group child member isJobs
    have positive := (jobs.children child member).2.1
    unfold newChild
    rw [if_pos (by omega), isGroup]
  exact {
    born := by
      intro other member birth isBirth
      cases source other member with
      | inl before =>
          have bound := launching.known.born other before birth isBirth
          omega
      | inr isNew =>
          rw [isNew] at isBirth
          cases isBirth
          omega
    pid := by
      intro other member child isChild isBirth
      cases source other member with
      | inl before =>
          cases List.mem_cons.mp isChild with
          | inl isNew =>
              rw [isNew] at isBirth
              exact absurd isBirth (olderProc other before)
          | inr old => exact launching.known.pid other before child old isBirth
      | inr isNew =>
          rw [isNew] at isBirth ⊢
          cases List.mem_cons.mp isChild with
          | inl isNewChild =>
              rw [isNewChild]
              rfl
          | inr old => exact absurd (Option.some.inj isBirth).symm (older child old)
    done := by
      intro other member isDone child isChild isBirth
      cases source other member with
      | inl before =>
          cases List.mem_cons.mp isChild with
          | inl isNew =>
              rw [isNew] at isBirth
              exact olderProc other before isBirth
          | inr old => exact launching.known.done other before isDone child old isBirth
      | inr isNew =>
          rw [isNew] at isDone
          cases isDone
    group := by
      intro child isChild isJobs
      change child.group = (newChild s job pid).group
      cases List.mem_cons.mp isChild with
      | inl isNew => rw [isNew]
      | inr old =>
          cases (forked_belongs launching current child).mp isJobs with
          | inl before => exact group child old before
          | inr isBirth => exact absurd isBirth (older child old)
    closed := by
      intro child isChild isJobs other isOther same
      apply (forked_belongs launching current other).mpr
      have isGroup : child.group = (newChild s job pid).group := by
        cases List.mem_cons.mp isChild with
        | inl isNew => rw [isNew]
        | inr old =>
            cases (forked_belongs launching current child).mp isJobs with
            | inl before => exact group child old before
            | inr isBirth => exact absurd isBirth (older child old)
      cases List.mem_cons.mp isOther with
      | inl isNew =>
          right
          rw [isNew]
          rfl
      | inr old => exact Or.inl (forked_group launching fresh old (same.trans isGroup)) }

/-- A job in another slot has nothing to do with the new child. -/
theorem other_known (jobs : SoundJobs s) (launching : Launching s launch.slot launch.stage job)
    (fresh : Fresh s pid) {id : Int} {other : Job} (there : s.jobs id = some other)
    (elsewhere : launch.slot ≠ some id) :
    Known (newChild s job pid :: s.children) (s.births + 1) other ∧
      belongs other (newChild s job pid) = false := by
  have known := jobs.known id other there
  have older : ∀ proc ∈ other.processes, proc.birth ≠ some s.births := by
    intro proc member isBirth
    have bound := known.born proc member _ isBirth
    omega
  have foreign : belongs other (newChild s job pid) = false := by
    rw [Bool.eq_false_iff]
    intro isOthers
    obtain ⟨proc, member, isBirth⟩ := belongs_iff.mp isOthers
    exact older proc member isBirth
  refine ⟨?_, foreign⟩
  exact {
    born := by
      intro proc member birth isBirth
      have bound := known.born proc member birth isBirth
      omega
    pid := by
      intro proc member child isChild isBirth
      cases List.mem_cons.mp isChild with
      | inl isNew =>
          rw [isNew] at isBirth
          exact absurd isBirth (older proc member)
      | inr old => exact known.pid proc member child old isBirth
    done := by
      intro proc member isDone child isChild isBirth
      cases List.mem_cons.mp isChild with
      | inl isNew =>
          rw [isNew] at isBirth
          exact older proc member isBirth
      | inr old => exact known.done proc member isDone child old isBirth
    group := by
      intro child isChild isOthers
      cases List.mem_cons.mp isChild with
      | inl isNew =>
          rw [isNew, foreign] at isOthers
          cases isOthers
      | inr old => exact known.group child old isOthers
    closed := by
      intro child isChild isOthers sibling isSibling same
      cases List.mem_cons.mp isChild with
      | inl isNew =>
          rw [isNew, foreign] at isOthers
          cases isOthers
      | inr old =>
          cases List.mem_cons.mp isSibling with
          | inl isNew =>
              rw [isNew] at same
              have isJobs := forked_group launching fresh old same.symm
              exact absurd (launching.apart child old isJobs id other there isOthers) elsewhere
          | inr oldToo => exact known.closed child old isOthers sibling oldToo same }

theorem put_job_jobs {now : Job} {id : Int} {other : Job}
    (there : (s.putJob launch now).jobs id = some other) :
    launch.slot = some id ∧ other = now ∨ launch.slot ≠ some id ∧ s.jobs id = some other := by
  unfold Shell.putJob at there
  cases slot : launch.slot with
  | none =>
      rw [slot] at there
      exact Or.inr ⟨(Option.some_ne_none id).symm, there⟩
  | some k =>
      rw [slot] at there
      by_cases same : id = k
      · subst same
        simp only [Function.update_self] at there
        cases there
        exact Or.inl ⟨rfl, rfl⟩
      · simp only [Function.update_of_ne same] at there
        exact Or.inr ⟨fun isSlot => same (Option.some.inj isSlot).symm, there⟩

theorem forked_older (jobs : SoundJobs s) (launching : Launching s launch.slot launch.stage job)
    (current : job.processes[launch.stage]? = some proc) {child : Child}
    (member : child ∈ s.children) (isJobs : belongs (launched s launch job pid).2 child = true) :
    belongs job child = true := by
  cases (forked_belongs launching current child).mp isJobs with
  | inl before => exact before
  | inr isBirth =>
      have bound := (jobs.children child member).2.2
      omega

/-- No job of another slot has a child of the job that is being launched. -/
theorem forked_apart (jobs : SoundJobs s) (launching : Launching s launch.slot launch.stage job)
    (current : job.processes[launch.stage]? = some proc) (fresh : Fresh s pid) {child : Child}
    (member : child ∈ newChild s job pid :: s.children)
    (isJobs : belongs (launched s launch job pid).2 child = true) {id : Int} {other : Job}
    (there : (launched s launch job pid).1.jobs id = some other)
    (isOthers : belongs other child = true) : launch.slot = some id := by
  cases put_job_jobs there with
  | inl isSlot => exact isSlot.1
  | inr elsewhere =>
      cases List.mem_cons.mp member with
      | inl isNew =>
          have foreign := (other_known jobs launching fresh elsewhere.2 elsewhere.1).2
          rw [isNew, foreign] at isOthers
          cases isOthers
      | inr old =>
          have isOlds := forked_older jobs launching current old isJobs
          exact launching.apart child old isOlds id other elsewhere.2 isOthers

theorem forked_sound (jobs : SoundJobs s) (there : s.job launch = some job)
    (launching : Launching s launch.slot launch.stage job)
    (current : job.processes[launch.stage]? = some proc) (fresh : Fresh s pid) :
    SoundJobs (launched s launch job pid).1 ∧
      LaunchSound (launched s launch job pid).1 launch (launch.stage + 1) := by
  let next := (launched s launch job pid).1
  let now := (launched s launch job pid).2
  have children : next.children = newChild s job pid :: s.children := rfl
  have knownNow : Known next.children next.births now :=
    forked_known jobs launching current fresh
  have newBelongs : belongs now (newChild s job pid) = true :=
    (forked_belongs launching current _).mpr (Or.inr rfl)
  have apart : ∀ child ∈ next.children, belongs now child = true → ∀ id other,
      next.jobs id = some other → belongs other child = true → launch.slot = some id :=
    fun child member isJobs id other => forked_apart jobs launching current fresh member isJobs
  have inSlot : ∀ id, launch.slot = some id → s.jobs id = some job := by
    intro id slot
    unfold Shell.job at there
    rw [slot] at there
    exact there
  constructor
  · exact {
      ids := by
        intro id other thereOther
        cases put_job_jobs thereOther with
        | inl isSlot =>
            obtain ⟨low, named⟩ := jobs.ids id job (inSlot id isSlot.1)
            exact ⟨low, isSlot.2 ▸ named⟩
        | inr elsewhere => exact jobs.ids id other elsewhere.2
      births := by
        rw [children, List.pairwise_cons]
        refine ⟨?_, jobs.births⟩
        intro child member same
        have bound := (jobs.children child member).2.2
        have isBirth : s.births = child.birth := same
        omega
      children := by
        intro child member
        rw [children] at member
        cases List.mem_cons.mp member with
        | inl isNew =>
            rw [isNew]
            refine ⟨fresh.1, ?_, Nat.lt_succ_self _⟩
            have positive := fresh.1
            unfold newChild
            dsimp only
            split
            · assumption
            · omega
        | inr old =>
            obtain ⟨pid, group, bound⟩ := jobs.children child old
            exact ⟨pid, group, Nat.lt_succ_of_lt bound⟩
      known := by
        intro id other thereOther
        cases put_job_jobs thereOther with
        | inl isSlot => exact isSlot.2 ▸ knownNow
        | inr elsewhere => exact (other_known jobs launching fresh elsewhere.2 elsewhere.1).1
      owners := by
        intro child member id first k second thereFirst thereSecond isFirst isSecond
        cases put_job_jobs thereFirst with
        | inl isSlot =>
            rw [isSlot.2] at isFirst
            have same := apart child member isFirst k second thereSecond isSecond
            exact Option.some.inj (isSlot.1.symm.trans same)
        | inr elsewhere =>
            cases put_job_jobs thereSecond with
            | inl isSlot =>
                rw [isSlot.2] at isSecond
                exact absurd (apart child member isSecond id first thereFirst isFirst) elsewhere.1
            | inr elsewhereToo =>
                rw [children] at member
                cases List.mem_cons.mp member with
                | inl isNew =>
                    have foreign := (other_known jobs launching fresh elsewhere.2 elsewhere.1).2
                    rw [isNew, foreign] at isFirst
                    cases isFirst
                | inr old =>
                    exact jobs.owners child old id first k second elsewhere.2 elsewhereToo.2
                      isFirst isSecond }
  · intro other thereOther
    have again := job_put s launch now
    cases again.symm.trans thereOther
    exact {
      known := knownNow
      own := by
        intro child member group
        apply (forked_belongs launching current child).mpr
        rw [children] at member
        cases List.mem_cons.mp member with
        | inl isNew =>
            right
            rw [isNew]
            rfl
        | inr old => exact Or.inl (forked_group launching fresh old group)
      later := (@forked_processes _ _ _ _ pid launching current).2.2.2
      apart := apart }

end

/-! ## Steps -/

section
variable {s next : Shell}

theorem quiet_same (children : next.children = s.children) (births : next.births = s.births)
    (jobs : next.jobs = s.jobs) (loose : next.loose = s.loose) : Quiet s next where
  children := by rw [children]
  births := births
  jobs := by
    rw [jobs]
    exact shrinks_refl s.jobs
  loose := by
    intro job there
    rw [loose] at there
    exact ⟨job, there, relabels_refl job⟩

/-- Only the table changes. -/
theorem quiet_jobs (children : next.children = s.children) (births : next.births = s.births)
    (jobs : Shrinks (Gone s.children) s.jobs next.jobs) (loose : next.loose = s.loose) :
    Quiet s next where
  children := by rw [children]
  births := births
  jobs := by
    rw [children]
    exact jobs
  loose := by
    intro job there
    rw [loose] at there
    exact ⟨job, there, relabels_refl job⟩

theorem quiet_put {launch : Launch} {job now : Job} (there : s.job launch = some job)
    (relabels : Relabels (Gone s.children) job now) : Quiet s (s.putJob launch now) where
  children := by rw [put_job_children]
  births := put_job_births s launch now
  jobs := by
    rw [put_job_children]
    exact (put_job_shrinks there relabels).1
  loose := by
    intro other thereNow
    rw [put_job_children]
    unfold Shell.job at there
    unfold Shell.putJob at thereNow
    cases slot : launch.slot with
    | none =>
        rw [slot] at there thereNow
        cases thereNow
        exact ⟨job, there, relabels⟩
    | some id =>
        rw [slot] at thereNow
        exact ⟨other, thereNow, relabels_refl other⟩

/-- After a report, with the table as it is noted there. -/
theorem quiet_reported {pid : Int} {event : Event} {jobs : Table} {pc : Pc}
    (noted : ∀ ends : Int → Prop, (event = .exited ∨ event = .signaled → ends pid) →
      Shrinks ends s.jobs jobs) :
    Quiet s { s.reported pid event with jobs := jobs, pc := pc } := by
  have fewer : (s.reported pid event).children.Sublist s.children := by
    cases event with
    | exited => exact List.filter_sublist
    | signaled => exact List.filter_sublist
    | stopped => exact List.Sublist.refl _
    | continued => exact List.Sublist.refl _
  exact {
    children := fewer
    births := reported_births s pid event
    jobs := by
      apply noted
      intro isEnd child member
      cases isEnd with
      | inl exited =>
          subst exited
          simpa using (List.mem_filter.mp member).2
      | inr signaled =>
          subst signaled
          simpa using (List.mem_filter.mp member).2
    loose := by
      intro job there
      rw [reported_loose] at there
      exact ⟨job, there, relabels_refl job⟩ }

theorem sound_quiet (sound : Sound s) (quiet : Quiet s next) (pc : SoundPc next next.pc) :
    Sound next where
  jobs := jobs_quiet sound.jobs quiet
  pc := pc

/-- Only `pc` changes. -/
theorem sound_pc (sound : Sound s) {pc : Pc} (good : SoundPc { s with pc := pc } pc) :
    Sound { s with pc := pc } :=
  sound_quiet sound (quiet_same rfl rfl rfl rfl) good

/-- A job is taken out of the table, and the shell reads the next line. -/
theorem sound_removed (sound : Sound s) (id : Int) :
    Sound { s with jobs := (removeJob s.jobs id).value, pc := .head } :=
  sound_quiet sound (quiet_jobs rfl rfl (remove_job_shrinks s.jobs id) rfl) trivial

theorem pc_quiet (quiet : Quiet s next) {pc : Pc} (good : SoundPc s pc) : SoundPc next pc := by
  cases pc with
  | head => trivial
  | checking job => exact good
  | stage launch => exact launch_quiet good quiet
  | waiting launch caller id wait =>
      obtain ⟨launching, named, counts⟩ := good
      refine ⟨launch_quiet launching quiet, named, ?_⟩
      intro unstopped now thereNow
      obtain ⟨job, there, fewer⟩ := unreaped_quiet quiet thereNow
      cases counts unstopped job there with
      | inl none => left; omega
      | inr some => right; omega
  | waited launch caller id status =>
      obtain ⟨launching, named, reaped⟩ := good
      refine ⟨launch_quiet launching quiet, named, ?_⟩
      intro ended now thereNow
      obtain ⟨job, there, fewer⟩ := unreaped_quiet quiet thereNow
      have none := reaped ended job there
      omega
  | ended launch status => exact launch_quiet good quiet

theorem wait_for_job_sound {launch : Launch} {caller : Caller} {id : Int} (jobs : SoundJobs s)
    (launching : LaunchSound s launch (launch.stage + 1)) (named : Named launch caller id) :
    Sound (waitForJob s launch caller id).value := by
  cases wait_for_job_value s launch caller id with
  | inl returns =>
      rw [returns]
      have quiet : Quiet s { s with pc := .waited launch caller id .stopped } :=
        quiet_same rfl rfl rfl rfl
      exact {
        jobs := jobs_quiet jobs quiet
        pc := ⟨launch_quiet launching quiet, named, fun ended => absurd rfl ended⟩ }
  | inr loops =>
      obtain ⟨job, there, value⟩ := loops
      rw [value]
      have quiet : Quiet s { s with
          pc := .waiting launch caller id
            { procCount := job.procCount .remaining, waitCount := 0, status := .exited
              stopSeen := false } } := quiet_same rfl rfl rfl rfl
      refine {
        jobs := jobs_quiet jobs quiet
        pc := ⟨launch_quiet launching quiet, named, ?_⟩ }
      intro _ other thereOther
      cases there.symm.trans thereOther
      have bound := unreaped_le_remaining (jobs.known id job there) jobs.births
      right
      dsimp only
      omega

/-- One turn of the loop of `wait_for_job`, when the processes that remain are still counted. -/
theorem turn_sound {launch : Launch} {caller : Caller} {id : Int} {wait : Wait} {event : Event}
    (jobs : SoundJobs s) (launching : LaunchSound s launch (launch.stage + 1))
    (named : Named launch caller id) (quiet : Quiet s next)
    (at_pc : next.pc = afterTurn launch caller id wait event)
    (counts : wait.stopSeen = false → event ≠ .stopped → ∀ job, next.jobs id = some job →
      unreaped next.children job = 0 ∨
        unreaped next.children job + (wait.waitCount + 1) ≤ wait.procCount)
    (last : wait.procCount ≤ wait.waitCount + 1 → event ≠ .stopped → AllReaped next id) :
    Sound next where
  jobs := jobs_quiet jobs quiet
  pc := by
    rw [at_pc]
    unfold afterTurn
    split
    · refine ⟨launch_quiet launching quiet, named, ?_⟩
      intro unstopped
      rw [Bool.or_eq_false_iff, decide_eq_false_iff_not] at unstopped
      exact counts unstopped.1 unstopped.2
    · next isLast =>
      refine ⟨launch_quiet launching quiet, named, ?_⟩
      exact last (by omega)

theorem report_sound {launch : Launch} {caller : Caller} {id pid : Int} {wait : Wait}
    {event : Event} {job : Job} (sound : Sound s)
    (at_pc : s.pc = .waiting launch caller id wait) (there : s.jobs id = some job)
    (isChild : ∃ child ∈ s.children, child.pid = pid ∧ child.group = job.pgid)
    (reported : (s.state pid).report false = some event)
    (allowed : NoEndAfterStop s (.report pid)) :
    Sound (waitTurn (s.reported pid event) launch caller id wait pid event).value := by
  have pc := sound.pc
  rw [at_pc] at pc
  obtain ⟨launching, named, counts⟩ := pc
  have quiet : Quiet s (waitTurn (s.reported pid event) launch caller id wait pid event).value := by
    rw [wait_turn_value, reported_jobs]
    exact quiet_reported fun ends done => note_waited_shrinks s.jobs done
  have reaps : event ≠ .stopped → ∀ now,
      (waitTurn (s.reported pid event) launch caller id wait pid event).value.jobs id = some now →
      unreaped (waitTurn (s.reported pid event) launch caller id wait pid event).value.children
        now ≤ unreaped s.children job - 1 := by
    intro isEnd now thereNow
    obtain ⟨before, thereBefore, relabels⟩ := quiet.jobs id now thereNow
    cases there.symm.trans thereBefore
    rw [unreaped_relabels relabels]
    obtain ⟨child, member, named, group⟩ := isChild
    have reaped := unreaped_reaped (sound.jobs.known id job there) member group
    rw [named] at reaped
    have children : (s.reported pid event).children =
        s.children.filter fun child => child.pid ≠ pid := by
      cases event with
      | exited => rfl
      | signaled => rfl
      | stopped => exact absurd rfl isEnd
      | continued =>
          cases state : s.state pid with
          | running continued =>
              rw [state] at reported
              cases continued with
              | _ => cases reported
          | stopped old =>
              rw [state] at reported
              cases old with
              | _ => cases reported
          | exited =>
              rw [state] at reported
              cases reported
          | killed =>
              rw [state] at reported
              cases reported
    rw [wait_turn_value]
    dsimp only
    rw [children]
    exact reaped
  apply turn_sound sound.jobs launching named quiet rfl
  · intro unstopped isEnd now thereNow
    have fewer := reaps isEnd now thereNow
    cases counts unstopped job there with
    | inl none => left; omega
    | inr some => omega
  · intro isLast isEnd now thereNow
    have fewer := reaps isEnd now thereNow
    have unstopped : wait.stopSeen = false := by
      simp only [NoEndAfterStop, at_pc, reported] at allowed
      exact allowed isLast fun stopped => isEnd (Option.some.inj stopped)
    cases counts unstopped job there with
    | inl none => omega
    | inr some => omega

theorem no_child_sound {launch : Launch} {caller : Caller} {id : Int} {wait : Wait} {job : Job}
    (sound : Sound s) (at_pc : s.pc = .waiting launch caller id wait)
    (there : s.jobs id = some job) (none : ∀ child ∈ s.children, child.group ≠ job.pgid) :
    Sound (waitTurn s launch caller id wait (-1) wait.status).value := by
  have pc := sound.pc
  rw [at_pc] at pc
  obtain ⟨launching, named, _⟩ := pc
  have gone : Gone s.children (-1) := by
    intro child member same
    have positive := (sound.jobs.children child member).1
    omega
  have quiet : Quiet s (waitTurn s launch caller id wait (-1) wait.status).value := by
    rw [wait_turn_value]
    exact quiet_jobs rfl rfl (note_waited_shrinks s.jobs fun _ => gone) rfl
  have reaped : AllReaped (waitTurn s launch caller id wait (-1) wait.status).value id := by
    intro now thereNow
    obtain ⟨before, thereBefore, relabels⟩ := quiet.jobs id now thereNow
    cases there.symm.trans thereBefore
    rw [unreaped_relabels relabels]
    apply List.countP_eq_zero.mpr
    intro child member isJobs
    exact none child member ((sound.jobs.known id job there).group child member isJobs)
  apply turn_sound sound.jobs launching named quiet rfl
  · intro _ _ now thereNow
    exact Or.inl (reaped now thereNow)
  · intro _ _
    exact reaped

theorem launching_unlaunched {slot : Option Int} {job : Job} (jobs : SoundJobs s)
    (unlaunched : Unlaunched job) : Launching s slot 0 job where
  known := known_unborn unlaunched.2
  own := by
    intro child member group
    have positive := (jobs.children child member).2.1
    rw [group, unlaunched.1] at positive
    exact absurd positive (by decide)
  later := fun proc member => unlaunched.2 proc (List.mem_of_mem_drop member)
  apart := by
    intro child _ isJobs
    obtain ⟨proc, isProc, isBirth⟩ := belongs_iff.mp isJobs
    rw [unlaunched.2 proc isProc] at isBirth
    cases isBirth

theorem inserted_sound {job : Job} {id : Int} {initialised : Int → Bool} (jobs : SoundJobs s)
    (unlaunched : Unlaunched job) (low : 1 ≤ id) (free : s.jobs id = none) :
    Sound { s with
      jobs := Function.update s.jobs id (some { job with id := id })
      initialised := initialised
      pc := .stage { slot := some id, stage := 0 } } := by
  let now : Job := { job with id := id }
  have slots : ∀ k other, Function.update s.jobs id (some now) k = some other →
      k = id ∧ other = now ∨ k ≠ id ∧ s.jobs k = some other := by
    intro k other there
    by_cases same : k = id
    · subst same
      rw [Function.update_self] at there
      exact Or.inl ⟨rfl, (Option.some.inj there).symm⟩
    · rw [Function.update_of_ne same] at there
      exact Or.inr ⟨same, there⟩
  have unborn : Unlaunched now := unlaunched
  have foreign : ∀ child, belongs now child ≠ true := by
    intro child isJobs
    obtain ⟨proc, isProc, isBirth⟩ := belongs_iff.mp isJobs
    rw [unborn.2 proc isProc] at isBirth
    cases isBirth
  have inserted : SoundJobs { s with
      jobs := Function.update s.jobs id (some now)
      initialised := initialised
      pc := .stage { slot := some id, stage := 0 } } := {
    ids := by
      intro k other there
      cases slots k other there with
      | inl isNew => exact ⟨isNew.1 ▸ low, by rw [isNew.2, isNew.1]⟩
      | inr old => exact jobs.ids k other old.2
    births := jobs.births
    children := jobs.children
    known := by
      intro k other there
      cases slots k other there with
      | inl isNew =>
          rw [isNew.2]
          exact known_unborn unborn.2
      | inr old => exact jobs.known k other old.2
    owners := by
      intro child member k first j second thereFirst thereSecond isFirst isSecond
      cases slots k first thereFirst with
      | inl isNew => exact absurd (isNew.2 ▸ isFirst) (foreign child)
      | inr old =>
          cases slots j second thereSecond with
          | inl isNew => exact absurd (isNew.2 ▸ isSecond) (foreign child)
          | inr oldToo =>
              exact jobs.owners child member k first j second old.2 oldToo.2 isFirst isSecond }
  refine { jobs := inserted, pc := ?_ }
  intro other there
  cases slots id other there with
  | inl isNew =>
      rw [isNew.2]
      exact launching_unlaunched inserted unborn
  | inr old => exact absurd rfl old.1

theorem start_launch_sound {job : Job} (jobs : SoundJobs s) (unlaunched : Unlaunched job) :
    Sound (startLaunch s job).value := by
  have loose : Sound { s with loose := some job, pc := .stage { slot := none, stage := 0 } } := by
    have launchable : Quiet { s with loose := some job }
        { s with loose := some job, pc := .stage { slot := none, stage := 0 } } :=
      quiet_same rfl rfl rfl rfl
    have before : SoundJobs { s with loose := some job } := {
      ids := jobs.ids
      births := jobs.births
      children := jobs.children
      known := jobs.known
      owners := jobs.owners }
    refine { jobs := jobs_quiet before launchable, pc := ?_ }
    intro other there
    cases there
    exact launching_unlaunched (jobs_quiet before launchable) unlaunched
  unfold startLaunch
  split
  · simp only [bind_value]
    cases insert_job_value s.jobs job with
    | inl full =>
        rw [full]
        exact loose
    | inr inserted =>
        obtain ⟨id, low, free, value⟩ := inserted
        have notNegative : ¬ id < 0 := by omega
        simp only [value, if_neg notNegative]
        exact inserted_sound jobs unlaunched low free
  · exact loose

theorem custom_sound {launch : Launch} {job : Job} {proc : Process} {sent : Bool}
    (jobs : SoundJobs s) (launching : LaunchSound s launch (launch.stage + 1))
    (custom : proc.type ≠ .external) :
    Sound (launchCustomCommand s launch job proc sent).value := by
  have after : ∀ next : Shell, Quiet s next → next.pc = afterStage launch job .exited →
      Sound next := by
    intro next quiet at_pc
    refine { jobs := jobs_quiet jobs quiet, pc := ?_ }
    rw [at_pc]
    exact after_stage_sound (launch_quiet launching quiet) job .exited
  have continued : ∀ (id group : Int) (pc : Pc), Quiet s { s.sigcont group with
      jobs := (setJobStatus s.jobs id .continued).value, pc := pc } := by
    intro id group pc
    exact quiet_jobs rfl rfl (set_job_status_shrinks s.jobs id fun isDone => nomatch isDone) rfl
  unfold launchCustomCommand
  cases type : proc.type with
  | external => exact absurd type custom
  | jobs =>
      apply after
      · exact quiet_jobs rfl rfl (command_jobs_shrinks s.jobs nrJobs 0) rfl
      · rfl
  | bg =>
      simp only [bind_value, pure_value]
      cases continue_last_job_value s proc.argc sent .commandBg with
      | inl nothing =>
          rw [nothing]
          exact after _ (quiet_same rfl rfl rfl rfl) rfl
      | inr found =>
          obtain ⟨id, last, _, _, _, value⟩ := found
          rw [value]
          exact after _ (continued id last.pgid _) rfl
  | fg =>
      simp only [bind_value]
      cases continue_last_job_value s proc.argc sent .commandFg with
      | inl nothing =>
          rw [nothing]
          exact after _ (quiet_same rfl rfl rfl rfl) rfl
      | inr found =>
          obtain ⟨id, last, _, _, _, value⟩ := found
          rw [value]
          have quiet := continued id last.pgid s.pc
          exact wait_for_job_sound (jobs_quiet jobs quiet) (launch_quiet launching quiet)
            fun helper => nomatch helper

theorem stage_step_sound {launch : Launch} {job : Job} {proc : Process} {action : Action}
    {u : Use Shell} (sound : Sound s) (at_pc : s.pc = .stage launch)
    (there : s.job launch = some job) (current : job.processes[launch.stage]? = some proc)
    (taken : stageStep s launch job proc action = some u) : Sound u.value := by
  have launching : LaunchSound s launch launch.stage := by
    have pc := sound.pc
    rw [at_pc] at pc
    exact pc
  have quiet : Quiet s (s.putJob launch
      (setStage job launch.stage fun proc => { proc with status := .running })) :=
    quiet_put there (set_stage_relabels job launch.stage)
  cases action with
  | openFails =>
      simp only [stageStep] at taken
      obtain ⟨_, result⟩ := Option.ite_none_right_eq_some.mp taken
      cases result
      exact sound_removed sound launch.jobId
  | custom sent =>
      simp only [stageStep] at taken
      obtain ⟨custom, result⟩ := Option.ite_none_right_eq_some.mp taken
      cases result
      exact custom_sound (jobs_quiet sound.jobs quiet)
        (launch_next (launch_quiet launching quiet)) custom
  | fork pid =>
      simp only [stageStep] at taken
      obtain ⟨⟨_, fresh⟩, result⟩ := Option.ite_none_right_eq_some.mp taken
      cases result
      obtain ⟨jobs, launched⟩ := forked_sound sound.jobs there (launching job there) current fresh
      unfold forked
      split
      · apply wait_for_job_sound jobs launched
        intro _ id slot
        unfold Shell.job at there
        rw [slot] at there
        exact (sound.jobs.ids id job there).2.symm
      · have same : Quiet (Commander.launched s launch job pid).1
            { (Commander.launched s launch job pid).1 with pc := afterStage launch job .exited } :=
          quiet_same rfl rfl rfl rfl
        exact {
          jobs := jobs_quiet jobs same
          pc := after_stage_sound (launch_quiet launched same) job .exited }
  | forkFails =>
      simp only [stageStep] at taken
      obtain ⟨_, result⟩ := Option.ite_none_right_eq_some.mp taken
      cases result
      have same : Quiet (s.putJob launch
          (setStage job launch.stage fun proc => { proc with status := .running }))
          { s.putJob launch
              (setStage job launch.stage fun proc => { proc with status := .running }) with
            pc := afterStage launch
              (setStage job launch.stage fun proc => { proc with status := .running }) .stopped } :=
        quiet_same rfl rfl rfl rfl
      exact {
        jobs := jobs_quiet (jobs_quiet sound.jobs quiet) same
        pc := after_stage_sound
          (launch_quiet (launch_next (launch_quiet launching quiet)) same) _ .stopped }
  | _ => cases taken

theorem finish_sound {launch : Launch} {job : Job} (sound : Sound s) (status : Event) :
    Sound (finish s launch job status).value := by
  have idle : Sound { s with pc := .head } := sound_pc sound trivial
  unfold finish
  split
  · split
    · exact sound_removed sound launch.jobId
    · split
      · exact idle
      · exact idle
  · exact idle

theorem attempt_sound {action : Action} {u : Use Shell} (sound : Sound s)
    (allowed : NoEndAfterStop s action) (taken : attempt s action = some u) : Sound u.value := by
  have pc := sound.pc
  cases attempt_cases taken with
  | @child pid _ state =>
      have quiet : Quiet s { s with state := Function.update s.state pid state } :=
        quiet_same rfl rfl rfl rfl
      exact sound_quiet sound quiet (pc_quiet quiet sound.pc)
  | line =>
      apply sound_pc sound
      intro parsed isParsed
      obtain ⟨read, _, isJob⟩ := Option.map_eq_some_iff.mp isParsed
      rw [← isJob]
      refine ⟨rfl, ?_⟩
      intro proc member
      obtain ⟨segment, _, isProc⟩ := List.mem_map.mp member
      rw [← isProc]
      rfl
  | @check pid job event at_pc _ =>
      have quiet : Quiet s { s.reported pid event with
          jobs := (checkJob s.jobs pid event).value.1 } :=
        quiet_reported fun ends done => check_job_shrinks s.jobs fun exited => done (Or.inl exited)
      apply sound_quiet sound quiet
      apply pc_quiet quiet
      change SoundPc s (s.reported pid event).pc
      rw [reported_pc]
      exact sound.pc
  | idle => exact sound_pc sound trivial
  | launch at_pc =>
      rw [at_pc] at pc
      exact start_launch_sound sound.jobs (pc _ rfl)
  | stage at_pc there current stage => exact stage_step_sound sound at_pc there current stage
  | report at_pc there isChild reported =>
      exact report_sound sound at_pc there isChild reported allowed
  | noChild at_pc there none => exact no_child_sound sound at_pc there none
  | returned => exact finish_sound sound _
  | @kept launch id job at_pc =>
      rw [at_pc] at pc
      have quiet : Quiet s { s with pc := afterStage launch job .exited } :=
        quiet_same rfl rfl rfl rfl
      exact sound_quiet sound quiet (after_stage_sound (launch_quiet pc.1 quiet) job .exited)
  | @removed launch id status job at_pc _ =>
      rw [at_pc] at pc
      have quiet : Quiet s { s with
          jobs := (removeJob s.jobs id).value, pc := afterStage launch job .exited } :=
        quiet_jobs rfl rfl (remove_job_shrinks s.jobs id) rfl
      exact sound_quiet sound quiet (after_stage_sound (launch_quiet pc.1 quiet) job .exited)
  | ended => exact finish_sound sound _

/-! ## Removal -/

theorem removed_id {t : Table} {id k : Int} {job : Job} (there : t k = some job)
    (gone : (removeJob t id).value k = none) : k = id := by
  cases found : (getJobById t id).value with
  | none =>
      simp [removeJob, found, there] at gone
  | some other =>
      by_cases same : k = id
      · exact same
      · simp [removeJob, found, Function.update_of_ne same, there] at gone

theorem finish_removes {launch : Launch} {job other : Job} {status : Event} {k : Int}
    (there : s.jobs k = some other) (gone : (finish s launch job status).value.jobs k = none) :
    status ≠ .stopped ∧ k = launch.jobId := by
  unfold finish at gone
  split at gone
  · split at gone
    · next removes => exact ⟨removes.1, removed_id there gone⟩
    · split at gone
      · exact absurd (there.symm.trans gone) (Option.some_ne_none other)
      · exact absurd (there.symm.trans gone) (Option.some_ne_none other)
  · exact absurd (there.symm.trans gone) (Option.some_ne_none other)

/-- A job that is taken out of the table when `wait_for_job` has returned. -/
theorem removed_reaped {launch : Launch} {caller : Caller} {id k : Int} {status : Event}
    {job : Job} {next : Shell} (sound : Sound s) (at_pc : s.pc = .waited launch caller id status)
    (taken : step s .advance = some next) (there : s.jobs k = some job)
    (gone : next.jobs k = none) : unreaped s.children job = 0 := by
  obtain ⟨u, attempted, result⟩ := Option.map_eq_some_iff.mp taken
  cases result
  have pc := sound.pc
  rw [at_pc] at pc
  obtain ⟨_, named, reaped⟩ := pc
  simp only [attempt, at_pc] at attempted
  cases caller with
  | launchCommandHelper =>
      obtain ⟨launchedJob, _, result⟩ := Option.map_eq_some_iff.mp attempted
      cases result
      obtain ⟨ended, isJobId⟩ := finish_removes there gone
      apply reaped ended
      obtain ⟨low, _⟩ := sound.jobs.ids k job there
      unfold Launch.jobId at isJobId
      cases slot : launch.slot with
      | none =>
          rw [slot] at isJobId
          rw [isJobId] at low
          exact absurd low (by decide)
      | some i =>
          rw [slot] at isJobId
          rw [← named rfl i slot, ← show k = i from isJobId]
          exact there
  | commandFg =>
      dsimp only at attempted
      split at attempted
      · obtain ⟨launchedJob, _, result⟩ := Option.map_eq_some_iff.mp attempted
        cases result
        exact absurd (there.symm.trans gone) (Option.some_ne_none job)
      · next ended =>
        obtain ⟨launchedJob, _, result⟩ := Option.map_eq_some_iff.mp attempted
        cases result
        apply reaped ended
        rw [← removed_id there gone]
        exact there

end

/-- In a run where no call of `wait_for_job` ends with the end of a child after a stop, a job that
is taken out of the table has no process that runs or is stopped. -/
theorem removed_jobs_have_ended {s : Shell} (run : Reaches step NoEndAfterStop Shell.start s) :
    RemovesEnded s := by
  have sound : Sound s := by
    apply reaches_invariant Sound start_sound _ run
    intro state action after good allowed stepped
    obtain ⟨u, attempted, result⟩ := Option.map_eq_some_iff.mp stepped
    cases result
    exact attempt_sound good allowed attempted
  intro launch caller id status returned next taken k job there gone proc member alive
  have reaped := removed_reaped sound returned taken there gone
  obtain ⟨child, isChild, isBirth, _⟩ := alive
  have foreign := List.countP_eq_zero.mp reaped child isChild
  exact foreign (belongs_iff.mpr ⟨proc, member, isBirth⟩)

instance (s : Shell) (proc : Process) : Decidable (Alive s proc) :=
  inferInstanceAs (Decidable (∃ child ∈ s.children, _ ∧ _ ∧ _))

instance (s : Shell) (action : Action) : Decidable (NoEndAfterStop s action) :=
  match action with
  | .report pid =>
      match at_pc : s.pc with
      | .waiting _ _ _ wait =>
          decidable_of_iff (wait.procCount ≤ wait.waitCount + 1 →
            (s.state pid).report false ≠ some .stopped → wait.stopSeen = false)
            (by simp [NoEndAfterStop, at_pc])
      | .head | .checking _ | .stage _ | .waited _ _ _ _ | .ended _ _ =>
          isTrue (by simp [NoEndAfterStop, at_pc])
  | .child _ _ | .line _ | .check _ | .checked | .openFails | .custom _ | .fork _ | .forkFails
  | .noChild | .advance => instDecidableTrue

def stages : List Segment :=
  [{ command := "sleep 9", name := "sleep", argc := 2, inputPath := none, status := .done },
    { command := "cat", name := "cat", argc := 1, inputPath := none, status := .suspended }]

/-- `sleep 9 | cat` -/
def pipeline : Line :=
  { segments := stages
    rooted := by decide
    mode := .foreground
    id := -7 }

/-- It runs as 7 and 8 in slot 1. -/
def launchPipeline : List Action := [.line (some pipeline), .checked, .fork 7, .fork 8]

/-- `wait_for_job` has returned, and the next step takes the job out of slot 1. -/
def removes (s : Shell) : Bool :=
  match s.pc with
  | .waited _ _ _ _ => (s.jobs 1).isSome && (step s .advance).any fun next => (next.jobs 1).isNone
  | _ => false

theorem removed_jobs_have_ended_exits :
    ∃ s, Reaches step NoEndAfterStop Shell.start s ∧ removes s = true ∧ RemovesEnded s := by
  obtain ⟨s, run, ends⟩ := @reaches_of_check _ _ step NoEndAfterStop _ Shell.start
    (launchPipeline ++ [.child 8 .exit, .report 8, .child 7 .die, .report 7]) removes
    (by decide +kernel)
  exact ⟨s, run, ends, removed_jobs_have_ended run⟩

/-- Process 7 is stopped, and 8 exits. -/
theorem stopped_process_loses_its_job :
    ∃ s, Reaches step (fun _ _ => True) Shell.start s ∧ removes s = true ∧ ¬ RemovesEnded s := by
  obtain ⟨s, run, ends⟩ := @reaches_of_check _ _ step (fun _ _ => True) _ Shell.start
    (launchPipeline ++ [.child 7 .stop, .report 7, .child 8 .exit, .report 8])
    (fun s => removes s &&
      (s.jobs 1).any fun job => job.processes.any fun proc => decide (Alive s proc))
    (by decide +kernel)
  rw [Bool.and_eq_true] at ends
  refine ⟨s, run, ends.1, ?_⟩
  intro ended
  obtain ⟨taken, alive⟩ := ends
  unfold removes at taken
  obtain ⟨job, there, found⟩ := Option.any_eq_true _ _ |>.mp alive
  obtain ⟨proc, member, isAlive⟩ := List.any_eq_true.mp found
  cases at_pc : s.pc with
  | waited launch caller id status =>
      rw [at_pc] at taken
      obtain ⟨next, stepped, gone⟩ := Option.any_eq_true _ _ |>.mp (Bool.and_eq_true _ _ |>.mp taken).2
      exact ended launch caller id status at_pc next stepped 1 job there
        (Option.isNone_iff_eq_none.mp gone) proc member (of_decide_eq_true isAlive)
  | _ =>
      rw [at_pc] at taken
      cases taken

end UtSystems.Yash.WaitForJob

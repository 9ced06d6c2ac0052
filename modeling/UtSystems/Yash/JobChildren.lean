import Mathlib.Data.List.Perm.Subperm
import UtSystems.Yash.Relabeling

/-!
# The children of a job

Which children of the shell are processes of a job, while they come and go. As pids and process
groups come again, a child is told from another by the `fork` that made it.
-/

namespace UtSystems.Yash.JobChildren

open Yash.JobManager Yash.Commander Yash.Relabeling

set_option autoImplicit false

def belongs (job : Job) (child : Child) : Bool :=
  job.processes.any fun proc => proc.birth = some child.birth

theorem belongs_iff {job : Job} {child : Child} :
    belongs job child = true ↔ ∃ proc ∈ job.processes, proc.birth = some child.birth := by
  simp [belongs]

/-- How many processes of a job have not been reaped. -/
def unreaped (children : List Child) (job : Job) : Nat := children.countP (belongs job)

/-- No child has this pid. -/
def Gone (children : List Child) (pid : Int) : Prop := ∀ child ∈ children, child.pid ≠ pid

/-- What the shell knows of a job is true of its children, and their process group is theirs
alone. -/
structure Known (children : List Child) (births : Nat) (job : Job) : Prop where
  born : ∀ proc ∈ job.processes, ∀ birth, proc.birth = some birth → birth < births
  pid : ∀ proc ∈ job.processes, ∀ child ∈ children, proc.birth = some child.birth →
    proc.pid = child.pid
  done : ∀ proc ∈ job.processes, proc.status = .done → ∀ child ∈ children,
    proc.birth ≠ some child.birth
  group : ∀ child ∈ children, belongs job child = true → child.group = job.pgid
  closed : ∀ child ∈ children, belongs job child = true → ∀ other ∈ children,
    other.group = child.group → belongs job other = true

section
variable {children fewer : List Child} {births : Nat} {job now : Job}

theorem follows_mem {ends : Int → Prop} {list after : List Process} {proc : Process}
    (follows : List.Forall₂ (Follows ends) list after) (member : proc ∈ after) :
    ∃ before ∈ list, Follows ends before proc := by
  induction follows with
  | nil => cases member
  | cons head _ ih =>
      cases List.mem_cons.mp member with
      | inl isHead =>
          subst isHead
          exact ⟨_, List.mem_cons_self, head⟩
      | inr later =>
          obtain ⟨before, earlier, same⟩ := ih later
          exact ⟨before, List.mem_cons_of_mem _ earlier, same⟩

theorem follows_births {ends : Int → Prop} {list after : List Process}
    (follows : List.Forall₂ (Follows ends) list after) :
    after.map Process.birth = list.map Process.birth := by
  induction follows with
  | nil => rfl
  | cons head _ ih => rw [List.map_cons, List.map_cons, ih, head.same]

theorem belongs_relabels {ends : Int → Prop} (relabels : Relabels ends job now) (child : Child) :
    belongs now child = belongs job child := by
  have births : ∀ other : Job, belongs other child = true ↔
      some child.birth ∈ other.processes.map Process.birth := by
    intro other
    simp [belongs]
  rw [Bool.eq_iff_iff, births, births, follows_births relabels.processes]

theorem unreaped_relabels {ends : Int → Prop} (relabels : Relabels ends job now) :
    unreaped children now = unreaped children job := by
  unfold unreaped
  congr 1
  funext child
  exact belongs_relabels relabels child

/-- A process may become Done when no child has its pid. -/
theorem known_relabels (known : Known children births job)
    (relabels : Relabels (Gone children) job now) : Known children births now where
  born := by
    intro proc member birth isBirth
    obtain ⟨before, earlier, follows⟩ := follows_mem relabels.processes member
    rw [follows.same] at isBirth
    exact known.born before earlier birth isBirth
  pid := by
    intro proc member child isChild isBirth
    obtain ⟨before, earlier, follows⟩ := follows_mem relabels.processes member
    rw [follows.same] at isBirth ⊢
    exact known.pid before earlier child isChild isBirth
  done := by
    intro proc member isDone child isChild isBirth
    obtain ⟨before, earlier, follows⟩ := follows_mem relabels.processes member
    rw [follows.same] at isBirth
    cases follows.done isDone with
    | inl already => exact known.done before earlier already child isChild isBirth
    | inr gone => exact gone child isChild (known.pid before earlier child isChild isBirth).symm
  group := by
    intro child isChild belongsNow
    rw [belongs_relabels relabels] at belongsNow
    rw [relabels.pgid]
    exact known.group child isChild belongsNow
  closed := by
    intro child isChild belongsNow other isOther same
    rw [belongs_relabels relabels] at belongsNow ⊢
    exact known.closed child isChild belongsNow other isOther same

theorem known_fewer (known : Known children births job) (subset : fewer ⊆ children) :
    Known fewer births job where
  born := known.born
  pid := fun proc member child isChild => known.pid proc member child (subset isChild)
  done := fun proc member isDone child isChild => known.done proc member isDone child (subset isChild)
  group := fun child isChild => known.group child (subset isChild)
  closed := fun child isChild isJobs other isOther =>
    known.closed child (subset isChild) isJobs other (subset isOther)

/-- A job that has not been launched. -/
theorem known_unborn (unborn : ∀ proc ∈ job.processes, proc.birth = none) :
    Known children births job := by
  have foreign : ∀ child, belongs job child ≠ true := by
    intro child isJobs
    obtain ⟨proc, member, isBirth⟩ := belongs_iff.mp isJobs
    rw [unborn proc member] at isBirth
    cases isBirth
  exact {
    born := by
      intro proc member birth isBirth
      rw [unborn proc member] at isBirth
      cases isBirth
    pid := by
      intro proc member child _ isBirth
      rw [unborn proc member] at isBirth
      cases isBirth
    done := by
      intro proc member _ child _ isBirth
      rw [unborn proc member] at isBirth
      cases isBirth
    group := fun child _ isJobs => absurd isJobs (foreign child)
    closed := fun child _ isJobs => absurd isJobs (foreign child) }

/-- Each child that has not been reaped counts as a remaining process. -/
theorem unreaped_le_remaining (known : Known children births job)
    (apart : children.Pairwise fun child other => child.birth ≠ other.birth) :
    unreaped children job ≤ job.procCount .remaining := by
  let own := (children.filter (belongs job)).map Child.birth
  let remaining := job.processes.filter ProcFilter.remaining.counts
  have distinct : own.Nodup := by
    rw [List.Nodup, List.pairwise_map]
    exact apart.filter _
  have counted : own ⊆ remaining.filterMap Process.birth := by
    intro birth member
    obtain ⟨child, isChild, isBirth⟩ := List.mem_map.mp member
    obtain ⟨present, isJobs⟩ := List.mem_filter.mp isChild
    obtain ⟨proc, isProc, named⟩ := belongs_iff.mp isJobs
    apply List.mem_filterMap.mpr
    refine ⟨proc, List.mem_filter.mpr ⟨isProc, ?_⟩, named.trans (congrArg some isBirth)⟩
    have running : proc.status ≠ .done := fun isDone =>
      known.done proc isProc isDone child present named
    simp [ProcFilter.counts, running]
  calc unreaped children job = own.length := by
        rw [unreaped, List.countP_eq_length_filter, List.length_map]
    _ ≤ (remaining.filterMap Process.birth).length := (distinct.subperm counted).length_le
    _ ≤ remaining.length := List.length_filterMap_le _ _
    _ = job.procCount .remaining := List.countP_eq_length_filter.symm

/-- A reaped child of the group is one of the job's, if the job has any. -/
theorem unreaped_reaped (known : Known children births job) {reaped : Child}
    (isChild : reaped ∈ children) (group : reaped.group = job.pgid) :
    unreaped (children.filter fun child => child.pid ≠ reaped.pid) job ≤
      unreaped children job - 1 := by
  have bound : unreaped (children.filter fun child => child.pid ≠ reaped.pid) job ≤
      unreaped children job := List.Sublist.countP_le List.filter_sublist
  by_cases none : unreaped children job = 0
  · omega
  · obtain ⟨child, present, isJobs⟩ := List.countP_pos_iff.mp (Nat.pos_of_ne_zero none)
    have own : belongs job reaped = true := by
      apply known.closed child present isJobs reaped isChild
      rw [group, known.group child present isJobs]
    have split := List.countP_eq_countP_filter_add children (belongs job)
      fun child => child.pid ≠ reaped.pid
    have positive : 0 < (children.filter fun child => ! decide (child.pid ≠ reaped.pid)).countP
        (belongs job) := by
      apply List.countP_pos_iff.mpr
      exact ⟨reaped, List.mem_filter.mpr ⟨isChild, by simp⟩, own⟩
    unfold unreaped at *
    omega

end

end UtSystems.Yash.JobChildren

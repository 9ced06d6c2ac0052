import Mathlib.Data.List.Basic
import Mathlib.Data.Nat.Init
import Mathlib.Logic.Function.Basic
import Mathlib.Order.Basic
import UtSystems.Lib.Bytes
import UtSystems.Lib.GuardedRun

/-!
# The job table of yashd

`jobs` and `jobsNextIndex` of `sYashThreadType`, with the functions that take `job_sem`, work on
them and give it back. A slot with `pgId` 0 is empty. The table stands for a list of live jobs in
the order they were pushed: a push appends to it, a removal from the middle leaves a hole.
-/

namespace UtSystems.Yashd.JobTable

open Lib.Bytes Lib.GuardedRun

set_option autoImplicit false

def maxJobs : Nat := 100

inductive EProcStatus where
  | run
  | stop
  | done
deriving DecidableEq

structure SJobType where
  inputString : List Byte
  activeString : List Byte
  pgId : Int
  status : EProcStatus

/-- `sCommandDetail`, with `cmdMatrix` as it lies in memory: here it is only copied. -/
structure SCommandDetail where
  isBackground : Bool
  jobInfo : SJobType
  cmdMatrix : List Byte

/-- What `memset` with 0 leaves. -/
def SCommandDetail.zeroed : SCommandDetail :=
  { isBackground := false
    jobInfo := { inputString := [], activeString := [], pgId := 0, status := .run }
    cmdMatrix := List.replicate (2 * 1320) 0 }

def SCommandDetail.pgId (cmdInfo : SCommandDetail) : Int := cmdInfo.jobInfo.pgId

def SCommandDetail.status (cmdInfo : SCommandDetail) : EProcStatus := cmdInfo.jobInfo.status

def SCommandDetail.setStatus (cmdInfo : SCommandDetail) (status : EProcStatus) :
    SCommandDetail :=
  { cmdInfo with jobInfo := { cmdInfo.jobInfo with status := status } }

structure Table where
  jobs : Nat → SCommandDetail
  jobsNextIndex : Nat

def Table.zeroed : Table := { jobs := fun _ => .zeroed, jobsNextIndex := 0 }

/-- The slot at which the loops over the table stop. -/
def Table.slotOf (t : Table) (pgId : Int) : Option Nat :=
  (List.range maxJobs).find? fun i => pgId = (t.jobs i).pgId

/-- No result: the copy would lie outside of `jobs`. -/
def Table.pushJobCmd (t : Table) (cmdInfo : SCommandDetail) : Option Table :=
  if t.jobsNextIndex < maxJobs then
    some {
      jobs := Function.update t.jobs t.jobsNextIndex cmdInfo
      jobsNextIndex := t.jobsNextIndex + 1 }
  else none

def Table.updateJobCmd (t : Table) (pgId : Int) (status : EProcStatus) : Table :=
  match t.slotOf pgId with
  | none => t
  | some i => { t with jobs := Function.update t.jobs i ((t.jobs i).setStatus status) }

/-- The `while` loop of `remove_job_cmd`. -/
def lowered (jobs : Nat → SCommandDetail) : Nat → Nat
  | 0 => 0
  | n + 1 => if (jobs n).pgId = 0 then lowered jobs n else n + 1

def Table.removeJobCmd (t : Table) (pgId : Int) : Table :=
  match t.slotOf pgId with
  | none => t
  | some i =>
      let jobs := Function.update t.jobs i .zeroed
      { jobs := jobs
        jobsNextIndex :=
          if t.jobsNextIndex = i + 1 then lowered jobs t.jobsNextIndex else t.jobsNextIndex }

/-- The argument is what `cmdInfo` holds before. -/
def Table.getLastJobCmd (t : Table) (cmdInfo : SCommandDetail) :
    SCommandDetail :=
  if 0 < t.jobsNextIndex then t.jobs (t.jobsNextIndex - 1) else cmdInfo

def lastStopBelow (jobs : Nat → SCommandDetail) (cmdInfo : SCommandDetail) :
    Nat → SCommandDetail
  | 0 => cmdInfo
  | n + 1 =>
      if (jobs n).pgId ≠ 0 ∧ (jobs n).status = .stop then jobs n else lastStopBelow jobs cmdInfo n

def Table.getLastStopCmd (t : Table) (cmdInfo : SCommandDetail) :
    SCommandDetail :=
  lastStopBelow t.jobs cmdInfo t.jobsNextIndex

/-! ## The live jobs -/

def liveBelow (jobs : Nat → SCommandDetail) (n : Nat) : List SCommandDetail :=
  ((List.range n).map jobs).filter fun cmdInfo => cmdInfo.pgId ≠ 0

/-- The occupied slots in index order. -/
def Table.live (t : Table) : List SCommandDetail := liveBelow t.jobs maxJobs

structure Ordered (t : Table) : Prop where
  room : t.jobsNextIndex ≤ maxJobs
  above : ∀ i, t.jobsNextIndex ≤ i → i < maxJobs → (t.jobs i).pgId = 0
  top : t.jobsNextIndex = 0 ∨ (t.jobs (t.jobsNextIndex - 1)).pgId ≠ 0
  holes : ∀ i, i < maxJobs → (t.jobs i).pgId = 0 → t.jobs i = .zeroed
  distinct : ∀ i j, i < maxJobs → j < maxJobs → (t.jobs i).pgId ≠ 0 →
    (t.jobs i).pgId = (t.jobs j).pgId → i = j

theorem live_below_succ (jobs : Nat → SCommandDetail) (n : Nat) :
    liveBelow jobs (n + 1) =
      if (jobs n).pgId = 0 then liveBelow jobs n else liveBelow jobs n ++ [jobs n] := by
  rw [liveBelow, List.range_succ, List.map_append, List.filter_append]
  by_cases empty : (jobs n).pgId = 0
  · rw [if_pos empty]
    simp [liveBelow, empty]
  · rw [if_neg empty]
    simp [liveBelow, empty]

theorem live_below_empty {jobs : Nat → SCommandDetail} {low high : Nat} (le : low ≤ high)
    (empty : ∀ i, low ≤ i → i < high → (jobs i).pgId = 0) :
    liveBelow jobs high = liveBelow jobs low := by
  induction high, le using Nat.le_induction with
  | base => rfl
  | succ n le ih =>
      rw [live_below_succ, if_pos (empty n le (Nat.lt_succ_self n))]
      exact ih fun i low high => empty i low (Nat.lt_succ_of_lt high)

theorem live_below_congr {jobs other : Nat → SCommandDetail} {n : Nat}
    (same : ∀ i, i < n → jobs i = other i) : liveBelow jobs n = liveBelow other n := by
  unfold liveBelow
  congr 1
  apply List.map_congr_left
  intro i member
  exact same i (List.mem_range.mp member)

theorem mem_live {t : Table} {cmdInfo : SCommandDetail} :
    cmdInfo ∈ t.live ↔ ∃ i, i < maxJobs ∧ t.jobs i = cmdInfo ∧ cmdInfo.pgId ≠ 0 := by
  simp only [Table.live, liveBelow, List.mem_filter, List.mem_map, List.mem_range,
    decide_eq_true_eq]
  constructor
  · intro found
    rcases found with ⟨⟨i, bound, at_i⟩, live⟩
    exact ⟨i, bound, at_i, live⟩
  · intro found
    rcases found with ⟨i, bound, at_i, live⟩
    exact ⟨⟨i, bound, at_i⟩, live⟩

theorem Ordered.live_next {t : Table} (ordered : Ordered t) :
    t.live = liveBelow t.jobs t.jobsNextIndex :=
  live_below_empty ordered.room ordered.above

theorem zeroed_ordered : Ordered Table.zeroed where
  room := Nat.zero_le _
  above := fun _ _ _ => rfl
  top := Or.inl rfl
  holes := fun _ _ _ => rfl
  distinct := fun _ _ _ _ occupied _ => absurd rfl occupied

theorem zeroed_live : Table.zeroed.live = [] :=
  live_below_empty (Nat.zero_le _) fun _ _ _ => rfl

/-! ## What the calls do to the live jobs -/

theorem slot_of_some {t : Table} {pgId : Int} {i : Nat} (found : t.slotOf pgId = some i) :
    i < maxJobs ∧ (t.jobs i).pgId = pgId := by
  constructor
  · exact List.mem_range.mp (List.mem_of_find?_eq_some found)
  · have hit := List.find?_some found
    exact (of_decide_eq_true hit).symm

theorem slot_of_none {t : Table} {pgId : Int} (missing : t.slotOf pgId = none) {i : Nat}
    (bound : i < maxJobs) : (t.jobs i).pgId ≠ pgId := by
  intro same
  have miss := List.find?_eq_none.mp missing i (List.mem_range.mpr bound)
  exact miss (decide_eq_true same.symm)

theorem push_job_ok {t next : Table} {cmdInfo : SCommandDetail}
    (pushed : t.pushJobCmd cmdInfo = some next) :
    t.jobsNextIndex < maxJobs ∧
      next = {
        jobs := Function.update t.jobs t.jobsNextIndex cmdInfo
        jobsNextIndex := t.jobsNextIndex + 1 } := by
  unfold Table.pushJobCmd at pushed
  split at pushed
  · next room => exact ⟨room, (Option.some.inj pushed).symm⟩
  · cases pushed

theorem push_ordered {t next : Table} {cmdInfo : SCommandDetail} (ordered : Ordered t)
    (occupied : cmdInfo.pgId ≠ 0) (fresh : ∀ other ∈ t.live, other.pgId ≠ cmdInfo.pgId)
    (pushed : t.pushJobCmd cmdInfo = some next) : Ordered next := by
  obtain ⟨room, isNext⟩ := push_job_ok pushed
  subst isNext
  have others : ∀ i, i < maxJobs → (t.jobs i).pgId ≠ cmdInfo.pgId := by
    intro i bound same
    have live : t.jobs i ∈ t.live := by
      apply mem_live.mpr
      exact ⟨i, bound, rfl, same ▸ occupied⟩
    exact fresh _ live same
  exact {
    room := room
    above := by
      intro i low high
      have apart : i ≠ t.jobsNextIndex := by
        dsimp only at low
        omega
      dsimp only at low ⊢
      rw [Function.update_of_ne apart]
      exact ordered.above i (by omega) high
    top := by
      right
      dsimp only
      rw [Nat.add_sub_cancel, Function.update_self]
      exact occupied
    holes := by
      intro i bound empty
      dsimp only at empty ⊢
      by_cases at_next : i = t.jobsNextIndex
      · rw [at_next, Function.update_self] at empty
        exact absurd empty occupied
      · rw [Function.update_of_ne at_next] at empty ⊢
        exact ordered.holes i bound empty
    distinct := by
      intro i j boundI boundJ occupiedI same
      dsimp only at occupiedI same
      by_cases nextI : i = t.jobsNextIndex
      · by_cases nextJ : j = t.jobsNextIndex
        · rw [nextI, nextJ]
        · rw [nextI, Function.update_self, Function.update_of_ne nextJ] at same
          exact absurd same.symm (others j boundJ)
      · rw [Function.update_of_ne nextI] at same occupiedI
        by_cases nextJ : j = t.jobsNextIndex
        · rw [nextJ, Function.update_self] at same
          exact absurd same (others i boundI)
        · rw [Function.update_of_ne nextJ] at same
          exact ordered.distinct i j boundI boundJ occupiedI same }

theorem push_live {t next : Table} {cmdInfo : SCommandDetail} (ordered : Ordered t)
    (occupied : cmdInfo.pgId ≠ 0) (fresh : ∀ other ∈ t.live, other.pgId ≠ cmdInfo.pgId)
    (pushed : t.pushJobCmd cmdInfo = some next) : next.live = t.live ++ [cmdInfo] := by
  rw [(push_ordered ordered occupied fresh pushed).live_next, ordered.live_next]
  obtain ⟨_, isNext⟩ := push_job_ok pushed
  subst isNext
  dsimp only
  have rest : liveBelow (Function.update t.jobs t.jobsNextIndex cmdInfo) t.jobsNextIndex =
      liveBelow t.jobs t.jobsNextIndex := by
    apply live_below_congr
    intro i below
    exact Function.update_of_ne (Nat.ne_of_lt below) _ _
  rw [live_below_succ, rest, Function.update_self, if_neg occupied]

/-- The slot the loops stop at is the only one they could stop at. -/
theorem slot_rewritten {t : Table} (ordered : Ordered t) {pgId : Int} (named : pgId ≠ 0)
    {i k : Nat} (bound : i < maxJobs) (found : t.slotOf pgId = some k)
    (change : SCommandDetail → SCommandDetail) :
    Function.update t.jobs k (change (t.jobs k)) i =
      if (t.jobs i).pgId = pgId then change (t.jobs i) else t.jobs i := by
  obtain ⟨boundK, atK⟩ := slot_of_some found
  by_cases same : i = k
  · rw [same, Function.update_self, if_pos atK]
  · rw [Function.update_of_ne same, if_neg]
    intro atI
    apply same
    exact ordered.distinct i k bound boundK (atI ▸ named) (atI.trans atK.symm)

theorem update_slots {t : Table} (ordered : Ordered t) {pgId : Int} (named : pgId ≠ 0)
    (status : EProcStatus) {i : Nat} (bound : i < maxJobs) :
    (t.updateJobCmd pgId status).jobs i =
      if (t.jobs i).pgId = pgId then (t.jobs i).setStatus status else t.jobs i := by
  unfold Table.updateJobCmd
  cases found : t.slotOf pgId with
  | none => exact (if_neg (slot_of_none found bound)).symm
  | some k => exact slot_rewritten ordered named bound found fun job => job.setStatus status

theorem remove_slots {t : Table} (ordered : Ordered t) {pgId : Int} (named : pgId ≠ 0)
    {i : Nat} (bound : i < maxJobs) :
    (t.removeJobCmd pgId).jobs i = if (t.jobs i).pgId = pgId then .zeroed else t.jobs i := by
  unfold Table.removeJobCmd
  cases found : t.slotOf pgId with
  | none => exact (if_neg (slot_of_none found bound)).symm
  | some k => exact slot_rewritten ordered named bound found fun _ => .zeroed

theorem update_next (t : Table) (pgId : Int) (status : EProcStatus) :
    (t.updateJobCmd pgId status).jobsNextIndex = t.jobsNextIndex := by
  unfold Table.updateJobCmd
  cases t.slotOf pgId <;> rfl

theorem update_ordered {t : Table} (ordered : Ordered t) {pgId : Int} (named : pgId ≠ 0)
    (status : EProcStatus) : Ordered (t.updateJobCmd pgId status) := by
  have slots := fun (i : Nat) (bound : i < maxJobs) => update_slots ordered named status bound
  have ids : ∀ i, i < maxJobs → ((t.updateJobCmd pgId status).jobs i).pgId = (t.jobs i).pgId := by
    intro i bound
    rw [slots i bound]
    split
    · rfl
    · rfl
  exact {
    room := by
      rw [update_next]
      exact ordered.room
    above := by
      intro i low high
      rw [update_next] at low
      rw [ids i high]
      exact ordered.above i low high
    top := by
      rw [update_next]
      cases ordered.top with
      | inl none => exact Or.inl none
      | inr occupied =>
          by_cases none : t.jobsNextIndex = 0
          · exact Or.inl none
          · right
            have room := ordered.room
            rw [ids _ (by omega)]
            exact occupied
    holes := by
      intro i bound empty
      rw [ids i bound] at empty
      rw [slots i bound, if_neg (empty ▸ named.symm)]
      exact ordered.holes i bound empty
    distinct := by
      intro i j boundI boundJ occupied same
      rw [ids i boundI] at occupied same
      rw [ids j boundJ] at same
      exact ordered.distinct i j boundI boundJ occupied same }

theorem live_below_map {jobs after : Nat → SCommandDetail} {n : Nat}
    {change : SCommandDetail → SCommandDetail} (keeps : ∀ job, (change job).pgId = job.pgId)
    (changed : ∀ i, i < n → after i = change (jobs i)) :
    liveBelow after n = (liveBelow jobs n).map change := by
  induction n with
  | zero => rfl
  | succ n ih =>
      have below := ih fun i bound => changed i (Nat.lt_succ_of_lt bound)
      rw [live_below_succ, live_below_succ, below, changed n (Nat.lt_succ_self n), keeps]
      split
      · rfl
      · rw [List.map_append, List.map_singleton]

theorem live_below_filter {jobs after : Nat → SCommandDetail} {n : Nat} {pgId : Int}
    (changed : ∀ i, i < n → after i = if (jobs i).pgId = pgId then .zeroed else jobs i) :
    liveBelow after n = (liveBelow jobs n).filter fun job => job.pgId ≠ pgId := by
  induction n with
  | zero => rfl
  | succ n ih =>
      have below := ih fun i bound => changed i (Nat.lt_succ_of_lt bound)
      rw [live_below_succ, live_below_succ, below, changed n (Nat.lt_succ_self n)]
      by_cases named : (jobs n).pgId = pgId
      · rw [if_pos named, if_pos (show SCommandDetail.zeroed.pgId = 0 from rfl)]
        split
        · rfl
        · rw [List.filter_append]
          simp [named]
      · rw [if_neg named]
        split
        · rfl
        · rw [List.filter_append]
          simp [named]

theorem update_live {t : Table} (ordered : Ordered t) {pgId : Int} (named : pgId ≠ 0)
    (status : EProcStatus) :
    (t.updateJobCmd pgId status).live =
      t.live.map fun job => if job.pgId = pgId then job.setStatus status else job := by
  apply live_below_map
  · intro job
    split
    · rfl
    · rfl
  · intro i bound
    exact update_slots ordered named status bound

theorem lowered_le (jobs : Nat → SCommandDetail) (n : Nat) : lowered jobs n ≤ n := by
  induction n with
  | zero => exact Nat.le_refl 0
  | succ n ih =>
      rw [lowered]
      split
      · exact Nat.le_succ_of_le ih
      · exact Nat.le_refl _

theorem lowered_above (jobs : Nat → SCommandDetail) (n i : Nat) (low : lowered jobs n ≤ i)
    (high : i < n) : (jobs i).pgId = 0 := by
  induction n with
  | zero => exact absurd high (Nat.not_lt_zero i)
  | succ n ih =>
      rw [lowered] at low
      split at low
      · next empty =>
        by_cases last : i = n
        · rw [last]
          exact empty
        · exact ih low (by omega)
      · exact absurd high (Nat.not_lt_of_le low)

theorem lowered_top (jobs : Nat → SCommandDetail) (n : Nat) :
    lowered jobs n = 0 ∨ (jobs (lowered jobs n - 1)).pgId ≠ 0 := by
  induction n with
  | zero => exact Or.inl rfl
  | succ n ih =>
      rw [lowered]
      split
      · exact ih
      · next occupied => exact Or.inr occupied

theorem remove_ordered {t : Table} (ordered : Ordered t) {pgId : Int} (named : pgId ≠ 0) :
    Ordered (t.removeJobCmd pgId) := by
  have slots := fun (i : Nat) (bound : i < maxJobs) => remove_slots ordered named bound
  have holes : ∀ i, i < maxJobs → ((t.removeJobCmd pgId).jobs i).pgId = 0 →
      (t.removeJobCmd pgId).jobs i = .zeroed := by
    intro i bound empty
    rw [slots i bound] at empty ⊢
    split
    · rfl
    · next other =>
      rw [if_neg other] at empty
      exact ordered.holes i bound empty
  have distinct : ∀ i j, i < maxJobs → j < maxJobs → ((t.removeJobCmd pgId).jobs i).pgId ≠ 0 →
      ((t.removeJobCmd pgId).jobs i).pgId = ((t.removeJobCmd pgId).jobs j).pgId → i = j := by
    intro i j boundI boundJ occupied same
    rw [slots i boundI] at occupied same
    rw [slots j boundJ] at same
    split at occupied
    · exact absurd rfl occupied
    · next otherI =>
      rw [if_neg otherI] at same
      split at same
      · exact absurd same occupied
      · exact ordered.distinct i j boundI boundJ occupied same
  have emptied : ∀ i, t.jobsNextIndex ≤ i → i < maxJobs →
      ((t.removeJobCmd pgId).jobs i).pgId = 0 := by
    intro i low high
    rw [slots i high]
    split
    · rfl
    · exact ordered.above i low high
  cases found : t.slotOf pgId with
  | none =>
      have same : t.removeJobCmd pgId = t := by
        unfold Table.removeJobCmd
        rw [found]
      rw [same]
      exact ordered
  | some k =>
      obtain ⟨boundK, atK⟩ := slot_of_some found
      by_cases last : t.jobsNextIndex = k + 1
      · have next : (t.removeJobCmd pgId).jobsNextIndex =
            lowered (t.removeJobCmd pgId).jobs t.jobsNextIndex := by
          unfold Table.removeJobCmd
          rw [found]
          exact if_pos last
        exact {
          room := by
            rw [next]
            exact Nat.le_trans (lowered_le _ _) ordered.room
          above := by
            intro i low high
            rw [next] at low
            by_cases below : i < t.jobsNextIndex
            · exact lowered_above _ _ i low below
            · exact emptied i (Nat.le_of_not_lt below) high
          top := next ▸ lowered_top _ _
          holes := holes
          distinct := distinct }
      · have next : (t.removeJobCmd pgId).jobsNextIndex = t.jobsNextIndex := by
          unfold Table.removeJobCmd
          rw [found]
          exact if_neg last
        exact {
          room := next ▸ ordered.room
          above := next ▸ emptied
          top := by
            rw [next]
            cases ordered.top with
            | inl none => exact Or.inl none
            | inr occupied =>
                by_cases none : t.jobsNextIndex = 0
                · exact Or.inl none
                · right
                  have room := ordered.room
                  have bound : t.jobsNextIndex - 1 < maxJobs := by omega
                  rw [slots _ bound, if_neg]
                  · exact occupied
                  · intro same
                    have isK := ordered.distinct _ k bound boundK occupied (same.trans atK.symm)
                    omega
          holes := holes
          distinct := distinct }

theorem remove_live {t : Table} (ordered : Ordered t) {pgId : Int} (named : pgId ≠ 0) :
    (t.removeJobCmd pgId).live = t.live.filter fun job => job.pgId ≠ pgId :=
  live_below_filter fun _ bound => remove_slots ordered named bound

theorem live_ids_distinct {t : Table} (ordered : Ordered t) {job other : SCommandDetail}
    (live : job ∈ t.live) (liveOther : other ∈ t.live) (same : job.pgId = other.pgId) :
    job = other := by
  obtain ⟨i, boundI, atI, occupied⟩ := mem_live.mp live
  obtain ⟨j, boundJ, atJ, _⟩ := mem_live.mp liveOther
  rw [← atI, ← atJ] at same
  rw [← atI] at occupied
  rw [← atI, ← atJ, ordered.distinct i j boundI boundJ occupied same]

/-! ## The last jobs -/

theorem get_last_job_live {t : Table} (ordered : Ordered t) (cmdInfo : SCommandDetail) :
    t.getLastJobCmd cmdInfo = t.live.getLast?.getD cmdInfo := by
  rw [ordered.live_next, Table.getLastJobCmd]
  cases ordered.top with
  | inl none =>
      rw [none]
      rfl
  | inr occupied =>
      cases next : t.jobsNextIndex with
      | zero => rfl
      | succ n =>
          rw [next, Nat.add_sub_cancel] at occupied
          rw [live_below_succ, if_neg occupied, List.getLast?_concat, if_pos (Nat.succ_pos n)]
          rfl

def Stopped (job : SCommandDetail) : Bool := job.status = .stop

theorem last_stop_below (jobs : Nat → SCommandDetail) (cmdInfo : SCommandDetail) (n : Nat) :
    lastStopBelow jobs cmdInfo n =
      ((liveBelow jobs n).filter Stopped).getLast?.getD cmdInfo := by
  induction n with
  | zero => rfl
  | succ n ih =>
      rw [lastStopBelow, live_below_succ, ih]
      by_cases empty : (jobs n).pgId = 0
      · rw [if_neg fun found => found.1 empty, if_pos empty]
      · rw [if_neg empty, List.filter_append]
        by_cases stopped : (jobs n).status = .stop
        · have yes : Stopped (jobs n) = true := decide_eq_true stopped
          rw [if_pos ⟨empty, stopped⟩, List.filter_singleton, yes, cond_true, List.getLast?_concat]
          rfl
        · have no : Stopped (jobs n) = false := decide_eq_false stopped
          rw [if_neg fun found => stopped found.2, List.filter_singleton, no, cond_false,
            List.append_nil]

theorem get_last_stop_live {t : Table} (ordered : Ordered t) (cmdInfo : SCommandDetail) :
    t.getLastStopCmd cmdInfo = (t.live.filter Stopped).getLast?.getD cmdInfo := by
  rw [ordered.live_next]
  exact last_stop_below t.jobs cmdInfo t.jobsNextIndex

/-! ## Runs of calls -/

inductive Call where
  | push (cmdInfo : SCommandDetail)
  | update (pgId : Int) (status : EProcStatus)
  | remove (pgId : Int)

def Table.call (t : Table) : Call → Option Table
  | .push cmdInfo => t.pushJobCmd cmdInfo
  | .update pgId status => some (t.updateJobCmd pgId status)
  | .remove pgId => some (t.removeJobCmd pgId)

/-- What a call means: jobs in the order they were pushed. -/
def logged (log : List SCommandDetail) : Call → List SCommandDetail
  | .push cmdInfo => log ++ [cmdInfo]
  | .update pgId status =>
      log.map fun job => if job.pgId = pgId then job.setStatus status else job
  | .remove pgId => log.filter fun job => job.pgId ≠ pgId

structure Session where
  table : Table
  log : List SCommandDetail

def Session.start : Session := { table := .zeroed, log := [] }

def step (s : Session) (call : Call) : Option Session :=
  (s.table.call call).map fun table => { table := table, log := logged s.log call }

/-- The `pgId` of a call is not 0; a pushed one is not that of a live job, and there is a slot. -/
def Proper (s : Session) : Call → Prop
  | .push cmdInfo =>
      cmdInfo.pgId ≠ 0 ∧ (∀ job ∈ s.log, job.pgId ≠ cmdInfo.pgId) ∧ s.table.jobsNextIndex < maxJobs
  | .update pgId _ => pgId ≠ 0
  | .remove pgId => pgId ≠ 0

structure Faithful (s : Session) : Prop where
  ordered : Ordered s.table
  live : s.table.live = s.log

theorem call_faithful {s next : Session} {call : Call} (good : Faithful s)
    (proper : Proper s call) (taken : step s call = some next) : Faithful next := by
  obtain ⟨table, called, isNext⟩ := Option.map_eq_some_iff.mp taken
  subst isNext
  cases call with
  | push cmdInfo =>
      obtain ⟨occupied, fresh, _⟩ := proper
      rw [← good.live] at fresh
      exact {
        ordered := push_ordered good.ordered occupied fresh called
        live := by
          rw [push_live good.ordered occupied fresh called, good.live]
          rfl }
  | update pgId status =>
      have isTable := Option.some.inj called
      rw [← isTable]
      exact {
        ordered := update_ordered good.ordered proper status
        live := by
          rw [update_live good.ordered proper status, good.live]
          rfl }
  | remove pgId =>
      have isTable := Option.some.inj called
      rw [← isTable]
      exact {
        ordered := remove_ordered good.ordered proper
        live := by
          rw [remove_live good.ordered proper, good.live]
          rfl }

theorem session_faithful {s : Session} (run : Reaches step Proper Session.start s) :
    Faithful s := by
  have start : Faithful Session.start := { ordered := zeroed_ordered, live := zeroed_live }
  exact reaches_invariant Faithful start
    (fun _ _ _ good proper taken => call_faithful good proper taken) run

theorem jobs_are_in_order {s : Session} (run : Reaches step Proper Session.start s) :
    (∀ i, s.table.jobsNextIndex ≤ i → i < maxJobs → s.table.jobs i = .zeroed) ∧
    (s.table.jobsNextIndex = 0 ∨ (s.table.jobs (s.table.jobsNextIndex - 1)).pgId ≠ 0) ∧
    s.table.live = s.log ∧
    (∀ cmdInfo, s.table.getLastJobCmd cmdInfo = s.log.getLast?.getD cmdInfo) ∧
    (∀ cmdInfo, s.table.getLastStopCmd cmdInfo = (s.log.filter Stopped).getLast?.getD cmdInfo) := by
  have good := session_faithful run
  have last := fun cmdInfo => get_last_job_live good.ordered cmdInfo
  have lastStop := fun cmdInfo => get_last_stop_live good.ordered cmdInfo
  rw [good.live] at last lastStop
  refine ⟨?_, good.ordered.top, good.live, last, lastStop⟩
  intro i low high
  exact good.ordered.holes i high (good.ordered.above i low high)

instance (s : Session) (call : Call) : Decidable (Proper s call) :=
  match call with
  | .push cmdInfo => inferInstanceAs (Decidable (cmdInfo.pgId ≠ 0 ∧
      (∀ job ∈ s.log, job.pgId ≠ cmdInfo.pgId) ∧ s.table.jobsNextIndex < maxJobs))
  | .update pgId _ => inferInstanceAs (Decidable (pgId ≠ 0))
  | .remove pgId => inferInstanceAs (Decidable (pgId ≠ 0))

/-- A job with nothing but this `pgId`. -/
def jobOf (pgId : Int) : SCommandDetail :=
  { SCommandDetail.zeroed with jobInfo := { SCommandDetail.zeroed.jobInfo with pgId := pgId } }

/-- The hole that job 8 has left is skipped when job 9 goes. -/
theorem jobs_are_in_order_hole :
    ∃ s, Reaches step Proper Session.start s ∧ s.table.jobsNextIndex = 1 ∧
      s.log.map SCommandDetail.pgId = [7] ∧ s.table.live = s.log := by
  have reached := @reaches_of_check _ _ step Proper _ Session.start
    [.push (jobOf 7), .push (jobOf 8), .push (jobOf 9), .remove 8, .update 9 .stop, .remove 9]
    (fun s => s.table.jobsNextIndex = 1 ∧ s.log.map SCommandDetail.pgId = [7]) (by decide +kernel)
  obtain ⟨s, run, ends⟩ := reached
  obtain ⟨next, ids⟩ := of_decide_eq_true ends
  exact ⟨s, run, next, ids, (jobs_are_in_order run).2.2.1⟩

end UtSystems.Yashd.JobTable

import UtSystems.Yashd.Reaping

/-!
# How many jobs the table has room for

`push_job_cmd` goes by `jobsNextIndex`, which is one above the last live job: the room that is left
is above it, whatever holes there are below. This is true in every run of the two threads, whether
or not the entries and the children still agree.
-/

namespace UtSystems.Yashd.JobCapacity

open Yashd.JobTable hiding step
open Yashd.Reaping Lib.GuardedRun

set_option autoImplicit false

/-- `jobsNextIndex` is one above the last live job. -/
structure Packed (t : Table) : Prop where
  room : t.jobsNextIndex ≤ maxJobs
  above : ∀ i, t.jobsNextIndex ≤ i → i < maxJobs → (t.jobs i).pgId = 0
  top : t.jobsNextIndex = 0 ∨ (t.jobs (t.jobsNextIndex - 1)).pgId ≠ 0

/-- The job is copied to an empty slot of `jobs`, and the other slots stay as they are. -/
def Stores (t : Table) (cmdInfo : SCommandDetail) : Prop :=
  ∃ next i, t.pushJobCmd cmdInfo = some next ∧ i < maxJobs ∧ (t.jobs i).pgId = 0 ∧
    next.jobs i = cmdInfo ∧ ∀ other, other ≠ i → next.jobs other = t.jobs other

theorem zeroed_packed : Packed Table.zeroed where
  room := Nat.zero_le _
  above := fun _ _ _ => rfl
  top := Or.inl rfl

theorem push_packed {t next : Table} {cmdInfo : SCommandDetail} (packed : Packed t)
    (named : cmdInfo.pgId ≠ 0) (pushed : t.pushJobCmd cmdInfo = some next) : Packed next := by
  obtain ⟨room, rfl⟩ := push_job_ok pushed
  refine ⟨room, ?_, Or.inr ?_⟩
  · intro i low high
    dsimp only at low ⊢
    rw [Function.update_of_ne (by omega)]
    exact packed.above i (by omega) high
  · dsimp only
    rw [Nat.add_sub_cancel, Function.update_self]
    exact named

/-- What leaves the `pgId`s alone, leaves the table packed. -/
theorem packed_of_ids {t next : Table} (packed : Packed t)
    (sameNext : next.jobsNextIndex = t.jobsNextIndex)
    (sameIds : ∀ i, (next.jobs i).pgId = (t.jobs i).pgId) : Packed next where
  room := sameNext ▸ packed.room
  above := by
    intro i low high
    rw [sameIds]
    exact packed.above i (sameNext ▸ low) high
  top := by
    rw [sameNext, sameIds]
    exact packed.top

theorem update_packed {t : Table} (packed : Packed t) (pgId : Int) (status : EProcStatus) :
    Packed (t.updateJobCmd pgId status) := by
  apply packed_of_ids packed (update_next t pgId status)
  intro i
  unfold Table.updateJobCmd
  cases t.slotOf pgId with
  | none => rfl
  | some slot =>
      by_cases same : i = slot
      · rw [same]
        dsimp only
        rw [Function.update_self]
        rfl
      · dsimp only
        rw [Function.update_of_ne same]

theorem remove_packed {t : Table} (packed : Packed t) (pgId : Int) :
    Packed (t.removeJobCmd pgId) := by
  unfold Table.removeJobCmd
  cases t.slotOf pgId with
  | none => exact packed
  | some slot =>
      have emptied : ∀ i, (t.jobs i).pgId = 0 →
          (Function.update t.jobs slot SCommandDetail.zeroed i).pgId = 0 := by
        intro i empty
        by_cases same : i = slot
        · rw [same, Function.update_self]
          rfl
        · rw [Function.update_of_ne same]
          exact empty
      by_cases last : t.jobsNextIndex = slot + 1
      · dsimp only
        rw [if_pos last]
        refine ⟨Nat.le_trans (lowered_le _ _) packed.room, ?_, lowered_top _ _⟩
        intro i low high
        by_cases below : i < t.jobsNextIndex
        · exact lowered_above _ _ i low below
        · exact emptied i (packed.above i (Nat.le_of_not_lt below) high)
      · dsimp only
        rw [if_neg last]
        refine ⟨packed.room, fun i low high => emptied i (packed.above i low high), ?_⟩
        rcases packed.top with none_ | occupied
        · exact Or.inl none_
        · by_cases none_ : t.jobsNextIndex = 0
          · exact Or.inl none_
          · right
            dsimp only
            rw [Function.update_of_ne (by omega)]
            exact occupied

/-- A packed table takes a job if its last slot is empty. -/
theorem packed_stores_iff {t : Table} (packed : Packed t) (cmdInfo : SCommandDetail) :
    Stores t cmdInfo ↔ (t.jobs (maxJobs - 1)).pgId = 0 := by
  constructor
  · rintro ⟨next, i, pushed, _⟩
    obtain ⟨room, _⟩ := push_job_ok pushed
    apply packed.above
    · omega
    · decide
  · intro empty
    have room : t.jobsNextIndex < maxJobs := by
      by_contra full
      have isMax : t.jobsNextIndex = maxJobs := Nat.le_antisymm packed.room (Nat.le_of_not_lt full)
      rcases packed.top with none_ | occupied
      · rw [none_] at isMax
        cases isMax
      · rw [isMax] at occupied
        exact occupied empty
    refine ⟨_, t.jobsNextIndex, if_pos room, room, packed.above _ (Nat.le_refl _) room,
      Function.update_self _ _ _, ?_⟩
    intro other apart
    exact Function.update_of_ne apart _ _

/-! ## Runs of the two threads -/

/-- What `cmd_loop` is about to push, now or later. -/
def Pc.Named : Pc → Prop
  | .fgRemove cmdInfo => cmdInfo.pgId ≠ 0
  | .fgPush cmdInfo => cmdInfo.pgId ≠ 0
  | .fgKill cmdInfo => cmdInfo.pgId ≠ 0
  | .pushFg cmdInfo => cmdInfo.pgId ≠ 0
  | .wait cmdInfo => cmdInfo.pgId ≠ 0
  | .popFg cmdInfo _ => cmdInfo.pgId ≠ 0
  | .pushJob cmdInfo => cmdInfo.pgId ≠ 0
  | _ => True

structure Orderly (s : Shell) : Prop where
  packed : Packed s.table
  named : Pc.Named s.pc

theorem sigcont_orderly {s : Shell} {pc : Pc} (orderly : Orderly s) (pid : Int)
    (named : Pc.Named pc) : Orderly { s.sigcont pid with pc := pc } := by
  refine ⟨?_, named⟩
  show Packed (s.sigcont pid).table
  rw [sigcont_table]
  exact orderly.packed

theorem advance_orderly {s next : Shell} (orderly : Orderly s) (taken : s.advance = some next) :
    Orderly next := by
  have named := orderly.named
  unfold Shell.advance at taken
  split at taken
  · split at taken
    · cases taken
      exact ⟨orderly.packed, trivial⟩
    · cases taken
      exact ⟨orderly.packed, trivial⟩
  · cases taken
    exact ⟨remove_packed orderly.packed _, trivial⟩
  · cases taken
    exact ⟨orderly.packed, trivial⟩
  · cases taken
    exact ⟨orderly.packed, trivial⟩
  · cases taken
    refine ⟨orderly.packed, ?_⟩
    dsimp only
    split
    · trivial
    · trivial
  · cases taken
    exact ⟨update_packed orderly.packed _ _, trivial⟩
  · cases taken
    exact sigcont_orderly orderly _ trivial
  · cases taken
    refine ⟨orderly.packed, ?_⟩
    dsimp only
    split
    · next found => exact found
    · trivial
  · next at_pc =>
    rw [at_pc] at named
    cases taken
    exact ⟨remove_packed orderly.packed _, named⟩
  · next at_pc =>
    rw [at_pc] at named
    cases taken
    exact ⟨orderly.packed, named⟩
  · next at_pc =>
    rw [at_pc] at named
    cases taken
    exact sigcont_orderly orderly _ named
  · next at_pc =>
    rw [at_pc] at named
    cases taken
    exact ⟨orderly.packed, named⟩
  · next at_pc =>
    rw [at_pc] at named
    cases taken
    refine ⟨orderly.packed, ?_⟩
    dsimp only
    split
    · exact named
    · trivial
  · next at_pc =>
    rw [at_pc] at named
    obtain ⟨table, pushed, rfl⟩ := Option.map_eq_some_iff.mp taken
    exact ⟨push_packed orderly.packed named pushed, trivial⟩
  · cases taken

theorem step_orderly {s next : Shell} {action : Action} (orderly : Orderly s)
    (taken : step s action = some next) : Orderly next := by
  have named := orderly.named
  cases action with
  | advance => exact advance_orderly orderly taken
  | reaperUpdate =>
      simp only [step] at taken
      split at taken
      · cases taken
        exact ⟨update_packed orderly.packed _ _, named⟩
      · cases taken
  | fork pid =>
      simp only [step] at taken
      split at taken
      · next cmdInfo at_pc =>
        have launches (nonzero : pid ≠ 0) : Pc.Named (if (launched cmdInfo pid).isBackground then
            Pc.pushJob (launched cmdInfo pid) else .pushFg (launched cmdInfo pid)) := by
          split
          · exact nonzero
          · exact nonzero
        split at taken
        · next child =>
          cases taken
          exact ⟨orderly.packed, launches (by omega)⟩
        · split at taken
          · next failed =>
            cases taken
            exact ⟨orderly.packed, launches (by omega)⟩
          · cases taken
      · cases taken
  | reportStop pid =>
      simp only [step] at taken
      split at taken
      · next at_pc =>
        rw [at_pc] at named
        obtain ⟨_, isNext⟩ := Option.ite_none_right_eq_some.mp taken
        cases isNext
        exact ⟨orderly.packed, named⟩
      · cases taken
  | reportEnd pid =>
      simp only [step] at taken
      split at taken
      · next at_pc =>
        rw [at_pc] at named
        obtain ⟨_, isNext⟩ := Option.ite_none_right_eq_some.mp taken
        cases isNext
        exact ⟨orderly.packed, named⟩
      · cases taken
  | noChild =>
      simp only [step] at taken
      split at taken
      · next at_pc =>
        rw [at_pc] at named
        obtain ⟨_, isNext⟩ := Option.ite_none_right_eq_some.mp taken
        cases isNext
        exact ⟨orderly.packed, named⟩
      · cases taken
  | begin command =>
      simp only [step] at taken
      split at taken
      · cases taken
        exact ⟨orderly.packed, trivial⟩
      · cases taken
  | exit pid =>
      simp only [step] at taken
      obtain ⟨_, isNext⟩ := Option.ite_none_right_eq_some.mp taken
      cases isNext
      exact ⟨orderly.packed, named⟩
  | die pid =>
      simp only [step] at taken
      split at taken
      · cases taken
        exact ⟨orderly.packed, named⟩
      · cases taken
        exact ⟨orderly.packed, named⟩
      · cases taken
  | stop pid =>
      simp only [step] at taken
      obtain ⟨_, isNext⟩ := Option.ite_none_right_eq_some.mp taken
      cases isNext
      exact ⟨orderly.packed, named⟩
  | resume pid =>
      simp only [step] at taken
      split at taken
      · cases taken
        exact ⟨orderly.packed, named⟩
      · cases taken
  | reapExited pid =>
      simp only [step] at taken
      obtain ⟨_, isNext⟩ := Option.ite_none_right_eq_some.mp taken
      cases isNext
      exact ⟨orderly.packed, named⟩
  | reapKilled pid =>
      simp only [step] at taken
      obtain ⟨_, isNext⟩ := Option.ite_none_right_eq_some.mp taken
      cases isNext
      exact ⟨orderly.packed, named⟩

theorem run_orderly {s : Shell} (run : Reaches step (fun _ _ => True) Shell.start s) :
    Orderly s := by
  have start : Orderly Shell.start := ⟨zeroed_packed, trivial⟩
  exact reaches_invariant Orderly start
    (fun _ _ _ orderly _ taken => step_orderly orderly taken) run

theorem push_stores_iff {s : Shell} (run : Reaches step (fun _ _ => True) Shell.start s)
    (cmdInfo : SCommandDetail) :
    (s.table.live.length < maxJobs → Stores s.table cmdInfo) ↔
      (s.table.jobs (maxJobs - 1)).pgId = 0 ∨ maxJobs ≤ s.table.live.length := by
  have packed := (run_orderly run).packed
  rw [packed_stores_iff packed cmdInfo]
  constructor
  · intro stores
    by_cases few : s.table.live.length < maxJobs
    · exact Or.inl (stores few)
    · exact Or.inr (Nat.le_of_not_lt few)
  · rintro (empty | full) few
    · exact empty
    · omega

/-- The job that is about to be pushed. -/
def pushes (pid : Int) (s : Shell) : Bool :=
  match s.pc with
  | .pushJob cmdInfo => cmdInfo.pgId = pid
  | _ => false

theorem pushes_some {s : Shell} {pid : Int} (at_push : pushes pid s = true) :
    ∃ cmdInfo, s.pc = .pushJob cmdInfo := by
  unfold pushes at at_push
  split at at_push
  · next cmdInfo at_pc => exact ⟨cmdInfo, at_pc⟩
  · cases at_push

theorem push_stores_first :
    ∃ s cmdInfo, Reaches step (fun _ _ => True) Shell.start s ∧ s.pc = .pushJob cmdInfo ∧
      (s.table.live.length < maxJobs → Stores s.table cmdInfo) := by
  obtain ⟨s, run, ends⟩ := @reaches_of_check _ _ step (fun _ _ => True) _ Shell.start launch
    (fun s => pushes 7 s && (s.table.jobs (maxJobs - 1)).pgId = 0) (by decide +kernel)
  obtain ⟨at_push, empty⟩ := Bool.and_eq_true_iff.mp ends
  obtain ⟨cmdInfo, at_pc⟩ := pushes_some at_push
  exact ⟨s, cmdInfo, run, at_pc, (push_stores_iff run cmdInfo).mpr (Or.inl (of_decide_eq_true empty))⟩

/-- `sleep 9 &`, with this pid, until it is in the table. -/
def launchBackground (pid : Int) : List Action :=
  [.begin (.program background), .advance, .fork pid, .advance]

/-- A hundred jobs, of which the first ends and is removed before the next is launched. -/
def hundredJobs : List Action :=
  (List.range maxJobs).flatMap (fun i => launchBackground (i + 1)) ++
    [.exit 1, .reapExited 1, .reaperUpdate,
      .begin (.program background), .advance, .advance, .advance, .fork 101]

/-- There are 99 jobs and slot 0 is empty, but the next job would lie behind the table. -/
theorem holes_are_not_reused :
    ∃ s cmdInfo, Reaches step (fun _ _ => True) Shell.start s ∧ s.pc = .pushJob cmdInfo ∧
      s.table.live.length < maxJobs ∧ s.table.jobsNextIndex = maxJobs ∧
      ¬ Stores s.table cmdInfo := by
  obtain ⟨s, run, ends⟩ := @reaches_of_check _ _ step (fun _ _ => True) _ Shell.start hundredJobs
    (fun s => pushes 101 s && (decide (s.table.live.length < maxJobs) &&
      decide (s.table.jobsNextIndex = maxJobs))) (by decide +kernel)
  obtain ⟨at_push, counts⟩ := Bool.and_eq_true_iff.mp ends
  obtain ⟨few, full⟩ := Bool.and_eq_true_iff.mp counts
  obtain ⟨cmdInfo, at_pc⟩ := pushes_some at_push
  refine ⟨s, cmdInfo, run, at_pc, of_decide_eq_true few, of_decide_eq_true full, ?_⟩
  rintro ⟨next, i, pushed, _⟩
  obtain ⟨room, _⟩ := push_job_ok pushed
  rw [of_decide_eq_true full] at room
  exact Nat.lt_irrefl _ room

end UtSystems.Yashd.JobCapacity

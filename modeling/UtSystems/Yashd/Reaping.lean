import UtSystems.Yashd.JobTable

/-!
# cmd_loop and reap_loop of yashd

Two threads of one process wait for the same children. `cmd_loop` runs a command after the other
and keeps the job table, `reap_loop` reaps whatever child ends. Each function on the table holds
`job_sem` from its first access to its last, so it is one step; between them the threads and the
children interleave freely.
-/

namespace UtSystems.Yashd.Reaping

open Yashd.JobTable Lib.GuardedRun

set_option autoImplicit false

inductive Child where
  -- there is no child with this pid, or not any longer
  | none
  | running
  -- whether `waitpid` has reported it
  | stopped (reported : Bool)
  -- zombies, by what `WIFEXITED` says of them
  | exited
  | killed
deriving DecidableEq

/-- What `run_cmd` is called with, by its first word. -/
inductive Command where
  -- `argvSize` is not above 1
  | nothing
  | jobs
  | bg
  | fg
  | program (cmdInfo : SCommandDetail)

/-- Where `cmd_loop` is. -/
inductive Pc where
  | head
  -- `print_done_jobs` before it takes `job_sem` to go on at slot `i`
  | printing (command : Command) (i : Nat)
  -- it has printed the job in slot `i`
  | removing (command : Command) (i : Nat)
  | dispatch (command : Command)
  | bgUpdate (cmdInfo : SCommandDetail)
  | bgKill (cmdInfo : SCommandDetail)
  | fgRemove (cmdInfo : SCommandDetail)
  | fgPush (cmdInfo : SCommandDetail)
  | fgKill (cmdInfo : SCommandDetail)
  -- the rest is the same in `fg` and in `fork_exec`, which begins with the first or the last
  | pushFg (cmdInfo : SCommandDetail)
  | wait (cmdInfo : SCommandDetail)
  | popFg (cmdInfo : SCommandDetail) (stopped : Bool)
  | pushJob (cmdInfo : SCommandDetail)

/-- Where `reap_loop` is. -/
inductive Reaper where
  | waiting
  -- a child that has exited is reaped, `update_job_cmd` is next
  | update (pid : Int)
deriving DecidableEq

structure Shell where
  table : Table
  fgInfo : SCommandDetail
  children : Int → Child
  -- how many of them there are
  count : Nat
  pc : Pc
  reaper : Reaper

def Shell.start : Shell :=
  { table := .zeroed
    fgInfo := .zeroed
    children := fun _ => .none
    count := 0
    pc := .head
    reaper := .waiting }

def Shell.setChild (s : Shell) (pid : Int) (child : Child) : Shell :=
  { s with children := Function.update s.children pid child }

def Shell.reap (s : Shell) (pid : Int) (reaper : Reaper) : Shell :=
  { s with
    children := Function.update s.children pid .none
    count := s.count - 1
    reaper := reaper }

def Child.continued : Child → Child
  | .stopped _ => .running
  | child => child

/-- `kill` with `SIGCONT`; -1 names all processes. -/
def Shell.sigcont (s : Shell) (pid : Int) : Shell :=
  if pid = -1 then { s with children := fun p => (s.children p).continued }
  else s.setChild pid (s.children pid).continued

/-- The next job that `print_done_jobs` prints. -/
def nextDone (t : Table) (i : Nat) : Option Nat :=
  (List.range maxJobs).find? fun j => i ≤ j ∧ (t.jobs j).status = .done

/-- The steps of `cmd_loop` that depend on nothing but its state and the table. -/
def Shell.advance (s : Shell) : Option Shell :=
  match s.pc with
  | .printing command i =>
      match nextDone s.table i with
      | some j => some { s with pc := .removing command j }
      | none => some { s with pc := .dispatch command }
  | .removing command i =>
      some { s with
        table := s.table.removeJobCmd (s.table.jobs i).pgId
        pc := .printing command (i + 1) }
  | .dispatch .nothing => some { s with pc := .head }
  | .dispatch .jobs => some { s with pc := .head }
  | .dispatch .bg =>
      let cmdInfo := s.table.getLastStopCmd .zeroed
      some { s with pc := if cmdInfo.pgId ≠ 0 then .bgUpdate cmdInfo else .head }
  | .bgUpdate cmdInfo =>
      some { s with
        table := s.table.updateJobCmd cmdInfo.pgId .run
        pc := .bgKill cmdInfo }
  | .bgKill cmdInfo => some { s.sigcont cmdInfo.pgId with pc := .head }
  | .dispatch .fg =>
      let cmdInfo := s.table.getLastJobCmd .zeroed
      some { s with pc := if cmdInfo.pgId ≠ 0 then .fgRemove cmdInfo else .head }
  | .fgRemove cmdInfo =>
      some { s with
        table := s.table.removeJobCmd cmdInfo.pgId
        pc := .fgPush (cmdInfo.setStatus .run) }
  | .fgPush cmdInfo => some { s with fgInfo := cmdInfo, pc := .fgKill cmdInfo }
  | .fgKill cmdInfo => some { s.sigcont cmdInfo.pgId with pc := .wait cmdInfo }
  | .pushFg cmdInfo => some { s with fgInfo := cmdInfo, pc := .wait cmdInfo }
  | .popFg cmdInfo stopped =>
      some { s with
        fgInfo := .zeroed
        pc := if stopped then .pushJob (cmdInfo.setStatus .stop) else .head }
  | .pushJob cmdInfo =>
      (s.table.pushJobCmd cmdInfo).map fun table => { s with table := table, pc := .head }
  | _ => none

def launched (cmdInfo : SCommandDetail) (pid : Int) : SCommandDetail :=
  { cmdInfo with jobInfo := { cmdInfo.jobInfo with pgId := pid, status := .run } }

inductive Action where
  -- a child, of itself or by a signal
  | exit (pid : Int)
  | die (pid : Int)
  | stop (pid : Int)
  | resume (pid : Int)
  -- `waitpid` of `reap_loop` has returned
  | reapExited (pid : Int)
  | reapKilled (pid : Int)
  | reaperUpdate
  -- `run_cmd` is called
  | begin (command : Command)
  | advance
  -- `fork` has returned, perhaps -1
  | fork (pid : Int)
  -- `waitpid` of `fg` or `fork_exec` has returned
  | reportStop (pid : Int)
  | reportEnd (pid : Int)
  | noChild

/-- The children for which `waitpid` waits. -/
def Waits (cmdInfo : SCommandDetail) (pid : Int) : Prop :=
  cmdInfo.pgId = pid ∨ cmdInfo.pgId = -1

instance (cmdInfo : SCommandDetail) (pid : Int) : Decidable (Waits cmdInfo pid) :=
  inferInstanceAs (Decidable (_ ∨ _))

def step (s : Shell) : Action → Option Shell
  | .exit pid => if s.children pid = .running then some (s.setChild pid .exited) else none
  | .die pid =>
      match s.children pid with
      | .running => some (s.setChild pid .killed)
      | .stopped _ => some (s.setChild pid .killed)
      | _ => none
  | .stop pid => if s.children pid = .running then some (s.setChild pid (.stopped false)) else none
  | .resume pid =>
      match s.children pid with
      | .stopped _ => some (s.setChild pid .running)
      | _ => none
  | .reapExited pid =>
      if s.reaper = .waiting ∧ s.children pid = .exited then
        some (s.reap pid (.update pid))
      else none
  | .reapKilled pid =>
      if s.reaper = .waiting ∧ s.children pid = .killed then
        some (s.reap pid .waiting)
      else none
  | .reaperUpdate =>
      match s.reaper with
      | .update pid =>
          some { s with table := s.table.updateJobCmd pid .done, reaper := .waiting }
      | .waiting => none
  | .begin command =>
      match s.pc with
      | .head => some { s with pc := .printing command 0 }
      | _ => none
  | .advance => s.advance
  | .fork pid =>
      match s.pc with
      | .dispatch (.program cmdInfo) =>
          let cmdInfo := launched cmdInfo pid
          let pc := if cmdInfo.isBackground then Pc.pushJob cmdInfo else .pushFg cmdInfo
          if 0 < pid ∧ s.children pid = .none then
            some { s.setChild pid .running with count := s.count + 1, pc := pc }
          else if pid = -1 then some { s with pc := pc }
          else none
      | _ => none
  | .reportStop pid =>
      match s.pc with
      | .wait cmdInfo =>
          if Waits cmdInfo pid ∧ s.children pid = .stopped false then
            some { s.setChild pid (.stopped true) with pc := .popFg cmdInfo true }
          else none
      | _ => none
  | .reportEnd pid =>
      match s.pc with
      | .wait cmdInfo =>
          if Waits cmdInfo pid ∧ (s.children pid = .exited ∨ s.children pid = .killed) then
            some { s.reap pid s.reaper with pc := .popFg cmdInfo false }
          else none
      | _ => none
  | .noChild =>
      match s.pc with
      | .wait cmdInfo =>
          if if cmdInfo.pgId = -1 then s.count = 0 else s.children cmdInfo.pgId = .none then
            some { s with pc := .popFg cmdInfo false }
          else none
      | _ => none

/-- A job with this pid will be pushed and is not in the table yet. -/
def Pc.Registers (pid : Int) : Pc → Prop
  | .popFg cmdInfo stopped => stopped = true ∧ cmdInfo.pgId = pid
  | .pushJob cmdInfo => cmdInfo.pgId = pid
  | _ => False

/-- A job with this pid is still in the table, but `fg` has chosen it. -/
def Pc.Removes (pid : Int) : Pc → Prop
  | .fgRemove cmdInfo => cmdInfo.pgId = pid
  | _ => False

/-- What the threads do about a child that has ended reaches its job in the table. -/
def Noticed (s : Shell) : Action → Prop
  | .reapKilled pid =>
      (∀ job ∈ s.table.live, job.pgId = pid → s.pc.Removes pid) ∧ ¬ s.pc.Registers pid
  | .reaperUpdate =>
      match s.reaper with
      | .waiting => True
      | .update pid => ¬ s.pc.Registers pid
  | .fork pid => 0 < pid ∧ ∀ job ∈ s.table.live, job.pgId ≠ pid
  | .advance =>
      match s.pc with
      | .bgUpdate cmdInfo => ∀ job ∈ s.table.live, job.pgId = cmdInfo.pgId → job.status ≠ .done
      | .pushJob _ => s.table.jobsNextIndex < maxJobs
      | _ => True
  | _ => True

/-- No entry is Running or Stopped after its process has been reaped. -/
def JobsHaveProcesses (s : Shell) : Prop :=
  ∀ job ∈ s.table.live, job.status ≠ .done → s.children job.pgId ≠ .none

/-! ## The invariant -/

/-- The process of a job that is Running or Stopped has not been reaped, or `reap_loop` is about to
say so. -/
def Waitable (s : Shell) (pid : Int) : Prop := s.children pid ≠ .none ∨ s.reaper = .update pid

def Unlisted (s : Shell) (pid : Int) : Prop := 0 < pid ∧ ∀ job ∈ s.table.live, job.pgId ≠ pid

def Pc.Sound (s : Shell) : Pc → Prop
  | .removing _ i => i < maxJobs ∧ (s.table.jobs i).status = .done
  | .bgUpdate cmdInfo => cmdInfo.pgId ≠ 0
  | .fgRemove cmdInfo => 0 < cmdInfo.pgId
  | .fgPush cmdInfo => Unlisted s cmdInfo.pgId
  | .fgKill cmdInfo => Unlisted s cmdInfo.pgId
  | .pushFg cmdInfo => Unlisted s cmdInfo.pgId
  | .wait cmdInfo => Unlisted s cmdInfo.pgId
  | .popFg cmdInfo stopped =>
      Unlisted s cmdInfo.pgId ∧ (stopped = true → Waitable s cmdInfo.pgId)
  | .pushJob cmdInfo => Unlisted s cmdInfo.pgId ∧ Waitable s cmdInfo.pgId
  | _ => True

structure Sound (s : Shell) : Prop where
  ordered : Ordered s.table
  children : ∀ pid, s.children pid ≠ .none → 0 < pid
  held : ∀ pid, s.reaper = .update pid → 0 < pid
  ids : ∀ job ∈ s.table.live, 0 < job.pgId
  entries : ∀ job ∈ s.table.live, job.status ≠ .done →
    Waitable s job.pgId ∨ s.pc.Removes job.pgId
  pc : s.pc.Sound s

theorem start_sound : Sound Shell.start where
  ordered := zeroed_ordered
  children := fun _ child => absurd rfl child
  held := fun _ held => nomatch held
  ids := fun _ live => absurd (zeroed_live ▸ live) List.not_mem_nil
  entries := fun _ live => absurd (zeroed_live ▸ live) List.not_mem_nil
  pc := trivial

/-- No job is added to the table, and none that is done gets another status. -/
structure Shrinks (t next : Table) : Prop where
  done : ∀ i, i < maxJobs → (t.jobs i).status = .done → (next.jobs i).status = .done
  live : ∀ job ∈ next.live, ∃ old ∈ t.live, old.pgId = job.pgId

theorem shrinks_refl (t : Table) : Shrinks t t where
  done := fun _ _ done => done
  live := fun job live => ⟨job, live, rfl⟩

theorem unlisted_shrinks {s next : Shell} {pid : Int} (shrinks : Shrinks s.table next.table)
    (unlisted : Unlisted s pid) : Unlisted next pid := by
  constructor
  · exact unlisted.1
  · intro job live same
    obtain ⟨old, liveOld, sameOld⟩ := shrinks.live job live
    exact unlisted.2 old liveOld (sameOld.trans same)

theorem pc_sound_shrinks {s next : Shell} {pc : Pc} (sound : pc.Sound s)
    (shrinks : Shrinks s.table next.table)
    (waitable : ∀ pid, pc.Registers pid → Waitable s pid → Waitable next pid) :
    pc.Sound next := by
  cases pc with
  | removing command i => exact ⟨sound.1, shrinks.done i sound.1 sound.2⟩
  | bgUpdate cmdInfo => exact sound
  | fgRemove cmdInfo => exact sound
  | fgPush cmdInfo => exact unlisted_shrinks shrinks sound
  | fgKill cmdInfo => exact unlisted_shrinks shrinks sound
  | pushFg cmdInfo => exact unlisted_shrinks shrinks sound
  | wait cmdInfo => exact unlisted_shrinks shrinks sound
  | popFg cmdInfo stopped =>
      constructor
      · exact unlisted_shrinks shrinks sound.1
      · intro reported
        exact waitable cmdInfo.pgId ⟨reported, rfl⟩ (sound.2 reported)
  | pushJob cmdInfo =>
      constructor
      · exact unlisted_shrinks shrinks sound.1
      · exact waitable cmdInfo.pgId rfl sound.2
  | _ => trivial

theorem entry_waitable {s : Shell} (sound : Sound s) (quiet : ∀ pid, ¬ s.pc.Removes pid)
    {job : SCommandDetail} (live : job ∈ s.table.live) (status : job.status ≠ .done) :
    Waitable s job.pgId := by
  cases sound.entries job live status with
  | inl waitable => exact waitable
  | inr removes => exact absurd removes (quiet job.pgId)

theorem sound_of_pc {s : Shell} {fgInfo : SCommandDetail} {pc : Pc} (sound : Sound s)
    (quiet : ∀ pid, ¬ s.pc.Removes pid) (good : pc.Sound s) :
    Sound { s with fgInfo := fgInfo, pc := pc } where
  ordered := sound.ordered
  children := sound.children
  held := sound.held
  ids := sound.ids
  entries := fun _ live status => Or.inl (entry_waitable sound quiet live status)
  pc := pc_sound_shrinks good (shrinks_refl s.table) fun _ _ waitable => waitable

/-- The children change among themselves; none goes, and none is new. -/
theorem sound_of_children {s : Shell} {children : Int → Child} (sound : Sound s)
    (same : ∀ pid, children pid = .none ↔ s.children pid = .none) :
    Sound { s with children := children } := by
  have waitable : ∀ pid, Waitable s pid → Waitable { s with children := children } pid := by
    intro pid waitable
    cases waitable with
    | inl child => exact Or.inl fun none => child ((same pid).mp none)
    | inr held => exact Or.inr held
  exact {
    ordered := sound.ordered
    children := fun pid child => sound.children pid fun none => child ((same pid).mpr none)
    held := sound.held
    ids := sound.ids
    entries := fun job live status => (sound.entries job live status).imp_left (waitable job.pgId)
    pc := pc_sound_shrinks sound.pc (shrinks_refl s.table) fun pid _ => waitable pid }

theorem set_child_sound {s : Shell} {pid : Int} {child : Child} (sound : Sound s)
    (present : s.children pid ≠ .none) (remains : child ≠ .none) :
    Sound (s.setChild pid child) := by
  apply sound_of_children sound
  intro p
  by_cases same : p = pid
  · rw [same, Function.update_self]
    exact ⟨fun none => absurd none remains, fun none => absurd none present⟩
  · rw [Function.update_of_ne same]

theorem continued_none (child : Child) : child.continued = .none ↔ child = .none := by
  cases child with
  | none => exact Iff.rfl
  | running => exact Iff.rfl
  | stopped reported =>
      constructor
      · intro none
        cases none
      · intro none
        cases none
  | exited => exact Iff.rfl
  | killed => exact Iff.rfl

theorem sigcont_sound {s : Shell} (sound : Sound s) (pid : Int) : Sound (s.sigcont pid) := by
  unfold Shell.sigcont
  split
  · exact sound_of_children sound fun p => continued_none (s.children p)
  · apply sound_of_children sound
    intro p
    by_cases same : p = pid
    · rw [same, Function.update_self]
      exact continued_none _
    · rw [Function.update_of_ne same]

theorem sigcont_table (s : Shell) (pid : Int) : (s.sigcont pid).table = s.table := by
  unfold Shell.sigcont
  split
  · rfl
  · rfl

theorem sigcont_pc (s : Shell) (pid : Int) : (s.sigcont pid).pc = s.pc := by
  unfold Shell.sigcont
  split
  · rfl
  · rfl

/-! ## What the steps preserve -/

/-- A child is reaped that no job needs any longer, or `reap_loop` remembers it. -/
theorem reap_sound {s : Shell} {pid : Int} {reaper : Reaper} (sound : Sound s)
    (kept : ∀ p, Waitable s p → p ≠ pid → Waitable (s.reap pid reaper) p)
    (held : ∀ p, reaper = .update p → 0 < p)
    (listed : ∀ job ∈ s.table.live, job.pgId = pid →
      reaper = .update pid ∨ s.pc.Removes pid)
    (registered : s.pc.Registers pid → reaper = .update pid) :
    Sound (s.reap pid reaper) where
  ordered := sound.ordered
  children := by
    intro p child
    apply sound.children p
    intro none
    apply child
    change Function.update s.children pid .none p = .none
    by_cases same : p = pid
    · rw [same, Function.update_self]
    · rw [Function.update_of_ne same]
      exact none
  held := held
  ids := sound.ids
  entries := by
    intro job live status
    by_cases same : job.pgId = pid
    · rw [same]
      exact (listed job live same).imp_left Or.inr
    · exact (sound.entries job live status).imp_left fun waitable => kept _ waitable same
  pc := by
    refine @pc_sound_shrinks s _ _ sound.pc (shrinks_refl s.table) ?_
    intro p registers waitable
    by_cases same : p = pid
    · right
      rw [same] at registers ⊢
      exact registered registers
    · exact kept p waitable same

theorem shrinks_update {t : Table} (ordered : Ordered t) {pgId : Int} (named : pgId ≠ 0) :
    Shrinks t (t.updateJobCmd pgId .done) where
  done := by
    intro i bound done
    rw [update_slots ordered named .done bound]
    split
    · rfl
    · exact done
  live := by
    intro job live
    rw [update_live ordered named .done] at live
    obtain ⟨old, liveOld, changed⟩ := List.mem_map.mp live
    refine ⟨old, liveOld, ?_⟩
    rw [← changed]
    split
    · rfl
    · rfl

theorem reaper_update_sound {s : Shell} {pid : Int} (sound : Sound s)
    (held : s.reaper = .update pid) (registered : ¬ s.pc.Registers pid) :
    Sound { s with table := s.table.updateJobCmd pid .done, reaper := .waiting } := by
  have named : pid ≠ 0 := Int.ne_of_gt (sound.held pid held)
  have shrinks := shrinks_update sound.ordered named
  have others : ∀ p, p ≠ pid → Waitable s p →
      Waitable { s with table := s.table.updateJobCmd pid .done, reaper := .waiting } p := by
    intro p other waitable
    cases waitable with
    | inl child => exact Or.inl child
    | inr held' =>
        rw [held] at held'
        exact absurd (Reaper.update.inj held').symm other
  exact {
    ordered := update_ordered sound.ordered named .done
    children := sound.children
    held := fun _ waiting => nomatch waiting
    ids := by
      intro job live
      obtain ⟨old, liveOld, same⟩ := shrinks.live job live
      exact same ▸ sound.ids old liveOld
    entries := by
      intro job live status
      change job ∈ (s.table.updateJobCmd pid .done).live at live
      rw [update_live sound.ordered named .done] at live
      obtain ⟨old, liveOld, changed⟩ := List.mem_map.mp live
      by_cases same : old.pgId = pid
      · rw [if_pos same] at changed
        rw [← changed] at status
        exact absurd rfl status
      · rw [if_neg same] at changed
        subst changed
        exact (sound.entries old liveOld status).imp_left (others old.pgId same)
    pc := by
      apply pc_sound_shrinks sound.pc shrinks
      intro p registers waitable
      apply others p _ waitable
      intro same
      exact registered (same ▸ registers) }

theorem remove_sound {s : Shell} {pgId : Int} {pc : Pc} (sound : Sound s) (named : pgId ≠ 0)
    (removes : ∀ pid, s.pc.Removes pid → pid = pgId)
    (good : pc.Sound { s with table := s.table.removeJobCmd pgId }) :
    Sound { s with table := s.table.removeJobCmd pgId, pc := pc } := by
  have remains : ∀ job ∈ (s.table.removeJobCmd pgId).live, job ∈ s.table.live := by
    intro job live
    rw [remove_live sound.ordered named] at live
    exact (List.mem_filter.mp live).1
  have other : ∀ job ∈ (s.table.removeJobCmd pgId).live, ¬ s.pc.Removes job.pgId := by
    intro job live chosen
    rw [remove_live sound.ordered named] at live
    exact of_decide_eq_true (List.mem_filter.mp live).2 (removes job.pgId chosen)
  have table : Sound { s with table := s.table.removeJobCmd pgId, pc := .head } := {
    ordered := remove_ordered sound.ordered named
    children := sound.children
    held := sound.held
    ids := fun job live => sound.ids job (remains job live)
    entries := by
      intro job live status
      cases sound.entries job (remains job live) status with
      | inl waitable => exact Or.inl waitable
      | inr chosen => exact absurd chosen (other job live)
    pc := trivial }
  exact sound_of_pc table (fun _ removes => removes) good

theorem removed_unlisted {s : Shell} {pgId : Int} (sound : Sound s) (named : 0 < pgId) :
    Unlisted { s with table := s.table.removeJobCmd pgId } pgId := by
  constructor
  · exact named
  · intro job live
    change job ∈ (s.table.removeJobCmd pgId).live at live
    rw [remove_live sound.ordered (Int.ne_of_gt named)] at live
    exact of_decide_eq_true (List.mem_filter.mp live).2

theorem bg_update_sound {s : Shell} {pgId : Int} {pc : Pc} (sound : Sound s)
    (quiet : ∀ pid, ¬ s.pc.Removes pid) (named : pgId ≠ 0)
    (unfinished : ∀ job ∈ s.table.live, job.pgId = pgId → job.status ≠ .done)
    (good : pc.Sound { s with table := s.table.updateJobCmd pgId .run }) :
    Sound { s with table := s.table.updateJobCmd pgId .run, pc := pc } := by
  have olds : ∀ job ∈ (s.table.updateJobCmd pgId .run).live, job.status ≠ .done →
      ∃ old ∈ s.table.live, old.pgId = job.pgId ∧ old.status ≠ .done := by
    intro job live status
    rw [update_live sound.ordered named .run] at live
    obtain ⟨old, liveOld, changed⟩ := List.mem_map.mp live
    by_cases same : old.pgId = pgId
    · rw [if_pos same] at changed
      exact ⟨old, liveOld, changed ▸ rfl, unfinished old liveOld same⟩
    · rw [if_neg same] at changed
      exact ⟨old, liveOld, changed ▸ rfl, changed ▸ status⟩
  have table : Sound { s with table := s.table.updateJobCmd pgId .run, pc := .head } := {
    ordered := update_ordered sound.ordered named .run
    children := sound.children
    held := sound.held
    ids := by
      intro job live
      change job ∈ (s.table.updateJobCmd pgId .run).live at live
      rw [update_live sound.ordered named .run] at live
      obtain ⟨old, liveOld, changed⟩ := List.mem_map.mp live
      have positive := sound.ids old liveOld
      rw [← changed]
      split
      · exact positive
      · exact positive
    entries := by
      intro job live status
      obtain ⟨old, liveOld, same, oldStatus⟩ := olds job live status
      rw [← same]
      exact Or.inl (entry_waitable sound quiet liveOld oldStatus)
    pc := trivial }
  exact sound_of_pc table (fun _ removes => removes) good

theorem push_sound {s : Shell} {table : Table} {cmdInfo : SCommandDetail} (sound : Sound s)
    (quiet : ∀ pid, ¬ s.pc.Removes pid)
    (unlisted : Unlisted s cmdInfo.pgId) (waitable : Waitable s cmdInfo.pgId)
    (pushed : s.table.pushJobCmd cmdInfo = some table) :
    Sound { s with table := table, pc := .head } := by
  have named : cmdInfo.pgId ≠ 0 := Int.ne_of_gt unlisted.1
  have live := push_live sound.ordered named unlisted.2 pushed
  have members : ∀ job ∈ table.live, job ∈ s.table.live ∨ job = cmdInfo := by
    intro job member
    rw [live, List.mem_append, List.mem_singleton] at member
    exact member
  exact {
    ordered := push_ordered sound.ordered named unlisted.2 pushed
    children := sound.children
    held := sound.held
    ids := by
      intro job member
      cases members job member with
      | inl old => exact sound.ids job old
      | inr new => exact new ▸ unlisted.1
    entries := by
      intro job member status
      cases members job member with
      | inl old => exact Or.inl (entry_waitable sound quiet old status)
      | inr new => exact Or.inl (new ▸ waitable)
    pc := trivial }

theorem next_done_some {t : Table} {i j : Nat} (found : nextDone t i = some j) :
    j < maxJobs ∧ (t.jobs j).status = .done := by
  unfold nextDone at found
  have hit := List.find?_some found
  exact ⟨List.mem_range.mp (List.mem_of_find?_eq_some found), (of_decide_eq_true hit).2⟩

theorem last_job_positive {s : Shell} (sound : Sound s)
    (some : (s.table.getLastJobCmd .zeroed).pgId ≠ 0) :
    0 < (s.table.getLastJobCmd .zeroed).pgId := by
  rw [get_last_job_live sound.ordered] at some ⊢
  cases last : s.table.live.getLast? with
  | none =>
      rw [last] at some
      exact absurd rfl some
  | some job => exact sound.ids job (List.mem_of_getLast? last)

theorem advance_sound {s next : Shell} (sound : Sound s) (noticed : Noticed s .advance)
    (taken : s.advance = some next) : Sound next := by
  have good := sound.pc
  by_cases chosen : ∃ cmdInfo, s.pc = .fgRemove cmdInfo
  · obtain ⟨cmdInfo, at_pc⟩ := chosen
    unfold Shell.advance at taken
    rw [at_pc] at taken good
    cases taken
    apply remove_sound sound (Int.ne_of_gt good)
    · rw [at_pc]
      exact fun _ removes => removes.symm
    · exact removed_unlisted sound good
  have quiet : ∀ pid, ¬ s.pc.Removes pid := by
    intro pid removes
    cases at_pc : s.pc with
    | fgRemove cmdInfo => exact chosen ⟨cmdInfo, at_pc⟩
    | _ =>
        rw [at_pc] at removes
        exact removes
  unfold Shell.advance at taken
  unfold Noticed at noticed
  cases at_pc : s.pc with
  | head =>
      rw [at_pc] at taken
      cases taken
  | wait cmdInfo =>
      rw [at_pc] at taken
      cases taken
  | printing command i =>
      rw [at_pc] at taken
      dsimp only at taken
      cases found : nextDone s.table i with
      | none =>
          rw [found] at taken
          cases taken
          exact sound_of_pc sound quiet trivial
      | some j =>
          rw [found] at taken
          cases taken
          exact sound_of_pc sound quiet (next_done_some found)
  | removing command i =>
      rw [at_pc] at taken good
      cases taken
      apply remove_sound sound
      · intro empty
        have done := good.2
        rw [sound.ordered.holes i good.1 empty] at done
        cases done
      · exact fun pid removes => absurd removes (quiet pid)
      · trivial
  | dispatch command =>
      rw [at_pc] at taken
      cases command with
      | nothing =>
          cases taken
          exact sound_of_pc sound quiet trivial
      | jobs =>
          cases taken
          exact sound_of_pc sound quiet trivial
      | bg =>
          cases taken
          apply sound_of_pc sound quiet
          split
          · next named => exact named
          · trivial
      | fg =>
          cases taken
          apply sound_of_pc sound quiet
          split
          · next named => exact last_job_positive sound named
          · trivial
      | program cmdInfo => cases taken
  | bgUpdate cmdInfo =>
      rw [at_pc] at taken good noticed
      cases taken
      exact bg_update_sound sound quiet good noticed trivial
  | bgKill cmdInfo =>
      rw [at_pc] at taken
      cases taken
      exact sound_of_pc (sigcont_sound sound cmdInfo.pgId) (sigcont_pc s _ ▸ quiet) trivial
  | fgRemove cmdInfo =>
      exact absurd ⟨cmdInfo, at_pc⟩ chosen
  | fgPush cmdInfo =>
      rw [at_pc] at taken good
      cases taken
      exact sound_of_pc sound quiet good
  | fgKill cmdInfo =>
      rw [at_pc] at taken good
      cases taken
      apply sound_of_pc (sigcont_sound sound cmdInfo.pgId) (sigcont_pc s _ ▸ quiet)
      change Unlisted _ _
      rw [Unlisted, sigcont_table]
      exact good
  | pushFg cmdInfo =>
      rw [at_pc] at taken good
      cases taken
      exact sound_of_pc sound quiet good
  | popFg cmdInfo stopped =>
      rw [at_pc] at taken good
      cases taken
      apply sound_of_pc sound quiet
      cases stopped with
      | true => exact ⟨good.1, good.2 rfl⟩
      | false => trivial
  | pushJob cmdInfo =>
      rw [at_pc] at taken good
      obtain ⟨table, pushed, isNext⟩ := Option.map_eq_some_iff.mp taken
      subst isNext
      exact push_sound sound quiet good.1 good.2 pushed

theorem fork_sound {s : Shell} {pid : Int} {cmdInfo : SCommandDetail} (sound : Sound s)
    (quiet : ∀ pid, ¬ s.pc.Removes pid) (positive : 0 < pid)
    (unlisted : ∀ job ∈ s.table.live, job.pgId ≠ pid) :
    Sound { s.setChild pid .running with
      count := s.count + 1
      pc := if cmdInfo.isBackground then .pushJob (launched cmdInfo pid)
        else .pushFg (launched cmdInfo pid) } := by
  have waitable : ∀ p, Waitable s p → Waitable (s.setChild pid .running) p := by
    intro p waitable
    cases waitable with
    | inl child =>
        left
        change Function.update s.children pid .running p ≠ .none
        by_cases same : p = pid
        · rw [same, Function.update_self]
          intro none
          cases none
        · rw [Function.update_of_ne same]
          exact child
    | inr held => exact Or.inr held
  have listed : Unlisted s pid := ⟨positive, unlisted⟩
  have born : Waitable (s.setChild pid .running) pid := by
    left
    change Function.update s.children pid .running pid ≠ .none
    rw [Function.update_self]
    intro none
    cases none
  exact {
    ordered := sound.ordered
    children := by
      intro p child
      by_cases same : p = pid
      · exact same ▸ positive
      · apply sound.children p
        change Function.update s.children pid .running p ≠ .none at child
        rw [Function.update_of_ne same] at child
        exact child
    held := sound.held
    ids := sound.ids
    entries := fun job live status =>
      Or.inl (waitable job.pgId (entry_waitable sound quiet live status))
    pc := by
      dsimp only
      split
      · exact ⟨listed, born⟩
      · exact listed }

theorem removes_nothing {s : Shell} {pc : Pc} (at_pc : s.pc = pc)
    (quiet : ∀ pid, ¬ pc.Removes pid) : ∀ pid, ¬ s.pc.Removes pid := by
  rw [at_pc]
  exact quiet

theorem report_stop_sound {s : Shell} {cmdInfo : SCommandDetail} {pid : Int} (sound : Sound s)
    (at_pc : s.pc = .wait cmdInfo) (waits : Waits cmdInfo pid)
    (stopped : s.children pid = .stopped false) :
    Sound { s.setChild pid (.stopped true) with pc := .popFg cmdInfo true } := by
  have unlisted : Unlisted s cmdInfo.pgId := by
    have good := sound.pc
    rw [at_pc] at good
    exact good
  have same : cmdInfo.pgId = pid := by
    cases waits with
    | inl same => exact same
    | inr any =>
        have positive := unlisted.1
        rw [any] at positive
        exact absurd positive (by decide)
  have present : s.children pid ≠ .none := by
    rw [stopped]
    exact fun none => nomatch none
  have remains : Child.stopped true ≠ .none := fun none => nomatch none
  have quiet := removes_nothing at_pc fun _ removes => removes
  apply sound_of_pc (set_child_sound sound present remains) quiet
  constructor
  · exact unlisted
  · intro _
    left
    change Function.update s.children pid (.stopped true) cmdInfo.pgId ≠ .none
    rw [same, Function.update_self]
    exact fun none => nomatch none

theorem report_end_sound {s : Shell} {cmdInfo : SCommandDetail} {pid : Int} (sound : Sound s)
    (at_pc : s.pc = .wait cmdInfo) (waits : Waits cmdInfo pid) :
    Sound { s.reap pid s.reaper with pc := .popFg cmdInfo false } := by
  have unlisted : Unlisted s cmdInfo.pgId := by
    have good := sound.pc
    rw [at_pc] at good
    exact good
  have same : cmdInfo.pgId = pid := by
    cases waits with
    | inl same => exact same
    | inr any =>
        have positive := unlisted.1
        rw [any] at positive
        exact absurd positive (by decide)
  have reaped : Sound (s.reap pid s.reaper) := by
    apply reap_sound sound
    · intro p waitable other
      cases waitable with
      | inl child =>
          left
          change Function.update s.children pid .none p ≠ .none
          rw [Function.update_of_ne other]
          exact child
      | inr held => exact Or.inr held
    · exact sound.held
    · intro job live named
      exact absurd (named.trans same.symm) (unlisted.2 job live)
    · intro registers
      rw [at_pc] at registers
      exact registers.elim
  have quiet := removes_nothing at_pc fun _ removes => removes
  apply sound_of_pc reaped quiet
  constructor
  · exact unlisted
  · intro reported
    cases reported

/-- A child that `reap_loop` has reaped is forgotten, or remembered until `update_job_cmd`. -/
theorem reaper_sound {s : Shell} {pid : Int} {reaper : Reaper} (sound : Sound s)
    (idle : s.reaper = .waiting) (zombie : s.children pid ≠ .none)
    (remembers : reaper = .update pid ∨ reaper = .waiting ∧
      (∀ job ∈ s.table.live, job.pgId = pid → s.pc.Removes pid) ∧ ¬ s.pc.Registers pid) :
    Sound (s.reap pid reaper) := by
  apply reap_sound sound
  · intro p waitable other
    cases waitable with
    | inl child =>
        left
        change Function.update s.children pid .none p ≠ .none
        rw [Function.update_of_ne other]
        exact child
    | inr held =>
        rw [idle] at held
        cases held
  · intro p held
    cases remembers with
    | inl update =>
        rw [update] at held
        rw [← Reaper.update.inj held]
        exact sound.children pid zombie
    | inr forgets =>
        rw [forgets.1] at held
        cases held
  · intro job live named
    cases remembers with
    | inl update => exact Or.inl update
    | inr forgets => exact Or.inr (forgets.2.1 job live named)
  · intro registers
    cases remembers with
    | inl update => exact update
    | inr forgets => exact absurd registers forgets.2.2

theorem step_sound {s next : Shell} {action : Action} (sound : Sound s)
    (noticed : Noticed s action) (taken : step s action = some next) : Sound next := by
  cases action with
  | exit pid =>
      simp only [step] at taken
      obtain ⟨running, isNext⟩ := Option.ite_none_right_eq_some.mp taken
      cases isNext
      apply set_child_sound sound
      · rw [running]
        exact fun none => nomatch none
      · exact fun none => nomatch none
  | die pid =>
      simp only [step] at taken
      split at taken
      · next running =>
        cases taken
        exact set_child_sound sound (running ▸ fun none => nomatch none) fun none => nomatch none
      · next stopped =>
        cases taken
        exact set_child_sound sound (stopped ▸ fun none => nomatch none) fun none => nomatch none
      · cases taken
  | stop pid =>
      simp only [step] at taken
      obtain ⟨running, isNext⟩ := Option.ite_none_right_eq_some.mp taken
      cases isNext
      apply set_child_sound sound
      · rw [running]
        exact fun none => nomatch none
      · exact fun none => nomatch none
  | resume pid =>
      simp only [step] at taken
      split at taken
      · next stopped =>
        cases taken
        exact set_child_sound sound (stopped ▸ fun none => nomatch none) fun none => nomatch none
      · cases taken
  | reapExited pid =>
      simp only [step] at taken
      obtain ⟨⟨idle, exited⟩, isNext⟩ := Option.ite_none_right_eq_some.mp taken
      cases isNext
      exact reaper_sound sound idle (exited ▸ fun none => nomatch none) (Or.inl rfl)
  | reapKilled pid =>
      simp only [step] at taken
      obtain ⟨⟨idle, killed⟩, isNext⟩ := Option.ite_none_right_eq_some.mp taken
      cases isNext
      exact reaper_sound sound idle (killed ▸ fun none => nomatch none) (Or.inr ⟨rfl, noticed⟩)
  | reaperUpdate =>
      simp only [step] at taken
      cases held : s.reaper with
      | waiting =>
          rw [held] at taken
          cases taken
      | update pid =>
          rw [held] at taken
          cases taken
          simp only [Noticed, held] at noticed
          exact reaper_update_sound sound held noticed
  | begin command =>
      simp only [step] at taken
      split at taken
      · next at_pc =>
        cases taken
        have quiet := removes_nothing at_pc fun _ removes => removes
        exact sound_of_pc sound quiet trivial
      · cases taken
  | advance => exact advance_sound sound noticed taken
  | fork pid =>
      simp only [step] at taken
      split at taken
      · next at_pc =>
        have quiet := removes_nothing at_pc fun _ removes => removes
        split at taken
        · cases taken
          exact fork_sound sound quiet noticed.1 noticed.2
        · obtain ⟨failed, _⟩ := Option.ite_none_right_eq_some.mp taken
          have positive := noticed.1
          rw [failed] at positive
          exact absurd positive (by decide)
      · cases taken
  | reportStop pid =>
      simp only [step] at taken
      split at taken
      · next at_pc =>
        obtain ⟨⟨waits, stopped⟩, isNext⟩ := Option.ite_none_right_eq_some.mp taken
        cases isNext
        exact report_stop_sound sound at_pc waits stopped
      · cases taken
  | reportEnd pid =>
      simp only [step] at taken
      split at taken
      · next at_pc =>
        obtain ⟨⟨waits, _⟩, isNext⟩ := Option.ite_none_right_eq_some.mp taken
        cases isNext
        exact report_end_sound sound at_pc waits
      · cases taken
  | noChild =>
      simp only [step] at taken
      split at taken
      · next cmdInfo at_pc =>
        obtain ⟨_, isNext⟩ := Option.ite_none_right_eq_some.mp taken
        cases isNext
        have quiet := removes_nothing at_pc fun _ removes => removes
        apply sound_of_pc sound quiet
        have good := sound.pc
        rw [at_pc] at good
        exact ⟨good, fun reported => nomatch reported⟩
      · cases taken

theorem noticed_jobs_have_processes {s : Shell} (run : Reaches step Noticed Shell.start s)
    (atHead : s.pc = .head) (idle : s.reaper = .waiting) : JobsHaveProcesses s := by
  have sound : Sound s := reaches_invariant Sound start_sound
    (fun _ _ _ good noticed taken => step_sound good noticed taken) run
  have quiet := removes_nothing atHead fun _ removes => removes
  intro job live status
  cases entry_waitable sound quiet live status with
  | inl child => exact child
  | inr held =>
      rw [idle] at held
      cases held

instance (pid : Int) (pc : Pc) : Decidable (pc.Registers pid) := by
  cases pc with
  | popFg cmdInfo stopped =>
      exact inferInstanceAs (Decidable (stopped = true ∧ cmdInfo.pgId = pid))
  | pushJob cmdInfo => exact inferInstanceAs (Decidable (cmdInfo.pgId = pid))
  | _ => exact instDecidableFalse

instance (pid : Int) (pc : Pc) : Decidable (pc.Removes pid) := by
  cases pc with
  | fgRemove cmdInfo => exact inferInstanceAs (Decidable (cmdInfo.pgId = pid))
  | _ => exact instDecidableFalse

instance (s : Shell) (action : Action) : Decidable (Noticed s action) :=
  match action with
  | .reapKilled pid =>
      inferInstanceAs (Decidable ((∀ job ∈ s.table.live, job.pgId = pid → s.pc.Removes pid) ∧
        ¬ s.pc.Registers pid))
  | .reaperUpdate =>
      match s with
      | { reaper := .waiting, .. } => instDecidableTrue
      | { reaper := .update pid, pc := pc, .. } => inferInstanceAs (Decidable (¬ pc.Registers pid))
  | .fork pid => inferInstanceAs (Decidable (0 < pid ∧ ∀ job ∈ s.table.live, job.pgId ≠ pid))
  | .advance =>
      match s with
      | { pc := .bgUpdate cmdInfo, table := table, .. } =>
          inferInstanceAs (Decidable (∀ job ∈ table.live,
            job.pgId = cmdInfo.pgId → job.status ≠ .done))
      | { pc := .pushJob _, table := table, .. } =>
          inferInstanceAs (Decidable (table.jobsNextIndex < maxJobs))
      | { pc := .head, .. } => instDecidableTrue
      | { pc := .printing _ _, .. } => instDecidableTrue
      | { pc := .removing _ _, .. } => instDecidableTrue
      | { pc := .dispatch _, .. } => instDecidableTrue
      | { pc := .bgKill _, .. } => instDecidableTrue
      | { pc := .fgRemove _, .. } => instDecidableTrue
      | { pc := .fgPush _, .. } => instDecidableTrue
      | { pc := .fgKill _, .. } => instDecidableTrue
      | { pc := .pushFg _, .. } => instDecidableTrue
      | { pc := .wait _, .. } => instDecidableTrue
      | { pc := .popFg _ _, .. } => instDecidableTrue
  | .exit _ => instDecidableTrue
  | .die _ => instDecidableTrue
  | .stop _ => instDecidableTrue
  | .resume _ => instDecidableTrue
  | .reapExited _ => instDecidableTrue
  | .begin _ => instDecidableTrue
  | .reportStop _ => instDecidableTrue
  | .reportEnd _ => instDecidableTrue
  | .noChild => instDecidableTrue

/-- `sleep 9 &` -/
def background : SCommandDetail := { SCommandDetail.zeroed with isBackground := true }

/-- It is pid 7 and about to be pushed. -/
def launch : List Action := [.begin (.program background), .advance, .fork 7]

/-- The threads are at the heads of their loops, and this is the one job. -/
def rests (status : EProcStatus) (s : Shell) : Bool :=
  s.pc matches .head && s.reaper = .waiting &&
    s.table.live.map (fun job => (job.pgId, job.status)) = [(7, status)] &&
    s.children 7 = .none

theorem rests_iff {s : Shell} {status : EProcStatus} (ends : rests status s = true) :
    s.pc = .head ∧ s.reaper = .waiting ∧
      s.table.live.map (fun job => (job.pgId, job.status)) = [(7, status)] ∧
      s.children 7 = .none := by
  unfold rests at ends
  simp only [Bool.and_eq_true, decide_eq_true_eq] at ends
  obtain ⟨⟨⟨atHead, idle⟩, jobs⟩, gone⟩ := ends
  refine ⟨?_, idle, jobs, gone⟩
  split at atHead
  · assumption
  · cases atHead

theorem noticed_jobs_have_processes_exit :
    ∃ s, Reaches step Noticed Shell.start s ∧ rests .done s = true ∧ JobsHaveProcesses s := by
  obtain ⟨s, run, ends⟩ := @reaches_of_check _ _ step Noticed _ Shell.start
    (launch ++ [.advance, .exit 7, .reapExited 7, .reaperUpdate]) (rests .done) (by decide +kernel)
  obtain ⟨atHead, idle, _⟩ := rests_iff ends
  exact ⟨s, run, ends, noticed_jobs_have_processes run atHead idle⟩

/-- The child is killed before its job is pushed, and reaped after that. -/
theorem killed_job_stays_running :
    ∃ s, Reaches step (fun _ _ => True) Shell.start s ∧ s.pc = .head ∧ s.reaper = .waiting ∧
      ¬ JobsHaveProcesses s := by
  obtain ⟨s, run, ends⟩ := @reaches_of_check _ _ step (fun _ _ => True) _ Shell.start
    (launch ++ [.die 7, .advance, .reapKilled 7]) (rests .run) (by decide +kernel)
  obtain ⟨atHead, idle, jobs, gone⟩ := rests_iff ends
  refine ⟨s, run, atHead, idle, ?_⟩
  intro alive
  have entry : ((7 : Int), EProcStatus.run) ∈ s.table.live.map fun job => (job.pgId, job.status) := by
    rw [jobs]
    exact List.mem_singleton_self _
  obtain ⟨job, live, same⟩ := List.mem_map.mp entry
  obtain ⟨isPid, isRun⟩ := Prod.mk.inj same
  apply alive job live
  · rw [isRun]
    exact fun done => nomatch done
  · rw [isPid]
    exact gone

end UtSystems.Yashd.Reaping

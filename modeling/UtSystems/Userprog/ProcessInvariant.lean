import UtSystems.Userprog.ProcessThreads

/-!
# The tables agree with the sessions in every orderly run

A run is orderly when no table overflows at a registration and every
`process_wait` names a child of its caller or a tid without an entry. Along such
a run each `procList` entry belongs to one session, each `semList` slot to at
most one, and the semaphores of a slot count exactly the operations that its
session has completed.
-/

namespace UtSystems.Userprog.ProcessInvariant

open Threads.Synch Userprog.ProcessTable Userprog.ProcessSystem Userprog.ProcessThreads

set_option autoImplicit false

/-- `t` created the thread `child` with `process_execute`. -/
def ChildOf (s : Kernel) (t child : Tid) : Prop :=
  ∃ record ∈ s.threads child, record.parent = t ∧ record.process = true

/-- The allocator that the statement at this place calls finds a free slot. -/
def Room (s : Kernel) : Pc → Prop
  | .execAddSem _ => ∃ i, (s.semList i).present = false
  | .execAddProc _ _ => ∃ k, (s.procList k).tid = 0
  | _ => True

/-- The condition on one step: a registration finds a free slot, and `process_wait`
is called on a child of the caller or on a tid that `procList` does not hold. -/
def Orderly (s : Kernel) : Action → Prop
  | .wait t child => ChildOf s t child ∨ fetchProcess s.procList child = none
  | .run t => ∀ thread ∈ s.threads t, Room s thread.pc
  | _ => True

instance (s : Kernel) (t child : Tid) : Decidable (ChildOf s t child) :=
  inferInstanceAs (Decidable (∃ record ∈ s.threads child, record.parent = t ∧ record.process = true))

instance (s : Kernel) (pc : Pc) : Decidable (Room s pc) := by
  cases pc <;> unfold Room <;> infer_instance

instance (s : Kernel) (action : Action) : Decidable (Orderly s action) := by
  cases action <;> unfold Orderly <;> infer_instance

structure ProcOk (procList : ProcList) (threads : Tid → Option Thread) : Prop where
  entryTid : ∀ c record k, threads c = some record → record.entry = some k →
    (procList k).tid = c
  entryIdx : ∀ c record k (i : Slot), threads c = some record → record.entry = some k →
    record.slot = some i → (procList k).semListIdx = i.val
  onlyEntries : ∀ k, (procList k).tid ≠ 0 →
    ∃ record, threads (procList k).tid = some record ∧ record.entry = some k

def LaunchDown (child : Tid) (pc : Pc) : Prop := ∃ idx, pc = .execDown child idx

def ExitDown (child : Tid) (pc : Pc) : Prop := ∃ p idx, pc = .waitDown child p idx

/-- Thread `u` is on a waiters list, at a place in `Place`. -/
def Stuck (threads : Tid → Option Thread) (u : Tid) (Place : Pc → Prop) : Prop :=
  ∃ thread, threads u = some thread ∧ thread.blocked = true ∧ Place thread.pc

/-- A semaphore that `up` operations of the child and `down` operations of the
parent have used, with the parent stuck in it or not. -/
structure SemaFits (sema : Semaphore) (up down : Bool) (parent : Tid) (stuck : Prop) : Prop where
  value : sema.value = up.toNat - down.toNat
  waits : stuck → sema.waiters = [parent] ∧ up = false
  clear : ¬stuck → sema.waiters = []

structure SemFits (threads : Tid → Option Thread) (c : Tid) (record : Thread) (entry : SSemType) :
    Prop where
  present : entry.present = true
  launched : SemaFits entry.launched record.launched record.awaited record.parent
    (Stuck threads record.parent (LaunchDown c))
  exiting : SemaFits entry.exiting record.signalled record.reaped record.parent
    (Stuck threads record.parent (ExitDown c))

structure SemOk (semList : SemList) (threads : Tid → Option Thread) : Prop where
  apart : ∀ c d record other i, threads c = some record → threads d = some other →
    record.slot = some i → other.slot = some i → c = d
  fits : ∀ c record i, threads c = some record → record.slot = some i →
    SemFits threads c record (semList i)

structure Consistent (s : Kernel) : Prop where
  threads : ThreadsOk s.threads s.nextTid
  procs : ProcOk s.procList s.threads
  sems : SemOk s.semList s.threads

/-! ## Changes that leave a table alone -/

section Frame

variable {threads : Tid → Option Thread} {t c : Tid}

theorem proc_ok_change {procList : ProcList} (ok : ProcOk procList threads)
    (change : Change threads t c)
    (entry : change.after.entry = change.before.entry)
    (slot : change.after.slot = change.before.slot)
    (otherEntry : change.otherAfter.entry = change.otherBefore.entry)
    (otherSlot : change.otherBefore.entry.isSome →
      ∀ i, change.otherAfter.slot = some i → change.otherBefore.slot = some i) :
    ProcOk procList change.result := by
  have origin : ∀ u record, change.result u = some record →
      ∃ before, threads u = some before ∧ record.entry = before.entry ∧
        (before.entry.isSome → ∀ i, record.slot = some i → before.slot = some i) := by
    intro u record present
    rcases change.result_cases present with ⟨rfl, rfl⟩ | ⟨_, rfl, rfl⟩ | ⟨_, _, found⟩
    · exact ⟨_, change.found, entry, fun _ i held => by rw [← slot, held]⟩
    · exact ⟨_, change.otherFound, otherEntry, otherSlot⟩
    · exact ⟨record, found, rfl, fun _ _ held => held⟩
  constructor
  · intro u record k present held
    obtain ⟨before, found, same, _⟩ := origin u record present
    exact ok.entryTid u before k found (by rw [← same, held])
  · intro u record k i present held slotHeld
    obtain ⟨before, found, same, slots⟩ := origin u record present
    rw [same] at held
    exact ok.entryIdx u before k i found held (slots (by simp [held]) i slotHeld)
  · intro k used
    obtain ⟨before, found, held⟩ := ok.onlyEntries k used
    by_cases self : (procList k).tid = t
    · have equal : before = change.before :=
        Option.some.inj (found.symm.trans (self ▸ change.found))
      rw [self]
      exact ⟨change.after, change.result_self, by rw [entry, ← equal, held]⟩
    · by_cases other : (procList k).tid = c
      · have equal : before = change.otherBefore :=
          Option.some.inj (found.symm.trans (other ▸ change.otherFound))
        rw [other]
        exact ⟨change.otherAfter, change.result_other, by rw [otherEntry, ← equal, held]⟩
      · exact ⟨before, by rw [change.result_rest self other, found], held⟩

/-- The fields on which the semaphores of a session depend. -/
structure SameFlags (before after : Thread) : Prop where
  parent : after.parent = before.parent
  slot : after.slot = before.slot
  launched : after.launched = before.launched
  awaited : after.awaited = before.awaited
  signalled : after.signalled = before.signalled
  reaped : after.reaped = before.reaped

theorem stuck_change (change : Change threads t c) {u : Tid} {Place : Pc → Prop}
    (self : (change.after.blocked = true ∧ Place change.after.pc) ↔
      (change.before.blocked = true ∧ Place change.before.pc))
    (other : (change.otherAfter.blocked = true ∧ Place change.otherAfter.pc) ↔
      (change.otherBefore.blocked = true ∧ Place change.otherBefore.pc)) :
    Stuck change.result u Place ↔ Stuck threads u Place := by
  have stuckAt : ∀ (table : Tid → Option Thread) v thread, table v = some thread →
      (Stuck table v Place ↔ (thread.blocked = true ∧ Place thread.pc)) := by
    intro table v thread present
    constructor
    · rintro ⟨found, lookup, holds⟩
      rw [present, Option.some.injEq] at lookup
      rwa [lookup]
    · exact fun holds => ⟨thread, present, holds⟩
  by_cases isSelf : u = t
  · subst isSelf
    rw [stuckAt _ _ _ change.result_self, stuckAt _ _ _ change.found, self]
  · by_cases isOther : u = c
    · subst isOther
      rw [stuckAt _ _ _ change.result_other, stuckAt _ _ _ change.otherFound, other]
    · unfold Stuck
      rw [change.result_rest isSelf isOther]

theorem sem_fits_frame {before after : Tid → Option Thread} {d : Tid} {record changed : Thread}
    {entry : SSemType} (same : SameFlags record changed)
    (launch : Stuck after record.parent (LaunchDown d) ↔ Stuck before record.parent (LaunchDown d))
    (exit : Stuck after record.parent (ExitDown d) ↔ Stuck before record.parent (ExitDown d))
    (fits : SemFits before d record entry) : SemFits after d changed entry := by
  obtain ⟨present, launched, exiting⟩ := fits
  refine ⟨present, ?_, ?_⟩
  · rw [same.launched, same.awaited, same.parent]
    exact ⟨launched.value, fun stuck => launched.waits (launch.mp stuck),
      fun free => launched.clear (fun stuck => free (launch.mpr stuck))⟩
  · rw [same.signalled, same.reaped, same.parent]
    exact ⟨exiting.value, fun stuck => exiting.waits (exit.mp stuck),
      fun free => exiting.clear (fun stuck => free (exit.mpr stuck))⟩

/-- The semaphores of all sessions but `d` are untouched, and those of `d` fit. -/
theorem sem_ok_session {semList after : SemList} (ok : SemOk semList threads)
    (change : Change threads t c) (d : Tid)
    (others : ∀ u record, u ≠ d → change.result u = some record →
      ∃ before, threads u = some before ∧ SameFlags before record ∧
        (Stuck change.result before.parent (LaunchDown u) ↔
          Stuck threads before.parent (LaunchDown u)) ∧
        (Stuck change.result before.parent (ExitDown u) ↔
          Stuck threads before.parent (ExitDown u)))
    (keeps : ∀ u before j, u ≠ d → threads u = some before → before.slot = some j →
      after j = semList j)
    (mine : ∀ record j, change.result d = some record → record.slot = some j →
      SemFits change.result d record (after j) ∧
        ∀ u before, u ≠ d → threads u = some before → before.slot ≠ some j) :
    SemOk after change.result := by
  constructor
  · intro u v record other j presentU presentV slotU slotV
    by_cases isU : u = d
    · by_cases isV : v = d
      · rw [isU, isV]
      · obtain ⟨before, found, same, _⟩ := others v other isV presentV
        subst isU
        exact absurd (by rw [← same.slot, slotV]) ((mine record j presentU slotU).2 v before isV found)
    · obtain ⟨before, found, same, _⟩ := others u record isU presentU
      by_cases isV : v = d
      · subst isV
        exact absurd (by rw [← same.slot, slotU]) ((mine other j presentV slotV).2 u before isU found)
      · obtain ⟨beforeV, foundV, sameV, _⟩ := others v other isV presentV
        exact ok.apart u v before beforeV j found foundV (by rw [← same.slot, slotU])
          (by rw [← sameV.slot, slotV])
  · intro u record j present held
    by_cases isD : u = d
    · subst isD
      exact (mine record j present held).1
    · obtain ⟨before, found, same, launch, exit⟩ := others u record isD present
      have heldBefore : before.slot = some j := by rw [← same.slot, held]
      rw [keeps u before j isD found heldBefore]
      exact sem_fits_frame same launch exit (ok.fits u before j found heldBefore)

end Frame

/-! ## A thread that moves on by itself -/

/-- The change of one thread. -/
def alone {threads : Tid → Option Thread} {t : Tid} {before : Thread} (after : Thread)
    (found : threads t = some before) : Change threads t t where
  before := before
  after := after
  otherBefore := before
  otherAfter := after
  found := found
  otherFound := found
  alone := fun _ => ⟨rfl, rfl⟩

theorem alone_result {threads : Tid → Option Thread} {t : Tid} {before : Thread} (after : Thread)
    (found : threads t = some before) :
    (alone after found).result = Function.update threads t (some after) := by
  simp [alone, Change.result]

/-- A thread that is not on a waiters list changes its place and nothing else that
the tables or its parent depend on. -/
theorem inv_move {s next : Kernel} (inv : Consistent s) {t : Tid} {thread after : Thread}
    (found : s.threads t = some thread) (ready : thread.blocked = false)
    (threads : next.threads = Function.update s.threads t (some after))
    (procs : ProcOk next.procList s.threads) (sems : next.semList = s.semList)
    (tid : next.nextTid = s.nextTid)
    (same : SameSession thread after) (flags : SameFlags thread after)
    (blocked : after.blocked = false) (own : OwnOk after)
    (charge : Charge s.threads t after.pc)
    (launching : ∀ child, Launching child thread.pc → Launching child after.pc)
    (reaping : ∀ child, Reaping child thread.pc → Reaping child after.pc) : Consistent next := by
  have range := inv.threads.range t thread found
  have result := alone_result after found
  have threadsOk : ThreadsOk (alone after found).result s.nextTid := by
    apply threads_ok_change inv.threads
    refine ⟨same, same.parent, same.process, fun _ => same, fun self => absurd rfl self, own, own,
      ?_, fun child _ => launching child, ?_, fun child _ => reaping child, ?_, ?_, ?_⟩
    · intro child works
      obtain ⟨record, present, parent, process, session⟩ := charge child works
      have other : child ≠ t := by
        rintro rfl
        exact (inv.threads.range child record present).2.1.ne parent
      exact ⟨record, by rw [result, Function.update_of_ne other, present], parent, process, session⟩
    · intro mine
      exact absurd mine range.2.1.ne
    · intro mine
      exact absurd mine range.2.1.ne
    · intro stuck
      rw [show (alone after found).after.blocked = false from blocked] at stuck
      cases stuck
    · intro self
      exact absurd rfl self
  have stuck : ∀ u (Place : Pc → Prop),
      Stuck (alone after found).result u Place ↔ Stuck s.threads u Place := by
    intro u Place
    have iff : (after.blocked = true ∧ Place after.pc) ↔
        (thread.blocked = true ∧ Place thread.pc) := by
      simp [blocked, ready]
    exact stuck_change (alone after found) iff iff
  have semOk : SemOk s.semList (alone after found).result := by
    have origin : ∀ u record, (alone after found).result u = some record →
        ∃ before, s.threads u = some before ∧ SameFlags before record := by
      intro u record present
      rcases (alone after found).result_cases present with ⟨rfl, rfl⟩ | ⟨_, rfl, rfl⟩ | ⟨_, _, old⟩
      · exact ⟨thread, found, flags⟩
      · exact ⟨thread, found, flags⟩
      · exact ⟨record, old, rfl, rfl, rfl, rfl, rfl, rfl⟩
    apply sem_ok_session inv.sems (alone after found) t
    · intro u record _ present
      obtain ⟨before, old, sameFlags⟩ := origin u record present
      exact ⟨before, old, sameFlags, stuck _ _, stuck _ _⟩
    · intro u before j _ _ _
      rfl
    · intro record j present held
      obtain ⟨before, old, sameFlags⟩ := origin t record present
      have heldBefore : before.slot = some j := by rw [← sameFlags.slot, held]
      refine ⟨sem_fits_frame sameFlags (stuck _ _) (stuck _ _)
        (inv.sems.fits t before j old heldBefore), ?_⟩
      intro u other different oldOther clash
      exact different (inv.sems.apart u t other before j oldOther old clash heldBefore)
  have procOk : ProcOk next.procList (alone after found).result :=
    proc_ok_change procs (alone after found) same.entry same.slot same.entry
      (fun _ i held => by rw [← held]; exact same.slot.symm)
  refine ⟨?_, ?_, ?_⟩
  · rw [threads, tid, ← result]
    exact threadsOk
  · rw [threads, ← result]
    exact procOk
  · rw [sems, threads, ← result]
    exact semOk

/-! ## A parent at work on the session of a child -/

section Parent

variable {threads : Tid → Option Thread} {t child : Tid}

/-- The parent moves to `pc` and leaves the child's record as `record`. -/
def served {thread childBefore : Thread} (pc : Pc) (record : Thread)
    (found : threads t = some thread) (childFound : threads child = some childBefore)
    (different : child ≠ t) : Change threads t child where
  before := thread
  after := { thread with pc := pc }
  otherBefore := childBefore
  otherAfter := record
  found := found
  otherFound := childFound
  alone := fun equal => absurd equal different

/-- The parts of a child's record that its parent never touches. -/
structure OwnSame (before after : Thread) : Prop where
  parent : after.parent = before.parent
  process : after.process = before.process
  pc : after.pc = before.pc
  blocked : after.blocked = before.blocked
  launched : after.launched = before.launched
  signalled : after.signalled = before.signalled

theorem own_ok_move {thread : Thread} {pc : Pc} (own : OwnOk thread)
    (alive : thread.pc ≠ .dead) (place : PlaceOk { thread with pc := pc }) :
    OwnOk { thread with pc := pc } where
  awaitedLaunched := own.awaitedLaunched
  reapedAwaited := own.reapedAwaited
  reapedSignalled := own.reapedSignalled
  signalledDead := fun signalled => absurd (own.signalledDead signalled) alive
  launchedHolds := own.launchedHolds
  signalledHolds := own.signalledHolds
  entrySlot := own.entrySlot
  place := place

theorem served_stuck {thread childBefore : Thread} {pc : Pc} {record : Thread}
    (found : threads t = some thread) (childFound : threads child = some childBefore)
    (different : child ≠ t) (ready : thread.blocked = false) (same : OwnSame childBefore record)
    (u : Tid) (Place : Pc → Prop) :
    Stuck (served pc record found childFound different).result u Place ↔
      Stuck threads u Place := by
  apply stuck_change
  · simp [served, ready]
  · simp only [served, same.blocked, same.pc]

theorem served_threads {nextTid : Tid} {thread childBefore : Thread} {pc : Pc} {record : Thread}
    (ok : ThreadsOk threads nextTid) (found : threads t = some thread)
    (childFound : threads child = some childBefore) (different : child ≠ t)
    (ready : thread.blocked = false) (same : OwnSame childBefore record)
    (mine : childBefore.parent = t) (process : childBefore.process = true)
    (own : OwnOk { thread with pc := pc }) (childOwn : OwnOk record)
    (works : ∀ other, worksOn pc = some other → other = child) (session : SessionAt record pc)
    (before : worksOn thread.pc = some child)
    (launching : record.awaited = false → Launching child pc)
    (reaping : record.reaped = true → record.entry.isSome → Reaping child pc) :
    ThreadsOk (served pc record found childFound different).result nextTid := by
  apply threads_ok_change ok
  have launchesOnly : ∀ other, Launching other thread.pc → other = child :=
    fun other launches => Option.some.inj ((launching_works launches).symm.trans before)
  have reapsOnly : ∀ other, Reaping other thread.pc → other = child :=
    fun other reaps => Option.some.inj ((reaping_works reaps).symm.trans before)
  constructor
  · exact ⟨rfl, rfl, rfl, rfl, rfl, rfl⟩
  · exact same.parent
  · exact same.process
  · exact fun foreign => absurd mine foreign
  · exact fun _ => same.pc
  · exact own
  · exact childOwn
  · intro other isOther
    rw [works other isOther]
    exact ⟨record, Change.result_other _, by rw [same.parent, mine],
      by rw [same.process, process], session⟩
  · exact fun other notChild launches => absurd (launchesOnly other launches) notChild
  · exact fun _ _ awaited => launching awaited
  · exact fun other notChild reaps => absurd (reapsOnly other reaps) notChild
  · exact fun _ => reaping
  · intro blocked
    simp [served, ready] at blocked
  · intro _ blocked
    have placed := ok.blockedAt child childBefore childFound (by rw [← same.blocked]; exact blocked)
    rw [show (served pc record found childFound different).otherAfter.pc = childBefore.pc from same.pc]
    exact placed

/-- The semaphores of every session but the child's are as before. -/
theorem served_sems {semList after : SemList} {thread childBefore : Thread} {pc : Pc}
    {record : Thread} (ok : SemOk semList threads) (found : threads t = some thread)
    (childFound : threads child = some childBefore) (different : child ≠ t)
    (ready : thread.blocked = false) (same : OwnSame childBefore record)
    (keeps : ∀ u before j, u ≠ child → threads u = some before → before.slot = some j →
      after j = semList j)
    (mine : ∀ j, record.slot = some j →
      (∀ u before, u ≠ child → threads u = some before → before.slot ≠ some j) ∧
      (after j).present = true ∧
      SemaFits (after j).launched record.launched record.awaited record.parent
        (Stuck threads record.parent (LaunchDown child)) ∧
      SemaFits (after j).exiting record.signalled record.reaped record.parent
        (Stuck threads record.parent (ExitDown child))) :
    SemOk after (served pc record found childFound different).result := by
  have stuck : ∀ u Place, Stuck (served pc record found childFound different).result u Place ↔
      Stuck threads u Place := served_stuck found childFound different ready same
  apply sem_ok_session ok _ child
  · intro u other notChild present
    rcases Change.result_cases _ present with ⟨rfl, rfl⟩ | ⟨_, equal, _⟩ | ⟨_, _, old⟩
    · exact ⟨thread, found, ⟨rfl, rfl, rfl, rfl, rfl, rfl⟩, stuck _ _, stuck _ _⟩
    · exact absurd equal notChild
    · exact ⟨other, old, ⟨rfl, rfl, rfl, rfl, rfl, rfl⟩, stuck _ _, stuck _ _⟩
  · exact keeps
  · intro other j present held
    rw [Change.result_other, Option.some.injEq] at present
    subst present
    obtain ⟨fresh, isPresent, launched, exiting⟩ := mine j held
    refine ⟨⟨isPresent, ?_, ?_⟩, fresh⟩
    · simp only [stuck]
      exact launched
    · simp only [stuck]
      exact exiting

end Parent

end UtSystems.Userprog.ProcessInvariant

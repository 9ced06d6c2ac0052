import UtSystems.Userprog.ProcessSteps

/-!
# Threads and their sessions

A session is the life of one process as its parent sees it: the slots obtained
for it and which `sema_down`s have passed. Only steps of the parent change the
session of a child, and only steps of the child change its place in its own code.
`ThreadsOk` says how the two fit together, without the tables.
-/

namespace UtSystems.Userprog.ProcessThreads

open Threads.Synch Userprog.ProcessTable Userprog.ProcessSystem

set_option autoImplicit false

/-- The statements of `process_execute` from `thread_create` to the end of
`sema_down(launched)`. -/
def Launching (child : Tid) : Pc → Prop
  | .execAddSem tid => tid = child
  | .execAddProc tid _ => tid = child
  | .execDown tid _ => tid = child
  | _ => False

/-- The statements of `process_wait` after `sema_down(exiting)`. -/
def Reaping (child : Tid) : Pc → Prop
  | .waitRelease tid _ _ => tid = child
  | .waitRead tid _ => tid = child
  | .waitClear tid _ _ => tid = child
  | _ => False

/-- The two places where a thread can be on a waiters list. -/
def Downing : Pc → Prop
  | .execDown _ _ => True
  | .waitDown _ _ _ => True
  | _ => False

def holdsBoth (thread : Thread) : Prop := thread.slot.isSome ∧ thread.entry.isSome

/-- What the place of a thread says about its own session. -/
def PlaceOk (thread : Thread) : Prop :=
  match thread.pc with
  | .load => thread.launched = false
  | .launch => thread.launched = false
  | .launchUp idx =>
      thread.launched = false ∧ thread.entry.isSome ∧
        ∃ i : Slot, thread.slot = some i ∧ idx = i.val
  | .exitFetch _ => True
  | .exitStore p _ => thread.entry = some p
  | .exitProcess => True
  | .exitIdx p => thread.entry = some p
  | .exitSignal idx => thread.entry.isSome ∧ ∃ i : Slot, thread.slot = some i ∧ idx = i.val
  | .dead => True
  | _ => thread.process = true → thread.launched = true

structure OwnOk (thread : Thread) : Prop where
  awaitedLaunched : thread.awaited = true → thread.launched = true
  reapedAwaited : thread.reaped = true → thread.awaited = true
  reapedSignalled : thread.reaped = true → thread.signalled = true
  signalledDead : thread.signalled = true → thread.pc = .dead
  launchedHolds : thread.launched = true → thread.reaped = false → holdsBoth thread
  signalledHolds : thread.signalled = true → thread.reaped = false → holdsBoth thread
  entrySlot : thread.entry.isSome → thread.reaped = false → thread.slot.isSome
  place : PlaceOk thread

/-- The child a thread works on in `process_execute` or `process_wait`. -/
def worksOn : Pc → Option Tid
  | .execAddSem tid => some tid
  | .execAddProc tid _ => some tid
  | .execDown tid _ => some tid
  | .waitIdx tid _ => some tid
  | .waitDown tid _ _ => some tid
  | .waitRelease tid _ _ => some tid
  | .waitRead tid _ => some tid
  | .waitClear tid _ _ => some tid
  | _ => none

theorem launching_works {child : Tid} {pc : Pc} (launches : Launching child pc) :
    worksOn pc = some child := by
  cases pc with
  | execAddSem tid => exact congrArg some launches
  | execAddProc tid idx => exact congrArg some launches
  | execDown tid idx => exact congrArg some launches
  | _ => exact launches.elim

theorem reaping_works {child : Tid} {pc : Pc} (reaps : Reaping child pc) :
    worksOn pc = some child := by
  cases pc with
  | waitRelease tid p idx => exact congrArg some reaps
  | waitRead tid p => exact congrArg some reaps
  | waitClear tid p status => exact congrArg some reaps
  | _ => exact reaps.elim

/-- What the place of the parent says about the session of that child. -/
def SessionAt (record : Thread) : Pc → Prop
  | .execAddSem _ => record.slot = none ∧ record.entry = none ∧ record.awaited = false
  | .execAddProc _ idx =>
      (∃ i : Slot, record.slot = some i ∧ idx = i.val) ∧ record.entry = none ∧
        record.awaited = false
  | .execDown _ idx =>
      (∃ i : Slot, record.slot = some i ∧ idx = i.val) ∧ record.entry.isSome ∧
        record.awaited = false
  | .waitIdx _ p =>
      record.slot.isSome ∧ record.entry = some p ∧ record.awaited = true ∧ record.reaped = false
  | .waitDown _ p idx =>
      (∃ i : Slot, record.slot = some i ∧ idx = i.val) ∧ record.entry = some p ∧
        record.awaited = true ∧ record.reaped = false
  | .waitRelease _ p idx =>
      (∃ i : Slot, record.slot = some i ∧ idx = i.val) ∧ record.entry = some p ∧
        record.awaited = true ∧ record.reaped = true
  | .waitRead _ p =>
      record.slot = none ∧ record.entry = some p ∧ record.awaited = true ∧ record.reaped = true
  | .waitClear _ p _ =>
      record.slot = none ∧ record.entry = some p ∧ record.awaited = true ∧ record.reaped = true
  | _ => True

def Charge (threads : Tid → Option Thread) (t : Tid) (pc : Pc) : Prop :=
  ∀ child, worksOn pc = some child →
    ∃ record, threads child = some record ∧ record.parent = t ∧ record.process = true ∧
      SessionAt record pc

structure ThreadsOk (threads : Tid → Option Thread) (nextTid : Tid) : Prop where
  range : ∀ t thread, threads t = some thread → 0 ≤ thread.parent ∧ thread.parent < t ∧ t < nextTid
  own : ∀ t thread, threads t = some thread → OwnOk thread
  charge : ∀ t thread, threads t = some thread → Charge threads t thread.pc
  launching : ∀ t thread, threads t = some thread → thread.process = true →
    thread.awaited = false →
      ∃ parent, threads thread.parent = some parent ∧ Launching t parent.pc
  reaping : ∀ t thread, threads t = some thread → thread.reaped = true → thread.entry.isSome →
    ∃ parent, threads thread.parent = some parent ∧ Reaping t parent.pc
  blockedAt : ∀ t thread, threads t = some thread → thread.blocked = true → Downing thread.pc

/-- The part of a record that only the parent changes. -/
structure SameSession (before after : Thread) : Prop where
  parent : after.parent = before.parent
  process : after.process = before.process
  slot : after.slot = before.slot
  entry : after.entry = before.entry
  awaited : after.awaited = before.awaited
  reaped : after.reaped = before.reaped

theorem same_session_refl (thread : Thread) : SameSession thread thread :=
  ⟨rfl, rfl, rfl, rfl, rfl, rfl⟩

theorem session_at_of_same {before after : Thread} {pc : Pc}
    (same : SameSession before after) (session : SessionAt before pc) : SessionAt after pc := by
  cases pc <;> simp only [SessionAt, same.slot, same.entry, same.awaited, same.reaped] at session ⊢ <;>
    exact session

/-- A step changes the record `after` of the thread that takes it, and that of at
most one other thread `c`: the child it works on or the thread it wakes. When no
other thread changes, `c` is `t` itself. -/
structure Change (threads : Tid → Option Thread) (t c : Tid) where
  before : Thread
  after : Thread
  otherBefore : Thread
  otherAfter : Thread
  found : threads t = some before
  otherFound : threads c = some otherBefore
  alone : c = t → otherBefore = before ∧ otherAfter = after

namespace Change

variable {threads : Tid → Option Thread} {t c : Tid}

def result (change : Change threads t c) : Tid → Option Thread :=
  Function.update (Function.update threads c (some change.otherAfter)) t (some change.after)

theorem result_self (change : Change threads t c) : change.result t = some change.after := by
  simp [result]

theorem result_other (change : Change threads t c) :
    change.result c = some change.otherAfter := by
  by_cases equal : c = t
  · have both := (change.alone equal).2
    subst equal
    rw [result_self, both]
  · simp [result, Function.update_of_ne equal]

theorem result_rest (change : Change threads t c) {u : Tid} (notSelf : u ≠ t) (notOther : u ≠ c) :
    change.result u = threads u := by
  simp [result, Function.update_of_ne notSelf, Function.update_of_ne notOther]

theorem result_cases (change : Change threads t c) {u : Tid} {record : Thread}
    (present : change.result u = some record) :
    (u = t ∧ record = change.after) ∨ (u ≠ t ∧ u = c ∧ record = change.otherAfter) ∨
      (u ≠ t ∧ u ≠ c ∧ threads u = some record) := by
  by_cases self : u = t
  · subst self
    rw [result_self, Option.some.injEq] at present
    exact .inl ⟨rfl, present.symm⟩
  · by_cases other : u = c
    · subst other
      rw [result_other, Option.some.injEq] at present
      exact .inr (.inl ⟨self, rfl, present.symm⟩)
    · rw [change.result_rest self other] at present
      exact .inr (.inr ⟨self, other, present⟩)

/-- What a change must respect: sessions change only under the hands of the parent,
and a place is left only with its duty done. -/
structure Fits (change : Change threads t c) : Prop where
  same : SameSession change.before change.after
  otherParent : change.otherAfter.parent = change.otherBefore.parent
  otherProcess : change.otherAfter.process = change.otherBefore.process
  otherSame : change.otherBefore.parent ≠ t →
    SameSession change.otherBefore change.otherAfter
  otherPc : c ≠ t → change.otherAfter.pc = change.otherBefore.pc
  own : OwnOk change.after
  otherOwn : OwnOk change.otherAfter
  charge : ∀ child, worksOn change.after.pc = some child →
    ∃ record, change.result child = some record ∧ record.parent = t ∧ record.process = true ∧
      SessionAt record change.after.pc
  launching : ∀ child, child ≠ c → Launching child change.before.pc →
    Launching child change.after.pc
  otherLaunching : change.otherBefore.parent = t → change.otherAfter.process = true →
    change.otherAfter.awaited = false → Launching c change.after.pc
  reaping : ∀ child, child ≠ c → Reaping child change.before.pc → Reaping child change.after.pc
  otherReaping : change.otherBefore.parent = t → change.otherAfter.reaped = true →
    change.otherAfter.entry.isSome → Reaping c change.after.pc
  blocked : change.after.blocked = true → Downing change.after.pc
  otherBlocked : c ≠ t → change.otherAfter.blocked = true → Downing change.otherAfter.pc

/-- A record of another thread's child keeps its session. -/
theorem result_session (change : Change threads t c) (fits : change.Fits) {u child : Tid}
    {record : Thread} (different : u ≠ t) (present : threads child = some record)
    (parent : record.parent = u) :
    ∃ changed, change.result child = some changed ∧ SameSession record changed := by
  by_cases self : child = t
  · subst self
    have equal : record = change.before := Option.some.inj (present.symm.trans change.found)
    subst equal
    exact ⟨change.after, change.result_self, fits.same⟩
  · by_cases other : child = c
    · subst other
      have equal : record = change.otherBefore :=
        Option.some.inj (present.symm.trans change.otherFound)
      subst equal
      exact ⟨change.otherAfter, change.result_other, fits.otherSame (by rw [parent]; exact different)⟩
    · exact ⟨record, by rw [change.result_rest self other, present], same_session_refl record⟩

/-- Every thread of the result was there before, with the same parent, and other
threads than `t` stand where they stood. -/
theorem result_origin (change : Change threads t c) (fits : change.Fits) {u : Tid}
    {record : Thread} (present : change.result u = some record) :
    ∃ before, threads u = some before ∧ record.parent = before.parent ∧
      record.process = before.process ∧ (u ≠ t → record.pc = before.pc) := by
  rcases change.result_cases present with ⟨rfl, rfl⟩ | ⟨self, rfl, rfl⟩ | ⟨self, other, found⟩
  · exact ⟨_, change.found, fits.same.parent, fits.same.process, fun self => absurd rfl self⟩
  · exact ⟨_, change.otherFound, fits.otherParent, fits.otherProcess, fun _ => fits.otherPc self⟩
  · exact ⟨record, found, rfl, rfl, fun _ => rfl⟩

/-- A duty that `t` keeps, and that depends on the place of a thread only, is kept. -/
theorem result_duty (change : Change threads t c) (fits : change.Fits) {u : Tid}
    (Duty : Pc → Prop) (keeps : u = t → Duty change.before.pc → Duty change.after.pc)
    (duty : ∃ thread, threads u = some thread ∧ Duty thread.pc) :
    ∃ thread, change.result u = some thread ∧ Duty thread.pc := by
  obtain ⟨thread, found, holds⟩ := duty
  by_cases self : u = t
  · subst self
    have equal : thread = change.before := Option.some.inj (found.symm.trans change.found)
    subst equal
    exact ⟨change.after, change.result_self, keeps rfl holds⟩
  · by_cases other : u = c
    · subst other
      have equal : thread = change.otherBefore :=
        Option.some.inj (found.symm.trans change.otherFound)
      subst equal
      exact ⟨change.otherAfter, change.result_other, by rw [fits.otherPc self]; exact holds⟩
    · exact ⟨thread, by rw [change.result_rest self other, found], holds⟩

end Change

theorem threads_ok_change {threads : Tid → Option Thread} {nextTid t c : Tid}
    (ok : ThreadsOk threads nextTid) (change : Change threads t c) (fits : change.Fits) :
    ThreadsOk change.result nextTid := by
  have notOwnParent : change.before.parent ≠ t :=
    (ok.range t change.before change.found).2.1.ne
  constructor
  · intro u record present
    obtain ⟨before, found, parent, _, _⟩ := change.result_origin fits present
    rw [parent]
    exact ok.range u before found
  · intro u record present
    rcases change.result_cases present with ⟨_, rfl⟩ | ⟨_, _, rfl⟩ | ⟨_, _, found⟩
    · exact fits.own
    · exact fits.otherOwn
    · exact ok.own u record found
  · intro u record present
    by_cases self : u = t
    · subst self
      rw [change.result_self, Option.some.injEq] at present
      subst present
      exact fits.charge
    · intro child works
      obtain ⟨before, found, _, _, stands⟩ := change.result_origin fits present
      rw [stands self] at works ⊢
      obtain ⟨record, present, parent, process, session⟩ := ok.charge u before found child works
      obtain ⟨changed, after, same⟩ := change.result_session fits self present parent
      exact ⟨changed, after, by rw [same.parent, parent], by rw [same.process, process],
        session_at_of_same same session⟩
  · intro u record present process awaited
    rcases change.result_cases present with ⟨rfl, rfl⟩ | ⟨self, rfl, rfl⟩ | ⟨self, other, found⟩
    · rw [fits.same.process] at process
      rw [fits.same.awaited] at awaited
      rw [fits.same.parent]
      exact change.result_duty fits (Launching u) (fun own => absurd own notOwnParent)
        (ok.launching u change.before change.found process awaited)
    · by_cases mine : change.otherBefore.parent = t
      · rw [fits.otherParent, mine]
        exact ⟨change.after, change.result_self, fits.otherLaunching mine process awaited⟩
      · have same := fits.otherSame mine
        rw [same.process] at process
        rw [same.awaited] at awaited
        rw [same.parent]
        exact change.result_duty fits (Launching u) (fun own => absurd own mine)
          (ok.launching u change.otherBefore change.otherFound process awaited)
    · exact change.result_duty fits (Launching u) (fun _ => fits.launching u other)
        (ok.launching u record found process awaited)
  · intro u record present reaped entry
    rcases change.result_cases present with ⟨rfl, rfl⟩ | ⟨self, rfl, rfl⟩ | ⟨self, other, found⟩
    · rw [fits.same.reaped] at reaped
      rw [fits.same.entry] at entry
      rw [fits.same.parent]
      exact change.result_duty fits (Reaping u) (fun own => absurd own notOwnParent)
        (ok.reaping u change.before change.found reaped entry)
    · by_cases mine : change.otherBefore.parent = t
      · rw [fits.otherParent, mine]
        exact ⟨change.after, change.result_self, fits.otherReaping mine reaped entry⟩
      · have same := fits.otherSame mine
        rw [same.reaped] at reaped
        rw [same.entry] at entry
        rw [same.parent]
        exact change.result_duty fits (Reaping u) (fun own => absurd own mine)
          (ok.reaping u change.otherBefore change.otherFound reaped entry)
    · exact change.result_duty fits (Reaping u) (fun _ => fits.reaping u other)
        (ok.reaping u record found reaped entry)
  · intro u record present blocked
    rcases change.result_cases present with ⟨_, rfl⟩ | ⟨self, rfl, rfl⟩ | ⟨_, _, found⟩
    · exact fits.blocked blocked
    · exact fits.otherBlocked self blocked
    · exact ok.blockedAt u record found blocked

end UtSystems.Userprog.ProcessThreads

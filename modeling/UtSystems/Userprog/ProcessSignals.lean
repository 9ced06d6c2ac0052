import UtSystems.Userprog.ProcessSessions

/-!
# Blocking in a semaphore and waking from it

A parent that finds a value of zero joins the waiters of its child's slot; the
child's `sema_up` finds at most this parent there and unblocks it.
-/

namespace UtSystems.Userprog.ProcessSignals

open Threads.Synch Userprog.ProcessTable Userprog.ProcessSystem Userprog.ProcessSteps
open Userprog.ProcessThreads Userprog.ProcessInvariant Userprog.ProcessSessions

set_option autoImplicit false

theorem launch_down_works {child : Tid} {pc : Pc} (down : LaunchDown child pc) :
    worksOn pc = some child := by
  obtain ⟨idx, rfl⟩ := down
  rfl

theorem exit_down_works {child : Tid} {pc : Pc} (down : ExitDown child pc) :
    worksOn pc = some child := by
  obtain ⟨p, idx, rfl⟩ := down
  rfl

/-- The parent joins the waiters of a semaphore of its child. -/
theorem inv_blocks {s next : Kernel} (inv : Consistent s) {t child : Tid} {thread : Thread}
    {pc : Pc} (here : At s t thread pc) (works : worksOn pc = some child) (downing : Downing pc)
    (threads : next.threads = Function.update s.threads t (some { thread with blocked := true }))
    (procs : next.procList = s.procList) (tid : next.nextTid = s.nextTid)
    (keeps : ∀ u before j, u ≠ child → s.threads u = some before → before.slot = some j →
      next.semList j = s.semList j)
    (semaphores : ∀ record j, s.threads child = some record → record.slot = some j →
      (next.semList j).present = true ∧
      SemaFits (next.semList j).launched record.launched record.awaited record.parent
        (LaunchDown child pc) ∧
      SemaFits (next.semList j).exiting record.signalled record.reaped record.parent
        (ExitDown child pc)) : Consistent next := by
  have result := alone_result { thread with blocked := true } here.found
  have range := (inv.threads.range t thread here.found).2.1
  obtain ⟨record, childFound, different, parent, process, session⟩ := charged inv here works
  have own := inv.threads.own t thread here.found
  have ownNext : OwnOk { thread with blocked := true } :=
    ⟨own.awaitedLaunched, own.reapedAwaited, own.reapedSignalled, own.signalledDead,
      own.launchedHolds, own.signalledHolds, own.entrySlot,
      place_ok_update own.place rfl rfl rfl (fun _ same => same) (fun _ same => same)⟩
  have childResult : (alone { thread with blocked := true } here.found).result child =
      some record := by
    rw [result, Function.update_of_ne different, childFound]
  have stuckElse : ∀ u (Place : Pc → Prop), (Place pc → False) →
      (Stuck (alone { thread with blocked := true } here.found).result u Place ↔
        Stuck s.threads u Place) := by
    intro u Place elsewhere
    have iff : (true = true ∧ Place thread.pc) ↔ (thread.blocked = true ∧ Place thread.pc) := by
      rw [here.stands]
      simp [eq_false elsewhere]
    exact stuck_change (alone { thread with blocked := true } here.found) iff iff
  have stuckHere : ∀ Place : Pc → Prop,
      Stuck (alone { thread with blocked := true } here.found).result t Place ↔ Place pc := by
    intro Place
    constructor
    · rintro ⟨found, lookup, _, place⟩
      rw [Change.result_self, Option.some.injEq] at lookup
      rw [← lookup] at place
      exact here.stands ▸ place
    · intro place
      refine ⟨_, Change.result_self _, rfl, ?_⟩
      exact here.stands ▸ place
  refine ⟨?_, ?_, ?_⟩
  · rw [threads, tid, ← result]
    apply threads_ok_change inv.threads
    refine ⟨⟨rfl, rfl, rfl, rfl, rfl, rfl⟩, rfl, rfl, fun _ => ⟨rfl, rfl, rfl, rfl, rfl, rfl⟩,
      fun self => absurd rfl self, ownNext, ownNext, ?_, fun _ _ same => same, ?_,
      fun _ _ same => same, ?_, ?_, fun self => absurd rfl self⟩
    · intro other worksOther
      rw [show (alone { thread with blocked := true } here.found).after.pc = pc from here.stands]
        at worksOther ⊢
      obtain rfl : child = other := Option.some.inj (works.symm.trans worksOther)
      exact ⟨record, childResult, parent, process, session⟩
    · exact fun mine => absurd mine range.ne
    · exact fun mine => absurd mine range.ne
    · intro _
      rw [show (alone { thread with blocked := true } here.found).after.pc = pc from here.stands]
      exact downing
  · rw [threads, procs, ← result]
    exact proc_ok_change inv.procs _ rfl rfl rfl (fun _ _ same => same)
  · rw [threads, ← result]
    apply sem_ok_session inv.sems _ child _ keeps
    · intro other j present held
      rw [childResult, Option.some.injEq] at present
      subst present
      obtain ⟨isPresent, launched, exiting⟩ := semaphores record j childFound held
      refine ⟨⟨isPresent, ?_, ?_⟩, ?_⟩
      · rw [parent, stuckHere, ← parent]
        exact launched
      · rw [parent, stuckHere, ← parent]
        exact exiting
      · intro u before notChild old clash
        exact notChild (inv.sems.apart u child before record j old childFound clash held)
    · intro u other notChild present
      have elsewhere : ∀ Place : Pc → Prop, (∀ place, Place place → worksOn place = some u) →
          Place pc → False := by
        intro Place onlyU place
        exact notChild (Option.some.inj ((onlyU pc place).symm.trans works))
      rcases Change.result_cases _ present with ⟨rfl, rfl⟩ | ⟨notSelf, self, _⟩ | ⟨_, _, old⟩
      · exact ⟨thread, here.found, ⟨rfl, rfl, rfl, rfl, rfl, rfl⟩,
          stuckElse _ _ (elsewhere _ fun _ => launch_down_works),
          stuckElse _ _ (elsewhere _ fun _ => exit_down_works)⟩
      · exact absurd self notSelf
      · exact ⟨other, old, ⟨rfl, rfl, rfl, rfl, rfl, rfl⟩,
          stuckElse _ _ (elsewhere _ fun _ => launch_down_works),
          stuckElse _ _ (elsewhere _ fun _ => exit_down_works)⟩

theorem inv_exec_blocks {s : Kernel} (inv : Consistent s) {t child : Tid} {thread : Thread}
    {idx : Int} {i : Slot} (here : At s t thread (.execDown child idx)) (slot : slotAt idx = some i)
    (zero : (s.semList i).launched.value = 0) :
    Consistent ((used s idx i { s.semList i with
      launched := (semaDown (s.semList i).launched t).1 }).put t
        { thread with blocked := true }) := by
  obtain ⟨record, childFound, different, parent, process, ⟨j, held, isIdx⟩, entry, awaited⟩ :=
    charged inv here rfl
  obtain rfl := slot_at_same isIdx slot
  obtain ⟨fresh, present, launched, exiting⟩ := session_sems inv here childFound parent held
  have down : record.launched = false := by
    have value := launched.value
    rw [zero, awaited] at value
    cases up : record.launched with
    | false => rfl
    | true => rw [up] at value; cases value
  refine inv_blocks inv here rfl trivial rfl rfl rfl ?_ ?_
  · exact fun u before l => sems_elsewhere fresh _
  · intro other l otherFound slotHeld
    obtain rfl : record = other := Option.some.inj (childFound.symm.trans otherFound)
    obtain rfl : j = l := Option.some.inj (held.symm.trans slotHeld)
    have entryNow := Function.update_self j { s.semList j with
      launched := (semaDown (s.semList j).launched t).1 } s.semList
    rw [sema_down_blocks zero] at entryNow ⊢
    refine ⟨?_, ?_, ?_⟩
    · exact (congrArg SSemType.present entryNow).trans present
    · refine ⟨?_, ?_, fun free => absurd ⟨idx, rfl⟩ free⟩
      · exact (congrArg (fun entry => entry.launched.value) entryNow).trans launched.value
      · intro _
        refine ⟨(congrArg (fun entry => entry.launched.waiters) entryNow).trans ?_, down⟩
        rw [launched.clear id, parent]
        rfl
    · have elsewhere : ¬ExitDown child (.execDown child idx) := by
        rintro ⟨p, other, clash⟩
        cases clash
      rw [eq_false elsewhere]
      exact (congrArg SSemType.exiting entryNow) ▸ exiting

theorem inv_wait_blocks {s : Kernel} (inv : Consistent s) {t child : Tid} {thread : Thread}
    {p : Slot} {idx : Int} {i : Slot} (here : At s t thread (.waitDown child p idx))
    (slot : slotAt idx = some i) (zero : (s.semList i).exiting.value = 0) :
    Consistent ((used s idx i { s.semList i with
      exiting := (semaDown (s.semList i).exiting t).1 }).put t
        { thread with blocked := true }) := by
  obtain ⟨record, childFound, different, parent, process, ⟨j, held, isIdx⟩, entry, awaited,
    unreaped⟩ := charged inv here rfl
  obtain rfl := slot_at_same isIdx slot
  obtain ⟨fresh, present, launched, exiting⟩ := session_sems inv here childFound parent held
  have down : record.signalled = false := by
    have value := exiting.value
    rw [zero, unreaped] at value
    cases up : record.signalled with
    | false => rfl
    | true => rw [up] at value; cases value
  refine inv_blocks inv here rfl trivial rfl rfl rfl ?_ ?_
  · exact fun u before l => sems_elsewhere fresh _
  · intro other l otherFound slotHeld
    obtain rfl : record = other := Option.some.inj (childFound.symm.trans otherFound)
    obtain rfl : j = l := Option.some.inj (held.symm.trans slotHeld)
    have entryNow := Function.update_self j { s.semList j with
      exiting := (semaDown (s.semList j).exiting t).1 } s.semList
    rw [sema_down_blocks zero] at entryNow ⊢
    refine ⟨?_, ?_, ?_⟩
    · exact (congrArg SSemType.present entryNow).trans present
    · have elsewhere : ¬LaunchDown child (.waitDown child p idx) := by
        rintro ⟨other, clash⟩
        cases clash
      rw [eq_false elsewhere]
      exact (congrArg SSemType.launched entryNow) ▸ launched
    · refine ⟨?_, ?_, fun free => absurd ⟨p, idx, rfl⟩ free⟩
      · exact (congrArg (fun entry => entry.exiting.value) entryNow).trans exiting.value
      · intro _
        refine ⟨(congrArg (fun entry => entry.exiting.waiters) entryNow).trans ?_, down⟩
        rw [exiting.clear id, parent]
        rfl

/-- A child signals a semaphore of its own slot and wakes its parent, if that one
waits at a place in `Mine`. Without a parent to wake, `c` is the child itself. -/
theorem inv_up {s next : Kernel} (inv : Consistent s) {t c : Tid} (change : Change s.threads t c)
    (threads : next.threads = change.result) (procs : next.procList = s.procList)
    (tid : next.nextTid = s.nextTid) (same : SameSession change.before change.after)
    (ready : change.before.blocked = false) (running : change.after.blocked = false)
    (idle : worksOn change.before.pc = none) (idleNext : worksOn change.after.pc = none)
    (own : OwnOk change.after)
    (woken : c ≠ t → change.otherAfter = { change.otherBefore with blocked := false })
    (Mine : Pc → Prop) (onlyMine : ∀ pc, Mine pc → worksOn pc = some t)
    (wakes : c ≠ t → c = change.before.parent ∧ change.otherBefore.blocked = true ∧
      Mine change.otherBefore.pc)
    (sleeps : c = t → ¬Stuck s.threads change.before.parent Mine)
    (keeps : ∀ u before j, u ≠ t → s.threads u = some before → before.slot = some j →
      next.semList j = s.semList j)
    (semaphores : ∀ j, change.after.slot = some j →
      (next.semList j).present = true ∧
      SemaFits (next.semList j).launched change.after.launched change.after.awaited
        change.after.parent (Stuck s.threads change.before.parent (LaunchDown t) ∧
          ¬Stuck s.threads change.before.parent Mine) ∧
      SemaFits (next.semList j).exiting change.after.signalled change.after.reaped
        change.after.parent (Stuck s.threads change.before.parent (ExitDown t) ∧
          ¬Stuck s.threads change.before.parent Mine)) : Consistent next := by
  have range := (inv.threads.range t change.before change.found).2.1
  have otherSession : SameSession change.otherBefore change.otherAfter := by
    by_cases self : c = t
    · rw [(change.alone self).1, (change.alone self).2]
      exact same
    · rw [woken self]
      exact ⟨rfl, rfl, rfl, rfl, rfl, rfl⟩
  have stuckElse : ∀ u v (Place : Pc → Prop), u ≠ t →
      (∀ place, Place place → worksOn place = some u) →
      (Stuck change.result v Place ↔ Stuck s.threads v Place) := by
    intro u v Place different onlyU
    have selfIff : (change.after.blocked = true ∧ Place change.after.pc) ↔
        (change.before.blocked = true ∧ Place change.before.pc) := by
      simp [ready, running]
    refine stuck_change change selfIff ?_
    by_cases self : c = t
    · rw [(change.alone self).1, (change.alone self).2]
      exact selfIff
    · rw [woken self]
      constructor
      · rintro ⟨blocked, _⟩
        cases blocked
      · rintro ⟨_, place⟩
        have mine := onlyMine _ (wakes self).2.2
        rw [onlyU _ place, Option.some.injEq] at mine
        exact absurd mine different
  have stuckHere : ∀ Place : Pc → Prop, Stuck change.result change.before.parent Place ↔
      (Stuck s.threads change.before.parent Place ∧
        ¬Stuck s.threads change.before.parent Mine) := by
    intro Place
    by_cases self : c = t
    · rw [eq_true (sleeps self), and_true]
      have selfIff : (change.after.blocked = true ∧ Place change.after.pc) ↔
          (change.before.blocked = true ∧ Place change.before.pc) := by
        simp [ready, running]
      refine stuck_change change selfIff ?_
      rw [(change.alone self).1, (change.alone self).2]
      exact selfIff
    · obtain ⟨isParent, blocked, mine⟩ := wakes self
      constructor
      · rintro ⟨found, lookup, stillBlocked, _⟩
        rw [← isParent, change.result_other, Option.some.injEq] at lookup
        rw [← lookup, woken self] at stillBlocked
        cases stillBlocked
      · rintro ⟨_, free⟩
        exact absurd ⟨_, isParent ▸ change.otherFound, blocked, mine⟩ free
  refine ⟨?_, ?_, ?_⟩
  · rw [threads, tid]
    apply threads_ok_change inv.threads
    have leaves : ∀ child, ¬Launching child change.before.pc := by
      intro child launches
      rw [launching_works launches] at idle
      cases idle
    have leavesReap : ∀ child, ¬Reaping child change.before.pc := by
      intro child reaps
      rw [reaping_works reaps] at idle
      cases idle
    have notMine : change.otherBefore.parent ≠ t := by
      intro mine
      by_cases self : c = t
      · rw [(change.alone self).1] at mine
        exact range.ne mine
      · have below := (inv.threads.range c change.otherBefore change.otherFound).2.1
        rw [mine, (wakes self).1] at below
        exact (below.trans range).ne rfl
    refine ⟨same, otherSession.parent, otherSession.process, fun _ => otherSession, ?_, own, ?_,
      ?_, fun child _ launches => absurd launches (leaves child), fun mine => absurd mine notMine,
      fun child _ reaps => absurd reaps (leavesReap child), fun mine => absurd mine notMine, ?_, ?_⟩
    · intro self
      rw [woken self]
    · by_cases self : c = t
      · rw [(change.alone self).2]
        exact own
      · have before := inv.threads.own c change.otherBefore change.otherFound
        rw [woken self]
        exact ⟨before.awaitedLaunched, before.reapedAwaited, before.reapedSignalled,
          before.signalledDead, before.launchedHolds, before.signalledHolds, before.entrySlot,
          place_ok_update before.place rfl rfl rfl (fun _ same => same) (fun _ same => same)⟩
    · intro child works
      rw [idleNext] at works
      cases works
    · intro blocked
      rw [running] at blocked
      cases blocked
    · intro self blocked
      rw [woken self] at blocked
      cases blocked
  · rw [threads, procs]
    exact proc_ok_change inv.procs change same.entry same.slot otherSession.entry
      (fun _ i held => by rw [← otherSession.slot, held])
  · rw [threads]
    apply sem_ok_session inv.sems change t _ keeps
    · intro record j present held
      rw [change.result_self, Option.some.injEq] at present
      subst present
      obtain ⟨isPresent, launched, exiting⟩ := semaphores j held
      refine ⟨⟨isPresent, ?_, ?_⟩, ?_⟩
      · rw [← same.parent] at stuckHere launched
        rw [stuckHere]
        exact launched
      · rw [← same.parent] at stuckHere exiting
        rw [stuckHere]
        exact exiting
      · intro u before different old clash
        have heldBefore : change.before.slot = some j := by rw [← same.slot, held]
        exact different (inv.sems.apart u t before change.before j old change.found clash heldBefore)
    · intro u record different present
      have launchElse := fun v =>
        stuckElse u v (LaunchDown u) different fun _ => launch_down_works
      have exitElse := fun v => stuckElse u v (ExitDown u) different fun _ => exit_down_works
      rcases change.result_cases present with ⟨self, _⟩ | ⟨notSelf, rfl, rfl⟩ | ⟨_, _, old⟩
      · exact absurd self different
      · refine ⟨_, change.otherFound, ?_, launchElse _, exitElse _⟩
        rw [woken notSelf]
        exact ⟨rfl, rfl, rfl, rfl, rfl, rfl⟩
      · exact ⟨record, old, ⟨rfl, rfl, rfl, rfl, rfl, rfl⟩, launchElse _, exitElse _⟩

/-- `sema_up` on a semaphore that has not been used yet. -/
theorem sema_up_fits {sema : Semaphore} {parent : Tid} {stuck : Prop}
    (fits : SemaFits sema false false parent stuck) :
    (semaUp sema).1 = { value := 1, waiters := [] } ∧
      ((stuck ∧ (semaUp sema).2 = some parent) ∨ (¬stuck ∧ (semaUp sema).2 = none)) := by
  have value : sema.value = 0 := fits.value
  by_cases waits : stuck
  · have waiters := (fits.waits waits).1
    simp [semaUp, waiters, value, waits]
  · have waiters := fits.clear waits
    simp [semaUp, waiters, value, waits]

theorem wake_change {s : Kernel} {t parent : Tid} {thread after : Thread} {woken : Option Tid}
    (found : s.threads t = some thread) (different : parent ≠ t) (Mine : Pc → Prop)
    (wakes : (Stuck s.threads parent Mine ∧ woken = some parent) ∨
      (¬Stuck s.threads parent Mine ∧ woken = none)) :
    ∃ c, ∃ change : Change s.threads t c, change.before = thread ∧ change.after = after ∧
      ((s.put t after).wake woken).threads = change.result ∧
      (c ≠ t → change.otherAfter = { change.otherBefore with blocked := false }) ∧
      (c ≠ t → c = parent ∧ change.otherBefore.blocked = true ∧ Mine change.otherBefore.pc) ∧
      (c = t → ¬Stuck s.threads parent Mine) := by
  rcases wakes with ⟨⟨sleeper, lookup, blocked, mine⟩, rfl⟩ | ⟨free, rfl⟩
  · refine ⟨parent, ⟨thread, after, sleeper, { sleeper with blocked := false }, found, lookup,
      fun equal => absurd equal different⟩, rfl, rfl, ?_, fun _ => rfl, fun _ => ⟨rfl, blocked, mine⟩,
      fun equal => absurd equal different⟩
    simp only [Kernel.wake, Kernel.modify, Kernel.put, Change.result,
      Function.update_of_ne different, lookup, Option.map_some]
    exact Function.update_comm different.symm _ _ _
  · refine ⟨t, alone after found, rfl, rfl, ?_, fun self => absurd rfl self,
      fun self => absurd rfl self, fun _ => free⟩
    rw [alone_result]
    rfl

@[simp] theorem wake_proc_list (s : Kernel) (woken : Option Tid) :
    (s.wake woken).procList = s.procList := by
  cases woken <;> rfl

@[simp] theorem wake_sem_list (s : Kernel) (woken : Option Tid) :
    (s.wake woken).semList = s.semList := by
  cases woken <;> rfl

@[simp] theorem wake_next_tid (s : Kernel) (woken : Option Tid) :
    (s.wake woken).nextTid = s.nextTid := by
  cases woken <;> rfl

theorem wake_threads {s other : Kernel} (woken : Option Tid) (same : s.threads = other.threads) :
    (s.wake woken).threads = (other.wake woken).threads := by
  cases woken with
  | none => exact same
  | some u => simp only [Kernel.wake, Kernel.modify, same]

/-- `inv_up` for the states that `sema_up` on slot `i` leads to. -/
theorem inv_signal {s : Kernel} (inv : Consistent s) {t : Tid} {thread after : Thread}
    {pc : Pc} {idx : Int} {i : Slot} {entry : SSemType} {woken : Option Tid} {event : Event}
    (here : At s t thread pc) (held : thread.slot = some i)
    (same : SameSession thread after) (running : after.blocked = false)
    (idle : worksOn pc = none) (idleNext : worksOn after.pc = none)
    (own : OwnOk after) (Mine : Pc → Prop) (onlyMine : ∀ pc, Mine pc → worksOn pc = some t)
    (wakes : (Stuck s.threads thread.parent Mine ∧ woken = some thread.parent) ∨
      (¬Stuck s.threads thread.parent Mine ∧ woken = none))
    (present : entry.present = true)
    (launched : SemaFits entry.launched after.launched after.awaited after.parent
      (Stuck s.threads thread.parent (LaunchDown t) ∧ ¬Stuck s.threads thread.parent Mine))
    (exiting : SemaFits entry.exiting after.signalled after.reaped after.parent
      (Stuck s.threads thread.parent (ExitDown t) ∧ ¬Stuck s.threads thread.parent Mine)) :
    Consistent ((((used s idx i entry).put t after).wake woken).log event) := by
  have different := (inv.threads.range t thread here.found).2.1.ne
  obtain ⟨c, change, rfl, rfl, result, wakened, waking, sleeps⟩ :=
    @wake_change s t thread.parent thread after woken here.found different Mine wakes
  apply inv_up inv change _ _ _ same here.ready running _ idleNext own wakened Mine onlyMine
    waking sleeps
  · intro u before j notSelf old slotHeld
    have apart : j ≠ i := by
      rintro rfl
      exact notSelf (inv.sems.apart u t before change.before j old here.found slotHeld held)
    simp only [Kernel.log, wake_sem_list]
    exact Function.update_of_ne apart _ _
  · intro j slotHeld
    obtain rfl : i = j := by
      rw [same.slot, held, Option.some.injEq] at slotHeld
      exact slotHeld
    simp only [Kernel.log, wake_sem_list]
    have entryNow := Function.update_self i entry s.semList
    exact ⟨(congrArg SSemType.present entryNow).trans present,
      (congrArg SSemType.launched entryNow) ▸ launched,
      (congrArg SSemType.exiting entryNow) ▸ exiting⟩
  · rw [← result]
    exact wake_threads woken rfl
  · simp only [Kernel.log, wake_proc_list]
    rfl
  · simp only [Kernel.log, wake_next_tid]
    rfl
  · rw [here.stands]
    exact idle

/-- The parent waits at one place only. -/
theorem stuck_once {threads : Tid → Option Thread} {t u : Tid}
    (exit : Stuck threads u (ExitDown t)) : ¬Stuck threads u (LaunchDown t) := by
  obtain ⟨sleeper, lookup, _, p, idx, stands⟩ := exit
  rintro ⟨again, lookupAgain, _, other, standsAgain⟩
  rw [lookup, Option.some.injEq] at lookupAgain
  rw [← lookupAgain, stands] at standsAgain
  cases standsAgain

theorem sema_fits_iff {sema : Semaphore} {up down : Bool} {parent : Tid} {stuck other : Prop}
    (iff : other ↔ stuck) (fits : SemaFits sema up down parent stuck) :
    SemaFits sema up down parent other := by
  rw [iff]
  exact fits

theorem inv_launch_up {s : Kernel} (inv : Consistent s) {t : Tid} {thread : Thread} {idx : Int}
    {i : Slot} {event : Event} (here : At s t thread (.launchUp idx)) (slot : slotAt idx = some i) :
    Consistent ((((used s idx i { s.semList i with
      launched := (semaUp (s.semList i).launched).1 }).put t
        { thread with pc := .user, launched := true }).wake
          (semaUp (s.semList i).launched).2).log event) := by
  have own := inv.threads.own t thread here.found
  have place := own.place
  unfold PlaceOk at place
  rw [here.stands] at place
  obtain ⟨early, registered, j, held, isIdx⟩ := place
  obtain rfl := slot_at_same isIdx slot
  have unawaited : thread.awaited = false := by
    by_contra awaited
    have done := own.awaitedLaunched (by simpa using awaited)
    rw [early] at done
    cases done
  obtain ⟨present, launched, exiting⟩ := inv.sems.fits t thread j here.found held
  rw [early, unawaited] at launched
  obtain ⟨signalled, wakes⟩ := sema_up_fits launched
  have ownNext : OwnOk { thread with pc := .user, launched := true } := by
    refine ⟨fun _ => rfl, own.reapedAwaited, own.reapedSignalled, ?_,
      fun _ _ => ⟨by simp [held], registered⟩, own.signalledHolds, own.entrySlot, fun _ => rfl⟩
    intro exited
    have dead := own.signalledDead exited
    rw [here.stands] at dead
    cases dead
  refine inv_signal inv here held ⟨rfl, rfl, rfl, rfl, rfl, rfl⟩ here.ready rfl rfl ownNext
    (LaunchDown t) (fun _ => launch_down_works) wakes present ?_ ?_
  · simp only [signalled, unawaited]
    exact ⟨rfl, fun stuck => absurd stuck.1 stuck.2, fun _ => rfl⟩
  · exact sema_fits_iff (and_iff_left_of_imp stuck_once) exiting

theorem inv_exit_signal {s : Kernel} (inv : Consistent s) {t : Tid} {thread : Thread} {idx : Int}
    {i : Slot} {event : Event} (here : At s t thread (.exitSignal idx))
    (slot : slotAt idx = some i) :
    Consistent ((((used s idx i { s.semList i with
      exiting := (semaUp (s.semList i).exiting).1 }).put t
        { thread with pc := .dead, signalled := true }).wake
          (semaUp (s.semList i).exiting).2).log event) := by
  have own := inv.threads.own t thread here.found
  have place := own.place
  unfold PlaceOk at place
  rw [here.stands] at place
  obtain ⟨registered, j, held, isIdx⟩ := place
  obtain rfl := slot_at_same isIdx slot
  have early : thread.signalled = false := by
    by_contra signalled
    have dead := own.signalledDead (by simpa using signalled)
    rw [here.stands] at dead
    cases dead
  have unreaped : thread.reaped = false := by
    by_contra reaped
    have done := own.reapedSignalled (by simpa using reaped)
    rw [early] at done
    cases done
  obtain ⟨present, launched, exiting⟩ := inv.sems.fits t thread j here.found held
  rw [early, unreaped] at exiting
  obtain ⟨signalled, wakes⟩ := sema_up_fits exiting
  have ownNext : OwnOk { thread with pc := .dead, signalled := true } :=
    ⟨own.awaitedLaunched, own.reapedAwaited, fun _ => rfl, fun _ => rfl, own.launchedHolds,
      fun _ _ => ⟨by simp [held], registered⟩, own.entrySlot, place_ok_dead rfl⟩
  refine inv_signal inv here held ⟨rfl, rfl, rfl, rfl, rfl, rfl⟩ here.ready rfl rfl ownNext
    (ExitDown t) (fun _ => exit_down_works) wakes present ?_ ?_
  · exact sema_fits_iff (and_iff_left_of_imp fun launch exit => stuck_once exit launch) launched
  · simp only [signalled, unreaped]
    exact ⟨rfl, fun stuck => absurd stuck.1 stuck.2, fun _ => rfl⟩

end UtSystems.Userprog.ProcessSignals

import UtSystems.Userprog.ProcessInvariant

/-!
# The statements by which a parent serves a child

`add_sem_list_entry`, `add_proc_list_entry`, the two `sema_down`s that pass, and
the release of both slots in `process_wait` keep the invariant.
-/

namespace UtSystems.Userprog.ProcessSessions

open Threads.Synch Userprog.ProcessTable Userprog.ProcessSystem Userprog.ProcessSteps
open Userprog.ProcessThreads Userprog.ProcessInvariant

set_option autoImplicit false

theorem place_ok_update {before after : Thread} (place : PlaceOk before)
    (pc : after.pc = before.pc) (process : after.process = before.process)
    (launched : after.launched = before.launched)
    (entry : ∀ p, before.entry = some p → after.entry = some p)
    (slot : ∀ i, before.slot = some i → after.slot = some i) : PlaceOk after := by
  have isSome : before.entry.isSome → after.entry.isSome := by
    intro some
    obtain ⟨p, held⟩ := Option.isSome_iff_exists.mp some
    rw [entry p held]
    rfl
  unfold PlaceOk at place ⊢
  rw [pc]
  rw [process, launched]
  split at place
  · exact place
  · exact place
  · obtain ⟨early, registered, i, held, idx⟩ := place
    exact ⟨early, isSome registered, i, slot i held, idx⟩
  · trivial
  · exact entry _ place
  · trivial
  · exact entry _ place
  · obtain ⟨registered, i, held, idx⟩ := place
    exact ⟨isSome registered, i, slot i held, idx⟩
  · trivial
  · exact place

theorem modify_put_threads {s : Kernel} {t child : Tid} {record : Thread}
    (change : Thread → Thread) (after : Thread) (found : s.threads child = some record) :
    ((s.modify child change).put t after).threads =
      Function.update (Function.update s.threads child (some (change record))) t (some after) := by
  simp [Kernel.put, Kernel.modify, found]

/-- The child on which thread `t` works, with its session. -/
theorem charged {s : Kernel} (inv : Consistent s) {t child : Tid} {thread : Thread} {pc : Pc}
    (here : At s t thread pc) (works : worksOn pc = some child) :
    ∃ record, s.threads child = some record ∧ child ≠ t ∧ record.parent = t ∧
      record.process = true ∧ SessionAt record pc := by
  obtain ⟨record, found, parent, process, session⟩ :=
    inv.threads.charge t thread here.found child (by rw [here.stands]; exact works)
  rw [here.stands] at session
  have range := (inv.threads.range child record found).2.1
  rw [parent] at range
  exact ⟨record, found, range.ne', parent, process, session⟩

/-- A thread in `process_execute` or `process_wait` stays within them. -/
theorem own_ok_works {thread : Thread} {pc next : Pc} {child : Tid} (own : OwnOk thread)
    (stands : thread.pc = pc) (works : worksOn pc = some child)
    (place : PlaceOk { thread with pc := next } ↔ (thread.process = true → thread.launched = true)) :
    OwnOk { thread with pc := next } := by
  have here : thread.process = true → thread.launched = true := by
    have placed := own.place
    unfold PlaceOk at placed
    rw [stands] at placed
    cases pc <;> first
      | exact placed
      | exact absurd works (by simp [worksOn])
  apply own_ok_move own
  · rw [stands]
    rintro rfl
    exact absurd works (by simp [worksOn])
  · exact place.mpr here

theorem unreaped_of_unawaited {thread : Thread} (own : OwnOk thread)
    (awaited : thread.awaited = false) : thread.reaped = false := by
  by_contra reaped
  have done := own.reapedAwaited (by simpa using reaped)
  rw [awaited] at done
  cases done

/-- The parent takes a statement that changes the session of the child it works on. -/
theorem inv_served {s next : Kernel} (inv : Consistent s) {t child : Tid}
    {thread childBefore record : Thread} {pc after : Pc} (here : At s t thread pc)
    (works : worksOn pc = some child) (childFound : s.threads child = some childBefore)
    (different : child ≠ t) (mine : childBefore.parent = t) (process : childBefore.process = true)
    (threads : next.threads = Function.update (Function.update s.threads child (some record)) t
      (some { thread with pc := after }))
    (tid : next.nextTid = s.nextTid) (same : OwnSame childBefore record)
    (place : PlaceOk { thread with pc := after } ↔
      (thread.process = true → thread.launched = true))
    (childOwn : OwnOk record) (worksNext : ∀ other, worksOn after = some other → other = child)
    (session : SessionAt record after)
    (launching : record.awaited = false → Launching child after)
    (reaping : record.reaped = true → record.entry.isSome → Reaping child after)
    (procs : ProcOk next.procList (served after record here.found childFound different).result)
    (keeps : ∀ u before j, u ≠ child → s.threads u = some before → before.slot = some j →
      next.semList j = s.semList j)
    (semaphores : ∀ j, record.slot = some j →
      (∀ u before, u ≠ child → s.threads u = some before → before.slot ≠ some j) ∧
      (next.semList j).present = true ∧
      SemaFits (next.semList j).launched record.launched record.awaited record.parent False ∧
      SemaFits (next.semList j).exiting record.signalled record.reaped record.parent False) :
    Consistent next := by
  have notStuck : ∀ Place, ¬Stuck s.threads record.parent Place := by
    rintro Place ⟨stuck, lookup, blocked, _⟩
    rw [same.parent, mine, here.found, Option.some.injEq] at lookup
    rw [← lookup, here.ready] at blocked
    cases blocked
  have own : OwnOk { thread with pc := after } :=
    own_ok_works (inv.threads.own t thread here.found) here.stands works place
  have result : next.threads = (served after record here.found childFound different).result :=
    threads
  refine ⟨?_, ?_, ?_⟩
  · rw [result, tid]
    exact served_threads inv.threads here.found childFound different here.ready same mine process
      own childOwn worksNext session (by rw [here.stands]; exact works) launching reaping
  · rw [result]
    exact procs
  · rw [result]
    apply served_sems inv.sems here.found childFound different here.ready same keeps
    intro j held
    obtain ⟨fresh, present, launched, exiting⟩ := semaphores j held
    refine ⟨fresh, present, ?_, ?_⟩
    · rw [eq_false (notStuck _)]
      exact launched
    · rw [eq_false (notStuck _)]
      exact exiting

theorem inv_exec_add_sem {s : Kernel} (inv : Consistent s) {t child : Tid} {thread : Thread}
    {event : Event} (here : At s t thread (.execAddSem child))
    (room : ∃ i, (s.semList i).present = false) :
    Consistent (((({ s with semList := (addSemListEntry s.semList).2 }).modify child fun record =>
      { record with slot := slotAt (addSemListEntry s.semList).1 }).put t
        { thread with pc := .execAddProc child (addSemListEntry s.semList).1 }).log event) := by
  obtain ⟨record, childFound, different, parent, process, slot, entry, awaited⟩ :=
    charged inv here rfl
  obtain ⟨i, free, added⟩ := add_sem_list_entry_free room
  rw [added]
  simp only [slot_at_val]
  have own := inv.threads.own child record childFound
  have unreaped := unreaped_of_unawaited own awaited
  have unlaunched : record.launched = false := by
    by_contra launched
    have holds := (own.launchedHolds (by simpa using launched) unreaped).1
    simp [slot] at holds
  have unsignalled : record.signalled = false := by
    by_contra signalled
    have holds := (own.signalledHolds (by simpa using signalled) unreaped).1
    simp [slot] at holds
  have fresh : ∀ u before, s.threads u = some before → before.slot ≠ some i := by
    intro u before old held
    have present := (inv.sems.fits u before i old held).present
    rw [free] at present
    cases present
  have childOwn : OwnOk { record with slot := some i } := by
    refine ⟨own.awaitedLaunched, own.reapedAwaited, own.reapedSignalled, own.signalledDead,
      ?_, ?_, ?_, ?_⟩
    · simp [unlaunched]
    · simp [unsignalled]
    · simp [entry]
    · refine place_ok_update own.place rfl rfl rfl (fun p held => held) ?_
      intro j held
      simp [slot] at held
  refine inv_served inv here rfl childFound different parent process
    (modify_put_threads _ _ childFound) rfl ⟨rfl, rfl, rfl, rfl, rfl, rfl⟩ Iff.rfl childOwn
    ?_ ⟨⟨i, rfl, rfl⟩, entry, awaited⟩ (fun _ => rfl) ?_
    (proc_ok_change inv.procs _ rfl rfl rfl ?_) ?_ ?_
  · intro other works
    exact (Option.some.inj works).symm
  · simp [unreaped]
  · intro registered
    exact absurd registered (by simp [served, entry])
  · intro u before j _ old held
    have apart : j ≠ i := by
      rintro rfl
      exact fresh u before old held
    exact Function.update_of_ne apart _ _
  · intro j held
    cases held
    have entryNow : Function.update s.semList i freshSem i = freshSem := Function.update_self ..
    refine ⟨fun u before _ old => fresh u before old, ?_, ?_, ?_⟩
    · exact congrArg SSemType.present entryNow
    · change SemaFits (Function.update s.semList i freshSem i).launched record.launched _ _ False
      rw [entryNow, unlaunched, awaited]
      exact ⟨rfl, False.elim, fun _ => rfl⟩
    · change SemaFits (Function.update s.semList i freshSem i).exiting record.signalled _ _ False
      rw [entryNow, unsignalled, unreaped]
      exact ⟨rfl, False.elim, fun _ => rfl⟩

/-- The semaphores of the child on which a running parent works. -/
theorem session_sems {s : Kernel} (inv : Consistent s) {t child : Tid} {thread record : Thread}
    {pc : Pc} (here : At s t thread pc) (childFound : s.threads child = some record)
    (mine : record.parent = t) {i : Slot} (held : record.slot = some i) :
    (∀ u before, u ≠ child → s.threads u = some before → before.slot ≠ some i) ∧
      (s.semList i).present = true ∧
      SemaFits (s.semList i).launched record.launched record.awaited record.parent False ∧
      SemaFits (s.semList i).exiting record.signalled record.reaped record.parent False := by
  have notStuck : ∀ Place, ¬Stuck s.threads record.parent Place := by
    rintro Place ⟨stuck, lookup, blocked, _⟩
    rw [mine, here.found, Option.some.injEq] at lookup
    rw [← lookup, here.ready] at blocked
    cases blocked
  obtain ⟨present, launched, exiting⟩ := inv.sems.fits child record i childFound held
  rw [eq_false (notStuck _)] at launched exiting
  refine ⟨?_, present, launched, exiting⟩
  intro u before different old clash
  exact different (inv.sems.apart u child before record i old childFound clash held)

theorem proc_ok_register {procList : ProcList} {threads : Tid → Option Thread} {t child : Tid}
    (ok : ProcOk procList threads) (change : Change threads t child) (different : child ≠ t)
    (nonzero : ∀ u record, threads u = some record → u ≠ 0) {k : Slot} {process : SProcType}
    (free : (procList k).tid = 0) (tid : process.tid = child)
    (entry : change.after.entry = change.before.entry)
    (slot : change.after.slot = change.before.slot)
    (unregistered : change.otherBefore.entry = none)
    (registered : change.otherAfter.entry = some k)
    (idx : ∀ i : Slot, change.otherAfter.slot = some i → process.semListIdx = i.val) :
    ProcOk (Function.update procList k process) change.result := by
  have origin : ∀ u record j, u ≠ child → change.result u = some record →
      record.entry = some j → Function.update procList k process j = procList j ∧
        ∃ before, threads u = some before ∧ before.entry = some j ∧ before.slot = record.slot := by
    intro u record j notChild present held
    have old : ∃ before, threads u = some before ∧ before.entry = some j ∧
        before.slot = record.slot := by
      rcases change.result_cases present with ⟨rfl, rfl⟩ | ⟨_, equal, _⟩ | ⟨_, _, found⟩
      · exact ⟨_, change.found, by rw [← entry, held], slot.symm⟩
      · exact absurd equal notChild
      · exact ⟨record, found, held, rfl⟩
    obtain ⟨before, found, heldBefore, slots⟩ := old
    refine ⟨Function.update_of_ne ?_ _ _, before, found, heldBefore, slots⟩
    rintro rfl
    exact nonzero u before found ((ok.entryTid u before j found heldBefore).symm.trans free)
  have isChild : ∀ record j, change.result child = some record → record.entry = some j →
      j = k ∧ record = change.otherAfter := by
    intro record j present held
    rw [change.result_other, Option.some.injEq] at present
    rw [← present, registered, Option.some.injEq] at held
    exact ⟨held.symm, present.symm⟩
  constructor
  · intro u record j present held
    by_cases equal : u = child
    · subst equal
      obtain ⟨rfl, rfl⟩ := isChild record j present held
      rw [Function.update_self, tid]
    · obtain ⟨same, before, found, heldBefore, _⟩ := origin u record j equal present held
      rw [same]
      exact ok.entryTid u before j found heldBefore
  · intro u record j i present held slotHeld
    by_cases equal : u = child
    · subst equal
      obtain ⟨rfl, rfl⟩ := isChild record j present held
      rw [Function.update_self]
      exact idx i slotHeld
    · obtain ⟨same, before, found, heldBefore, slots⟩ := origin u record j equal present held
      rw [same]
      exact ok.entryIdx u before j i found heldBefore (by rw [slots, slotHeld])
  · intro j used
    by_cases equal : j = k
    · subst equal
      rw [Function.update_self, tid]
      exact ⟨change.otherAfter, change.result_other, registered⟩
    · rw [Function.update_of_ne equal] at used ⊢
      obtain ⟨before, found, held⟩ := ok.onlyEntries j used
      have notChild : (procList j).tid ≠ child := by
        intro clash
        rw [clash, change.otherFound, Option.some.injEq] at found
        rw [← found, unregistered] at held
        cases held
      by_cases self : (procList j).tid = t
      · rw [self] at found ⊢
        have same : before = change.before := Option.some.inj (found.symm.trans change.found)
        exact ⟨change.after, change.result_self, by rw [entry, ← same, held]⟩
      · exact ⟨before, by rw [change.result_rest self notChild, found], held⟩

theorem inv_exec_add_proc {s : Kernel} (inv : Consistent s) {t child : Tid} {thread : Thread}
    {idx : Int} (here : At s t thread (.execAddProc child idx))
    (room : ∃ k, (s.procList k).tid = 0) :
    Consistent ((({ s with
      procList := (addProcListEntry s.procList (procData s t child idx)).2 }).modify child
        fun record => { record with
          entry := slotAt (addProcListEntry s.procList (procData s t child idx)).1 }).put t
            { thread with pc := .execDown child idx }) := by
  obtain ⟨record, childFound, different, parent, process, ⟨i, slot, isIdx⟩, entry, awaited⟩ :=
    charged inv here rfl
  obtain ⟨k, free, added⟩ := add_proc_list_entry_free (procData s t child idx) room
  rw [added]
  simp only [slot_at_val]
  have own := inv.threads.own child record childFound
  have unreaped := unreaped_of_unawaited own awaited
  have childOwn : OwnOk { record with entry := some k } := by
    refine ⟨own.awaitedLaunched, own.reapedAwaited, own.reapedSignalled, own.signalledDead,
      ?_, ?_, ?_, ?_⟩
    · exact fun _ _ => ⟨by simp [slot], rfl⟩
    · exact fun _ _ => ⟨by simp [slot], rfl⟩
    · exact fun _ _ => by simp [slot]
    · refine place_ok_update own.place rfl rfl rfl ?_ (fun j held => held)
      intro p held
      simp [entry] at held
  have nonzero : ∀ u before, s.threads u = some before → u ≠ 0 := by
    intro u before old
    obtain ⟨low, below, _⟩ := inv.threads.range u before old
    exact (lt_of_le_of_lt low below).ne'
  refine inv_served inv here rfl childFound different parent process
    (modify_put_threads _ _ childFound) rfl ⟨rfl, rfl, rfl, rfl, rfl, rfl⟩ Iff.rfl childOwn
    ?_ ⟨⟨i, slot, isIdx⟩, rfl, awaited⟩ (fun _ => rfl) ?_
    (proc_ok_register inv.procs _ different nonzero free rfl rfl rfl entry rfl ?_) ?_ ?_
  · intro other works
    exact (Option.some.inj works).symm
  · simp [unreaped]
  · intro j held
    have equal : i = j := Option.some.inj (slot.symm.trans held)
    rw [← equal]
    exact isIdx
  · exact fun _ _ _ _ _ _ => rfl
  · intro j held
    exact session_sems inv here childFound parent held

/-- The slot of one child changes, and no other thread has it. -/
theorem sems_elsewhere {threads : Tid → Option Thread} {semList : SemList} {child : Tid} {j : Slot}
    (fresh : ∀ u before, u ≠ child → threads u = some before → before.slot ≠ some j)
    (entry : SSemType) {u : Tid} {before : Thread} {l : Slot} (notChild : u ≠ child)
    (found : threads u = some before) (held : before.slot = some l) :
    Function.update semList j entry l = semList l := by
  have apart : l ≠ j := by
    rintro rfl
    exact fresh u before notChild found held
  exact Function.update_of_ne apart _ _

theorem inv_exec_passes {s : Kernel} (inv : Consistent s) {t child : Tid} {thread : Thread}
    {idx : Int} {i : Slot} (here : At s t thread (.execDown child idx)) (slot : slotAt idx = some i)
    (positive : (s.semList i).launched.value ≠ 0) :
    Consistent (((used s idx i { s.semList i with
      launched := (semaDown (s.semList i).launched t).1 }).modify child fun record =>
        { record with awaited := true }).put t { thread with pc := .execReturn child }) := by
  obtain ⟨record, childFound, different, parent, process, ⟨j, held, isIdx⟩, entry, awaited⟩ :=
    charged inv here rfl
  obtain rfl := slot_at_same isIdx slot
  obtain ⟨fresh, present, launched, exiting⟩ := session_sems inv here childFound parent held
  have own := inv.threads.own child record childFound
  have up : record.launched = true := by
    by_contra early
    apply positive
    rw [launched.value, Bool.eq_false_iff.mpr early]
    simp
  have childOwn : OwnOk { record with awaited := true } :=
    ⟨fun _ => up, fun _ => rfl, own.reapedSignalled, own.signalledDead, own.launchedHolds,
      own.signalledHolds, own.entrySlot,
      place_ok_update own.place rfl rfl rfl (fun _ same => same) (fun _ same => same)⟩
  have unreaped := unreaped_of_unawaited own awaited
  refine inv_served inv here rfl childFound different parent process
    (modify_put_threads _ _ childFound) rfl ⟨rfl, rfl, rfl, rfl, rfl, rfl⟩ Iff.rfl childOwn
    ?_ trivial ?_ ?_ (proc_ok_change inv.procs _ rfl rfl rfl (fun _ _ same => same)) ?_ ?_
  · intro other works
    cases works
  · intro still
    cases still
  · simp [unreaped]
  · exact fun u before l => sems_elsewhere fresh _
  · intro l slotHeld
    obtain rfl : j = l := Option.some.inj (held.symm.trans slotHeld)
    have entryNow := Function.update_self j { s.semList j with
      launched := (semaDown (s.semList j).launched t).1 } s.semList
    rw [sema_down_passes positive] at entryNow ⊢
    refine ⟨fresh, ?_, ?_, ?_⟩
    · exact (congrArg SSemType.present entryNow).trans present
    · refine ⟨?_, False.elim, ?_⟩
      · have value := launched.value
        rw [up, awaited] at value
        refine (congrArg (fun entry => entry.launched.value) entryNow).trans ?_
        simp only [value, up]
        rfl
      · exact fun _ => (congrArg (fun entry => entry.launched.waiters) entryNow).trans
          (launched.clear id)
    · exact (congrArg SSemType.exiting entryNow) ▸ exiting

theorem inv_wait_passes {s : Kernel} (inv : Consistent s) {t child : Tid} {thread : Thread}
    {p : Slot} {idx : Int} {i : Slot} (here : At s t thread (.waitDown child p idx))
    (slot : slotAt idx = some i) (positive : (s.semList i).exiting.value ≠ 0) :
    Consistent (((used s idx i { s.semList i with
      exiting := (semaDown (s.semList i).exiting t).1 }).modify child fun record =>
        { record with reaped := true }).put t { thread with pc := .waitRelease child p idx }) := by
  obtain ⟨record, childFound, different, parent, process, ⟨j, held, isIdx⟩, entry, awaited,
    unreaped⟩ := charged inv here rfl
  obtain rfl := slot_at_same isIdx slot
  obtain ⟨fresh, present, launched, exiting⟩ := session_sems inv here childFound parent held
  have own := inv.threads.own child record childFound
  have up : record.signalled = true := by
    by_contra early
    apply positive
    rw [exiting.value, Bool.eq_false_iff.mpr early]
    simp
  have childOwn : OwnOk { record with reaped := true } :=
    ⟨own.awaitedLaunched, fun _ => awaited, fun _ => up, own.signalledDead, nofun, nofun, nofun,
      place_ok_update own.place rfl rfl rfl (fun _ same => same) (fun _ same => same)⟩
  refine inv_served inv here rfl childFound different parent process
    (modify_put_threads _ _ childFound) rfl ⟨rfl, rfl, rfl, rfl, rfl, rfl⟩ Iff.rfl childOwn
    ?_ ⟨⟨j, held, isIdx⟩, entry, awaited, rfl⟩ ?_ (fun _ _ => rfl)
    (proc_ok_change inv.procs _ rfl rfl rfl (fun _ _ same => same)) ?_ ?_
  · intro other works
    exact (Option.some.inj works).symm
  · intro still
    rw [show record.awaited = false from still] at awaited
    cases awaited
  · exact fun u before l => sems_elsewhere fresh _
  · intro l slotHeld
    obtain rfl : j = l := Option.some.inj (held.symm.trans slotHeld)
    have entryNow := Function.update_self j { s.semList j with
      exiting := (semaDown (s.semList j).exiting t).1 } s.semList
    rw [sema_down_passes positive] at entryNow ⊢
    refine ⟨fresh, ?_, ?_, ?_⟩
    · exact (congrArg SSemType.present entryNow).trans present
    · exact (congrArg SSemType.launched entryNow) ▸ launched
    · refine ⟨?_, False.elim, ?_⟩
      · have value := exiting.value
        rw [up, unreaped] at value
        refine (congrArg (fun entry => entry.exiting.value) entryNow).trans ?_
        simp only [value, up]
        rfl
      · exact fun _ => (congrArg (fun entry => entry.exiting.waiters) entryNow).trans
          (exiting.clear id)

theorem place_ok_dead {thread : Thread} (dead : thread.pc = .dead) : PlaceOk thread := by
  unfold PlaceOk
  rw [dead]
  trivial

theorem inv_wait_release {s : Kernel} (inv : Consistent s) {t child : Tid} {thread : Thread}
    {p : Slot} {idx : Int} {i : Slot} (here : At s t thread (.waitRelease child p idx))
    (slot : slotAt idx = some i) :
    Consistent (((used s idx i { s.semList i with present := false }).modify child fun record =>
      { record with slot := none }).put t { thread with pc := .waitRead child p }) := by
  obtain ⟨record, childFound, different, parent, process, ⟨j, held, isIdx⟩, entry, awaited,
    reaped⟩ := charged inv here rfl
  obtain rfl := slot_at_same isIdx slot
  obtain ⟨fresh, _⟩ := session_sems inv here childFound parent held
  have own := inv.threads.own child record childFound
  have childOwn : OwnOk { record with slot := none } := by
    refine ⟨own.awaitedLaunched, own.reapedAwaited, own.reapedSignalled, own.signalledDead,
      ?_, ?_, ?_, place_ok_dead (own.signalledDead (own.reapedSignalled reaped))⟩
    all_goals simp [reaped]
  refine inv_served inv here rfl childFound different parent process
    (modify_put_threads _ _ childFound) rfl ⟨rfl, rfl, rfl, rfl, rfl, rfl⟩ Iff.rfl childOwn
    ?_ ⟨rfl, entry, awaited, reaped⟩ ?_ (fun _ _ => rfl)
    (proc_ok_change inv.procs _ rfl rfl rfl (fun _ _ none => by cases none)) ?_ ?_
  · intro other works
    exact (Option.some.inj works).symm
  · intro still
    rw [show record.awaited = false from still] at awaited
    cases awaited
  · exact fun u before l => sems_elsewhere fresh _
  · intro l slotHeld
    cases slotHeld

theorem proc_ok_clear {procList : ProcList} {threads : Tid → Option Thread} {t child : Tid}
    (ok : ProcOk procList threads) (change : Change threads t child) {k : Slot}
    (entry : change.after.entry = change.before.entry)
    (slot : change.after.slot = change.before.slot)
    (registered : change.otherBefore.entry = some k)
    (cleared : change.otherAfter.entry = none) :
    ProcOk (Function.update procList k zeroProc) change.result := by
  have childTid := ok.entryTid child change.otherBefore k change.otherFound registered
  have origin : ∀ u record j, change.result u = some record → record.entry = some j →
      j ≠ k ∧ ∃ before, threads u = some before ∧ before.entry = some j ∧
        before.slot = record.slot := by
    intro u record j present held
    have notChild : u ≠ child := by
      rintro rfl
      rw [change.result_other, Option.some.injEq] at present
      rw [← present, cleared] at held
      cases held
    have old : ∃ before, threads u = some before ∧ before.entry = some j ∧
        before.slot = record.slot := by
      rcases change.result_cases present with ⟨rfl, rfl⟩ | ⟨_, equal, _⟩ | ⟨_, _, found⟩
      · exact ⟨_, change.found, by rw [← entry, held], slot.symm⟩
      · exact absurd equal notChild
      · exact ⟨record, found, held, rfl⟩
    obtain ⟨before, found, heldBefore, slots⟩ := old
    refine ⟨?_, before, found, heldBefore, slots⟩
    rintro rfl
    exact notChild ((ok.entryTid u before j found heldBefore).symm.trans childTid)
  constructor
  · intro u record j present held
    obtain ⟨apart, before, found, heldBefore, _⟩ := origin u record j present held
    rw [Function.update_of_ne apart]
    exact ok.entryTid u before j found heldBefore
  · intro u record j i present held slotHeld
    obtain ⟨apart, before, found, heldBefore, slots⟩ := origin u record j present held
    rw [Function.update_of_ne apart]
    exact ok.entryIdx u before j i found heldBefore (by rw [slots, slotHeld])
  · intro j used
    by_cases equal : j = k
    · subst equal
      rw [Function.update_self] at used
      exact absurd rfl used
    · rw [Function.update_of_ne equal] at used ⊢
      obtain ⟨before, found, held⟩ := ok.onlyEntries j used
      have notChild : (procList j).tid ≠ child := by
        intro clash
        rw [clash, change.otherFound, Option.some.injEq] at found
        rw [← found, registered, Option.some.injEq] at held
        exact equal held.symm
      by_cases self : (procList j).tid = t
      · rw [self] at found ⊢
        have same : before = change.before := Option.some.inj (found.symm.trans change.found)
        exact ⟨change.after, change.result_self, by rw [entry, ← same, held]⟩
      · exact ⟨before, by rw [change.result_rest self notChild, found], held⟩

theorem inv_wait_clear {s : Kernel} (inv : Consistent s) {t child : Tid} {thread : Thread}
    {p : Slot} {status : Int} (here : At s t thread (.waitClear child p status)) :
    Consistent (((s.setProc p zeroProc).modify child fun record =>
      { record with entry := none }).put t { thread with pc := .waitReturn child status }) := by
  obtain ⟨record, childFound, different, parent, process, slot, entry, awaited, reaped⟩ :=
    charged inv here rfl
  have own := inv.threads.own child record childFound
  have childOwn : OwnOk { record with entry := none } := by
    refine ⟨own.awaitedLaunched, own.reapedAwaited, own.reapedSignalled, own.signalledDead,
      ?_, ?_, ?_, place_ok_dead (own.signalledDead (own.reapedSignalled reaped))⟩
    all_goals simp [reaped]
  refine inv_served inv here rfl childFound different parent process
    (modify_put_threads _ _ childFound) rfl ⟨rfl, rfl, rfl, rfl, rfl, rfl⟩ Iff.rfl childOwn
    ?_ trivial ?_ (fun _ none => by cases none)
    (proc_ok_clear inv.procs _ rfl rfl entry rfl) (fun _ _ _ _ _ _ => rfl) ?_
  · intro other works
    cases works
  · intro still
    rw [show record.awaited = false from still] at awaited
    cases awaited
  · intro l slotHeld
    rw [show record.slot = some l from slotHeld] at slot
    cases slot

end UtSystems.Userprog.ProcessSessions

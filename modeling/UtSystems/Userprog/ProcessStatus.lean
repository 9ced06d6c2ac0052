import UtSystems.Userprog.ProcessRecords
import UtSystems.Userprog.ProcessWait

/-!
# The exit status that process_wait returns

`sys_exit` stores the status in the `procList` entry before `process_exit` raises
`exiting`. The two endings that call `thread_exit` directly, an exception other
than a page fault and an unknown system call number, leave the 0 with which the
entry was made.
-/

namespace UtSystems.Userprog.ProcessStatus

open Threads.Synch Userprog.ProcessTable Userprog.ProcessSystem Userprog.ProcessSteps
open Userprog.ProcessThreads Userprog.ProcessInvariant Userprog.ProcessSessions
open Userprog.ProcessOrderly Userprog.ProcessRecords Userprog.ProcessWait

set_option autoImplicit false

/-- The status that the first `process_wait` is to return. -/
def statusOf : Ending → Int
  | .sysExit status => status
  | _ => -1

/-- The endings that go through `sys_exit`. -/
def Stores : Ending → Prop
  | .exception => False
  | .unknownCall => False
  | _ => True

/-- The condition on one step: it is orderly, and a process ends through `sys_exit`. -/
def StoresStatus (s : Kernel) (action : Action) : Prop :=
  Orderly s action ∧ match action with
    | .finish _ ending => Stores ending
    | _ => True

instance (ending : Ending) : Decidable (Stores ending) := by
  cases ending <;> unfold Stores <;> infer_instance

instance (s : Kernel) (action : Action) : Decidable (StoresStatus s action) :=
  @instDecidableAnd _ _ inferInstance <| match action with
    | .finish _ ending => inferInstanceAs (Decidable (Stores ending))
    | .exec _ | .create _ _ | .wait _ _ | .load _ _ | .run _ => instDecidableTrue

theorem after_finish_stores {ending : Ending} (stores : Stores ending) :
    afterFinish ending = .exitFetch (statusOf ending) := by
  cases ending with
  | exception => exact stores.elim
  | unknownCall => exact stores.elim
  | _ => rfl

/-- Where the status of a process that has come to its end is kept. -/
def Recorded (procList : ProcList) (record : Thread) (ending : Ending) : Prop :=
  match record.pc with
  | .exitFetch status => status = statusOf ending
  | .exitStore _ status => status = statusOf ending
  | .exitProcess => ∀ k, record.entry = some k → (procList k).exitStatus = statusOf ending
  | .exitIdx _ => ∀ k, record.entry = some k → (procList k).exitStatus = statusOf ending
  | .exitSignal _ => ∀ k, record.entry = some k → (procList k).exitStatus = statusOf ending
  | .dead => ∀ k, record.entry = some k → (procList k).exitStatus = statusOf ending
  | _ => False

theorem recorded_exiting {procList : ProcList} {record : Thread} {ending : Ending}
    (recorded : Recorded procList record ending) : Exiting record.pc := by
  unfold Recorded at recorded
  cases stands : record.pc with
  | exitFetch status => trivial
  | exitStore p status => trivial
  | exitProcess => trivial
  | exitIdx p => trivial
  | exitSignal idx => trivial
  | dead => trivial
  | _ =>
      rw [stands] at recorded
      exact recorded.elim

/-- The record of `c` moves to another one at the same place. -/
theorem recorded_same {procList after : ProcList} {record changed : Thread} {ending : Ending}
    (recorded : Recorded procList record ending) (pc : changed.pc = record.pc)
    (status : ∀ k, changed.entry = some k →
      record.entry = some k ∧ (after k).exitStatus = (procList k).exitStatus) :
    Recorded after changed ending := by
  have moved : (∀ k, record.entry = some k → (procList k).exitStatus = statusOf ending) →
      ∀ k, changed.entry = some k → (after k).exitStatus = statusOf ending := by
    intro old k held
    rw [(status k held).2]
    exact old k (status k held).1
  unfold Recorded at recorded ⊢
  rw [pc]
  split at recorded
  · exact recorded
  · exact recorded
  · exact moved recorded
  · exact moved recorded
  · exact moved recorded
  · exact moved recorded
  · exact recorded

def EndedWith (s : Kernel) (c : Tid) (status : Int) : Prop :=
  ∃ record ending, s.threads c = some record ∧ record.ending = some ending ∧
    status = statusOf ending

structure EndOk (s : Kernel) : Prop where
  recorded : ∀ c record ending, s.threads c = some record → record.ending = some ending →
    record.launched = true ∧ Recorded s.procList record ending
  ended : ∀ c record, s.threads c = some record → record.launched = true → Exiting record.pc →
    record.ending.isSome
  signalled : ∀ c record, s.threads c = some record → record.launched = true →
    record.pc = .dead → record.signalled = true

theorem step_ready {s next : Kernel} {action : Action} (taken : step s action = some next) :
    s.fault = none ∧ ∃ thread, s.threads action.tid = some thread ∧ thread.blocked = false := by
  unfold step at taken
  split at taken
  · cases taken
  · next running =>
    split at taken
    · cases taken
    · next thread found =>
      split at taken
      · cases taken
      · next ready => exact ⟨by simpa using running, thread, found, by simpa using ready⟩

/-- The place of the thread that takes a step, with what `step_run` needs. -/
theorem step_at {s next : Kernel} {t : Tid} {thread : Thread}
    (taken : step s (.run t) = some next) (found : s.threads t = some thread) :
    s.fault = none ∧ At s t thread thread.pc := by
  obtain ⟨running, ready, lookup, unblocked⟩ := step_ready taken
  have same : ready = thread := Option.some.inj (lookup.symm.trans found)
  exact ⟨running, found, by rw [← same]; exact unblocked, rfl⟩

theorem ending_lasts {s next : Kernel} {action : Action} (inv : Consistent s) (ok : EndOk s)
    (took : Took s action next) {c : Tid} {record : Thread} {ending : Ending}
    (found : s.threads c = some record) (isEnding : record.ending = some ending) :
    ∃ after, next.threads c = some after ∧ after.ending = some ending := by
  obtain ⟨after, present, _⟩ := took_forward took (fun _ _ => tid_in_use inv) found
  refine ⟨after, present, ?_⟩
  by_cases self : c = action.tid
  · subst self
    obtain ⟨_, _, _, flags⟩ := took_reports took
    rcases (flags record after found present).ending with ⟨same, _⟩ | ⟨_, _, stands, _⟩
    · rw [same, isEnding]
    · have exits := recorded_exiting (ok.recorded _ record ending found isEnding).2
      rw [stands] at exits
      exact exits.elim
  · rcases took_other took self present with ⟨_, _, born, _⟩ | ⟨before, old, same, _⟩
    · exact absurd born (tid_in_use inv found)
    · obtain rfl : record = before := Option.some.inj (found.symm.trans old)
      rw [same.ending, isEnding]

theorem ended_lasts {s next : Kernel} {action : Action} (inv : Consistent s) (ok : EndOk s)
    (took : Took s action next) {c : Tid} {status : Int} (ended : EndedWith s c status) :
    EndedWith next c status := by
  obtain ⟨record, ending, found, isEnding, isStatus⟩ := ended
  obtain ⟨after, present, now⟩ := ending_lasts inv ok took found isEnding
  exact ⟨after, ending, present, now, isStatus⟩

/-- The entry of a process that has come to its end keeps its status while other
threads take steps. -/
theorem status_kept {s next : Kernel} {action : Action} (inv : Consistent s)
    (invNext : Consistent next) (took : Took s action next) {c : Tid} {before after : Thread} {k : Slot} (different : c ≠ action.tid)
    (found : s.threads c = some before) (present : next.threads c = some after)
    (entry : before.entry = some k) (entryAfter : after.entry = some k) :
    (next.procList k).exitStatus = (s.procList k).exitStatus := by
  have isTid := inv.procs.entryTid c before k found entry
  have isTidNext := invNext.procs.entryTid c after k present entryAfter
  obtain ⟨low, below, _⟩ := inv.threads.range c before found
  have nonzero : c ≠ 0 := (lt_of_le_of_lt low below).ne'
  rcases took_procs took with same | ⟨thread, child, idx, here, procs⟩ |
    ⟨thread, child, p, status, here, procs⟩ | ⟨thread, p, status, here, procs⟩
  · rw [same]
  · rw [procs, add_proc_list_entry_used _ (by rw [isTid]; exact nonzero)]
  · by_cases equal : k = p
    · subst equal
      rw [procs, Function.update_self] at isTidNext
      exact absurd isTidNext.symm nonzero
    · rw [procs, Function.update_of_ne equal]
  · by_cases equal : k = p
    · subst equal
      have own : thread.entry = some k := place_at inv here
      have clash := inv.procs.entryTid _ thread k here.found own
      exact absurd (isTid.symm.trans clash) different
    · rw [procs, Function.update_of_ne equal]

/-- The places after `p->exit_status = status`. -/
def Stored : Pc → Prop
  | .exitProcess => True
  | .exitIdx _ => True
  | .exitSignal _ => True
  | .dead => True
  | _ => False

theorem recorded_stored {procList : ProcList} {record : Thread} {ending : Ending}
    (stored : Stored record.pc) : Recorded procList record ending ↔
      ∀ k, record.entry = some k → (procList k).exitStatus = statusOf ending := by
  unfold Recorded
  cases stands : record.pc with
  | exitProcess => exact Iff.rfl
  | exitIdx p => exact Iff.rfl
  | exitSignal idx => exact Iff.rfl
  | dead => exact Iff.rfl
  | _ =>
      rw [stands] at stored
      exact stored.elim

/-- A statement of `process_exit` leaves `procList` alone. -/
theorem procs_kept {s next : Kernel} {action : Action} {thread : Thread}
    (took : Took s action next) (found : s.threads action.tid = some thread)
    (stored : Stored thread.pc) : next.procList = s.procList := by
  have elsewhere : ∀ {other : Thread} {pc : Pc}, At s action.tid other pc → Stored pc := by
    intro other pc here
    have same : thread = other := Option.some.inj (found.symm.trans here.found)
    rw [← here.stands, ← same]
    exact stored
  rcases took_procs took with same | ⟨_, _, _, here, _⟩ | ⟨_, _, _, _, here, _⟩ | ⟨_, _, _, here, _⟩
  · exact same
  · exact (elsewhere here).elim
  · exact (elsewhere here).elim
  · exact (elsewhere here).elim

section Edges

variable {s : Kernel} {t : Tid} {process : Bool} {action : Action} {target : Pc}

theorem edge_from_exit_fetch {status : Int}
    (edge : Edge s t process action (.exitFetch status) target) :
    (target = .exitProcess ∧ fetchProcess s.procList t = none) ∨
      ∃ p, target = .exitStore p status := by
  cases edge with
  | waitMisses calls absent => exact (calls.elim nofun nofun)
  | waitFinds calls found => exact (calls.elim nofun nofun)
  | exitMisses absent => exact .inl ⟨rfl, absent⟩
  | exitFetches found => exact .inr ⟨_, rfl⟩

theorem edge_from_exit_store {p : Slot} {status : Int}
    (edge : Edge s t process action (.exitStore p status) target) :
    action = .run t ∧ target = .exitProcess := by
  cases edge with
  | waitMisses calls absent => exact (calls.elim nofun nofun)
  | waitFinds calls found => exact (calls.elim nofun nofun)
  | exitStores => exact ⟨rfl, rfl⟩

theorem edge_from_stored {pc : Pc} (edge : Edge s t process action pc target)
    (stored : Stored pc) : Stored target := by
  cases edge with
  | waitMisses calls absent =>
      rcases calls with rfl | rfl
      · exact stored.elim
      · exact stored.elim
  | waitFinds calls found =>
      rcases calls with rfl | rfl
      · exact stored.elim
      · exact stored.elim
  | processMisses absent => trivial
  | processFetches found => trivial
  | exitSilent error => trivial
  | exitIdx => trivial
  | exitSignals => trivial
  | _ => exact stored.elim

theorem edge_to_dead {pc : Pc} (edge : Edge s t process action pc .dead) :
    (pc = .exitProcess ∧ fetchProcess s.procList t = none) ∨
      (∃ p, pc = .exitIdx p ∧ (s.procList p).semListIdx = -1) ∨
      ∃ idx, pc = .exitSignal idx ∧ action = .run t := by
  cases edge with
  | processMisses absent => exact .inl ⟨rfl, absent⟩
  | exitSilent error => exact .inr (.inl ⟨_, rfl, error⟩)
  | exitSignals => exact .inr (.inr ⟨_, rfl, rfl⟩)

end Edges

theorem took_finish {s next : Kernel} {t : Tid} {ending : Ending} {after : Thread}
    (took : Took s (.finish t ending) next) (present : next.threads t = some after) :
    after.ending = some ending := by
  cases took with
  | finish ending here process =>
      obtain rfl := put_self present
      rfl

theorem step_exit_signal {s next : Kernel} (inv : Consistent s) {t : Tid} {before after : Thread}
    {idx : Int} (taken : step s (.run t) = some next) (found : s.threads t = some before)
    (stands : before.pc = .exitSignal idx) (present : next.threads t = some after) :
    after.signalled = true := by
  obtain ⟨running, here⟩ := step_at taken found
  rw [stands] at here
  obtain ⟨_, i, _, isIdx⟩ := place_at inv here
  have slot : slotAt idx = some i := by rw [isIdx, slot_at_val]
  have child : runExec s t before (.exitSignal idx) = none ∧
      runWait s t before (.exitSignal idx) = none := ⟨rfl, rfl⟩
  rw [step_run here running, child.1, child.2, Option.none_or, Option.none_or] at taken
  simp only [runChild, slot, Option.some.injEq] at taken
  subst taken
  obtain ⟨middle, old, same, _⟩ := wake_some present
  obtain rfl := put_self old
  exact same.signalled

theorem step_exit_store {s next : Kernel} {t : Tid} {thread : Thread} {p : Slot} {status : Int}
    (taken : step s (.run t) = some next) (found : s.threads t = some thread)
    (stands : thread.pc = .exitStore p status) :
    next.procList p = { s.procList p with exitStatus := status } := by
  obtain ⟨running, here⟩ := step_at taken found
  rw [stands] at here
  rw [step_run here running] at taken
  cases taken
  exact Function.update_self ..

/-- The status of the process that takes the step. -/
theorem recorded_self {s next : Kernel} {action : Action} (inv : Consistent s)
    (stores : StoresStatus s action) (taken : step s action = some next) {before after : Thread}
    {ending : Ending} (found : s.threads action.tid = some before)
    (present : next.threads action.tid = some after) (entry : after.entry = before.entry)
    (old : before.ending = some ending → Recorded s.procList before ending)
    (isEnding : after.ending = some ending) : Recorded next.procList after ending := by
  have took := step_took taken
  obtain ⟨_, _, _, flags⟩ := took_reports took
  rcases (flags before after found present).ending with
    ⟨same, _⟩ | ⟨other, isFinish, _, _, _, stands, reported⟩
  · rw [same] at isEnding
    have recorded := old isEnding
    have moves := took_edge took found present
    by_cases stored : Stored before.pc
    · -- At the places after the store the entry keeps what it has.
      have storedNext : Stored after.pc := by
        rcases moves with stays | edge
        · rw [stays]
          exact stored
        · exact edge_from_stored edge stored
      rw [recorded_stored stored] at recorded
      rw [recorded_stored storedNext, procs_kept took found stored, entry]
      exact recorded
    · unfold Recorded at recorded
      cases stands : before.pc with
      | exitFetch status =>
          rw [stands] at recorded moves
          unfold Recorded
          rcases moves with stays | edge
          · rw [stays]
            exact recorded
          · rcases edge_from_exit_fetch edge with ⟨target, absent⟩ | ⟨p, target⟩
            · rw [target]
              intro k held
              rw [entry, ← fetch_process_entry inv found, absent] at held
              cases held
            · rw [target]
              exact recorded
      | exitStore p status =>
          rw [stands] at recorded moves
          unfold Recorded
          rcases moves with stays | edge
          · rw [stays]
            exact recorded
          · obtain ⟨isRun, target⟩ := edge_from_exit_store edge
            rw [target]
            intro k held
            have place := (inv.threads.own _ before found).place
            unfold PlaceOk at place
            rw [stands] at place
            rw [entry, place, Option.some.injEq] at held
            rw [isRun] at taken
            rw [← held, step_exit_store taken found stands]
            exact recorded
      | exitProcess => exact absurd (by rw [stands]; trivial) stored
      | exitIdx p => exact absurd (by rw [stands]; trivial) stored
      | exitSignal idx => exact absurd (by rw [stands]; trivial) stored
      | dead => exact absurd (by rw [stands]; trivial) stored
      | _ =>
          rw [stands] at recorded
          exact recorded.elim
  · rw [reported, Option.some.injEq] at isEnding
    subst isEnding
    have storing : Stores other := by
      have meets := stores.2
      rw [isFinish] at meets
      exact meets
    unfold Recorded
    rw [stands, after_finish_stores storing]

/-- The status of a process while another thread takes a step. -/
theorem recorded_other {s next : Kernel} {action : Action} (inv : Consistent s)
    (invNext : Consistent next) (took : Took s action next) {c : Tid} {before after : Thread}
    {ending : Ending} (different : c ≠ action.tid) (found : s.threads c = some before)
    (present : next.threads c = some after) (same : Untouched before after)
    (serves : Serves s next action.tid c before after) (launched : before.launched = true)
    (recorded : Recorded s.procList before ending) : Recorded next.procList after ending := by
  apply recorded_same recorded same.pc
  intro k held
  have entry : before.entry = some k := by
    cases serves with
    | kept session => rw [← session.entry, held]
    | addProc here record =>
        -- A launched process has been registered already.
        obtain ⟨child, lookup, _, _, _, _, unregistered, awaited⟩ := charged inv here rfl
        obtain rfl : before = child := Option.some.inj (found.symm.trans lookup)
        have own := inv.threads.own c before found
        have holds := own.launchedHolds launched (unreaped_of_unawaited own awaited)
        rw [holdsBoth, unregistered] at holds
        cases holds.2
    | clears here moved record =>
        rw [record] at held
        cases held
    | addSem here told record =>
        rw [record] at held
        exact held
    | awaits here record =>
        rw [record] at held
        exact held
    | reaps here record =>
        rw [record] at held
        exact held
    | releases here record =>
        rw [record] at held
        exact held
  exact ⟨entry, status_kept inv invNext took different found present entry held⟩

theorem launched_lasts_self {action : Action} {news : Option Event} {before after : Thread}
    (flags : Flags action news before after) (launched : before.launched = true) :
    after.launched = true := by
  rcases flags.launched with ⟨same, _⟩ | ⟨_, _, _, _, now⟩
  · rw [same, launched]
  · exact now

/-- A process is launched before it exits, also in the step it takes. -/
theorem launched_before {action : Action} {news : Option Event} {before after : Thread}
    (flags : Flags action news before after) (launched : after.launched = true)
    (exits : Exiting after.pc) : before.launched = true := by
  rcases flags.launched with ⟨same, _⟩ | ⟨_, _, _, stands, _⟩
  · rw [← same, launched]
  · rw [stands] at exits
    exact exits.elim

theorem took_signalled {s next : Kernel} {action : Action} (inv : Consistent s)
    (old : ∀ c record, s.threads c = some record → record.launched = true →
      record.pc = .dead → record.signalled = true)
    (taken : step s action = some next) {after : Thread}
    (present : next.threads action.tid = some after) (launched : after.launched = true)
    (dead : after.pc = .dead) : after.signalled = true := by
  have took := step_took taken
  obtain ⟨_, _, _, flags⟩ := took_reports took
  obtain ⟨before, found, _⟩ := took_self took present
  have own := inv.threads.own _ before found
  have early := launched_before (flags before after found present) launched
    (by rw [dead]; trivial)
  rcases took_edge took found present with stays | edge
  · have signalled := old _ before found early (by rw [← stays, dead])
    rcases (flags before after found present).signalled with ⟨same, _⟩ | ⟨_, _, _, _, now⟩
    · rw [same, signalled]
    · exact now
  · rw [dead] at edge
    rcases edge_to_dead edge with ⟨stands, absent⟩ | ⟨p, stands, error⟩ | ⟨idx, stands, isRun⟩
    · have alive : before.pc ≠ .dead := by rw [stands]; nofun
      have holds := own.launchedHolds early (unreaped_of_alive own alive)
      rw [holdsBoth, ← fetch_process_entry inv found, absent] at holds
      cases holds.2
    · have alive : before.pc ≠ .dead := by rw [stands]; nofun
      have entry := own.place
      unfold PlaceOk at entry
      rw [stands] at entry
      obtain ⟨i, _, idx⟩ := entry_index inv found entry (unreaped_of_alive own alive)
      omega
    · rw [isRun] at taken
      exact step_exit_signal inv taken found stands present

theorem took_end {s next : Kernel} {action : Action} (inv : Consistent s)
    (invNext : Consistent next) (stores : StoresStatus s action) (ok : EndOk s)
    (taken : step s action = some next) : EndOk next := by
  have took := step_took taken
  obtain ⟨_, _, _, flags⟩ := took_reports took
  constructor
  · intro c after ending present isEnding
    by_cases self : c = action.tid
    · subst self
      obtain ⟨before, found, session⟩ := took_self took present
      have own := flags before after found present
      refine ⟨launched_lasts_self own ?_, recorded_self inv stores taken found present
        session.entry (fun isOld => (ok.recorded _ before ending found isOld).2) isEnding⟩
      rcases own.ending with ⟨same, _⟩ | ⟨_, _, stands, process, _⟩
      · exact (ok.recorded _ before ending found (by rw [← same, isEnding])).1
      · have place := (inv.threads.own _ before found).place
        unfold PlaceOk at place
        rw [stands] at place
        exact place process
    · rcases took_other took self present with ⟨_, _, _, rfl⟩ | ⟨before, found, same, serves⟩
      · cases isEnding
      · rw [same.ending] at isEnding
        obtain ⟨launched, recorded⟩ := ok.recorded c before ending found isEnding
        exact ⟨by rw [same.launched, launched], recorded_other inv invNext took self found present
          same serves launched recorded⟩
  · intro c after present launched exits
    by_cases self : c = action.tid
    · subst self
      obtain ⟨before, found, _⟩ := took_self took present
      have own := flags before after found present
      have early := launched_before own launched exits
      have kept : Exiting before.pc → after.ending.isSome := by
        intro exitsBefore
        have isSome := ok.ended _ before found early exitsBefore
        rcases own.ending with ⟨same, _⟩ | ⟨_, _, _, _, _, _, now⟩
        · rw [same]
          exact isSome
        · rw [now]
          rfl
      rcases took_edge took found present with stays | edge
      · exact kept (by rw [← stays]; exact exits)
      · rcases edge_to_exit edge exits with earlier | ⟨_, _, ending, isFinish⟩ | ⟨stands, _⟩
        · exact kept earlier
        · generalize action.tid = t at isFinish present
          subst isFinish
          rw [took_finish took present]
          rfl
        · have place := (inv.threads.own _ before found).place
          unfold PlaceOk at place
          rw [stands, early] at place
          cases place
    · rcases took_other took self present with ⟨_, _, _, rfl⟩ | ⟨before, found, same, _⟩
      · exact exits.elim
      · rw [same.ending]
        exact ok.ended c before found (by rw [← same.launched, launched])
          (by rw [← same.pc]; exact exits)
  · intro c after present launched dead
    by_cases self : c = action.tid
    · subst self
      exact took_signalled inv ok.signalled taken present launched dead
    · rcases took_other took self present with ⟨_, _, _, rfl⟩ | ⟨before, found, same, _⟩
      · cases dead
      · rw [same.signalled]
        exact ok.signalled c before found (by rw [← same.launched, launched])
          (by rw [← same.pc, dead])

end UtSystems.Userprog.ProcessStatus

import UtSystems.Userprog.ProcessStatus

/-!
# The first wait for a child returns its status

When every process ends through `sys_exit`, the first `process_wait` of a parent
for its child returns the status of that ending, and it does return: from any
state in which the child has come to its end, the statements of the two threads
alone lead the parent out of `process_wait`.
-/

namespace UtSystems.Userprog.ProcessReap

open Threads.Synch Userprog.ProcessTable Userprog.ProcessSystem Userprog.ProcessSteps
open Userprog.ProcessInvariant Userprog.ProcessSessions Userprog.ProcessOrderly
open Userprog.ProcessRecords Userprog.ProcessWait Userprog.ProcessStatus Lib.GuardedRun

set_option autoImplicit false

/-! ## Waits that have not returned yet -/

theorem not_waited_cons {parent child : Tid} {event : Event} {history : List Event}
    (unwaited : NotWaited parent child (event :: history)) :
    event = .created parent child ∨
      (NotWaited parent child history ∧ ∀ status, event ≠ .waitReturned parent child status) := by
  obtain ⟨middle, older, split, none⟩ := unwaited
  cases middle with
  | nil =>
      rw [List.nil_append, List.cons.injEq] at split
      exact .inl split.1
  | cons first middle =>
      rw [List.cons_append, List.cons.injEq] at split
      refine .inr ⟨⟨middle, older, split.2, fun status member => ?_⟩, fun status same => ?_⟩
      · exact none status (List.mem_cons_of_mem _ member)
      · rw [split.1] at same
        exact none status (by rw [← same]; exact List.mem_cons_self)

theorem not_waited_uses {parent child : Tid} {uses : List Int} {history : List Event}
    (unwaited : NotWaited parent child (uses.map Event.semAccess ++ history)) :
    NotWaited parent child history := by
  induction uses with
  | nil => exact unwaited
  | cons idx rest ih =>
      rcases not_waited_cons unwaited with clash | ⟨earlier, _⟩
      · cases clash
      · exact ih earlier

theorem not_waited_grows {s next : Kernel} {action : Action} {uses : List Int}
    {news : Option Event} (grows : Grows s action next uses news) {parent child : Tid}
    (unwaited : NotWaited parent child next.history) :
    news = some (.created parent child) ∨
      (NotWaited parent child s.history ∧
        ∀ status, news ≠ some (.waitReturned parent child status)) := by
  rw [grows.history] at unwaited
  cases news with
  | none => exact .inr ⟨not_waited_uses unwaited, by simp⟩
  | some event =>
      rcases not_waited_cons unwaited with created | ⟨earlier, other⟩
      · exact .inl (by rw [created])
      · exact .inr ⟨not_waited_uses earlier, by simpa using other⟩

structure ReapOk (s : Kernel) : Prop where
  clears : ∀ p thread c k status, s.threads p = some thread → thread.pc = .waitClear c k status →
    EndedWith s c status
  returns : ∀ p thread c status, s.threads p = some thread → thread.pc = .waitReturn c status →
    NotWaited p c s.history → EndedWith s c status
  kept : ∀ c record, s.threads c = some record → record.awaited = true → record.entry = none →
    NotWaited record.parent c s.history →
      ∃ parent status, s.threads record.parent = some parent ∧ parent.pc = .waitReturn c status
  created : ∀ p c, Event.created p c ∈ s.history →
    ∃ record, s.threads c = some record ∧ record.parent = p ∧ record.process = true
  reported : ∀ c record ending, s.threads c = some record → record.ending = some ending →
    Event.ended c ending ∈ s.history
  unique : ∀ c ending, Event.ended c ending ∈ s.history →
    ∃ record, s.threads c = some record ∧ record.ending = some ending
  first : ∀ p c status newer older, s.history = newer ++ .waitReturned p c status :: older →
    NotWaited p c older → ∃ ending, Event.ended c ending ∈ older ∧ status = statusOf ending

/-! ## Where the places of process_wait come from -/

section Edges

variable {s : Kernel} {t : Tid} {process : Bool} {action : Action} {pc : Pc}

theorem edge_to_wait_clear {c : Tid} {k : Slot} {status : Int}
    (edge : Edge s t process action pc (.waitClear c k status)) :
    pc = .waitRead c k ∧ status = (s.procList k).exitStatus := by
  cases edge with
  | waitReads => exact ⟨rfl, rfl⟩

theorem edge_to_wait_return {c : Tid} {status : Int}
    (edge : Edge s t process action pc (.waitReturn c status)) :
    ((pc = .user ∨ pc = .runTask c) ∧ fetchProcess s.procList c = none) ∨
      ∃ k, pc = .waitClear c k status := by
  cases edge with
  | waitMisses calls absent => exact .inl ⟨calls, absent⟩
  | waitClears => exact .inr ⟨_, rfl⟩

theorem edge_from_wait_return {c : Tid} {status : Int} {target : Pc}
    (edge : Edge s t process action (.waitReturn c status) target) : action = .run t := by
  cases edge with
  | waitMisses calls absent => exact (calls.elim nofun nofun)
  | waitFinds calls found => exact (calls.elim nofun nofun)
  | waitReturns => rfl

end Edges

/-- A child that its parent has reaped ended with the status in its entry. -/
theorem reaped_status {s : Kernel} (inv : Consistent s) (ok : EndOk s) {p c : Tid}
    {thread : Thread} {k : Slot} (found : s.threads p = some thread)
    (stands : thread.pc = .waitRead c k) : EndedWith s c (s.procList k).exitStatus := by
  obtain ⟨record, childFound, _, _, session⟩ :=
    inv.threads.charge p thread found c (by rw [stands]; rfl)
  rw [stands] at session
  obtain ⟨_, entry, awaited, reaped⟩ := session
  have own := inv.threads.own c record childFound
  have dead := own.signalledDead (own.reapedSignalled reaped)
  have launched := own.awaitedLaunched awaited
  have isSome := ok.ended c record childFound launched (by rw [dead]; trivial)
  obtain ⟨ending, isEnding⟩ := Option.isSome_iff_exists.mp isSome
  have recorded := (ok.recorded c record ending childFound isEnding).2
  rw [recorded_stored (by rw [dead]; trivial)] at recorded
  exact ⟨record, ending, childFound, isEnding, recorded k entry⟩

theorem took_clears {s next : Kernel} {action : Action} (inv : Consistent s) (endOk : EndOk s)
    (ok : ReapOk s) (took : Took s action next) {p c : Tid} {after : Thread} {k : Slot}
    {status : Int} (present : next.threads p = some after)
    (stands : after.pc = .waitClear c k status) : EndedWith next c status := by
  apply ended_lasts inv endOk took
  by_cases self : p = action.tid
  · subst self
    obtain ⟨before, found, _⟩ := took_self took present
    rcases took_edge took found present with stays | edge
    · exact ok.clears _ before c k status found (by rw [← stays, stands])
    · rw [stands] at edge
      obtain ⟨reads, rfl⟩ := edge_to_wait_clear edge
      exact reaped_status inv endOk found reads
  · rcases took_other took self present with ⟨_, _, _, rfl⟩ | ⟨before, found, same, _⟩
    · cases stands
    · exact ok.clears p before c k status found (by rw [← same.pc, stands])

theorem took_create {s next : Kernel} {t : Tid} {after : Thread}
    (took : Took s (.create t true) next) (present : next.threads t = some after) :
    after.pc = .execAddSem s.nextTid ∨ after.pc = .execCreate := by
  cases took with
  | create here =>
      obtain rfl := put_self present
      exact .inl rfl
  | tidOverflow here =>
      obtain rfl := Option.some.inj (here.found.symm.trans present)
      exact .inr here.stands

theorem step_wait_return {s next : Kernel} {t c : Tid} {thread : Thread} {status : Int}
    (taken : step s (.run t) = some next) (found : s.threads t = some thread)
    (stands : thread.pc = .waitReturn c status) :
    next.history = .waitReturned t c status :: s.history := by
  obtain ⟨running, here⟩ := step_at taken found
  rw [stands] at here
  rw [step_run here running] at taken
  cases taken
  rfl

theorem unwaited_child {s : Kernel} {p c : Tid} (ok : ReapOk s)
    (unwaited : NotWaited p c s.history) :
    ∃ record, s.threads c = some record ∧ record.parent = p ∧ record.process = true := by
  obtain ⟨middle, older, split, _⟩ := unwaited
  exact ok.created p c (by rw [split]; simp)

theorem took_returns {s next : Kernel} {action : Action} (inv : Consistent s) (endOk : EndOk s)
    (ok : ReapOk s) (took : Took s action next) {p c : Tid} {after : Thread} {status : Int}
    (present : next.threads p = some after) (stands : after.pc = .waitReturn c status)
    (unwaitedNext : NotWaited p c next.history) : EndedWith next c status := by
  obtain ⟨uses, news, grows, _⟩ := took_reports took
  rcases not_waited_grows grows unwaitedNext with isNews | ⟨unwaited, _⟩
  · obtain ⟨rfl, _⟩ := grows.emits (.created p c) isNews
    rcases took_create took present with moved | stays
    · rw [moved] at stands
      cases stands
    · rw [stays] at stands
      cases stands
  · apply ended_lasts inv endOk took
    by_cases self : p = action.tid
    · subst self
      obtain ⟨before, found, _⟩ := took_self took present
      rcases took_edge took found present with stays | edge
      · exact ok.returns _ before c status found (by rw [← stays, stands]) unwaited
      · rw [stands] at edge
        rcases edge_to_wait_return edge with ⟨calls, absent⟩ | ⟨k, clear⟩
        · -- The entry of an unwaited child is cleared only on the way to its first return.
          obtain ⟨record, childFound, parent, process⟩ := unwaited_child ok unwaited
          have entry : record.entry = none := by
            rw [← fetch_process_entry inv childFound, absent]
          have awaited : record.awaited = true := by
            by_contra early
            obtain ⟨caller, lookup, launches⟩ := inv.threads.launching c record childFound process
              (Bool.eq_false_iff.mpr early)
            rw [parent, found, Option.some.injEq] at lookup
            rw [← lookup] at launches
            rcases calls with user | task
            · rw [user] at launches
              exact launches.elim
            · rw [task] at launches
              exact launches.elim
          obtain ⟨caller, other, lookup, returning⟩ :=
            ok.kept c record childFound awaited entry (by rw [parent]; exact unwaited)
          rw [parent, found, Option.some.injEq] at lookup
          rw [← lookup] at returning
          rcases calls with user | task
          · rw [user] at returning
            cases returning
          · rw [task] at returning
            cases returning
        · exact ok.clears _ before c k status found clear
    · rcases took_other took self present with ⟨_, _, _, rfl⟩ | ⟨before, found, same, _⟩
      · cases stands
      · exact ok.returns p before c status found (by rw [← same.pc, stands]) unwaited

/-- A parent about to return from its first wait stays there until it returns. -/
theorem still_returning {s next : Kernel} {action : Action} (inv : Consistent s)
    (taken : step s action = some next) {p c : Tid} {parent : Thread} {status : Int}
    (found : s.threads p = some parent) (stands : parent.pc = .waitReturn c status)
    (unwaited : ∀ returned, next.history ≠ .waitReturned p c returned :: s.history) :
    ∃ after, next.threads p = some after ∧ after.pc = .waitReturn c status := by
  have took := step_took taken
  obtain ⟨after, present, _⟩ := took_forward took (fun _ _ => tid_in_use inv) found
  refine ⟨after, present, ?_⟩
  by_cases self : p = action.tid
  · subst self
    rcases took_edge took found present with stays | edge
    · rw [stays, stands]
    · rw [stands] at edge
      have isRun := edge_from_wait_return edge
      rw [isRun] at taken
      exact absurd (step_wait_return taken found stands) (unwaited status)
  · rcases took_other took self present with ⟨_, _, born, _⟩ | ⟨before, old, same, _⟩
    · exact absurd born (tid_in_use inv found)
    · obtain rfl : parent = before := Option.some.inj (found.symm.trans old)
      rw [same.pc, stands]

theorem took_kept {s next : Kernel} {action : Action} (inv : Consistent s) (ok : ReapOk s)
    (taken : step s action = some next) {c : Tid} {after : Thread}
    (present : next.threads c = some after) (awaited : after.awaited = true)
    (entry : after.entry = none) (unwaitedNext : NotWaited after.parent c next.history) :
    ∃ parent status, next.threads after.parent = some parent ∧
      parent.pc = .waitReturn c status := by
  have took := step_took taken
  obtain ⟨uses, news, grows, _⟩ := took_reports took
  have unreturned : ∀ returned, next.history ≠
      .waitReturned after.parent c returned :: s.history := by
    intro returned history
    rw [history] at unwaitedNext
    rcases not_waited_cons unwaitedNext with clash | ⟨_, other⟩
    · cases clash
    · exact other returned rfl
  -- Before the step the child was in the same situation, or the step clears its entry.
  have earlier : ∀ before, s.threads c = some before → before.awaited = true →
      before.entry = none → after.parent = before.parent →
      ∃ parent status, next.threads after.parent = some parent ∧
        parent.pc = .waitReturn c status := by
    intro before found awaitedBefore entryBefore parent
    rcases not_waited_grows grows unwaitedNext with isNews | ⟨unwaited, _⟩
    · obtain ⟨_, isNext⟩ := grows.emits _ isNews
      exact absurd isNext (inv.threads.range c before found).2.2.ne
    · obtain ⟨caller, status, lookup, stands⟩ :=
        ok.kept c before found awaitedBefore entryBefore (by rw [← parent]; exact unwaited)
      rw [← parent] at lookup
      obtain ⟨moved, now, still⟩ := still_returning inv taken lookup stands unreturned
      exact ⟨moved, status, now, still⟩
  by_cases self : c = action.tid
  · subst self
    obtain ⟨before, found, session⟩ := took_self took present
    exact earlier before found (by rw [← session.awaited, awaited])
      (by rw [← session.entry, entry]) session.parent
  · rcases took_other took self present with ⟨_, _, _, rfl⟩ | ⟨before, found, same, serves⟩
    · cases awaited
    · cases serves with
      | kept session =>
          exact earlier before found (by rw [← session.awaited, awaited])
            (by rw [← session.entry, entry]) same.parent
      | addSem here told record =>
          subst record
          exact earlier before found awaited entry rfl
      | addProc here record =>
          obtain ⟨child, lookup, _, _, _, _, _, unawaited⟩ := charged inv here rfl
          obtain rfl : before = child := Option.some.inj (found.symm.trans lookup)
          rw [record] at awaited
          rw [show before.awaited = true from awaited] at unawaited
          cases unawaited
      | awaits here record =>
          obtain ⟨child, lookup, _, _, _, _, registered, _⟩ := charged inv here rfl
          obtain rfl : before = child := Option.some.inj (found.symm.trans lookup)
          rw [record] at entry
          rw [show before.entry = none from entry] at registered
          cases registered
      | reaps here record =>
          subst record
          exact earlier before found awaited entry rfl
      | releases here record =>
          subst record
          exact earlier before found awaited entry rfl
      | clears here moved record =>
          obtain ⟨child, lookup, _, parent, _⟩ := charged inv here rfl
          obtain rfl : before = child := Option.some.inj (found.symm.trans lookup)
          rw [same.parent, parent]
          exact ⟨_, _, moved, rfl⟩

theorem took_born {s next : Kernel} {t : Tid} (took : Took s (.create t true) next)
    (bound : ∀ u record, s.threads u = some record → u ≠ s.nextTid)
    (grown : next.history ≠ s.history) :
    next.threads s.nextTid = some { parent := t, process := true, pc := .load } := by
  cases took with
  | create here =>
      have different : s.nextTid ≠ t := (bound t _ here.found).symm
      exact (Function.update_of_ne different _ _).trans (Function.update_self ..)
  | tidOverflow here => exact absurd rfl grown

theorem took_created {s next : Kernel} {action : Action} (inv : Consistent s) (ok : ReapOk s)
    (took : Took s action next) {p c : Tid} (member : Event.created p c ∈ next.history) :
    ∃ record, next.threads c = some record ∧ record.parent = p ∧ record.process = true := by
  obtain ⟨uses, news, grows, _⟩ := took_reports took
  have forward : Event.created p c ∈ s.history →
      ∃ record, next.threads c = some record ∧ record.parent = p ∧ record.process = true := by
    intro old
    obtain ⟨record, found, parent, process⟩ := ok.created p c old
    obtain ⟨after, present, lasts⟩ := took_forward took (fun _ _ => tid_in_use inv) found
    exact ⟨after, present, by rw [lasts.parent, parent], by rw [lasts.process, process]⟩
  by_cases grown : next.history = s.history
  · exact forward (by rw [← grown]; exact member)
  · rcases grows_mem grows (by simp) member with old | ⟨rfl, rfl⟩
    · exact forward old
    · exact ⟨_, took_born took (fun _ _ => tid_in_use inv) grown, rfl, rfl⟩

theorem took_reported {s next : Kernel} {action : Action} (ok : ReapOk s)
    (took : Took s action next) {c : Tid} {after : Thread} {ending : Ending}
    (present : next.threads c = some after) (isEnding : after.ending = some ending) :
    Event.ended c ending ∈ next.history := by
  obtain ⟨uses, news, grows, flags⟩ := took_reports took
  by_cases self : c = action.tid
  · subst self
    obtain ⟨before, found, _⟩ := took_self took present
    rcases (flags before after found present).ending with
      ⟨same, _⟩ | ⟨other, _, _, _, isNews, _, now⟩
    · exact grows_keeps grows (ok.reported _ before ending found (by rw [← same, isEnding]))
    · rw [now, Option.some.injEq] at isEnding
      rw [grows.history, isNews, isEnding]
      simp
  · rcases took_other took self present with ⟨_, _, _, rfl⟩ | ⟨before, found, same, _⟩
    · cases isEnding
    · exact grows_keeps grows (ok.reported c before ending found (by rw [← same.ending, isEnding]))

theorem took_unique {s next : Kernel} {action : Action} (inv : Consistent s) (endOk : EndOk s)
    (ok : ReapOk s) (took : Took s action next) {c : Tid} {ending : Ending}
    (member : Event.ended c ending ∈ next.history) :
    ∃ record, next.threads c = some record ∧ record.ending = some ending := by
  obtain ⟨uses, news, grows, _⟩ := took_reports took
  rcases grows_mem grows (by simp) member with old | isFinish
  · obtain ⟨record, found, isEnding⟩ := ok.unique c ending old
    exact ending_lasts inv endOk took found isEnding
  · subst isFinish
    cases took with
    | finish ending here process => exact ⟨_, Function.update_self .., rfl⟩

theorem took_first {s next : Kernel} {action : Action} (ok : ReapOk s) (took : Took s action next)
    {p c : Tid} {status : Int} {newer older : List Event}
    (split : next.history = newer ++ .waitReturned p c status :: older)
    (unwaited : NotWaited p c older) :
    ∃ ending, Event.ended c ending ∈ older ∧ status = statusOf ending := by
  obtain ⟨uses, news, grows, _⟩ := took_reports took
  rcases grows_split grows (by simp) split with ⟨middle, old⟩ | ⟨isNews, rfl⟩
  · exact ok.first p c status middle older old unwaited
  · obtain ⟨_, thread, here⟩ := grows.emits (.waitReturned p c status) isNews
    obtain ⟨record, ending, found, isEnding, isStatus⟩ :=
      ok.returns p thread c status here.found here.stands (not_waited_uses unwaited)
    refine ⟨ending, ?_, isStatus⟩
    exact List.mem_append_right _ (ok.reported c record ending found isEnding)

theorem took_reap {s next : Kernel} {action : Action} (inv : Consistent s) (endOk : EndOk s)
    (ok : ReapOk s) (taken : step s action = some next) : ReapOk next := by
  have took := step_took taken
  constructor
  · exact fun p thread c k status present stands => took_clears inv endOk ok took present stands
  · exact fun p thread c status present stands => took_returns inv endOk ok took present stands
  · exact fun c record present awaited entry => took_kept inv ok taken present awaited entry
  · exact fun p c member => took_created inv ok took member
  · exact fun c record ending present isEnding => took_reported ok took present isEnding
  · exact fun c ending member => took_unique inv endOk ok took member
  · exact fun p c status newer older split unwaited => took_first ok took split unwaited

structure StatusOk (s : Kernel) : Prop where
  inv : Consistent s
  ends : EndOk s
  reaps : ReapOk s

theorem boot_status : StatusOk boot := by
  refine ⟨boot_consistent, ⟨?_, ?_, ?_⟩, ⟨?_, ?_, ?_, by simp [boot], ?_, by simp [boot], ?_⟩⟩
  · intro c record ending found isEnding
    rw [(boot_threads found).2] at isEnding
    cases isEnding
  · intro c record found launched
    rw [(boot_threads found).2] at launched
    cases launched
  · intro c record found launched
    rw [(boot_threads found).2] at launched
    cases launched
  · intro p thread c k status found stands
    rw [(boot_threads found).2] at stands
    cases stands
  · intro p thread c status found stands
    rw [(boot_threads found).2] at stands
    cases stands
  · intro c record found awaited
    rw [(boot_threads found).2] at awaited
    cases awaited
  · intro c record ending found isEnding
    rw [(boot_threads found).2] at isEnding
    cases isEnding
  · intro p c status newer older split
    simp [boot] at split

theorem step_status {s next : Kernel} {action : Action} (ok : StatusOk s)
    (stores : StoresStatus s action) (taken : step s action = some next) : StatusOk next := by
  have invNext := took_consistent ok.inv stores.1 (step_took taken)
  exact ⟨invNext, took_end ok.inv invNext stores ok.ends taken,
    took_reap ok.inv ok.ends ok.reaps taken⟩

theorem status_ok {s : Kernel} (run : Reaches step StoresStatus boot s) : StatusOk s :=
  reaches_invariant StatusOk boot_status (fun _ _ _ ok stores taken => step_status ok stores taken)
    run

/-! ## The wait returns -/

/-- The places of `process_wait(c)`. -/
def Waiting (c : Tid) : Pc → Prop
  | .waitIdx tid _ => tid = c
  | .waitDown tid _ _ => tid = c
  | .waitRelease tid _ _ => tid = c
  | .waitRead tid _ => tid = c
  | .waitClear tid _ _ => tid = c
  | .waitReturn tid _ => tid = c
  | _ => False

/-- The statements that are left to a thread in `process_wait`. -/
def waitLeft : Pc → Nat
  | .waitIdx _ _ => 6
  | .waitDown _ _ _ => 5
  | .waitRelease _ _ _ => 4
  | .waitRead _ _ => 3
  | .waitClear _ _ _ => 2
  | .waitReturn _ _ => 1
  | _ => 0

/-- The statements that are left to a process that has come to its end. -/
def exitLeft : Pc → Nat
  | .exitFetch _ => 5
  | .exitStore _ _ => 4
  | .exitProcess => 3
  | .exitIdx _ => 2
  | .exitSignal _ => 1
  | _ => 0

/-- A thread takes a statement, the kernel goes on, and the thread's record satisfies `Done`. -/
def Advances (s : Kernel) (t : Tid) (Done : Pc → Prop) : Prop :=
  ∃ next, step s (.run t) = some next ∧ next.fault = none ∧
    ∃ after, next.threads t = some after ∧ Done after.pc

theorem wake_pc {s : Kernel} {woken : Option Tid} {u : Tid} {thread : Thread}
    (found : s.threads u = some thread) :
    ∃ after, (s.wake woken).threads u = some after ∧ after.pc = thread.pc := by
  cases woken with
  | none => exact ⟨thread, found, rfl⟩
  | some v =>
      by_cases same : u = v
      · subst same
        exact ⟨{ thread with blocked := false }, by simp [Kernel.wake, Kernel.modify, found], rfl⟩
      · exact ⟨thread, by simp [Kernel.wake, Kernel.modify, Function.update_of_ne same, found], rfl⟩

theorem wake_fault (s : Kernel) (woken : Option Tid) : (s.wake woken).fault = s.fault := by
  cases woken <;> rfl

/-- A process on its way out is never blocked and has a next statement. -/
theorem exit_advances {s : Kernel} (inv : Consistent s) (running : s.fault = none) {c : Tid}
    {record : Thread} (found : s.threads c = some record) (exits : Exiting record.pc)
    (alive : record.pc ≠ .dead) :
    Advances s c fun pc => exitLeft pc < exitLeft record.pc := by
  have ready : record.blocked = false := by
    by_contra blocked
    have downing := inv.threads.blockedAt c record found (by simpa using blocked)
    cases stands : record.pc with
    | execDown child idx =>
        rw [stands] at exits
        exact exits
    | waitDown child p idx =>
        rw [stands] at exits
        exact exits
    | _ =>
        rw [stands] at downing
        exact downing
  cases stands : record.pc with
  | exitFetch status =>
      have here : At s c record (.exitFetch status) := ⟨found, ready, stands⟩
      have taken := step_run here running
      cases listed : fetchProcess s.procList c with
      | none =>
          simp only [runExec, runWait, runChild, listed] at taken
          exact ⟨_, taken, running, _, Function.update_self .., by simp [exitLeft]⟩
      | some p =>
          simp only [runExec, runWait, runChild, listed] at taken
          exact ⟨_, taken, running, _, Function.update_self .., by simp [exitLeft]⟩
  | exitStore p status =>
      have here : At s c record (.exitStore p status) := ⟨found, ready, stands⟩
      exact ⟨_, step_run here running, running, _, Function.update_self .., by simp [exitLeft]⟩
  | exitProcess =>
      have here : At s c record .exitProcess := ⟨found, ready, stands⟩
      have taken := step_run here running
      cases listed : fetchProcess s.procList c with
      | none =>
          simp only [runExec, runWait, runChild, listed] at taken
          exact ⟨_, taken, running, _, Function.update_self .., by simp [exitLeft]⟩
      | some p =>
          simp only [runExec, runWait, runChild, listed] at taken
          exact ⟨_, taken, running, _, Function.update_self .., by simp [exitLeft]⟩
  | exitIdx p =>
      have here : At s c record (.exitIdx p) := ⟨found, ready, stands⟩
      refine ⟨_, step_run here running, running, _, Function.update_self .., ?_⟩
      split
      · simp [exitLeft]
      · simp [exitLeft]
  | exitSignal idx =>
      have here : At s c record (.exitSignal idx) := ⟨found, ready, stands⟩
      obtain ⟨_, i, _, isIdx⟩ := place_at inv here
      have slot : slotAt idx = some i := by rw [isIdx, slot_at_val]
      have taken := step_run here running
      simp only [runExec, runWait, runChild, slot] at taken
      refine ⟨_, taken, (wake_fault _ _).trans running, ?_⟩
      obtain ⟨after, present, same⟩ := @wake_pc (((s.log (.semAccess idx)).setSem i
        { s.semList i with exiting := (semaUp (s.semList i).exiting).1 }).put c
          { record with pc := .dead, signalled := true }) (semaUp (s.semList i).exiting).2 c
            { record with pc := .dead, signalled := true } (Function.update_self ..)
      exact ⟨after, present, by simp [same, exitLeft]⟩
  | dead => exact absurd stands alive
  | _ =>
      rw [stands] at exits
      exact exits.elim

/-- When the child is dead, its parent is not blocked in `process_wait`. -/
theorem wait_ready {s : Kernel} (ok : StatusOk s) {p c : Tid} {thread record : Thread}
    {ending : Ending} (found : s.threads p = some thread) (waits : Waiting c thread.pc)
    (childFound : s.threads c = some record) (isEnding : record.ending = some ending)
    (dead : record.pc = .dead) : thread.blocked = false := by
  have launched := (ok.ends.recorded c record ending childFound isEnding).1
  have signalled := ok.ends.signalled c record childFound launched dead
  by_contra blocked
  have isBlocked : thread.blocked = true := by simpa using blocked
  have downing := ok.inv.threads.blockedAt p thread found isBlocked
  cases stands : thread.pc with
  | waitDown child k idx =>
      rw [stands] at waits
      obtain rfl : child = c := waits
      obtain ⟨charge, lookup, parent, _, session⟩ :=
        ok.inv.threads.charge p thread found child (by rw [stands]; rfl)
      obtain rfl : record = charge := Option.some.inj (childFound.symm.trans lookup)
      rw [stands] at session
      obtain ⟨⟨i, slot, _⟩, _⟩ := session
      have stuck : Stuck s.threads record.parent (ExitDown child) :=
        ⟨thread, by rw [parent, found], isBlocked, k, idx, stands⟩
      have quiet := ((ok.inv.sems.fits child record i childFound slot).exiting.waits stuck).2
      rw [signalled] at quiet
      cases quiet
  | execDown child idx =>
      rw [stands] at waits
      exact waits
  | _ =>
      rw [stands] at downing
      exact downing

/-- A parent whose child is dead has a next statement in `process_wait`. -/
theorem wait_advances {s : Kernel} (ok : StatusOk s) (running : s.fault = none) {p c : Tid}
    {thread record : Thread} {ending : Ending} (found : s.threads p = some thread)
    (waits : Waiting c thread.pc) (unfinished : ∀ status, thread.pc ≠ .waitReturn c status)
    (childFound : s.threads c = some record) (isEnding : record.ending = some ending)
    (dead : record.pc = .dead) :
    Advances s p fun pc => Waiting c pc ∧ waitLeft pc < waitLeft thread.pc := by
  have ready := wait_ready ok found waits childFound isEnding dead
  cases stands : thread.pc with
  | waitIdx child k =>
      rw [stands] at waits
      have here : At s p thread (.waitIdx child k) := ⟨found, ready, stands⟩
      exact ⟨_, step_run here running, running, _, Function.update_self .., waits, by simp [waitLeft]⟩
  | waitDown child k idx =>
      rw [stands] at waits
      obtain rfl : child = c := waits
      have here : At s p thread (.waitDown child k idx) := ⟨found, ready, stands⟩
      obtain ⟨charge, lookup, _, parent, _, ⟨i, slot, isIdx⟩, _, _, unreaped⟩ :=
        charged ok.inv here rfl
      obtain rfl : record = charge := Option.some.inj (childFound.symm.trans lookup)
      have launched := (ok.ends.recorded child record ending childFound isEnding).1
      have signalled := ok.ends.signalled child record childFound launched dead
      have positive : (s.semList i).exiting.value ≠ 0 := by
        have fits := (session_sems ok.inv here childFound parent slot).2.2.2
        rw [fits.value, signalled, unreaped]
        decide
      have isSlot : slotAt idx = some i := by rw [isIdx, slot_at_val]
      have taken := step_run here running
      simp only [runExec, runWait, if_neg (slot_at_ne_error isSlot), isSlot,
        sema_down_passes positive, if_true] at taken
      exact ⟨_, taken, running, _, Function.update_self .., rfl, by simp [waitLeft]⟩
  | waitRelease child k idx =>
      rw [stands] at waits
      have here : At s p thread (.waitRelease child k idx) := ⟨found, ready, stands⟩
      obtain ⟨_, _, _, _, _, ⟨i, _, isIdx⟩, _⟩ := charged ok.inv here rfl
      have isSlot : slotAt idx = some i := by rw [isIdx, slot_at_val]
      have taken := step_run here running
      simp only [runExec, runWait, isSlot] at taken
      exact ⟨_, taken, running, _, Function.update_self .., waits, by simp [waitLeft]⟩
  | waitRead child k =>
      rw [stands] at waits
      have here : At s p thread (.waitRead child k) := ⟨found, ready, stands⟩
      exact ⟨_, step_run here running, running, _, Function.update_self .., waits, by simp [waitLeft]⟩
  | waitClear child k status =>
      rw [stands] at waits
      have here : At s p thread (.waitClear child k status) := ⟨found, ready, stands⟩
      exact ⟨_, step_run here running, running, _, Function.update_self .., waits, by simp [waitLeft]⟩
  | waitReturn child status =>
      rw [stands] at waits
      obtain rfl : child = c := waits
      exact absurd stands (unfinished status)
  | _ =>
      rw [stands] at waits
      exact waits.elim

/-- Steps of the parent and of the child, each within the condition. -/
def PairOnly (p c : Tid) (s : Kernel) (action : Action) : Prop :=
  StoresStatus s action ∧ (action = .run p ∨ action = .run c)

theorem exit_or_wait_stores {s : Kernel} {t : Tid} {thread : Thread}
    (found : s.threads t = some thread)
    (place : Exiting thread.pc ∨ ∃ c, Waiting c thread.pc) : StoresStatus s (.run t) := by
  refine ⟨?_, trivial⟩
  intro other lookup
  obtain rfl : thread = other := Option.some.inj (found.symm.trans lookup)
  cases stands : thread.pc with
  | execAddSem child =>
      rw [stands] at place
      rcases place with exits | ⟨_, waits⟩
      · exact exits.elim
      · exact waits.elim
  | execAddProc child idx =>
      rw [stands] at place
      rcases place with exits | ⟨_, waits⟩
      · exact exits.elim
      · exact waits.elim
  | _ => trivial

/-- Another thread stands where it stood. -/
theorem pc_kept {s next : Kernel} {action : Action} (inv : Consistent s)
    (took : Took s action next) {u : Tid} {thread : Thread} (different : u ≠ action.tid)
    (found : s.threads u = some thread) :
    ∃ after, next.threads u = some after ∧ after.pc = thread.pc := by
  obtain ⟨after, present, _⟩ := took_forward took (fun _ _ => tid_in_use inv) found
  rcases took_other took different present with ⟨_, _, born, _⟩ | ⟨before, old, same, _⟩
  · exact absurd born (tid_in_use inv found)
  · obtain rfl : thread = before := Option.some.inj (found.symm.trans old)
    exact ⟨after, present, same.pc⟩

/-- Where the parent stands in `process_wait(c)`, it is another thread than `c`. -/
theorem waiter_differs {s : Kernel} (ok : StatusOk s) {p c : Tid} {thread record : Thread}
    {ending : Ending} (found : s.threads p = some thread) (waits : Waiting c thread.pc)
    (childFound : s.threads c = some record) (isEnding : record.ending = some ending) : c ≠ p := by
  rintro rfl
  obtain rfl : record = thread := Option.some.inj (childFound.symm.trans found)
  have exits := recorded_exiting (ok.ends.recorded c record ending childFound isEnding).2
  cases stands : record.pc <;> rw [stands] at waits exits <;> first
    | exact waits.elim
    | exact exits.elim

/-- From a state in which the child has come to its end, the statements that are left to
the two threads lead the parent out of `process_wait`. -/
theorem wait_returns {p c : Tid} (left : Nat) : ∀ {s : Kernel} {thread record : Thread}
    {ending : Ending}, StatusOk s → s.fault = none → s.threads p = some thread →
    Waiting c thread.pc → s.threads c = some record → record.ending = some ending →
    exitLeft record.pc + waitLeft thread.pc ≤ left →
    ∃ last status older, Reaches step (PairOnly p c) s last ∧
      last.history = .waitReturned p c status :: older := by
  induction left with
  | zero =>
      intro s thread record ending _ _ _ waits _ _ bound
      cases stands : thread.pc <;> rw [stands] at waits bound <;> first
        | exact waits.elim
        | simp [waitLeft] at bound
  | succ left ih =>
      intro s thread record ending ok running found waits childFound isEnding bound
      have different := waiter_differs ok found waits childFound isEnding
      have parentStores := @exit_or_wait_stores s p thread found (.inr ⟨c, waits⟩)
      by_cases returning : ∃ status, thread.pc = .waitReturn c status
      · obtain ⟨status, stands⟩ := returning
        have ready : thread.blocked = false := by
          by_contra blocked
          have downing := ok.inv.threads.blockedAt p thread found (by simpa using blocked)
          rw [stands] at downing
          exact downing
        have taken := step_run (⟨found, ready, stands⟩ : At s p thread _) running
        exact ⟨_, status, s.history, .push .start ⟨parentStores, .inl rfl⟩ taken, rfl⟩
      · by_cases dead : record.pc = .dead
        · obtain ⟨next, taken, runs, after, present, waitsNext, less⟩ :=
            wait_advances ok running found waits (fun status stands => returning ⟨status, stands⟩)
              childFound isEnding dead
          have took := step_took taken
          obtain ⟨child, childPresent, stays⟩ := pc_kept ok.inv took different childFound
          obtain ⟨again, lookup, isEndingNext⟩ :=
            ending_lasts ok.inv ok.ends took childFound isEnding
          obtain rfl : child = again := Option.some.inj (childPresent.symm.trans lookup)
          obtain ⟨last, status, older, rest, history⟩ := ih (step_status ok parentStores taken) runs
            present waitsNext childPresent isEndingNext (by rw [stays]; omega)
          exact ⟨last, status, older, reaches_prepend ⟨parentStores, .inl rfl⟩ taken rest, history⟩
        · have exits :=
            recorded_exiting (ok.ends.recorded c record ending childFound isEnding).2
          have childStores := @exit_or_wait_stores s c record childFound (.inl exits)
          obtain ⟨next, taken, runs, child, childPresent, less⟩ :=
            exit_advances ok.inv running childFound exits dead
          have took := step_took taken
          obtain ⟨after, present, stays⟩ := pc_kept ok.inv took different.symm found
          obtain ⟨again, lookup, isEndingNext⟩ :=
            ending_lasts ok.inv ok.ends took childFound isEnding
          obtain rfl : child = again := Option.some.inj (childPresent.symm.trans lookup)
          obtain ⟨last, status, older, rest, history⟩ := ih (step_status ok childStores taken) runs
            present (by rw [stays]; exact waits) childPresent isEndingNext (by rw [stays]; omega)
          exact ⟨last, status, older, reaches_prepend ⟨childStores, .inr rfl⟩ taken rest, history⟩

structure ExitStatus (s : Kernel) : Prop where
  first : ∀ parent child status newer older,
    s.history = newer ++ .waitReturned parent child status :: older →
    NotWaited parent child older → ∃ ending, Event.ended child ending ∈ older ∧
      status = statusOf ending
  once : ∀ child ending other, Event.ended child ending ∈ s.history →
    Event.ended child other ∈ s.history → ending = other
  returns : s.fault = none → ∀ parent child thread ending, s.threads parent = some thread →
    Waiting child thread.pc → Event.ended child ending ∈ s.history →
    ∃ last status older, Reaches step (PairOnly parent child) s last ∧
      last.history = .waitReturned parent child status :: older ∧
      (NotWaited parent child older → status = statusOf ending)

theorem ended_once {s : Kernel} (ok : ReapOk s) {child : Tid} {ending other : Ending}
    (ended : Event.ended child ending ∈ s.history) (again : Event.ended child other ∈ s.history) :
    ending = other := by
  obtain ⟨record, found, isEnding⟩ := ok.unique child ending ended
  obtain ⟨same, lookup, isOther⟩ := ok.unique child other again
  obtain rfl : record = same := Option.some.inj (found.symm.trans lookup)
  exact Option.some.inj (isEnding.symm.trans isOther)

theorem pair_history {p c : Tid} {s last : Kernel} (run : Reaches step (PairOnly p c) s last)
    {event : Event} (member : event ∈ s.history) : event ∈ last.history := by
  induction run with
  | start => exact member
  | push _ _ taken ih =>
      obtain ⟨_, _, grows, _⟩ := took_reports (step_took taken)
      exact grows_keeps grows ih

theorem exit_status_of_stores {s : Kernel} (run : Reaches step StoresStatus boot s) :
    ExitStatus s := by
  have ok := status_ok run
  refine ⟨ok.reaps.first, fun _ _ _ ended again => ended_once ok.reaps ended again, ?_⟩
  intro running parent child thread ending found waits ended
  obtain ⟨record, childFound, isEnding⟩ := ok.reaps.unique child ending ended
  obtain ⟨last, status, older, rest, history⟩ :=
    wait_returns (exitLeft record.pc + waitLeft thread.pc) ok running found waits childFound isEnding
      (Nat.le_refl _)
  refine ⟨last, status, older, rest, history, fun unwaited => ?_⟩
  have okLast : StatusOk last :=
    reaches_invariant StatusOk ok (fun _ _ _ before meets taken => step_status before meets.1 taken)
      rest
  obtain ⟨other, reported, isStatus⟩ := okLast.reaps.first parent child status [] older history unwaited
  have same : other = ending := by
    refine ended_once okLast.reaps ?_ (pair_history rest ended)
    rw [history]
    exact List.mem_cons_of_mem _ reported
  rw [isStatus, same]

theorem exit_status_one_process :
    ∃ s, Reaches step StoresStatus boot s ∧ Event.ended 3 (.sysExit 7) ∈ s.history ∧
      Event.waitReturned 1 3 7 ∈ s.history ∧ ExitStatus s := by
  obtain ⟨s, run, check⟩ := @reaches_of_check _ _ step StoresStatus _ boot oneProcess
    (fun s => Event.ended 3 (.sysExit 7) ∈ s.history ∧ Event.waitReturned 1 3 7 ∈ s.history)
    (by decide +kernel)
  obtain ⟨ended, returned⟩ := of_decide_eq_true check
  exact ⟨s, run, ended, returned, exit_status_of_stores run⟩

/-- The process of `oneProcess`, killed by an exception other than a page fault. -/
def killedProcess : List Action :=
  [.exec 1, .create 1 true, .run 1, .run 1, .run 1, .load 3 .success, .run 3, .run 3, .run 1,
    .run 1, .wait 1 3, .run 1, .run 1, .finish 3 .exception, .run 3, .run 3, .run 3, .run 1,
    .run 1, .run 1, .run 1, .run 1]

def isWaitReturn : Event → Bool
  | .waitReturned _ _ _ => true
  | _ => false

theorem exit_status_lost_when_killed : ∃ s, Reachable s ∧ ¬ExitStatus s := by
  obtain ⟨s, run, check⟩ := @reaches_of_check _ _ step (fun _ _ => True) _ boot killedProcess
    (fun s => s.history = .waitReturned 1 3 0 :: s.history.tail ∧
      Event.ended 3 .exception ∈ s.history ∧ Event.created 1 3 ∈ s.history.tail ∧
      ∀ event ∈ s.history.tail, isWaitReturn event = false) (by decide +kernel)
  obtain ⟨history, killed, created, none⟩ := of_decide_eq_true check
  refine ⟨s, run, fun status => ?_⟩
  obtain ⟨middle, older, split⟩ := List.append_of_mem created
  have unwaited : NotWaited 1 3 s.history.tail := by
    refine ⟨middle, older, split, fun returned member => ?_⟩
    have quiet := none (.waitReturned 1 3 returned)
      (by rw [split]; exact List.mem_append_left _ member)
    cases quiet
  obtain ⟨ending, ended, isStatus⟩ := status.first 1 3 0 [] s.history.tail history unwaited
  have same := status.once 3 ending .exception (List.mem_of_mem_tail ended) killed
  rw [same] at isStatus
  cases isStatus

end UtSystems.Userprog.ProcessReap

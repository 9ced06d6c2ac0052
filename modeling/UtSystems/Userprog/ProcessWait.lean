import UtSystems.Userprog.ProcessOrderly

/-!
# process_wait on a tid that is not a child

`process_wait` looks the tid up in `procList` and never asks who the caller is. A
tid without an entry is answered with -1 at once. A tid with an entry is waited
for, whoever created it, and a free slot counts as an entry of tid 0.
-/

namespace UtSystems.Userprog.ProcessWait

open Threads.Synch Userprog.ProcessTable Userprog.ProcessSystem Userprog.ProcessSteps Lib.GuardedRun

set_option autoImplicit false

/-- `parent` created `child` and no `process_wait` of it has returned since. -/
def NotWaited (parent child : Tid) (history : List Event) : Prop :=
  ∃ middle older, history = middle ++ .created parent child :: older ∧
    ∀ status, Event.waitReturned parent child status ∉ middle

/-- `n` statements of thread `t`, with no other thread in between. -/
def runAlone (t : Tid) : Nat → Kernel → Option Kernel
  | 0, s => some s
  | n + 1, s => (step s (.run t)).bind (runAlone t n)

/-- `process_wait(child)` comes back with -1 by the caller's own statements and the
tables are as before. -/
def ReturnsAtOnce (s : Kernel) (caller child : Tid) : Prop :=
  ∃ entered last n, step s (.wait caller child) = some entered ∧
    runAlone caller n entered = some last ∧
    (∃ thread, last.threads caller = some thread ∧ thread.pc = .user) ∧
    last.history = .waitReturned caller child (-1) :: s.history ∧
    last.procList = s.procList ∧ last.semList = s.semList

/-! ## The caller's own statements -/

section Alone

variable {s next last : Kernel} {t : Tid} {thread : Thread} {pc : Pc}

theorem step_run (here : At s t thread pc) (running : s.fault = none) :
    step s (.run t) = (runExec s t thread pc).or
      ((runWait s t thread pc).or (runChild s t thread pc)) := by
  have tid : Action.tid (.run t) = t := rfl
  simp [step, running, tid, here.found, here.ready, act, run, here.stands]

/-- A thread that is not back in user code has a next statement to take. -/
theorem alone_next {n : Nat} (here : At s t thread pc) (away : pc ≠ .user)
    (ran : runAlone t n s = some last)
    (back : ∃ thread, last.threads t = some thread ∧ thread.pc = .user) :
    ∃ m next, step s (.run t) = some next ∧ runAlone t m next = some last := by
  cases n with
  | zero =>
      cases ran
      obtain ⟨again, found, stands⟩ := back
      rw [here.found, Option.some.injEq] at found
      rw [← found, here.stands] at stands
      exact absurd stands away
  | succ m =>
      obtain ⟨next, taken, rest⟩ := Option.bind_eq_some_iff.mp ran
      exact ⟨m, next, taken, rest⟩

theorem alone_done {n : Nat} (ran : runAlone t n s = some last) (running : s.fault = none)
    (here : At s t thread .user) : last = s := by
  cases n with
  | zero =>
      cases ran
      rfl
  | succ m =>
      obtain ⟨next, taken, _⟩ := Option.bind_eq_some_iff.mp ran
      rw [step_run here running] at taken
      cases taken

/-- The statement of `process_wait` at `pc` is the one the thread takes. -/
theorem alone_wait {n : Nat} (ran : runAlone t n s = some last)
    (back : ∃ thread, last.threads t = some thread ∧ thread.pc = .user)
    (running : s.fault = none) (here : At s t thread pc) (away : pc ≠ .user)
    (waits : runExec s t thread pc = none) (statement : runWait s t thread pc = some next) :
    ∃ m, runAlone t m next = some last := by
  obtain ⟨m, after, taken, rest⟩ := alone_next here away ran back
  rw [step_run here running, waits, statement, Option.none_or, Option.some_or,
    Option.some.injEq] at taken
  exact ⟨m, by rw [taken]; exact rest⟩

theorem put_at {after : Thread} (ready : after.blocked = false) (stands : after.pc = pc) :
    At (s.put t after) t after pc :=
  ⟨Function.update_self .., ready, stands⟩

/-- From `exit_status = p->exit_status` on, the entry is cleared and nothing else. -/
theorem alone_read {n : Nat} {child : Tid} {p : Slot} (ran : runAlone t n s = some last)
    (back : ∃ thread, last.threads t = some thread ∧ thread.pc = .user)
    (running : s.fault = none) (here : At s t thread (.waitRead child p)) :
    last.procList = Function.update s.procList p zeroProc ∧ last.semList = s.semList := by
  obtain ⟨_, read⟩ := alone_wait ran back running here nofun rfl rfl
  obtain ⟨_, cleared⟩ := alone_wait read back running (put_at here.ready rfl) nofun rfl rfl
  obtain ⟨_, returned⟩ := alone_wait cleared back running (put_at here.ready rfl) nofun rfl rfl
  rw [alone_done returned running ⟨Function.update_self .., here.ready, rfl⟩]
  exact ⟨rfl, rfl⟩

theorem alone_stopped {n : Nat} {fault : Fault} (ran : runAlone t n s = some last)
    (back : ∃ thread, last.threads t = some thread ∧ thread.pc = .user)
    (stopped : s.fault = some fault ∨ thread.blocked = true) (found : s.threads t = some thread)
    (away : thread.pc ≠ .user) : False := by
  cases n with
  | zero =>
      cases ran
      obtain ⟨again, lookup, stands⟩ := back
      rw [found, Option.some.injEq] at lookup
      rw [← lookup] at stands
      exact away stands
  | succ m =>
      obtain ⟨next, taken, _⟩ := Option.bind_eq_some_iff.mp ran
      have tid : Action.tid (.run t) = t := rfl
      rcases stopped with faulted | blocked
      · simp [step, faulted] at taken
      · by_cases running : s.fault = none
        · simp [step, running, tid, found, blocked] at taken
        · simp [step, running, Option.isSome_iff_ne_none] at taken

theorem used_sem (idx : Int) (i : Slot) (entry : SSemType) :
    (used s idx i entry).semList i = entry :=
  Function.update_self ..

theorem alone_release {n : Nat} {child : Tid} {p i : Slot} {idx : Int}
    (ran : runAlone t n s = some last)
    (back : ∃ thread, last.threads t = some thread ∧ thread.pc = .user)
    (running : s.fault = none) (here : At s t thread (.waitRelease child p idx))
    (slot : slotAt idx = some i) : (last.semList i).exiting = (s.semList i).exiting := by
  have away : Pc.waitRelease child p idx ≠ .user := by
    intro same
    cases same
  have releases : runWait s t thread (.waitRelease child p idx) =
      some (((used s idx i { s.semList i with present := false }).modify child fun record =>
        { record with slot := none }).put t { thread with pc := .waitRead child p }) := by
    simp only [runWait, slot]
    rfl
  obtain ⟨_, released⟩ := alone_wait ran back running here away rfl releases
  rw [(alone_read released back running (put_at here.ready rfl)).2]
  change ((used s idx i { s.semList i with present := false }).semList i).exiting = _
  rw [used_sem]

/-- At `sema_down(exiting)` the caller goes on without a semaphore, or takes a value. -/
theorem alone_down {n : Nat} {child : Tid} {p : Slot} {idx : Int}
    (ran : runAlone t n s = some last)
    (back : ∃ thread, last.threads t = some thread ∧ thread.pc = .user)
    (running : s.fault = none) (here : At s t thread (.waitDown child p idx)) :
    (idx = -1 ∧ last.procList p = zeroProc) ∨
      ∃ i, (last.semList i).exiting.value + 1 = (s.semList i).exiting.value := by
  have away : Pc.waitDown child p idx ≠ .user := by
    intro same
    cases same
  by_cases error : idx = -1
  · have skips : runWait s t thread (.waitDown child p idx) =
        some (s.put t { thread with pc := .waitRead child p }) := by
      simp only [runWait, if_pos error]
    obtain ⟨_, read⟩ := alone_wait ran back running here away rfl skips
    have cleared := (alone_read read back running (put_at here.ready rfl)).1
    exact .inl ⟨error, by rw [cleared]; exact Function.update_self ..⟩
  · cases slot : slotAt idx with
    | none =>
        have stops : runWait s t thread (.waitDown child p idx) =
            some ((s.log (.semAccess idx)).halt (.semListBounds idx)) := by
          simp only [runWait, if_neg error, slot]
        obtain ⟨_, stopped⟩ := alone_wait ran back running here away rfl stops
        exact (alone_stopped stopped back (.inl rfl) here.found (by rw [here.stands]; exact away)).elim
    | some i =>
        by_cases zero : (s.semList i).exiting.value = 0
        · have blocks : runWait s t thread (.waitDown child p idx) =
              some ((used s idx i { s.semList i with
                exiting := (semaDown (s.semList i).exiting t).1 }).put t
                  { thread with blocked := true }) := by
            simp only [runWait, if_neg error, slot, sema_down_blocks zero, Bool.false_eq_true,
              if_false]
            rfl
          obtain ⟨_, blocked⟩ := alone_wait ran back running here away rfl blocks
          exact (@alone_stopped _ _ _ _ _ (.tidOverflow) blocked back (.inr rfl)
            (Function.update_self ..) (by rw [here.stands]; exact away)).elim
        · have passes : runWait s t thread (.waitDown child p idx) =
              some (((used s idx i { s.semList i with
                exiting := (semaDown (s.semList i).exiting t).1 }).modify child fun record =>
                  { record with reaped := true }).put t
                    { thread with pc := .waitRelease child p idx }) := by
            simp only [runWait, if_neg error, slot, sema_down_passes zero, if_true]
            rfl
          obtain ⟨_, passed⟩ := alone_wait ran back running here away rfl passes
          refine .inr ⟨i, ?_⟩
          rw [alone_release passed back running (put_at here.ready rfl) slot]
          change ((used s idx i { s.semList i with
            exiting := (semaDown (s.semList i).exiting t).1 }).semList i).exiting.value + 1 = _
          rw [used_sem, sema_down_passes zero]
          exact Nat.sub_add_cancel (Nat.pos_of_ne_zero zero)

end Alone

theorem step_wait_absent {s : Kernel} {t child : Tid} {thread : Thread} (running : s.fault = none)
    (here : At s t thread .user) (process : thread.process = true)
    (absent : fetchProcess s.procList child = none) :
    step s (.wait t child) = some (s.put t { thread with pc := .waitReturn child (-1) }) := by
  have tid : Action.tid (.wait t child) = t := rfl
  simp [step, running, tid, here.found, here.ready, act, wait, here.stands, process, absent]

theorem step_wait_found {s : Kernel} {t child : Tid} {thread : Thread} {p : Slot}
    (running : s.fault = none) (here : At s t thread .user) (process : thread.process = true)
    (found : fetchProcess s.procList child = some p) :
    step s (.wait t child) = some (s.put t { thread with pc := .waitIdx child p }) := by
  have tid : Action.tid (.wait t child) = t := rfl
  simp [step, running, tid, here.found, here.ready, act, wait, here.stands, process, found]

theorem returns_of_absent {s : Kernel} {t child : Tid} {thread : Thread} (running : s.fault = none)
    (here : At s t thread .user) (process : thread.process = true)
    (absent : fetchProcess s.procList child = none) : ReturnsAtOnce s t child := by
  have next : At (s.put t { thread with pc := .waitReturn child (-1) }) t
      { thread with pc := .waitReturn child (-1) } (.waitReturn child (-1)) :=
    put_at here.ready rfl
  have returned := step_run next running
  refine ⟨s.put t { thread with pc := .waitReturn child (-1) },
    ((s.put t { thread with pc := .waitReturn child (-1) }).put t { thread with pc := .user }).log
      (.waitReturned t child (-1)), 1, step_wait_absent running here process absent,
    congrArg (fun after => after.bind (runAlone t 0)) returned, ?_, rfl, rfl, rfl⟩
  exact ⟨{ thread with pc := .user }, Function.update_self .., rfl⟩

/-- A match of any kind is waited for: the caller blocks or the tables change. -/
theorem lingers_of_found {s : Kernel} {t child : Tid} {thread : Thread} {p : Slot}
    (running : s.fault = none) (here : At s t thread .user) (process : thread.process = true)
    (found : fetchProcess s.procList child = some p) : ¬ReturnsAtOnce s t child := by
  rintro ⟨entered, last, n, taken, ran, back, _, procs, sems⟩
  rw [step_wait_found running here process found, Option.some.injEq] at taken
  subst taken
  obtain ⟨_, down⟩ := alone_wait ran back running (put_at here.ready rfl) nofun rfl rfl
  rcases alone_down down back running (put_at here.ready rfl) with ⟨error, cleared⟩ | ⟨i, taken⟩
  · have isError : (s.procList p).semListIdx = -1 := error
    rw [procs] at cleared
    rw [cleared] at isError
    cases isError
  · rw [sems] at taken
    exact absurd taken (Nat.succ_ne_self _)

/-- The answer to every tid but that of an unwaited child is -1 at once, with the
tables unchanged, exactly when the tid has no entry. -/
theorem wait_rejects_iff {s : Kernel} {caller : Tid} {thread : Thread} (running : s.fault = none)
    (here : At s caller thread .user) (process : thread.process = true) (child : Tid) :
    (¬NotWaited caller child s.history → ReturnsAtOnce s caller child) ↔
      (NotWaited caller child s.history ∨ fetchProcess s.procList child = none) := by
  constructor
  · intro rejects
    by_cases unwaited : NotWaited caller child s.history
    · exact .inl unwaited
    · cases found : fetchProcess s.procList child with
      | none => exact .inr rfl
      | some p => exact absurd (rejects unwaited) (lingers_of_found running here process found)
  · rintro (unwaited | absent) foreign
    · exact absurd unwaited foreign
    · exact returns_of_absent running here process absent

/-- The boot thread starts process 3. -/
def oneRunning : List Action :=
  [.exec 1, .create 1 true, .run 1, .run 1, .load 3 .success, .run 3, .run 3, .run 1, .run 1]

theorem wait_rejects_iff_unused_tid :
    ∃ s thread, Reachable s ∧ s.fault = none ∧ At s 3 thread .user ∧ thread.process = true ∧
      ¬NotWaited 3 77 s.history ∧ ReturnsAtOnce s 3 77 := by
  obtain ⟨s, run, check⟩ := @reaches_of_check _ _ step (fun _ _ => True) _ boot oneRunning
    (fun s => s.fault = none ∧ (∃ thread ∈ s.threads 3, thread.blocked = false ∧
      thread.pc = .user ∧ thread.process = true) ∧ Event.created 3 77 ∉ s.history ∧
      fetchProcess s.procList 77 = none) (by decide +kernel)
  obtain ⟨running, ⟨thread, found, ready, stands, process⟩, never, absent⟩ :=
    of_decide_eq_true check
  have foreign : ¬NotWaited 3 77 s.history := by
    rintro ⟨middle, older, split, _⟩
    exact never (by rw [split]; simp)
  exact ⟨s, thread, run, running, ⟨found, ready, stands⟩, process, foreign,
    (wait_rejects_iff running ⟨found, ready, stands⟩ process 77).mpr (.inr absent) foreign⟩

/-- A process that waits for itself blocks. -/
theorem wait_for_self_blocks :
    ∃ s thread, Reachable s ∧ s.fault = none ∧ At s 3 thread .user ∧ thread.process = true ∧
      ¬(¬NotWaited 3 3 s.history → ReturnsAtOnce s 3 3) := by
  obtain ⟨s, run, check⟩ := @reaches_of_check _ _ step (fun _ _ => True) _ boot oneRunning
    (fun s => s.fault = none ∧ (∃ thread ∈ s.threads 3, thread.blocked = false ∧
      thread.pc = .user ∧ thread.process = true) ∧ Event.created 3 3 ∉ s.history ∧
      fetchProcess s.procList 3 = some 0) (by decide +kernel)
  obtain ⟨running, ⟨thread, found, ready, stands, process⟩, never, listed⟩ :=
    of_decide_eq_true check
  refine ⟨s, thread, run, running, ⟨found, ready, stands⟩, process, fun rejects => ?_⟩
  have foreign : ¬NotWaited 3 3 s.history := by
    rintro ⟨middle, older, split, _⟩
    exact never (by rw [split]; simp)
  exact lingers_of_found running ⟨found, ready, stands⟩ process listed (rejects foreign)

end UtSystems.Userprog.ProcessWait

import UtSystems.Lib.Responses
import UtSystems.Threads.SchedulerQueues

/-!
# Time slices

The timer interrupts the running thread at every tick, and `thread_tick` makes it yield when its
time slice is over. So a thread that is ready with others before it in `ready_list` runs after a
time slice for each of them and one for the thread that is running, whatever the threads do: they
can only give their time away.
-/

namespace UtSystems.Threads.TimeSlices

open Lib.Lockstep Lib.Responses Threads.Synch Threads.Scheduler

set_option autoImplicit false

/-- `TIME_SLICE`. -/
def timeSlice : Nat := 4

structure Clocked where
  machine : Machine
  -- whether the thread has a page directory
  pagedir : Tid → Bool
  ticks : Nat
  threadTicks : Nat
  idleTicks : Nat
  kernelTicks : Nat
  userTicks : Nat

def Clocked.count (k : Clocked) : Clocked :=
  if k.machine.current = k.machine.idleThread then { k with idleTicks := k.idleTicks + 1 }
  else if k.pagedir k.machine.current then { k with userTicks := k.userTicks + 1 }
  else { k with kernelTicks := k.kernelTicks + 1 }

/-- The result is `yield_on_return`. -/
def threadTick (k : Clocked) : Bool × Clocked :=
  let k := k.count
  (decide (timeSlice ≤ k.threadTicks + 1), { k with threadTicks := k.threadTicks + 1 })

def timerInterrupt (k : Clocked) : Bool × Clocked := threadTick { k with ticks := k.ticks + 1 }

/-- `intr_handler` for the timer; `thread_schedule_tail` starts a new time slice. -/
def handleTimer (k : Clocked) : Clocked :=
  let (yieldOnReturn, k) := timerInterrupt k
  if yieldOnReturn then { k with machine := threadYield k.machine, threadTicks := 0 } else k

/-- The step calls `schedule`. -/
def schedules (m : Machine) : Scheduler.Action → Bool
  | .block | .yield | .exit => true
  | .down s => !(semaDown (m.sema s) m.current).2
  | .retest =>
      match m.wait m.current with
      | .down s => !(semaDown (m.sema s) m.current).2
      | _ => false
  | _ => false

inductive Action where
  | call (action : Scheduler.Action)
  | tick
  -- in `load` and `process_exit`
  | setPagedir (present : Bool)
  deriving DecidableEq, Repr

def Action.isTick : Action → Bool
  | .tick => true
  | _ => false

def step (k : Clocked) : Action → Option Clocked
  | .call action => (Scheduler.step k.machine action).map fun machine =>
      { k with
        machine := machine
        threadTicks := if schedules k.machine action then 0 else k.threadTicks }
  | .tick =>
      match k.machine.wait k.machine.current with
      -- interrupts are off
      | .down _ => none
      | _ => some (handleTimer k)
  | .setPagedir present =>
      some { k with pagedir := Function.update k.pagedir k.machine.current present }

structure Booted (k : Clocked) : Prop where
  machine : ∃ values preempted, k.machine = boot values preempted
  threadTicks : k.threadTicks < timeSlice
  counted : k.idleTicks + k.kernelTicks + k.userTicks = k.ticks

/-- The place in the queue of those that are ready. -/
def position (m : Machine) (t : Tid) : Nat := m.readyList.idxOf t

section Queueing

variable {m next : Machine} {t : Tid}

/-- The machine stays with the thread that runs, and the queue has grown at most. -/
structure Goes (m next : Machine) : Prop where
  current : next.current = m.current
  queue : m.readyList <+: next.readyList

/-- The first of the queue runs. -/
structure Turns (m next : Machine) : Prop where
  next : ∀ first rest, m.readyList = first :: rest →
    next.current = first ∧ rest <+: next.readyList

theorem goes_refl (m : Machine) : Goes m m := ⟨rfl, List.prefix_refl _⟩

theorem goes_waits (goes : Goes m next) (waits : t ∈ m.readyList) :
    t ∈ next.readyList ∧ position next t = position m t := by
  obtain ⟨more, grown⟩ := goes.queue
  unfold position
  rw [← grown]
  exact ⟨List.mem_append_left _ waits, List.idxOf_append_of_mem waits⟩

theorem turns_waits (turns : Turns m next) (waits : t ∈ m.readyList) :
    next.current = t ∨ t ∈ next.readyList ∧ position next t + 1 = position m t := by
  cases queue : m.readyList with
  | nil =>
      rw [queue] at waits
      exact absurd waits List.not_mem_nil
  | cons first rest =>
      obtain ⟨current, more, grown⟩ := turns.next first rest queue
      by_cases isFirst : first = t
      · exact .inl (current.trans isFirst)
      · rw [queue] at waits
        have later := (List.mem_cons.mp waits).resolve_left fun same => isFirst same.symm
        refine .inr ⟨?_, ?_⟩
        · rw [← grown]
          exact List.mem_append_left _ later
        · unfold position
          rw [← grown, queue, List.idxOf_append_of_mem later, List.idxOf_cons_ne _ isFirst]

theorem tail_keeps (m : Machine) (prev : Option Tid) :
    (threadScheduleTail m prev).current = m.current ∧
      (threadScheduleTail m prev).readyList = m.readyList := by
  unfold threadScheduleTail
  cases prev with
  | none => exact ⟨rfl, rfl⟩
  | some prev =>
      dsimp only
      split
      · exact ⟨rfl, rfl⟩
      · exact ⟨rfl, rfl⟩

/-- `schedule` after the queue has grown. -/
theorem schedule_turns {before : Machine} (queue : before.readyList <+: m.readyList) :
    Turns before (schedule m) := by
  refine ⟨?_⟩
  intro first rest isQueue
  obtain ⟨more, grown⟩ := queue
  rw [isQueue, List.cons_append] at grown
  have next : nextThreadToRun m = (first, { m with readyList := rest ++ more }) := by
    unfold nextThreadToRun
    rw [← grown]
  unfold schedule
  rw [next]
  dsimp only
  obtain ⟨current, ready⟩ := tail_keeps { m with readyList := rest ++ more, current := first }
    (if m.current = first then none else some m.current)
  exact ⟨current, more, ready.symm⟩

theorem block_turns (m : Machine) : Turns m (threadBlock m) := schedule_turns (List.prefix_refl _)

theorem yield_turns (m : Machine) : Turns m (threadYield m) := by
  apply schedule_turns
  dsimp only [Machine.setStatus]
  split
  · exact List.prefix_refl _
  · exact List.prefix_append _ _

theorem exit_turns (m : Machine) : Turns m (threadExit m) := schedule_turns (List.prefix_refl _)

theorem unblock_goes (taken : threadUnblock m t = some next) : Goes m next := by
  obtain ⟨_, isNext⟩ := Option.ite_none_right_eq_some.mp taken
  cases isNext
  exact ⟨rfl, List.prefix_append _ _⟩

theorem up_goes {s : Nat} (taken : m.upSema s = some next) : Goes m next := by
  unfold Machine.upSema at taken
  dsimp only at taken
  split at taken
  · cases taken
    exact ⟨rfl, List.prefix_refl _⟩
  · have goes := unblock_goes taken
    exact ⟨goes.current, goes.queue⟩

/-- What the test in `sema_down` does to the queue. -/
theorem test_moves (m : Machine) (s : Nat) :
    if (semaDown (m.sema s) m.current).2 then Goes m (m.testSema s) else Turns m (m.testSema s) := by
  unfold Machine.testSema
  cases taken : (semaDown (m.sema s) m.current).2 with
  | true =>
      dsimp only
      rw [taken]
      exact ⟨rfl, List.prefix_refl _⟩
  | false =>
      dsimp only
      rw [taken]
      have turns := block_turns { m with
        sema := Function.update m.sema s (semaDown (m.sema s) m.current).1
        wait := Function.update m.wait m.current (.down s) }
      exact ⟨turns.next⟩

/-- Steps of threads and interrupt handlers take nobody out of the queue but the first. -/
theorem step_moves {action : Scheduler.Action} (taken : Scheduler.step m action = some next) :
    if schedules m action then Turns m next else Goes m next := by
  have tested : ∀ s, m.testSema s = next →
      if !(semaDown (m.sema s) m.current).2 then Turns m next else Goes m next := by
    intro s isNext
    have moves := test_moves m s
    rw [isNext] at moves
    cases got : (semaDown (m.sema s) m.current).2 with
    | true =>
        rw [got] at moves
        exact moves
    | false =>
        rw [got] at moves
        exact moves
  unfold Scheduler.step at taken
  split at taken
  · next s inLoop =>
      unfold schedules
      rw [inLoop]
      exact tested s (Option.some.inj taken)
  · cases taken
  · cases taken
    exact yield_turns m
  · exact unblock_goes taken
  · exact up_goes taken
  · obtain ⟨_, isNext⟩ := Option.ite_none_right_eq_some.mp taken
    cases isNext
    exact ⟨(block_turns { m with wait := Function.update m.wait m.current .block }).next⟩
  · obtain ⟨_, isNext⟩ := Option.ite_none_right_eq_some.mp taken
    cases isNext
    exact exit_turns m
  · next s _ =>
      obtain ⟨_, isNext⟩ := Option.ite_none_right_eq_some.mp taken
      exact tested s (Option.some.inj isNext)
  · obtain ⟨_, got⟩ := Option.ite_none_right_eq_some.mp taken
    split at got
    · cases got
      exact goes_refl m
    · obtain ⟨_, isNext⟩ := Option.ite_none_left_eq_some.mp got
      cases isNext
      exact ⟨rfl, List.prefix_refl _⟩
  · split at taken
    · cases taken
      exact ⟨rfl, List.prefix_refl _⟩
    · cases taken
  · split at taken
    · have goes := unblock_goes taken
      exact ⟨goes.current, goes.queue⟩
    · cases taken
  · cases taken

end Queueing

section Ticks

variable {k next : Clocked} {t : Tid}

theorem count_same (k : Clocked) :
    k.count.machine = k.machine ∧ k.count.ticks = k.ticks ∧ k.count.threadTicks = k.threadTicks ∧
      k.count.idleTicks + k.count.kernelTicks + k.count.userTicks =
        k.idleTicks + k.kernelTicks + k.userTicks + 1 := by
  unfold Clocked.count
  split
  · exact ⟨rfl, rfl, rfl, by dsimp only; omega⟩
  · split
    · exact ⟨rfl, rfl, rfl, by dsimp only; omega⟩
    · exact ⟨rfl, rfl, rfl, by dsimp only; omega⟩

/-- A tick of a time slice, or the last one. -/
theorem handle_timer_cases (k : Clocked) :
    (handleTimer k).ticks = k.ticks + 1 ∧
    (handleTimer k).idleTicks + (handleTimer k).kernelTicks + (handleTimer k).userTicks =
      k.idleTicks + k.kernelTicks + k.userTicks + 1 ∧
    ((k.threadTicks + 1 < timeSlice ∧ (handleTimer k).machine = k.machine ∧
        (handleTimer k).threadTicks = k.threadTicks + 1) ∨
      (timeSlice ≤ k.threadTicks + 1 ∧ (handleTimer k).machine = threadYield k.machine ∧
        (handleTimer k).threadTicks = 0)) := by
  obtain ⟨machine, ticks, threadTicks, counted⟩ := count_same { k with ticks := k.ticks + 1 }
  unfold handleTimer timerInterrupt threadTick
  dsimp only at machine ticks threadTicks counted ⊢
  rw [threadTicks]
  by_cases over_ : timeSlice ≤ k.threadTicks + 1
  · rw [decide_eq_true over_, if_pos rfl]
    dsimp only
    rw [machine]
    exact ⟨ticks, counted, .inr ⟨over_, rfl, rfl⟩⟩
  · rw [decide_eq_false over_, if_neg Bool.false_ne_true]
    dsimp only
    rw [machine]
    exact ⟨ticks, counted, .inl ⟨Nat.not_le.mp over_, rfl, rfl⟩⟩

/-- Every tick is counted for one kind of thread, and no thread runs for more than a time slice. -/
structure Timed (k : Clocked) : Prop where
  threadTicks : k.threadTicks < timeSlice
  counted : k.idleTicks + k.kernelTicks + k.userTicks = k.ticks

theorem step_timed {action : Action} (timed : Timed k) (taken : step k action = some next) :
    Timed next := by
  cases action with
  | call action =>
      obtain ⟨machine, _, isNext⟩ := Option.map_eq_some_iff.mp taken
      rw [← isNext]
      refine ⟨?_, timed.counted⟩
      dsimp only
      split
      · decide
      · exact timed.threadTicks
  | tick =>
      unfold step at taken
      dsimp only at taken
      split at taken
      · cases taken
      · cases taken
        obtain ⟨ticks, counted, slice⟩ := handle_timer_cases k
        refine ⟨?_, ?_⟩
        · cases slice with
          | inl goesOn =>
              rw [goesOn.2.2]
              exact goesOn.1
          | inr ends =>
              rw [ends.2.2]
              decide
        · rw [counted, ticks, timed.counted]
  | setPagedir present =>
      cases taken
      exact ⟨timed.threadTicks, timed.counted⟩

/-- How many more ticks the thread may have to wait for. -/
def wait (t : Tid) (k : Clocked) : Nat :=
  timeSlice * position k.machine t + (timeSlice - k.threadTicks)

theorem turns_wait (turns : Turns k.machine next.machine) (fresh : next.threadTicks = 0)
    (waits : t ∈ k.machine.readyList) (timed : k.threadTicks < timeSlice) :
    next.machine.current = t ∨ t ∈ next.machine.readyList ∧ wait t next + 1 ≤ wait t k := by
  cases turns_waits turns waits with
  | inl runs => exact .inl runs
  | inr still =>
      refine .inr ⟨still.1, ?_⟩
      unfold wait
      rw [← still.2, fresh, Nat.mul_add]
      omega

theorem step_waits {action : Action} (timed : Timed k) (waits : t ∈ k.machine.readyList)
    (taken : step k action = some next) :
    next.machine.current = t ∨ t ∈ next.machine.readyList ∧
      wait t next + (if action.isTick then 1 else 0) ≤ wait t k := by
  have slice := timed.threadTicks
  cases action with
  | call action =>
      obtain ⟨machine, called, isNext⟩ := Option.map_eq_some_iff.mp taken
      have moves := step_moves called
      cases turns : schedules k.machine action with
      | true =>
          rw [turns, if_pos rfl] at moves isNext
          rw [← isNext]
          have goesOn := @turns_wait k { k with machine := machine, threadTicks := 0 } t moves rfl
            waits slice
          apply goesOn.imp_right
          intro still
          exact ⟨still.1, Nat.le_of_succ_le still.2⟩
      | false =>
          rw [turns, if_neg Bool.false_ne_true] at moves isNext
          rw [← isNext]
          obtain ⟨still, same⟩ := goes_waits moves waits
          refine .inr ⟨still, ?_⟩
          unfold wait
          rw [same]
          exact Nat.le_refl _
  | tick =>
      unfold step at taken
      dsimp only at taken
      split at taken
      · cases taken
      · cases taken
        obtain ⟨_, _, goesOn | ends⟩ := handle_timer_cases k
        · obtain ⟨within, same, ticked⟩ := goesOn
          rw [same]
          refine .inr ⟨waits, ?_⟩
          unfold wait Action.isTick
          rw [same, ticked, if_pos rfl]
          omega
        · obtain ⟨_, yields, fresh⟩ := ends
          have turns := yield_turns k.machine
          rw [← yields] at turns
          exact turns_wait turns fresh waits slice
  | setPagedir present =>
      cases taken
      exact .inr ⟨waits, Nat.le_refl _⟩

theorem progresses (t : Tid) :
    Progresses step (fun k => Timed k ∧ t ∈ k.machine.readyList) (fun k => k.machine.current = t)
      (wait t) Action.isTick := by
  constructor
  case positive =>
    intro k waits
    have slice := waits.1.threadTicks
    unfold wait
    omega
  case lowers =>
    intro k action next waits taken
    apply (step_waits waits.1 waits.2 taken).imp_right
    intro still
    exact ⟨⟨step_timed waits.1 taken, still.1⟩, still.2⟩

end Ticks

theorem booted_timed {start k : Clocked} (booted : Booted start) {before : List Action}
    (run : performs step start before = some k) : Timed k :=
  performs_invariant Timed (fun _ _ _ timed taken => step_timed timed taken) before
    ⟨booted.threadTicks, booted.counted⟩ run

/-- In every run, a thread that is ready is running after at most as many ticks as there are left
in the time slice of the running thread and in those of the threads before it in the queue; and
every tick is counted as one of the idle thread, the kernel or a user program. -/
theorem ready_threads_run {start k last : Clocked} {before actions : List Action} {t : Tid}
    (booted : Booted start) (run : performs step start before = some k)
    (ready : t ∈ k.machine.readyList) (further : performs step k actions = some last)
    (enough : timeSlice * position k.machine t + (timeSlice - k.threadTicks) ≤
      actions.countP Action.isTick) :
    k.idleTicks + k.kernelTicks + k.userTicks = k.ticks ∧
    ∃ early late middle, actions = early ++ late ∧ performs step k early = some middle ∧
      middle.machine.current = t ∧
      early.countP Action.isTick ≤
        timeSlice * position k.machine t + (timeSlice - k.threadTicks) := by
  have timed := booted_timed booted run
  refine ⟨timed.counted, ?_⟩
  cases responds (progresses t) actions ⟨timed, ready⟩ further with
  | inl waiting =>
      obtain ⟨still, bound⟩ := waiting
      have positive := (progresses t).positive last still
      change _ ≤ timeSlice * position k.machine t + (timeSlice - k.threadTicks) at bound
      omega
  | inr reached => exact reached

def fresh : Clocked where
  machine := boot (fun _ => 0) false
  pagedir := fun _ => false
  ticks := 0
  threadTicks := 0
  idleTicks := 0
  kernelTicks := 0
  userTicks := 0

/-- Thread 1 makes thread 3. -/
def makeThread : List Action := [.call (.getPage (some 2)), .call .init, .call .start]

theorem ready_threads_run_made :
    ∃ k early late middle, performs step fresh makeThread = some k ∧
      [.tick, .tick, .tick, .tick] = early ++ late ∧ performs step k early = some middle ∧
      middle.machine.current = 3 ∧ early.countP Action.isTick ≤ 4 := by
  have made : (performs step fresh makeThread).any (fun k =>
      k.machine.readyList = [3] ∧ k.threadTicks = 0 ∧
        (performs step k [.tick, .tick, .tick, .tick]).isSome = true) = true := by
    decide
  rw [Option.any_eq_true] at made
  obtain ⟨k, run, check⟩ := made
  obtain ⟨queue, slice, ticks⟩ := of_decide_eq_true check
  obtain ⟨last, further⟩ := Option.isSome_iff_exists.mp ticks
  have booted : Booted fresh := ⟨⟨_, _, rfl⟩, by decide, rfl⟩
  have ready : (3 : Tid) ∈ k.machine.readyList := by
    rw [queue]
    exact List.mem_singleton_self 3
  have first : position k.machine 3 = 0 := by
    unfold position
    rw [queue]
    rfl
  have enough : timeSlice * position k.machine 3 + (timeSlice - k.threadTicks) ≤
      [Action.tick, .tick, .tick, .tick].countP Action.isTick := by
    rw [first, slice]
    decide
  obtain ⟨_, early, late, middle, parts, before, runs, bound⟩ :=
    ready_threads_run booted run ready further enough
  rw [first, slice] at bound
  exact ⟨k, early, late, middle, run, parts, before, runs, bound⟩

end UtSystems.Threads.TimeSlices

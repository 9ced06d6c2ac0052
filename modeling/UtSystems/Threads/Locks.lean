import UtSystems.Threads.Semaphores
import Mathlib.Logic.Function.Basic

/-!
# Locks

A lock is a semaphore and a holder. The operations are cut where interrupts are on: after the
assertion on the holder, around the operation on the semaphore, and around the assignment of the
holder. A failed assertion stops the kernel.
-/

namespace UtSystems.Threads.Locks

open Lib.GuardedRun Threads.Synch Threads.Semaphores

set_option autoImplicit false

/-- Where a thread is with respect to the lock. -/
inductive Stage where
  | outside
  -- `sema_down` is next
  | acquiring
  | sleeping
  -- `sema_try_down` is next
  | trying
  -- `lock->holder = thread_current ()` is next
  | taken
  | holding
  -- `sema_up` is next
  | releasing
  deriving DecidableEq, Repr

/-- The thread has the unit of the semaphore. -/
def Stage.inside : Stage → Bool
  | .taken | .holding | .releasing => true
  | _ => false

structure Lock where
  shared : Shared
  holder : Option Tid
  stage : Tid → Stage

/-- `lock_init`. -/
def Lock.init : Lock := { shared := Shared.init 1, holder := none, stage := fun _ => .outside }

def Lock.to (lock : Lock) (t : Tid) (stage : Stage) : Lock :=
  { lock with stage := Function.update lock.stage t stage }

inductive Action where
  | acquire (t : Tid)
  | down (t : Tid)
  | retest (t : Tid)
  | own (t : Tid)
  | tryAcquire (t : Tid)
  | tryDown (t : Tid)
  | release (t : Tid)
  | up (t : Tid)
  deriving DecidableEq, Repr

def Action.thread : Action → Tid
  | .acquire t | .down t | .retest t | .own t | .tryAcquire t | .tryDown t | .release t | .up t => t

/-- The semaphore after a test by the thread, and where the thread is then. -/
def Lock.tested (lock : Lock) (t : Tid) (result : Shared × Bool) (failed : Stage) : Lock :=
  { lock with shared := result.1 }.to t (if result.2 then .taken else failed)

def step (lock : Lock) (action : Action) : Option Lock :=
  match action, lock.stage action.thread with
  | .acquire t, .outside => if lock.holder = some t then none else some (lock.to t .acquiring)
  | .down t, .acquiring => some (lock.tested t (lock.shared.down t) .sleeping)
  | .retest t, .sleeping =>
      if t ∈ lock.shared.woken then some (lock.tested t (lock.shared.retest t) .sleeping) else none
  | .own t, .taken => some ({ lock with holder := some t }.to t .holding)
  | .tryAcquire t, .outside => if lock.holder = some t then none else some (lock.to t .trying)
  | .tryDown t, .trying => some (lock.tested t lock.shared.tryDown .outside)
  | .release t, .outside | .release t, .holding =>
      if lock.holder = some t then some ({ lock with holder := none }.to t .releasing) else none
  | .up t, .releasing => some ({ lock with shared := lock.shared.up }.to t .outside)
  | _, _ => none

/-- The unit is the semaphore's or one thread's, and the holder is the thread between acquire and
release. -/
structure Exclusive (lock : Lock) : Prop where
  sound : Sound 1 lock.shared
  sleeping : ∀ t, lock.shared.Sleeps t ↔ lock.stage t = .sleeping
  unit : ∃ owner : Option Tid, (∀ t, (lock.stage t).inside = true ↔ owner = some t) ∧
    lock.shared.sema.value = if owner.isSome then 0 else 1
  holder : ∀ t, lock.holder = some t ↔ lock.stage t = .holding

section Steps

variable {lock : Lock} {t : Tid} {stage : Stage}

@[simp] theorem to_shared : (lock.to t stage).shared = lock.shared := rfl
@[simp] theorem to_holder : (lock.to t stage).holder = lock.holder := rfl
@[simp] theorem to_here : (lock.to t stage).stage t = stage := Function.update_self ..

theorem to_other {u : Tid} (other : u ≠ t) : (lock.to t stage).stage u = lock.stage u :=
  Function.update_of_ne other ..

theorem exclusive_init : Exclusive Lock.init where
  sound := sound_init (by decide)
  sleeping := by
    intro t
    constructor
    · rintro (waits | wakes)
      · cases waits
      · cases wakes
    · intro impossible
      cases impossible
  unit := ⟨none, fun t => ⟨fun impossible => (by cases impossible), fun impossible => (by cases impossible)⟩,
    rfl⟩
  holder := fun t => ⟨fun impossible => (by cases impossible), fun impossible => (by cases impossible)⟩

/-- A thread goes on without the semaphore. -/
theorem exclusive_to (exclusive : Exclusive lock) (inside : stage.inside = (lock.stage t).inside)
    (awake : stage ≠ .sleeping) (was : lock.stage t ≠ .sleeping) {holder : Option Tid}
    (here : holder = some t ↔ stage = .holding)
    (others : ∀ u, u ≠ t → (holder = some u ↔ lock.stage u = .holding)) :
    Exclusive ({ lock with holder := holder }.to t stage) := by
  obtain ⟨owner, owns, value⟩ := exclusive.unit
  refine ⟨exclusive.sound, fun u => ?_, ⟨owner, fun u => ?_, value⟩, fun u => ?_⟩
  · by_cases same : u = t
    · subst same
      rw [to_here]
      exact (exclusive.sleeping u).trans (iff_of_false was awake)
    · rw [to_other same]
      exact exclusive.sleeping u
  · by_cases same : u = t
    · subst same
      rw [to_here, inside]
      exact owns u
    · rw [to_other same]
      exact owns u
  · by_cases same : u = t
    · subst same
      rw [to_here]
      exact here
    · rw [to_other same]
      exact others u same

/-- A thread has tested the semaphore. -/
theorem exclusive_tested (exclusive : Exclusive lock) {result : Shared × Bool} {failed : Stage}
    (outside : (lock.stage t).inside = false) (sound : Sound 1 result.1)
    (tested : Tested lock.shared result)
    (sleeps : ∀ u, result.1.Sleeps u ↔ lock.shared.Sleeps u ∧ u ≠ t ∨
      u = t ∧ result.2 = false ∧ failed = .sleeping)
    (apart : failed.inside = false) : Exclusive (lock.tested t result failed) := by
  obtain ⟨owner, owns, value⟩ := exclusive.unit
  have notHolding : lock.stage t ≠ .holding := by
    intro holds
    rw [holds] at outside
    cases outside
  have holders : ∀ stage : Stage, stage ≠ .holding →
      ∀ u, lock.holder = some u ↔ ({ lock with shared := result.1 }.to t stage).stage u = .holding := by
    intro stage differs u
    by_cases same : u = t
    · subst same
      rw [to_here]
      exact (exclusive.holder u).trans (iff_of_false notHolding differs)
    · rw [to_other same]
      exact exclusive.holder u
  have sleepers : ∀ stage : Stage, (stage = .sleeping ↔ result.2 = false ∧ failed = .sleeping) →
      ∀ u, result.1.Sleeps u ↔ ({ lock with shared := result.1 }.to t stage).stage u = .sleeping := by
    intro stage agrees u
    rw [sleeps]
    by_cases same : u = t
    · subst same
      rw [to_here, agrees]
      simp
    · rw [to_other same]
      simp only [same, ne_eq, not_false_eq_true, and_true, false_and, or_false]
      exact exclusive.sleeping u
  unfold Lock.tested
  cases taken : result.2 with
  | true =>
      rw [if_pos rfl]
      obtain ⟨positive, less⟩ := tested.taken taken
      have free : owner = none := by
        cases owner with
        | none => rfl
        | some other =>
            rw [value] at positive
            cases positive
      subst free
      refine ⟨sound, sleepers .taken ?_, ⟨some t, fun u => ?_, ?_⟩, holders .taken (by decide)⟩
      · rw [taken]
        simp
      · by_cases same : u = t
        · subst same
          rw [to_here]
          exact ⟨fun _ => rfl, fun _ => rfl⟩
        · rw [to_other same]
          have notInside : ¬(lock.stage u).inside = true := by
            intro inside
            cases (owns u).mp inside
          exact iff_of_false notInside fun isThread => same (Option.some.inj isThread).symm
      · rw [to_shared, less, value]
        rfl
  | false =>
      rw [if_neg (by decide)]
      obtain ⟨empty, same⟩ := tested.refused taken
      refine ⟨sound, sleepers failed ?_, ⟨owner, fun u => ?_, ?_⟩, holders failed ?_⟩
      · rw [taken]
        simp
      · by_cases isThread : u = t
        · subst isThread
          rw [to_here, apart, ← outside]
          exact owns u
        · rw [to_other isThread]
          exact owns u
      · rw [to_shared, same, ← value, empty]
      · intro holds
        rw [holds] at apart
        cases apart

theorem exclusive_up (exclusive : Exclusive lock) (releasing : lock.stage t = .releasing) :
    Exclusive ({ lock with shared := lock.shared.up }.to t .outside) := by
  obtain ⟨owner, owns, value⟩ := exclusive.unit
  have mine : owner = some t := (owns t).mp (by rw [releasing]; rfl)
  subst mine
  refine ⟨up_sound exclusive.sound, fun u => ?_, ⟨none, fun u => ?_, ?_⟩, fun u => ?_⟩
  · rw [to_shared, up_sleeps]
    by_cases same : u = t
    · subst same
      rw [to_here, exclusive.sleeping, releasing]
      exact iff_of_false (by decide) (by decide)
    · rw [to_other same]
      exact exclusive.sleeping u
  · by_cases same : u = t
    · subst same
      rw [to_here]
      exact iff_of_false (by decide) (by simp)
    · rw [to_other same]
      refine iff_of_false (fun inside => ?_) (by simp)
      exact same (Option.some.inj ((owns u).mp inside)).symm
  · rw [to_shared, up_value, value]
    rfl
  · by_cases same : u = t
    · subst same
      rw [to_here, to_holder, exclusive.holder, releasing]
      exact iff_of_false (by decide) (by decide)
    · rw [to_other same]
      exact exclusive.holder u

/-- What a step finds and does. -/
theorem step_cases {next : Lock} {action : Action} (taken : step lock action = some next) :
    (∃ t, action = .acquire t ∧ lock.stage t = .outside ∧ next = lock.to t .acquiring) ∨
    (∃ t, action = .down t ∧ lock.stage t = .acquiring ∧
      next = lock.tested t (lock.shared.down t) .sleeping) ∨
    (∃ t, action = .retest t ∧ lock.stage t = .sleeping ∧ t ∈ lock.shared.woken ∧
      next = lock.tested t (lock.shared.retest t) .sleeping) ∨
    (∃ t, action = .own t ∧ lock.stage t = .taken ∧
      next = { lock with holder := some t }.to t .holding) ∨
    (∃ t, action = .tryAcquire t ∧ lock.stage t = .outside ∧ next = lock.to t .trying) ∨
    (∃ t, action = .tryDown t ∧ lock.stage t = .trying ∧
      next = lock.tested t lock.shared.tryDown .outside) ∨
    (∃ t, action = .release t ∧ lock.holder = some t ∧
      next = { lock with holder := none }.to t .releasing) ∨
    (∃ t, action = .up t ∧ lock.stage t = .releasing ∧
      next = { lock with shared := lock.shared.up }.to t .outside) := by
  unfold step at taken
  split at taken
  · next t here =>
    obtain ⟨_, eq⟩ := Option.ite_none_left_eq_some.mp taken
    exact .inl ⟨t, rfl, here, (Option.some.inj eq).symm⟩
  · next t here => exact .inr (.inl ⟨t, rfl, here, (Option.some.inj taken).symm⟩)
  · next t here =>
    obtain ⟨woken, eq⟩ := Option.ite_none_right_eq_some.mp taken
    exact .inr (.inr (.inl ⟨t, rfl, here, woken, (Option.some.inj eq).symm⟩))
  · next t here => exact .inr (.inr (.inr (.inl ⟨t, rfl, here, (Option.some.inj taken).symm⟩)))
  · next t here =>
    obtain ⟨_, eq⟩ := Option.ite_none_left_eq_some.mp taken
    exact .inr (.inr (.inr (.inr (.inl ⟨t, rfl, here, (Option.some.inj eq).symm⟩))))
  · next t here =>
    exact .inr (.inr (.inr (.inr (.inr (.inl ⟨t, rfl, here, (Option.some.inj taken).symm⟩)))))
  · next t here =>
    obtain ⟨holds, eq⟩ := Option.ite_none_right_eq_some.mp taken
    exact .inr (.inr (.inr (.inr (.inr (.inr (.inl ⟨t, rfl, holds, (Option.some.inj eq).symm⟩))))))
  · next t here =>
    obtain ⟨holds, eq⟩ := Option.ite_none_right_eq_some.mp taken
    exact .inr (.inr (.inr (.inr (.inr (.inr (.inl ⟨t, rfl, holds, (Option.some.inj eq).symm⟩))))))
  · next t here =>
    exact .inr (.inr (.inr (.inr (.inr (.inr (.inr ⟨t, rfl, here, (Option.some.inj taken).symm⟩))))))
  · cases taken

theorem step_exclusive {next : Lock} {action : Action} (exclusive : Exclusive lock)
    (taken : step lock action = some next) : Exclusive next := by
  have awake : ∀ {t : Tid}, lock.stage t ≠ .sleeping → ¬lock.shared.Sleeps t :=
    fun differs sleeps => differs ((exclusive.sleeping _).mp sleeps)
  have others : ∀ {t : Tid} (u : Tid), ¬lock.shared.Sleeps t →
      (lock.shared.Sleeps u ↔ lock.shared.Sleeps u ∧ u ≠ t) := by
    intro t u notAsleep
    refine ⟨fun sleeps => ⟨sleeps, ?_⟩, And.left⟩
    rintro rfl
    exact notAsleep sleeps
  -- no other thread holds the lock while this one has the unit
  have alone : ∀ {t : Tid}, (lock.stage t).inside = true → ∀ u, u ≠ t → lock.stage u ≠ .holding := by
    obtain ⟨owner, owns, _⟩ := exclusive.unit
    intro t inside u different holds
    have mine := (owns t).mp inside
    rw [(owns u).mp (by rw [holds]; rfl)] at mine
    exact different (Option.some.inj mine)
  rcases step_cases taken with ⟨t, rfl, here, rfl⟩ | ⟨t, rfl, here, rfl⟩ |
    ⟨t, rfl, here, woken, rfl⟩ | ⟨t, rfl, here, rfl⟩ | ⟨t, rfl, here, rfl⟩ | ⟨t, rfl, here, rfl⟩ |
    ⟨t, rfl, holds, rfl⟩ | ⟨t, rfl, here, rfl⟩
  · apply exclusive_to exclusive (by rw [here]; rfl) (by decide) (by rw [here]; decide)
    · rw [exclusive.holder, here]
      exact iff_of_false (by decide) (by decide)
    · exact fun u _ => exclusive.holder u
  · have out : lock.stage t ≠ .sleeping := by
      rw [here]
      decide
    apply exclusive_tested exclusive (by rw [here]; rfl) (down_sound exclusive.sound (awake out))
      down_tested _ rfl
    intro u
    rw [down_sleeps]
    rw [← others u (awake out)]
    simp
  · apply exclusive_tested exclusive (by rw [here]; rfl) (retest_sound exclusive.sound woken)
      retest_tested _ rfl
    intro u
    rw [retest_sleeps exclusive.sound.apart woken]
    simp
  · apply exclusive_to exclusive (by rw [here]; rfl) (by decide) (by rw [here]; decide)
    · exact iff_of_true rfl rfl
    · intro u different
      refine iff_of_false (fun same => different (Option.some.inj same).symm) ?_
      exact alone (by rw [here]; rfl) u different
  · apply exclusive_to exclusive (by rw [here]; rfl) (by decide) (by rw [here]; decide)
    · rw [exclusive.holder, here]
      exact iff_of_false (by decide) (by decide)
    · exact fun u _ => exclusive.holder u
  · have out : lock.stage t ≠ .sleeping := by
      rw [here]
      decide
    apply exclusive_tested exclusive (by rw [here]; rfl) (try_down_sound exclusive.sound)
      try_down_tested _ rfl
    intro u
    rw [try_down_sleeps]
    rw [← others u (awake out)]
    simp
  · have here := (exclusive.holder t).mp holds
    apply exclusive_to exclusive (by rw [here]; rfl) (by decide) (by rw [here]; decide)
    · exact iff_of_false (by simp) (by decide)
    · intro u different
      exact iff_of_false (by simp) (alone (by rw [here]; rfl) u different)
  · exact exclusive_up exclusive here

theorem tested_here {result : Shared × Bool} {failed : Stage} :
    (lock.tested t result failed).stage t = if result.2 then .taken else failed := to_here

theorem tested_other {result : Shared × Bool} {failed : Stage} {u : Tid} (other : u ≠ t) :
    (lock.tested t result failed).stage u = lock.stage u := to_other other

/-- A step leaves the other threads where they are. -/
theorem step_other {next : Lock} {action : Action} (taken : step lock action = some next) {u : Tid}
    (other : u ≠ action.thread) : next.stage u = lock.stage u := by
  rcases step_cases taken with ⟨t, rfl, _, rfl⟩ | ⟨t, rfl, _, rfl⟩ | ⟨t, rfl, _, _, rfl⟩ |
    ⟨t, rfl, _, rfl⟩ | ⟨t, rfl, _, rfl⟩ | ⟨t, rfl, _, rfl⟩ | ⟨t, rfl, _, rfl⟩ | ⟨t, rfl, _, rfl⟩
  · exact to_other other
  · exact tested_other other
  · exact tested_other other
  · exact to_other other
  · exact to_other other
  · exact tested_other other
  · exact to_other other
  · exact to_other other

end Steps

theorem reaches_exclusive {lock : Lock} (run : Reaches step (fun _ _ => True) Lock.init lock) :
    Exclusive lock :=
  reaches_invariant Exclusive exclusive_init
    (fun _ _ _ exclusive _ taken => step_exclusive exclusive taken) run

/-- In every run of threads that use a semaphore its value counts, modulo `2 ^ 32`, and while
threads wait no more units are left than threads are on their way; and of the threads that use a
lock at most one is between acquire and release, and the lock names it. -/
theorem units_are_counted :
    (∀ initial s, initial < 2 ^ 32 →
      Reaches Semaphores.step (fun _ _ => True) (Shared.init initial) s →
      s.downs ≤ initial + s.ups ∧ s.sema.value = (initial + s.ups - s.downs) % 2 ^ 32 ∧
        (s.sema.waiters ≠ [] → s.sema.value ≤ s.woken.length)) ∧
    ∀ lock, Reaches step (fun _ _ => True) Lock.init lock →
      (∀ t, lock.holder = some t ↔ lock.stage t = .holding) ∧
      ∀ t u, lock.stage t = .holding → lock.stage u = .holding → t = u := by
  constructor
  · intro initial s small run
    have sound := reaches_sound small run
    exact ⟨sound.enough, sound.value, sound.pending⟩
  · intro lock run
    have holder := (reaches_exclusive run).holder
    refine ⟨holder, fun t u first second => ?_⟩
    have one := (holder t).mpr first
    rw [(holder u).mpr second] at one
    exact (Option.some.inj one).symm

/-- Two threads wait, one of them is woken; and one thread holds the lock. -/
theorem units_are_counted_woken :
    (∃ s, Reaches Semaphores.step (fun _ _ => True) (Shared.init 1) s ∧ s.sema.waiters = [3] ∧
      s.woken = [2] ∧ s.sema.value = (1 + s.ups - s.downs) % 2 ^ 32 ∧
      s.sema.value ≤ s.woken.length) ∧
    ∃ lock, Reaches step (fun _ _ => True) Lock.init lock ∧ lock.stage 1 = .holding ∧
      lock.holder = some 1 := by
  constructor
  · obtain ⟨s, run, passes⟩ := @reaches_of_check _ _ Semaphores.step (fun _ _ => True) _
      (Shared.init 1) [.down 1, .down 2, .down 3, .up]
      (fun s => s.sema.waiters = [3] ∧ s.woken = [2]) (by decide)
    obtain ⟨waiters, woken⟩ := of_decide_eq_true passes
    obtain ⟨_, value, pending⟩ := units_are_counted.1 1 s (by decide) run
    exact ⟨s, run, waiters, woken, value, pending (by rw [waiters]; decide)⟩
  · obtain ⟨lock, run, passes⟩ := @reaches_of_check _ _ step (fun _ _ => True) _ Lock.init
      [.acquire 1, .down 1, .own 1] (fun lock => lock.stage 1 = .holding) (by decide)
    have holds : lock.stage 1 = .holding := of_decide_eq_true passes
    exact ⟨lock, run, holds, ((units_are_counted.2 lock run).1 1).mpr holds⟩

/-- One `sema_up` of a semaphore that `sema_init` has given the largest value. -/
theorem value_wraps :
    ∃ s, Reaches Semaphores.step (fun _ _ => True) (Shared.init (2 ^ 32 - 1)) s ∧
      s.sema.value = 0 ∧ (s.sema.value : Int) ≠ (2 ^ 32 - 1 : Nat) + s.ups - s.downs := by
  obtain ⟨s, run, passes⟩ := @reaches_of_check _ _ Semaphores.step (fun _ _ => True) _
    (Shared.init (2 ^ 32 - 1)) [.up] (fun s => s.sema.value = 0 ∧ s.ups = 1 ∧ s.downs = 0)
    (by decide)
  obtain ⟨value, ups, downs⟩ := of_decide_eq_true passes
  refine ⟨s, run, value, ?_⟩
  rw [value, ups, downs]
  decide

end UtSystems.Threads.Locks

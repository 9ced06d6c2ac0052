import UtSystems.Threads.Locks

/-!
# Condition variables

Threads use one condition with one lock. `cond_wait` queues a semaphore of its own, releases the
lock, sleeps on the semaphore and acquires the lock again; `cond_signal` takes the first semaphore
off the queue and ups it. Every step of a thread can be followed by a step of another.

`entered` lists who has entered `cond_wait` and has not been signalled, longest first.
-/

namespace UtSystems.Threads.Conditions

open Lib.GuardedRun Threads.Synch Threads.Locks

set_option autoImplicit false

/-- A call of `cond_signal` or `cond_broadcast`. -/
structure Wake where
  broadcast : Bool
  -- the lock is the caller's
  held : Bool
  -- `entered` at the call
  waiting : List Tid
  -- whose semaphores it has upped
  woken : List Tid
  deriving DecidableEq, Repr

/-- Where a thread is with respect to the condition. -/
inductive Phase where
  | user
  -- in `cond_wait`: `list_push_back` is next
  | queueing
  -- in `lock_release`
  | releasing
  -- `sema_down (&waiter.semaphore)` is next
  | downing
  | sleeping
  -- in `lock_acquire`, or `cond_wait` is about to return
  | reacquiring
  -- in `cond_signal` or `cond_broadcast`: `list_empty` is next
  | waking (call : Wake)
  -- `sema_up` of the thread's semaphore is next
  | upping (thread : Tid) (call : Wake)
  deriving DecidableEq, Repr

/-- In `cond_wait`, before the end of `sema_down`. -/
def Phase.waits : Phase → Bool
  | .queueing | .releasing | .downing | .sleeping => true
  | _ => false

/-- Not all of `entered` is in the queue. -/
def Phase.busy : Phase → Bool
  | .queueing | .upping _ _ => true
  | _ => false

structure Monitor where
  lock : Lock
  -- `cond->waiters`, by the threads whose semaphores these are
  waiters : List Tid
  -- `waiter.semaphore`
  own : Tid → Semaphore
  phase : Tid → Phase
  entered : List Tid
  -- signalled since the thread has entered `cond_wait`
  signalled : Tid → Bool
  finished : List Wake

/-- `cond_init`. -/
def Monitor.init : Monitor :=
  { lock := Lock.init, waiters := [], own := fun _ => semaInit 0, phase := fun _ => .user,
    entered := [], signalled := fun _ => false, finished := [] }

def Monitor.to (m : Monitor) (t : Tid) (phase : Phase) : Monitor :=
  { m with phase := Function.update m.phase t phase }

inductive Action where
  | lock (action : Locks.Action)
  | wait (t : Tid)
  | queue (t : Tid)
  | sleep (t : Tid)
  | resume (t : Tid)
  | return_ (t : Tid)
  | signal (t : Tid)
  | broadcast (t : Tid)
  | pop (t : Tid)
  | upWaiter (t : Tid)
  deriving DecidableEq, Repr

/-- A thread tests its own semaphore. -/
def Monitor.tested (m : Monitor) (t : Tid) : Monitor :=
  let (sema, taken) := semaDown (m.own t) t
  { m with own := Function.update m.own t sema }.to t (if taken then .reacquiring else .sleeping)

def Monitor.finish (m : Monitor) (t : Tid) (call : Wake) : Monitor :=
  { m with finished := call :: m.finished }.to t .user

/-- The step of the lock that a thread makes in its phase, and the phase afterwards. -/
def lockPhase : Phase → Locks.Action → Option Phase
  | .user, _ => some .user
  | .releasing, .release _ => some .releasing
  | .releasing, .up _ => some .downing
  | .reacquiring, .acquire _ | .reacquiring, .down _ | .reacquiring, .retest _
  | .reacquiring, .own _ => some .reacquiring
  | _, _ => none

def step (m : Monitor) : Action → Option Monitor
  | .lock action =>
      match lockPhase (m.phase action.thread) action, Locks.step m.lock action with
      | some phase, some lock => some ({ m with lock := lock }.to action.thread phase)
      | _, _ => none
  | .wait t =>
      if m.phase t = .user ∧ m.lock.holder = some t then
        some ({ m with
          own := Function.update m.own t (semaInit 0)
          entered := m.entered ++ [t]
          signalled := Function.update m.signalled t false }.to t .queueing)
      else none
  | .queue t =>
      if m.phase t = .queueing then
        some ({ m with waiters := m.waiters ++ [t] }.to t .releasing)
      else none
  | .sleep t => if m.phase t = .downing then some (m.tested t) else none
  | .resume t =>
      if m.phase t = .sleeping ∧ t ∉ (m.own t).waiters then some (m.tested t) else none
  | .return_ t =>
      if m.phase t = .reacquiring ∧ m.lock.stage t = .holding then some (m.to t .user) else none
  | .signal t =>
      if m.phase t = .user ∧ m.lock.holder = some t then
        some (m.to t (.waking
          { broadcast := false, held := true, waiting := m.entered, woken := [] }))
      else none
  -- `cond_broadcast` itself does not assert that the lock is held
  | .broadcast t =>
      if m.phase t = .user ∧ (m.lock.stage t = .outside ∨ m.lock.stage t = .holding) then
        some (m.to t (.waking
          { broadcast := true, held := m.lock.stage t = .holding, waiting := m.entered,
            woken := [] }))
      else none
  | .pop t =>
      match m.phase t with
      | .waking call =>
          match m.waiters with
          | [] => some (m.finish t call)
          | first :: rest =>
              if m.lock.holder = some t then
                some ({ m with waiters := rest }.to t (.upping first call))
              else none
      | _ => none
  | .upWaiter t =>
      match m.phase t with
      | .upping thread call =>
          let call := { call with woken := call.woken ++ [thread] }
          let m := { m with
            own := Function.update m.own thread (semaUp (m.own thread)).1
            entered := m.entered.erase thread
            signalled := Function.update m.signalled thread true }
          some (if call.broadcast then m.to t (.waking call) else m.finish t call)
      | _ => none

/-- Where the lock can be in a phase. -/
def Phase.fits : Phase → Stage → Bool
  | .user, _ => true
  | .queueing, stage => stage = .holding
  | .upping _ call, stage => stage = .holding ∧ call.held = true
  | .releasing, stage => stage = .holding ∨ stage = .releasing
  | .downing, stage | .sleeping, stage => stage = .outside
  | .reacquiring, stage => stage ≠ .trying ∧ stage ≠ .releasing
  | .waking call, stage => stage = if call.held then .holding else .outside

/-- What a call of `cond_signal` or `cond_broadcast` has done so far. -/
structure Wake.Fits (call : Wake) (entered : List Tid) : Prop where
  held : call.held = true → call.waiting = call.woken ++ entered
  free : call.held = false → call.broadcast = true ∧ call.woken = []
  single : call.broadcast = false → call.woken = []

def Phase.call : Phase → Option Wake
  | .waking call | .upping _ call => some call
  | _ => none

theorem no_call {phase : Phase} (waits : phase.waits = true) : phase.call = none := by
  cases phase <;> first | rfl | cases waits

/-- What holds of each thread; `sema` is its own semaphore. -/
structure Local (entered : List Tid) (t : Tid) (phase : Phase) (stage : Stage) (sema : Semaphore)
    (marked : Bool) : Prop where
  fits : phase.fits stage = true
  waiting : t ∈ entered ↔ phase.waits = true ∧ sema.value = 0
  small : phase.waits = true → sema.value ≤ 1
  queue : phase.waits = true →
    sema.waiters = if phase = .sleeping ∧ sema.value = 0 then [t] else []
  signalled : phase.waits = true → (marked = true ↔ sema.value = 1)
  passed : phase = .reacquiring → marked = true
  call : ∀ call, phase.call = some call → call.Fits entered

/-- What a finished call has woken. Without the lock `cond_broadcast` only returns from an empty
queue. -/
structure Wake.Right (call : Wake) : Prop where
  held : call.held = true →
    call.woken = if call.broadcast then call.waiting else call.waiting.take 1
  free : call.held = false → call.broadcast = true ∧ call.woken = []

structure Coherent (m : Monitor) : Prop where
  exclusive : Exclusive m.lock
  each : ∀ t, Local m.entered t (m.phase t) (m.lock.stage t) (m.own t) (m.signalled t)
  distinct : m.entered.Nodup
  queueing : ∀ t, m.phase t = .queueing → m.entered = m.waiters ++ [t]
  upping : ∀ t thread call, m.phase t = .upping thread call → m.entered = thread :: m.waiters
  idle : (∀ t, (m.phase t).busy = false) → m.entered = m.waiters
  finished : ∀ call ∈ m.finished, call.Right

theorem local_awake {entered : List Tid} {t : Tid} {phase : Phase} {stage : Stage}
    {sema : Semaphore} {marked : Bool} (fits : phase.fits stage = true)
    (awake : phase.waits = false) (out : t ∉ entered) (passed : phase = .reacquiring → marked = true)
    (call : ∀ call, phase.call = some call → call.Fits entered) :
    Local entered t phase stage sema marked := by
  have never : phase.waits ≠ true := by
    rw [awake]
    exact Bool.false_ne_true
  exact ⟨fits, iff_of_false out fun waits => never waits.1, fun waits => absurd waits never,
    fun waits => absurd waits never, fun waits => absurd waits never, passed, call⟩

theorem coherent_init : Coherent Monitor.init where
  exclusive := exclusive_init
  each := fun t => local_awake rfl rfl List.not_mem_nil (fun impossible => (by cases impossible))
    fun _ impossible => (by cases impossible)
  distinct := List.nodup_nil
  queueing := fun _ impossible => (by cases impossible)
  upping := fun _ _ _ impossible => (by cases impossible)
  idle := fun _ => rfl
  finished := fun _ impossible => absurd impossible List.not_mem_nil

section Steps

variable {m : Monitor} {t : Tid} {phase : Phase}

@[simp] theorem to_phase_here : (m.to t phase).phase t = phase := Function.update_self ..

theorem to_phase_other {u : Tid} (other : u ≠ t) : (m.to t phase).phase u = m.phase u :=
  Function.update_of_ne other ..

theorem out_of_awake (coherent : Coherent m) (awake : (m.phase t).waits = false) :
    t ∉ m.entered := by
  intro inside
  rw [((coherent.each t).waiting.mp inside).1] at awake
  cases awake

/-- Only the holder is between the assertion and the end of a call, or about to queue. -/
theorem alone (coherent : Coherent m) (holds : m.lock.stage t = .holding) {u : Tid}
    (other : u ≠ t) : m.lock.stage u ≠ .holding := by
  intro too
  have first := (coherent.exclusive.holder t).mpr holds
  rw [(coherent.exclusive.holder u).mpr too] at first
  exact other (Option.some.inj first)

theorem busy_holds (coherent : Coherent m) (busy : (m.phase t).busy = true) :
    m.lock.stage t = .holding := by
  have fits := (coherent.each t).fits
  cases here : m.phase t with
  | queueing =>
      rw [here] at fits
      exact of_decide_eq_true fits
  | upping thread call =>
      rw [here] at fits
      exact (of_decide_eq_true fits).1
  | _ =>
      rw [here] at busy
      cases busy

/-- While a thread that is not busy holds the lock, nobody is. -/
theorem idle_of_holding (coherent : Coherent m) (holds : m.lock.stage t = .holding)
    (quiet : (m.phase t).busy = false) : m.entered = m.waiters := by
  apply coherent.idle
  intro u
  by_cases same : u = t
  · rw [same]
    exact quiet
  · rw [← Bool.not_eq_true]
    exact fun busy => alone coherent holds same (busy_holds coherent busy)

/-- A thread goes from one phase to another, neither of them busy, and the queue stays. -/
theorem coherent_quiet (coherent : Coherent m) (lock : Lock) (own : Tid → Semaphore)
    (finished : List Wake) (exclusive : Exclusive lock)
    (stages : ∀ u, u ≠ t → lock.stage u = m.lock.stage u) (owns : ∀ u, u ≠ t → own u = m.own u)
    (here : Local m.entered t phase (lock.stage t) (own t) (m.signalled t))
    (was : (m.phase t).busy = false) (quiet : phase.busy = false)
    (right : ∀ call ∈ finished, call.Right) :
    Coherent ({ m with lock := lock, own := own, finished := finished }.to t phase) := by
  have later : ∀ u, (Function.update m.phase t phase u).busy = (m.phase u).busy := by
    intro u
    by_cases same : u = t
    · subst same
      rw [Function.update_self, was, quiet]
    · rw [Function.update_of_ne same]
  refine ⟨exclusive, fun u => ?_, coherent.distinct, fun u queues => ?_, fun u thread call ups => ?_,
    fun idle => ?_, right⟩
  · by_cases same : u = t
    · subst same
      rw [to_phase_here]
      exact here
    · rw [to_phase_other same]
      have before := coherent.each u
      rw [← stages u same, ← owns u same] at before
      exact before
  · by_cases same : u = t
    · subst same
      rw [to_phase_here] at queues
      rw [queues] at quiet
      cases quiet
    · rw [to_phase_other same] at queues
      exact coherent.queueing u queues
  · by_cases same : u = t
    · subst same
      rw [to_phase_here] at ups
      rw [ups] at quiet
      cases quiet
    · rw [to_phase_other same] at ups
      exact coherent.upping u thread call ups
  · apply coherent.idle
    intro u
    rw [← later u]
    exact idle u

/-- A thread without the lock does not notice what the others do to the queue. -/
theorem local_elsewhere {entered next : List Tid} {stage : Stage} {sema : Semaphore} {marked : Bool}
    (before : Local entered t phase stage sema marked) (outside : stage ≠ .holding)
    (same : t ∈ next ↔ t ∈ entered) : Local next t phase stage sema marked := by
  refine ⟨before.fits, same.trans before.waiting, before.small, before.queue, before.signalled,
    before.passed, fun call inCall => ?_⟩
  have fits := before.call call inCall
  refine ⟨fun held => ?_, fits.free, fits.single⟩
  have place := before.fits
  cases phase <;> cases inCall
  · rw [Phase.fits, if_pos held] at place
    exact absurd (of_decide_eq_true place) outside
  · exact absurd (of_decide_eq_true place).1 outside

/-- The holder of the lock goes from one phase to another and may change the queue; `woken` is the
thread whose semaphore it ups. -/
theorem coherent_holding (coherent : Coherent m) (holds : m.lock.stage t = .holding)
    (waiters : List Tid) (own : Tid → Semaphore) (entered : List Tid) (signalled : Tid → Bool)
    (finished : List Wake)
    (here : Local entered t phase .holding (own t) (signalled t))
    (others : ∀ u, u ≠ t → Local entered u (m.phase u) (m.lock.stage u) (own u) (signalled u))
    (distinct : entered.Nodup)
    (queueing : phase = .queueing → entered = waiters ++ [t])
    (upping : ∀ thread call, phase = .upping thread call → entered = thread :: waiters)
    (idle : phase.busy = false → entered = waiters)
    (right : ∀ call ∈ finished, call.Right) :
    Coherent ({ m with
      waiters := waiters, own := own, entered := entered, signalled := signalled,
      finished := finished }.to t phase) := by
  have quiet : ∀ u, u ≠ t → (m.phase u).busy = false := by
    intro u other
    rw [← Bool.not_eq_true]
    exact fun busy => alone coherent holds other (busy_holds coherent busy)
  refine ⟨coherent.exclusive, fun u => ?_, distinct, fun u queues => ?_,
    fun u thread call ups => ?_, fun all => ?_, right⟩
  · by_cases same : u = t
    · subst same
      rw [to_phase_here]
      dsimp only [Monitor.to]
      rw [holds]
      exact here
    · rw [to_phase_other same]
      exact others u same
  · by_cases same : u = t
    · subst same
      rw [to_phase_here] at queues
      exact queueing queues
    · rw [to_phase_other same] at queues
      have busy := quiet u same
      dsimp only at queues
      rw [queues] at busy
      cases busy
  · by_cases same : u = t
    · subst same
      rw [to_phase_here] at ups
      exact upping thread call ups
    · rw [to_phase_other same] at ups
      have busy := quiet u same
      dsimp only at ups
      rw [ups] at busy
      cases busy
  · apply idle
    have mine := all t
    rw [to_phase_here] at mine
    exact mine

/-- A thread may take this step of the lock in its phase. -/
theorem lock_phase_fits {lock next : Lock} {action : Locks.Action} {before after : Phase}
    (goes : lockPhase before action = some after) (taken : Locks.step lock action = some next) :
    after.fits (next.stage action.thread) = true ∧ before.busy = false ∧ after.busy = false ∧
      after.waits = before.waits ∧ (after = .sleeping ↔ before = .sleeping) ∧
      (after = .reacquiring → before = .reacquiring) ∧ after.call = none := by
  rcases Locks.step_cases taken with ⟨t, rfl, _, rfl⟩ | ⟨t, rfl, _, rfl⟩ | ⟨t, rfl, _, _, rfl⟩ |
    ⟨t, rfl, _, rfl⟩ | ⟨t, rfl, _, rfl⟩ | ⟨t, rfl, _, rfl⟩ | ⟨t, rfl, _, rfl⟩ | ⟨t, rfl, _, rfl⟩ <;>
  cases before <;> cases goes <;> dsimp only [Locks.Action.thread] <;>
  simp [Phase.fits, Phase.busy, Phase.waits, Phase.call, Locks.tested_here] <;>
  split <;> simp

theorem lock_coherent (coherent : Coherent m) {lock : Lock} {action : Locks.Action}
    (goes : lockPhase (m.phase action.thread) action = some phase)
    (taken : Locks.step m.lock action = some lock) :
    Coherent ({ m with lock := lock }.to action.thread phase) := by
  obtain ⟨fits, was, quiet, waits, sleeps, again, noCall⟩ := lock_phase_fits goes taken
  have before := coherent.each action.thread
  apply coherent_quiet coherent lock m.own m.finished
    (Locks.step_exclusive coherent.exclusive taken) (fun u other => Locks.step_other taken other) (fun _ _ => rfl) _ was quiet coherent.finished
  refine ⟨fits, ?_, ?_, ?_, ?_, fun now => before.passed (again now), fun call inCall => ?_⟩
  · rw [waits]
    exact before.waiting
  · rw [waits]
    exact before.small
  · simp only [waits, sleeps]
    exact before.queue
  · rw [waits]
    exact before.signalled
  · rw [noCall] at inCall
    cases inCall

theorem wait_coherent (coherent : Coherent m) (user : m.phase t = .user)
    (held : m.lock.holder = some t) :
    Coherent ({ m with
      own := Function.update m.own t (semaInit 0)
      entered := m.entered ++ [t]
      signalled := Function.update m.signalled t false }.to t .queueing) := by
  have holds := (coherent.exclusive.holder t).mp held
  have out : t ∉ m.entered := out_of_awake coherent (by rw [user]; rfl)
  have queue : m.entered = m.waiters := idle_of_holding coherent holds (by rw [user]; rfl)
  apply coherent_holding coherent holds m.waiters _ _ _ m.finished
  · rw [Function.update_self, Function.update_self]
    exact {
      fits := rfl
      waiting := iff_of_true (List.mem_append_right _ (List.mem_singleton_self t)) ⟨rfl, rfl⟩
      small := fun _ => Nat.zero_le 1
      queue := fun _ => rfl
      signalled := fun _ => by decide
      passed := fun impossible => (by cases impossible)
      call := fun _ impossible => (by cases impossible) }
  · intro u other
    rw [Function.update_of_ne other, Function.update_of_ne other]
    apply local_elsewhere (coherent.each u) (alone coherent holds other)
    rw [List.mem_append, List.mem_singleton, or_iff_left other]
  · exact List.nodup_append.mpr ⟨coherent.distinct, List.nodup_singleton t, fun a inside b isNew => by
      rw [List.mem_singleton] at isNew
      rintro rfl
      rw [isNew] at inside
      exact out inside⟩
  · intro _
    rw [queue]
  · intro _ _ impossible
    cases impossible
  · intro impossible
    cases impossible
  · exact coherent.finished

theorem queue_coherent (coherent : Coherent m) (queues : m.phase t = .queueing) :
    Coherent ({ m with waiters := m.waiters ++ [t] }.to t .releasing) := by
  have holds : m.lock.stage t = .holding := busy_holds coherent (by rw [queues]; rfl)
  have here := coherent.each t
  rw [queues, holds] at here
  apply coherent_holding coherent holds _ m.own m.entered m.signalled m.finished
  · exact {
      fits := rfl
      waiting := here.waiting
      small := here.small
      queue := fun _ => here.queue rfl
      signalled := here.signalled
      passed := fun impossible => (by cases impossible)
      call := fun _ impossible => (by cases impossible) }
  · intro u other
    exact coherent.each u
  · exact coherent.distinct
  · intro impossible
    cases impossible
  · intro _ _ impossible
    cases impossible
  · intro _
    exact coherent.queueing t queues
  · exact coherent.finished

/-- The test of `sema_down`; a thread that sleeps and is off the waiters finds a unit. -/
theorem tested_coherent (coherent : Coherent m)
    (before : m.phase t = .downing ∨ m.phase t = .sleeping ∧ t ∉ (m.own t).waiters) :
    Coherent (m.tested t) := by
  have here := coherent.each t
  have waits : (m.phase t).waits = true := by
    rcases before with downs | ⟨sleeps, _⟩
    · rw [downs]
      rfl
    · rw [sleeps]
      rfl
  have quiet : (m.phase t).busy = false := by
    rcases before with downs | ⟨sleeps, _⟩
    · rw [downs]
      rfl
    · rw [sleeps]
      rfl
  have outside : m.lock.stage t = .outside := by
    have fits := here.fits
    rcases before with downs | ⟨sleeps, _⟩
    · rw [downs] at fits
      exact of_decide_eq_true fits
    · rw [sleeps] at fits
      exact of_decide_eq_true fits
  have others : ∀ sema : Semaphore, ∀ u, u ≠ t → Function.update m.own t sema u = m.own u :=
    fun _ _ other => Function.update_of_ne other _ _
  by_cases empty : (m.own t).value = 0
  · have awake : m.phase t = .downing := by
      rcases before with downs | ⟨sleeps, gone⟩
      · exact downs
      · have queue := here.queue waits
        rw [if_pos ⟨sleeps, empty⟩] at queue
        rw [queue] at gone
        exact absurd (List.mem_singleton_self t) gone
    have noWaiters : (m.own t).waiters = [] := by
      rw [here.queue waits, awake, if_neg]
      rintro ⟨impossible, _⟩
      cases impossible
    unfold Monitor.tested semaDown
    rw [if_pos empty, noWaiters]
    apply coherent_quiet coherent m.lock _ m.finished coherent.exclusive
      (fun _ _ => rfl) (others _) _ quiet rfl coherent.finished
    rw [Function.update_self, outside]
    exact {
      fits := rfl
      waiting := here.waiting.trans (iff_of_true ⟨waits, empty⟩ ⟨rfl, empty⟩)
      small := fun _ => here.small waits
      queue := fun _ => by rw [if_pos ⟨rfl, empty⟩]; rfl
      signalled := fun _ => here.signalled waits
      passed := fun impossible => (by cases impossible)
      call := fun _ impossible => (by cases impossible) }
  · have one : (m.own t).value = 1 := by
      have small := here.small waits
      omega
    unfold Monitor.tested semaDown
    rw [if_neg empty]
    apply coherent_quiet coherent m.lock _ m.finished coherent.exclusive
      (fun _ _ => rfl) (others _) _ quiet rfl coherent.finished
    rw [Function.update_self, outside]
    apply local_awake rfl rfl
    · exact fun inside => empty (here.waiting.mp inside).2
    · exact fun _ => (here.signalled waits).mpr one
    · exact fun _ impossible => (by cases impossible)

theorem return_coherent (coherent : Coherent m) (back : m.phase t = .reacquiring) :
    Coherent (m.to t .user) := by
  apply coherent_quiet coherent m.lock m.own m.finished coherent.exclusive (fun _ _ => rfl)
    (fun _ _ => rfl) _ (by rw [back]; rfl) rfl coherent.finished
  apply local_awake rfl rfl (out_of_awake coherent (by rw [back]; rfl))
  · exact fun impossible => (by cases impossible)
  · exact fun _ impossible => (by cases impossible)

/-- A call of `cond_signal` or `cond_broadcast` begins. -/
theorem call_coherent (coherent : Coherent m) {broadcast : Bool} (user : m.phase t = .user)
    (place : m.lock.stage t = .holding ∨ broadcast = true ∧ m.lock.stage t = .outside) :
    Coherent (m.to t (.waking
      { broadcast := broadcast, held := m.lock.stage t = .holding, waiting := m.entered,
        woken := [] })) := by
  apply coherent_quiet coherent m.lock m.own m.finished coherent.exclusive (fun _ _ => rfl)
    (fun _ _ => rfl) _ (by rw [user]; rfl) rfl coherent.finished
  apply local_awake _ rfl (out_of_awake coherent (by rw [user]; rfl))
  · exact fun impossible => (by cases impossible)
  · intro call inCall
    cases inCall
    refine ⟨fun _ => rfl, fun free => ?_, fun _ => rfl⟩
    rcases place with holds | ⟨isBroadcast, _⟩
    · exact absurd holds (of_decide_eq_false free)
    · exact ⟨isBroadcast, rfl⟩
  · rcases place with holds | ⟨_, outside⟩
    · rw [holds]
      rfl
    · rw [outside]
      rfl

theorem finish_coherent (coherent : Coherent m) {call : Wake} (wakes : m.phase t = .waking call)
    (none_ : m.waiters = []) : Coherent (m.finish t call) := by
  have here := coherent.each t
  have fits := here.call call (by rw [wakes]; rfl)
  have place := here.fits
  rw [wakes, Phase.fits] at place
  apply coherent_quiet coherent m.lock m.own _ coherent.exclusive (fun _ _ => rfl)
    (fun _ _ => rfl) _ (by rw [wakes]; rfl) rfl
  · intro done inFinished
    rcases List.mem_cons.mp inFinished with rfl | earlier
    · refine ⟨fun held => ?_, fits.free⟩
      rw [if_pos held] at place
      have queue := idle_of_holding coherent (of_decide_eq_true place) (by rw [wakes]; rfl)
      have all := fits.held held
      rw [queue, none_, List.append_nil] at all
      cases single : done.broadcast with
      | true => exact all.symm
      | false =>
          rw [all, fits.single single]
          rfl
    · exact coherent.finished done earlier
  · apply local_awake rfl rfl (out_of_awake coherent (by rw [wakes]; rfl))
    · exact fun impossible => (by cases impossible)
    · exact fun _ impossible => (by cases impossible)

theorem pop_coherent (coherent : Coherent m) {call : Wake} {first : Tid} {rest : List Tid}
    (wakes : m.phase t = .waking call) (queue : m.waiters = first :: rest)
    (held : m.lock.holder = some t) :
    Coherent ({ m with waiters := rest }.to t (.upping first call)) := by
  have holds := (coherent.exclusive.holder t).mp held
  have here := coherent.each t
  have all := idle_of_holding coherent holds (by rw [wakes]; rfl)
  have fits := here.call call (by rw [wakes]; rfl)
  have isHeld : call.held = true := by
    have place := here.fits
    rw [wakes, holds] at place
    by_contra free
    rw [Phase.fits, if_neg free] at place
    cases place
  apply coherent_holding coherent holds _ m.own m.entered m.signalled m.finished
  · apply local_awake _ rfl (out_of_awake coherent (by rw [wakes]; rfl))
    · exact fun impossible => (by cases impossible)
    · intro other inCall
      cases inCall
      exact fits
    · exact decide_eq_true ⟨rfl, isHeld⟩
  · intro u _
    exact coherent.each u
  · exact coherent.distinct
  · intro impossible
    cases impossible
  · intro thread other ups
    cases ups
    rw [all, queue]
  · intro impossible
    cases impossible
  · exact coherent.finished

/-- A `sema_up` of a semaphore with no unit leaves one unit and no waiter when at most one
thread waited on it. -/
theorem sema_up_taken {sema : Semaphore} {thread : Tid} (zero : sema.value = 0)
    (queue : sema.waiters = [thread] ∨ sema.waiters = []) :
    (semaUp sema).1 = { value := 1, waiters := [] } := by
  cases sema with
  | mk value waiters =>
    change value = 0 at zero
    subst zero
    rcases queue with queue | queue
    · change waiters = [thread] at queue
      subst queue
      rfl
    · change waiters = [] at queue
      subst queue
      rfl

theorem up_coherent (coherent : Coherent m) {thread : Tid} {call : Wake}
    (ups : m.phase t = .upping thread call) :
    ∀ next, step m (.upWaiter t) = some next → Coherent next := by
  have holds : m.lock.stage t = .holding := busy_holds coherent (by rw [ups]; rfl)
  have queue := coherent.upping t thread call ups
  have here := coherent.each t
  have fits := here.call call (by rw [ups]; rfl)
  have isHeld : call.held = true := by
    have place := here.fits
    rw [ups] at place
    exact (of_decide_eq_true place).2
  have inside : thread ∈ m.entered := by
    rw [queue]
    exact List.mem_cons_self
  have woken := coherent.each thread
  obtain ⟨waits, zero⟩ := woken.waiting.mp inside
  have other : thread ≠ t := by
    rintro rfl
    rw [ups] at waits
    cases waits
  have rest : m.entered.erase thread = m.waiters := by
    rw [queue]
    exact List.erase_cons_head ..
  have distinct := coherent.distinct
  rw [queue] at distinct
  obtain ⟨out, restDistinct⟩ := List.nodup_cons.mp distinct
  -- its semaphore has one unit, and it is not on the waiters
  have upped : (semaUp (m.own thread)).1 = { value := 1, waiters := [] } := by
    have waiters := woken.queue waits
    by_cases sleeps : m.phase thread = .sleeping
    · rw [if_pos ⟨sleeps, zero⟩] at waiters
      exact sema_up_taken zero (Or.inl waiters)
    · rw [if_neg (fun both => sleeps both.1)] at waiters
      exact @sema_up_taken _ thread zero (Or.inr waiters)
  have others : ∀ u, u ≠ t → Local m.waiters u (m.phase u) (m.lock.stage u)
      (Function.update m.own thread (semaUp (m.own thread)).1 u)
      (Function.update m.signalled thread true u) := by
    intro u different
    by_cases same : u = thread
    · subst same
      rw [Function.update_self, Function.update_self, upped]
      exact {
        fits := woken.fits
        waiting := iff_of_false out fun both => absurd both.2 (by decide)
        small := fun _ => Nat.le_refl 1
        queue := fun _ => (if_neg fun both => absurd both.2 (by decide)).symm
        signalled := fun _ => iff_of_true rfl rfl
        passed := fun _ => rfl
        call := fun call inCall => by
          rw [no_call waits] at inCall
          cases inCall }
    · rw [Function.update_of_ne same, Function.update_of_ne same]
      apply local_elsewhere (coherent.each u) (alone coherent holds different)
      rw [queue, List.mem_cons, or_iff_right same]
  have mine : t ∉ m.waiters := by
    have notEntered := out_of_awake coherent (t := t) (by rw [ups]; rfl)
    rw [queue] at notEntered
    exact fun inside => notEntered (List.mem_cons_of_mem _ inside)
  intro next taken
  dsimp only [step] at taken
  rw [ups] at taken
  dsimp only at taken
  rw [rest] at taken
  cases single : call.broadcast with
  | true =>
      rw [if_pos single] at taken
      cases taken
      apply coherent_holding coherent holds m.waiters _ m.waiters _ m.finished _ others restDistinct
      · exact fun impossible => (by cases impossible)
      · exact fun _ _ impossible => (by cases impossible)
      · exact fun _ => rfl
      · exact coherent.finished
      · apply local_awake _ rfl mine
        · exact fun impossible => (by cases impossible)
        · intro later inCall
          cases inCall
          refine ⟨fun _ => ?_, fun free => ?_, fun isSignal => ?_⟩
          · dsimp only
            rw [fits.held isHeld, queue, List.append_assoc]
            rfl
          · rw [isHeld] at free
            cases free
          · rw [single] at isSignal
            cases isSignal
        · rw [Phase.fits, if_pos isHeld]
          rfl
  | false =>
      rw [if_neg (by rw [single]; exact Bool.false_ne_true)] at taken
      cases taken
      apply coherent_holding coherent holds m.waiters _ m.waiters _ _ _ others restDistinct
      · exact fun impossible => (by cases impossible)
      · exact fun _ _ impossible => (by cases impossible)
      · exact fun _ => rfl
      · intro done inFinished
        rcases List.mem_cons.mp inFinished with rfl | earlier
        · refine ⟨fun _ => ?_, fun free => ?_⟩
          · dsimp only
            rw [single, fits.held isHeld, fits.single single, queue]
            rfl
          · rw [isHeld] at free
            cases free
        · exact coherent.finished done earlier
      · apply local_awake rfl rfl mine
        · exact fun impossible => (by cases impossible)
        · exact fun _ impossible => (by cases impossible)

theorem pop_cases {next : Monitor} (taken : step m (.pop t) = some next) :
    ∃ call, m.phase t = .waking call ∧ (m.waiters = [] ∧ next = m.finish t call ∨
      ∃ first rest, m.waiters = first :: rest ∧ m.lock.holder = some t ∧
        next = { m with waiters := rest }.to t (.upping first call)) := by
  dsimp only [step] at taken
  split at taken
  · next call wakes =>
    refine ⟨call, wakes, ?_⟩
    split at taken
    · next queue => exact .inl ⟨queue, (Option.some.inj taken).symm⟩
    · next first rest queue =>
      obtain ⟨held, eq⟩ := Option.ite_none_right_eq_some.mp taken
      exact .inr ⟨first, rest, queue, held, (Option.some.inj eq).symm⟩
  · cases taken

theorem step_coherent {next : Monitor} {action : Action} (coherent : Coherent m)
    (taken : step m action = some next) : Coherent next := by
  cases action with
  | lock action =>
      dsimp only [step] at taken
      split at taken
      · next phase lock goes steps =>
        cases taken
        exact lock_coherent coherent goes steps
      · cases taken
  | wait t =>
      obtain ⟨⟨user, held⟩, eq⟩ := Option.ite_none_right_eq_some.mp taken
      cases eq
      exact wait_coherent coherent user held
  | queue t =>
      obtain ⟨queues, eq⟩ := Option.ite_none_right_eq_some.mp taken
      cases eq
      exact queue_coherent coherent queues
  | sleep t =>
      obtain ⟨downs, eq⟩ := Option.ite_none_right_eq_some.mp taken
      cases eq
      exact tested_coherent coherent (.inl downs)
  | resume t =>
      obtain ⟨sleeps, eq⟩ := Option.ite_none_right_eq_some.mp taken
      cases eq
      exact tested_coherent coherent (.inr sleeps)
  | return_ t =>
      obtain ⟨⟨back, _⟩, eq⟩ := Option.ite_none_right_eq_some.mp taken
      cases eq
      exact return_coherent coherent back
  | signal t =>
      obtain ⟨⟨user, held⟩, eq⟩ := Option.ite_none_right_eq_some.mp taken
      have holds := (coherent.exclusive.holder t).mp held
      have isHeld : true = decide (m.lock.stage t = .holding) := (decide_eq_true holds).symm
      cases eq
      rw [isHeld]
      exact call_coherent coherent user (.inl holds)
  | broadcast t =>
      obtain ⟨⟨user, place⟩, eq⟩ := Option.ite_none_right_eq_some.mp taken
      cases eq
      exact call_coherent coherent user (place.symm.imp_right fun outside => ⟨rfl, outside⟩)
  | pop t =>
      obtain ⟨call, wakes, ⟨queue, rfl⟩ | ⟨first, rest, queue, held, rfl⟩⟩ := pop_cases taken
      · exact finish_coherent coherent wakes queue
      · exact pop_coherent coherent wakes queue held
  | upWaiter t =>
      cases ups : m.phase t with
      | upping thread call => exact up_coherent coherent ups next taken
      | _ =>
          dsimp only [step] at taken
          rw [ups] at taken
          cases taken

end Steps

theorem reaches_coherent {m : Monitor} (run : Reaches step (fun _ _ => True) Monitor.init m) :
    Coherent m :=
  reaches_invariant Coherent coherent_init
    (fun _ _ _ coherent _ taken => step_coherent coherent taken) run

/-- A thread that has been signalled is not blocked: its next step takes it to `lock_acquire`. -/
theorem signalled_goes_on {m : Monitor} {t : Tid} (coherent : Coherent m)
    (signalled : m.signalled t = true) (phase : m.phase t = .downing ∨ m.phase t = .sleeping) :
    ∃ action next, (action = .sleep t ∨ action = .resume t) ∧ step m action = some next ∧
      next.phase t = .reacquiring := by
  have here := coherent.each t
  have waits : (m.phase t).waits = true := by
    rcases phase with downs | sleeps
    · rw [downs]
      rfl
    · rw [sleeps]
      rfl
  have one : (m.own t).value = 1 := (here.signalled waits).mp signalled
  have takes : (m.tested t).phase t = .reacquiring := by
    unfold Monitor.tested semaDown
    rw [if_neg (by rw [one]; decide)]
    exact to_phase_here
  rcases phase with downs | sleeps
  · exact ⟨.sleep t, m.tested t, .inl rfl, if_pos downs, takes⟩
  · have gone : t ∉ (m.own t).waiters := by
      rw [here.queue waits, if_neg]
      · exact List.not_mem_nil
      · rw [one]
        exact fun both => absurd both.2 (by decide)
    exact ⟨.resume t, m.tested t, .inr rfl, if_pos ⟨sleeps, gone⟩, takes⟩

/-- A call with the lock is never stopped by an assertion. -/
theorem call_goes_on {m : Monitor} {t : Tid} {call : Wake} (coherent : Coherent m)
    (inCall : (m.phase t).call = some call) (held : call.held = true) :
    ∃ action next, (action = .pop t ∨ action = .upWaiter t) ∧ step m action = some next := by
  cases phase : m.phase t with
  | waking here =>
      rw [phase] at inCall
      cases inCall
      have place := (coherent.each t).fits
      rw [phase, Phase.fits, if_pos held] at place
      have holder := (coherent.exclusive.holder t).mpr (of_decide_eq_true place)
      cases queue : m.waiters with
      | nil =>
          refine ⟨.pop t, m.finish t call, .inl rfl, ?_⟩
          dsimp only [step]
          rw [phase]
          dsimp only
          rw [queue]
      | cons first rest =>
          refine ⟨.pop t, { m with waiters := rest }.to t (.upping first call), .inl rfl, ?_⟩
          dsimp only [step]
          rw [phase]
          dsimp only
          rw [queue]
          exact if_pos holder
  | upping thread here =>
      refine ⟨.upWaiter t, ?_⟩
      dsimp only [step]
      rw [phase]
      exact ⟨_, .inr rfl, rfl⟩
  | _ =>
      rw [phase] at inCall
      cases inCall

/-- In every run a call of `cond_signal` wakes the first of the threads that have entered
`cond_wait` and are not signalled, if there is one, and `cond_broadcast` all of them; whoever is
signalled goes on, and whoever returns from `cond_wait` is signalled and holds the lock. -/
theorem signals_wake_the_longest_waiter (m : Monitor)
    (run : Reaches step (fun _ _ => True) Monitor.init m) :
    (∀ t, t ∈ m.entered ↔ (m.phase t).waits = true ∧ m.signalled t = false) ∧
    (∀ call ∈ m.finished,
      (call.held = true →
        call.woken = if call.broadcast then call.waiting else call.waiting.take 1) ∧
      (call.held = false → call.broadcast = true ∧ call.woken = [])) ∧
    (∀ t call, (m.phase t).call = some call → call.held = true →
      ∃ action next, (action = .pop t ∨ action = .upWaiter t) ∧ step m action = some next) ∧
    (∀ t, m.signalled t = true → m.phase t = .downing ∨ m.phase t = .sleeping →
      ∃ action next, (action = .sleep t ∨ action = .resume t) ∧ step m action = some next ∧
        next.phase t = .reacquiring) ∧
    ∀ t next, step m (.return_ t) = some next →
      m.signalled t = true ∧ m.lock.holder = some t := by
  have coherent := reaches_coherent run
  refine ⟨fun t => ?_, fun call inFinished => ?_, fun t call => call_goes_on coherent,
    fun t => signalled_goes_on coherent, fun t next taken => ?_⟩
  · have here := coherent.each t
    rw [here.waiting]
    apply and_congr_right
    intro waits
    have small := here.small waits
    rw [← Bool.not_eq_true, here.signalled waits]
    omega
  · have right := coherent.finished call inFinished
    exact ⟨right.held, right.free⟩
  · obtain ⟨⟨back, holds⟩, _⟩ := Option.ite_none_right_eq_some.mp taken
    exact ⟨(coherent.each t).passed back, (coherent.exclusive.holder t).mpr holds⟩

/-- Threads 1 and 2 have entered `cond_wait`; thread 3 signals while 1 has not slept yet. -/
theorem signals_wake_the_longest_waiter_before_sleep :
    ∃ m, Reaches step (fun _ _ => True) Monitor.init m ∧ m.phase 1 = .downing ∧
      m.entered = [2] ∧ m.finished.map Wake.woken = [[1]] ∧
      ((m.phase 2).waits = true ∧ m.signalled 2 = false) ∧
      ∃ action next, (action = .sleep 1 ∨ action = .resume 1) ∧ step m action = some next ∧
        next.phase 1 = .reacquiring := by
  obtain ⟨m, run, passes⟩ := @reaches_of_check _ _ step (fun _ _ => True) _ Monitor.init
    [.lock (.acquire 1), .lock (.down 1), .lock (.own 1), .wait 1, .queue 1, .lock (.release 1),
      .lock (.up 1), .lock (.acquire 2), .lock (.down 2), .lock (.own 2), .wait 2, .queue 2,
      .lock (.release 2), .lock (.up 2), .lock (.acquire 3), .lock (.down 3), .lock (.own 3),
      .signal 3, .pop 3, .upWaiter 3]
    (fun m => m.phase 1 = .downing ∧ m.signalled 1 = true ∧ m.entered = [2] ∧
      m.finished.map Wake.woken = [[1]]) (by decide)
  obtain ⟨downs, signalled, entered, woken⟩ := of_decide_eq_true passes
  obtain ⟨inside, _, _, goesOn, _⟩ := signals_wake_the_longest_waiter m run
  refine ⟨m, run, downs, entered, woken, (inside 2).mp ?_, goesOn 1 signalled (.inl downs)⟩
  rw [entered]
  exact List.mem_singleton_self 2

end UtSystems.Threads.Conditions

import UtSystems.Lib.GuardedRun
import UtSystems.Threads.Synch
import Mathlib.Data.List.Nodup
import Mathlib.Logic.Function.Basic

/-!
# The queues of the scheduler

The `elem` of a `struct thread` is its node in `ready_list` or in the waiters of a semaphore, and
`allelem` its node in `all_list`. Stretches with interrupts off are one step; `yield` is also the
timer's, `up` and `unblock` also an interrupt handler's.

Threads are numbered in the order in which `init_thread` sets them up.
-/

namespace UtSystems.Threads.Scheduler

open Threads.Synch

set_option autoImplicit false

/-- `enum thread_status`. -/
inductive ThreadStatus where
  | running
  | ready
  | blocked
  | dying
  deriving DecidableEq, Repr

/-- The call of `thread_block` that a thread is in or was in last. -/
inductive Wait where
  | nothing
  | block
  -- in the loop of `sema_down`
  | down (sema : Nat)
  deriving DecidableEq, Repr

/-- How far a thread is in `ptr_thread_create`. -/
inductive Making where
  | nothing
  -- `init_thread` is next
  | allocated (page : Nat)
  -- `thread_unblock` is still to come
  | made (t : Tid)
  deriving DecidableEq, Repr

structure Machine where
  -- of the `struct thread`, if there is one
  status : Tid → Option ThreadStatus
  page : Tid → Nat
  wait : Tid → Wait
  making : Tid → Making
  readyList : List Tid
  allList : List Tid
  idleThread : Tid
  initialThread : Tid
  current : Tid
  sema : Nat → Semaphore
  -- the page of the initial thread and those that `palloc_get_page` has given for threads
  usedPages : List Nat
  nextThread : Tid
  -- when a thread has become ready last
  readied : Tid → Nat
  clock : Nat
  exited : List Tid
  -- whose pages are freed, and the thread that ran then
  freed : List (Tid × Tid)

def Machine.setStatus (m : Machine) (t : Tid) (status : ThreadStatus) : Machine :=
  { m with status := Function.update m.status t (some status) }

/-- `list_push_back (&ready_list, &t->elem)`. -/
def Machine.pushReady (m : Machine) (t : Tid) : Machine :=
  { m with
    readyList := m.readyList ++ [t]
    readied := Function.update m.readied t m.clock
    clock := m.clock + 1 }

/-- `palloc_free_page` of a `struct thread`. -/
def pallocFreePage (m : Machine) (t : Tid) : Machine :=
  { m with
    status := Function.update m.status t none
    usedPages := m.usedPages.erase (m.page t)
    freed := m.freed ++ [(t, m.current)] }

def nextThreadToRun (m : Machine) : Tid × Machine :=
  match m.readyList with
  | [] => (m.idleThread, m)
  | first :: rest => (first, { m with readyList := rest })

def threadScheduleTail (m : Machine) (prev : Option Tid) : Machine :=
  let m := m.setStatus m.current .running
  match prev with
  | none => m
  | some prev =>
      if m.status prev = some .dying ∧ prev ≠ m.initialThread then pallocFreePage m prev else m

def schedule (m : Machine) : Machine :=
  let (next, m) := nextThreadToRun m
  let prev := if m.current = next then none else some m.current
  threadScheduleTail { m with current := next } prev

def threadBlock (m : Machine) : Machine := schedule (m.setStatus m.current .blocked)

/-- None if the assertion fails. -/
def threadUnblock (m : Machine) (t : Tid) : Option Machine :=
  if m.status t = some .blocked then some ((m.pushReady t).setStatus t .ready) else none

def threadYield (m : Machine) : Machine :=
  let pushed := if m.current = m.idleThread then m else m.pushReady m.current
  schedule (pushed.setStatus m.current .ready)

def threadExit (m : Machine) : Machine :=
  schedule ({ m with
    allList := m.allList.erase m.current
    exited := m.exited ++ [m.current] }.setStatus m.current .dying)

/-- The test in `sema_down`. -/
def Machine.testSema (m : Machine) (s : Nat) : Machine :=
  let (sema, taken) := semaDown (m.sema s) m.current
  let m := { m with sema := Function.update m.sema s sema }
  if taken then { m with wait := Function.update m.wait m.current .nothing }
  else threadBlock { m with wait := Function.update m.wait m.current (.down s) }

def Machine.upSema (m : Machine) (s : Nat) : Option Machine :=
  let (sema, first) := semaUp (m.sema s)
  let m := { m with sema := Function.update m.sema s sema }
  match first with
  | none => some m
  | some t => threadUnblock m t

def initThread (m : Machine) (page : Nat) : Machine :=
  { m with
    status := Function.update m.status m.nextThread (some .blocked)
    page := Function.update m.page m.nextThread page
    wait := Function.update m.wait m.nextThread .nothing
    making := Function.update (Function.update m.making m.nextThread .nothing) m.current
      (.made m.nextThread)
    allList := m.allList ++ [m.nextThread]
    nextThread := m.nextThread + 1 }

inductive Action where
  | block
  | unblock (t : Tid)
  | yield
  | exit
  | down (s : Nat)
  -- the test again, after `thread_block`
  | retest
  | up (s : Nat)
  -- the three parts of `ptr_thread_create`, the page is the one `palloc_get_page` returns
  | getPage (page : Option Nat)
  | init
  | start
  deriving DecidableEq, Repr

def step (m : Machine) (action : Action) : Option Machine :=
  match action, m.wait m.current with
  -- interrupts are off between `thread_block` and the test
  | .retest, .down s => some (m.testSema s)
  | _, .down _ => none
  | .yield, _ => some (threadYield m)
  | .unblock t, _ => threadUnblock m t
  | .up s, _ => m.upSema s
  | .block, _ =>
      if m.making m.current = .nothing then
        some (threadBlock { m with wait := Function.update m.wait m.current .block })
      else none
  | .exit, _ =>
      if m.current ≠ m.idleThread ∧ m.making m.current = .nothing then some (threadExit m) else none
  | .down s, _ => if m.current ≠ m.idleThread then some (m.testSema s) else none
  | .getPage page, _ =>
      if m.current ≠ m.idleThread ∧ m.making m.current = .nothing then
        match page with
        | none => some m
        | some page =>
            if page ∈ m.usedPages then none
            else some { m with
              making := Function.update m.making m.current (.allocated page)
              usedPages := page :: m.usedPages }
      else none
  | .init, _ =>
      match m.making m.current with
      | .allocated page => some (initThread m page)
      | _ => none
  | .start, _ =>
      match m.making m.current with
      | .made t =>
          threadUnblock { m with making := Function.update m.making m.current .nothing } t
      | _ => none
  | .retest, _ => none

/-- After `thread_start`; the timer may have preempted the idle thread before its first
`thread_block`. -/
def boot (values : Nat → Nat) (preempted : Bool) : Machine where
  status := fun t =>
    if t = 1 then some .running
    else if t = 2 then some (if preempted then .ready else .blocked) else none
  page := fun t => if t = 1 then 0 else 1
  wait := fun t => if t = 2 ∧ preempted = false then .block else .nothing
  making := fun _ => .nothing
  readyList := []
  allList := [1, 2]
  idleThread := 2
  initialThread := 1
  current := 1
  sema := fun s => semaInit (values s)
  usedPages := [0, 1]
  nextThread := 3
  readied := fun _ => 0
  clock := 0
  exited := []
  freed := []

/-- `thread_unblock` is for a thread that has called `thread_block` itself, and not for the idle
thread. -/
def Proper (m : Machine) : Action → Prop
  | .unblock t => m.wait t = .block ∧ t ≠ m.idleThread
  | _ => True

instance (m : Machine) (action : Action) : Decidable (Proper m action) := by
  cases action <;> unfold Proper <;> infer_instance

/-- `who` runs, and `leaving` is off `all_list` while its page is not free yet. -/
structure Queued (who leaving : Option Tid) (m : Machine) : Prop where
  running : ∀ t, m.status t = some .running ↔ who = some t
  dying : ∀ t, m.status t = some .dying ↔ leaving = some t ∨ t = m.initialThread ∧ t ∈ m.exited
  ready : ∀ t, t ∈ m.readyList ↔ m.status t = some .ready ∧ t ≠ m.idleThread
  order : m.readyList.Pairwise fun first later => m.readied first < m.readied later
  early : ∀ t ∈ m.readyList, m.readied t < m.clock
  waiting : ∀ t s, t ∈ (m.sema s).waiters ↔ m.status t = some .blocked ∧ m.wait t = .down s
  waitingOnce : ∀ s, (m.sema s).waiters.Nodup
  all : ∀ t, t ∈ m.allList ↔ (1 ≤ t ∧ t < m.nextThread) ∧ t ∉ m.exited
  allOnce : m.allList.Nodup
  present : ∀ t, (m.status t).isSome = true ↔
    t ∈ m.allList ∨ leaving = some t ∨ t = m.initialThread ∧ t ∈ m.exited
  made : ∀ creator t, m.making creator = .made t →
    m.status t = some .blocked ∧ m.wait t = .nothing ∧ t ≠ m.idleThread
  madeOnce : ∀ first second t, m.making first = .made t → m.making second = .made t →
    first = second
  allocated : ∀ creator page, m.making creator = .allocated page →
    page ∈ m.usedPages ∧ ∀ t, (m.status t).isSome = true → m.page t ≠ page
  allocatedOnce : ∀ first second page, m.making first = .allocated page →
    m.making second = .allocated page → first = second
  used : ∀ t, (m.status t).isSome = true → m.page t ∈ m.usedPages
  usedOnce : m.usedPages.Nodup
  pages : ∀ t u, (m.status t).isSome = true → (m.status u).isSome = true → m.page t = m.page u → t = u
  idle : m.idleThread ∈ m.allList ∧ (∀ s, m.wait m.idleThread ≠ .down s) ∧
    m.making m.idleThread = .nothing ∧ m.idleThread ≠ m.initialThread
  known : ∀ t ∈ m.exited, 1 ≤ t ∧ t < m.nextThread
  exitedOnce : m.exited.Nodup
  left : ∀ t, leaving = some t → t ∈ m.exited
  freed : m.exited.filter (fun t => t ≠ m.initialThread) =
    m.freed.map Prod.fst ++ leaving.toList.filter (fun t => t ≠ m.initialThread)
  freedApart : ∀ entry ∈ m.freed, entry.1 ≠ entry.2

section Switching

variable {m : Machine} {who leaving : Option Tid}

@[simp] theorem set_status_ready_list {t : Tid} {status : ThreadStatus} :
    (m.setStatus t status).readyList = m.readyList := rfl
@[simp] theorem set_status_sema {t : Tid} {status : ThreadStatus} :
    (m.setStatus t status).sema = m.sema := rfl
@[simp] theorem set_status_wait {t : Tid} {status : ThreadStatus} :
    (m.setStatus t status).wait = m.wait := rfl
@[simp] theorem set_status_idle_thread {t : Tid} {status : ThreadStatus} :
    (m.setStatus t status).idleThread = m.idleThread := rfl

theorem set_status_here {t : Tid} {status : ThreadStatus} :
    (m.setStatus t status).status t = some status := Function.update_self ..

theorem set_status_other {t u : Tid} {status : ThreadStatus} (other : u ≠ t) :
    (m.setStatus t status).status u = m.status u := Function.update_of_ne other ..

theorem set_status_some {t : Tid} {status : ThreadStatus} (there : (m.status t).isSome = true)
    (u : Tid) : ((m.setStatus t status).status u).isSome = (m.status u).isSome := by
  by_cases same : u = t
  · rw [same, set_status_here, there]
    rfl
  · rw [set_status_other same]

/-- The thread at the head of the run queue, or the idle thread, runs. -/
theorem picked_queued (queued : Queued none leaving m) :
    Queued (some (nextThreadToRun m).1) leaving
      ({ (nextThreadToRun m).2 with current := (nextThreadToRun m).1 }.setStatus
        (nextThreadToRun m).1 .running) := by
  have idleThere : (m.status m.idleThread).isSome = true :=
    (queued.present _).mpr (.inl queued.idle.1)
  -- what becomes of the status of the chosen thread
  have chosen : ∀ next rest, (m.status next).isSome = true → m.status next ≠ some .dying →
      (∀ s, m.status next = some .blocked → m.wait next ≠ .down s) →
      (∀ creator, m.making creator ≠ .made next) →
      (∀ t, t ∈ rest ↔ (m.status t = some .ready ∧ t ≠ m.idleThread) ∧ t ≠ next) →
      rest.Sublist m.readyList →
      Queued (some next) leaving
        (({ m with readyList := rest, current := next } : Machine).setStatus next .running) := by
    intro next rest there living notAsleep notMade queue fewer
    have isSome := @set_status_some { m with readyList := rest, current := next } next .running there
    refine { queued with
      running := ?_, dying := ?_, ready := ?_, order := queued.order.sublist fewer, early := ?_,
      waiting := ?_, present := ?_, made := ?_, allocated := ?_, used := ?_, pages := ?_ }
    · intro t
      by_cases same : t = next
      · rw [same, set_status_here]
        exact iff_of_true rfl rfl
      · rw [set_status_other same]
        refine (queued.running t).trans (iff_of_false (fun impossible => (by cases impossible)) ?_)
        exact fun isNext => same (Option.some.inj isNext).symm
    · intro t
      by_cases same : t = next
      · rw [same, set_status_here]
        exact iff_of_false (by simp) fun dying => living ((queued.dying next).mpr dying)
      · rw [set_status_other same]
        exact queued.dying t
    · intro t
      by_cases same : t = next
      · rw [same, set_status_here]
        exact iff_of_false (fun member => ((queue next).mp member).2 rfl) (by simp)
      · rw [set_status_other same]
        exact (queue t).trans (and_iff_left same)
    · exact fun t member => queued.early t (fewer.subset member)
    · intro t s
      by_cases same : t = next
      · rw [same, set_status_here]
        refine iff_of_false (fun waits => ?_) (by simp)
        obtain ⟨asleep, inLoop⟩ := (queued.waiting next s).mp waits
        exact notAsleep s asleep inLoop
      · rw [set_status_other same]
        exact queued.waiting t s
    · intro t
      rw [isSome]
      exact queued.present t
    · intro creator t made
      have before := queued.made creator t made
      have different : t ≠ next := by
        rintro rfl
        exact notMade creator made
      rw [set_status_other different]
      exact before
    · intro creator page has
      obtain ⟨used, apart⟩ := queued.allocated creator page has
      refine ⟨used, fun t => ?_⟩
      rw [isSome]
      exact apart t
    · intro t
      rw [isSome]
      exact queued.used t
    · intro t u
      rw [isSome, isSome]
      exact queued.pages t u
  unfold nextThreadToRun
  cases queue : m.readyList with
  | nil =>
      have noneReady : ∀ t, m.status t = some .ready → t = m.idleThread := by
        intro t ready
        by_contra notIdle
        have member := (queued.ready t).mpr ⟨ready, notIdle⟩
        rw [queue] at member
        cases member
      have result := chosen m.idleThread [] idleThere ?_ ?_ ?_ ?_ (List.nil_sublist _)
      · dsimp only
        rw [← queue] at result
        exact result
      · intro dying
        rcases (queued.dying _).mp dying with leaves | ⟨isInitial, _⟩
        · exact ((queued.all _).mp queued.idle.1).2 (queued.left _ leaves)
        · exact queued.idle.2.2.2 isInitial
      · exact fun s _ => queued.idle.2.1 s
      · exact fun creator made => (queued.made creator _ made).2.2 rfl
      · intro t
        refine iff_of_false List.not_mem_nil ?_
        rintro ⟨⟨ready, notIdle⟩, _⟩
        exact notIdle (noneReady t ready)
  | cons first rest =>
      obtain ⟨ready, notIdle⟩ := (queued.ready first).mp (by rw [queue]; exact List.mem_cons_self)
      have once : (first :: rest).Nodup := by
        rw [← queue]
        exact queued.order.imp fun less => by
          rintro rfl
          exact absurd less (Nat.lt_irrefl _)
      obtain ⟨notAgain, _⟩ := List.nodup_cons.mp once
      refine chosen first rest ?_ ?_ ?_ ?_ ?_ (by rw [queue]; exact List.sublist_cons_self ..)
      · rw [ready]
        rfl
      · rw [ready]
        decide
      · rw [ready]
        exact fun s impossible => (by cases impossible)
      · intro creator made
        rw [(queued.made creator first made).1] at ready
        cases ready
      · intro t
        rw [← queued.ready t, queue, List.mem_cons]
        constructor
        · intro later
          refine ⟨.inr later, ?_⟩
          rintro rfl
          exact notAgain later
        · rintro ⟨isFirst | later, different⟩
          · exact absurd isFirst different
          · exact later

/-- The page of the thread that leaves is freed by the one that runs. -/
theorem freed_queued {t : Tid} (queued : Queued (some m.current) (some t) m)
    (notInitial : t ≠ m.initialThread) : Queued (some m.current) none (pallocFreePage m t) := by
  have gone : t ∈ m.exited := queued.left t rfl
  have dying : m.status t = some .dying := (queued.dying t).mpr (.inl rfl)
  have there : (m.status t).isSome = true := by
    rw [dying]
    rfl
  have here : (pallocFreePage m t).status t = none := Function.update_self ..
  have other : ∀ {u}, u ≠ t → (pallocFreePage m t).status u = m.status u := by
    intro u different
    exact Function.update_of_ne different ..
  have stays : ∀ u, ((pallocFreePage m t).status u).isSome = true ↔
      (m.status u).isSome = true ∧ u ≠ t := by
    intro u
    by_cases same : u = t
    · rw [same, here]
      simp
    · rw [other same]
      exact (and_iff_left same).symm
  have keeps : ∀ u status, status ≠ .dying →
      ((pallocFreePage m t).status u = some status ↔ m.status u = some status) := by
    intro u status notDying
    by_cases same : u = t
    · rw [same, here, dying]
      refine iff_of_false (by simp) fun eq => notDying (Option.some.inj eq).symm
    · rw [other same]
  refine { queued with
    running := ?_, dying := ?_, ready := ?_, waiting := ?_, present := ?_, made := ?_,
    allocated := ?_, used := ?_, usedOnce := queued.usedOnce.erase _, pages := ?_,
    left := fun _ impossible => (by cases impossible), freed := ?_, freedApart := ?_ }
  · intro u
    rw [keeps u .running (by decide)]
    exact queued.running u
  · intro u
    by_cases same : u = t
    · rw [same, here]
      refine iff_of_false (by simp) ?_
      rintro (impossible | ⟨isInitial, _⟩)
      · cases impossible
      · exact notInitial isInitial
    · rw [other same]
      refine (queued.dying u).trans (or_congr_left (iff_of_false ?_ (by simp)))
      exact fun isLeaving => same (Option.some.inj isLeaving).symm
  · intro u
    rw [keeps u .ready (by decide)]
    exact queued.ready u
  · intro u s
    rw [keeps u .blocked (by decide)]
    exact queued.waiting u s
  · intro u
    rw [stays, queued.present]
    constructor
    · rintro ⟨listed | isLeaving | initial, different⟩
      · exact .inl listed
      · exact absurd (Option.some.inj isLeaving).symm different
      · exact .inr (.inr initial)
    · rintro (listed | impossible | initial)
      · refine ⟨.inl listed, ?_⟩
        rintro rfl
        exact ((queued.all u).mp listed).2 gone
      · cases impossible
      · refine ⟨.inr (.inr initial), ?_⟩
        rintro rfl
        exact notInitial initial.1
  · intro creator u made
    obtain ⟨blocked, rest⟩ := queued.made creator u made
    exact ⟨(keeps u .blocked (by decide)).mpr blocked, rest⟩
  · intro creator page has
    obtain ⟨used, apart⟩ := queued.allocated creator page has
    refine ⟨(List.mem_erase_of_ne (apart t there).symm).mpr used, fun u present => ?_⟩
    exact apart u ((stays u).mp present).1
  · intro u present
    obtain ⟨before, different⟩ := (stays u).mp present
    refine (List.mem_erase_of_ne fun same => different ?_).mpr (queued.used u before)
    exact queued.pages u t before there same
  · intro u v first second same
    exact queued.pages u v ((stays u).mp first).1 ((stays v).mp second).1 same
  · have all := queued.freed
    have kept : [t].filter (fun u => u ≠ m.initialThread) = [t] := by simp [notInitial]
    rw [Option.toList_some, kept] at all
    rw [Option.toList_none, List.filter_nil, List.append_nil]
    dsimp only [pallocFreePage]
    rw [List.map_append]
    exact all
  · intro entry member
    rcases List.mem_append.mp member with earlier | last
    · exact queued.freedApart entry earlier
    · rw [List.mem_singleton] at last
      rw [last]
      intro same
      have runs := (queued.running m.current).mpr rfl
      dsimp only at same
      rw [← same, dying] at runs
      cases runs

/-- The page of the initial thread is not freed. -/
theorem initial_queued (queued : Queued who (some m.initialThread) m) : Queued who none m := by
  have gone := queued.left m.initialThread rfl
  refine { queued with dying := ?_, present := ?_, left := ?_, freed := ?_ }
  · intro t
    rw [queued.dying t]
    constructor
    · rintro (leaves | initial)
      · rw [← Option.some.inj leaves]
        exact .inr ⟨rfl, gone⟩
      · exact .inr initial
    · rintro (impossible | initial)
      · cases impossible
      · exact .inr initial
  · intro t
    rw [queued.present t]
    constructor
    · rintro (listed | leaves | initial)
      · exact .inl listed
      · rw [← Option.some.inj leaves]
        exact .inr (.inr ⟨rfl, gone⟩)
      · exact .inr (.inr initial)
    · rintro (listed | impossible | initial)
      · exact .inl listed
      · cases impossible
      · exact .inr (.inr initial)
  · exact fun _ impossible => (by cases impossible)
  · rw [queued.freed]
    simp

theorem schedule_queued (queued : Queued none leaving m)
    (self : leaving = none ∨ leaving = some m.current) :
    Queued (some (schedule m).current) none (schedule m) := by
  have picked := picked_queued queued
  have same : (nextThreadToRun m).2.current = m.current := by
    unfold nextThreadToRun
    split <;> rfl
  unfold schedule
  dsimp only
  rw [same]
  generalize nextThreadToRun m = pick at picked same
  obtain ⟨next, rest⟩ := pick
  dsimp only at picked same
  unfold threadScheduleTail
  by_cases stays : m.current = next
  · -- a thread that leaves is not chosen
    have noneLeaves : leaving = none := by
      rcases self with isNone | leaves
      · exact isNone
      · have dying := (picked.dying m.current).mpr (.inl leaves)
        rw [stays] at dying
        rw [set_status_here] at dying
        cases dying
    rw [if_pos stays]
    rw [noneLeaves] at picked
    exact picked
  · rw [if_neg stays]
    dsimp only
    split
    · next dies =>
      obtain ⟨dying, notInitial⟩ := dies
      rcases (picked.dying m.current).mp dying with leaves | ⟨isInitial, _⟩
      · rw [leaves] at picked
        exact freed_queued picked notInitial
      · exact absurd isInitial notInitial
    · next lives =>
      rcases self with isNone | leaves
      · rw [isNone] at picked
        exact picked
      · have dying := (picked.dying m.current).mpr (.inl leaves)
        have isInitial : m.current =
            ({ rest with current := next }.setStatus next .running).initialThread := by
          by_contra notInitial
          exact lives ⟨dying, notInitial⟩
        rw [leaves, isInitial] at picked
        exact initial_queued picked

end Switching

end UtSystems.Threads.Scheduler

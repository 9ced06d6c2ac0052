import UtSystems.Threads.Scheduler

/-!
# What every run keeps in the queues

One lemma an operation: which queue it takes a thread from, and which it puts it into. Each ends in
`schedule`, or leaves the running thread where it is.
-/

namespace UtSystems.Threads.SchedulerQueues

open Lib.GuardedRun Threads.Synch Threads.Scheduler

set_option autoImplicit false

section Steps

variable {m next : Machine} {t : Tid}

theorem current_running (queued : Queued (some m.current) none m) :
    m.status m.current = some .running := (queued.running _).mpr rfl

/-- A thread put behind the others has become ready after them. -/
theorem pushed_order {queue : List Tid} {readied : Tid → Nat} {clock : Nat}
    (order : queue.Pairwise fun first later => readied first < readied later)
    (early : ∀ u ∈ queue, readied u < clock) (new : t ∉ queue) :
    (queue ++ [t]).Pairwise fun first later =>
      Function.update readied t clock first < Function.update readied t clock later := by
  have same : ∀ u ∈ queue, Function.update readied t clock u = readied u := by
    intro u member
    apply Function.update_of_ne
    rintro rfl
    exact new member
  refine List.pairwise_append.mpr ⟨?_, List.pairwise_singleton _ _, ?_⟩
  · refine order.imp_of_mem fun first second less => ?_
    rw [same _ first, same _ second]
    exact less
  · intro u member v last
    rw [List.mem_singleton.mp last, Function.update_self, same u member]
    exact early u member

theorem pushed_early {queue : List Tid} {readied : Tid → Nat} {clock : Nat}
    (early : ∀ u ∈ queue, readied u < clock) :
    ∀ u ∈ queue ++ [t], Function.update readied t clock u < clock + 1 := by
  intro u member
  by_cases same : u = t
  · rw [same, Function.update_self]
    exact Nat.lt_succ_self clock
  · rw [Function.update_of_ne same]
    rcases List.mem_append.mp member with before | last
    · exact Nat.lt_succ_of_lt (early u before)
    · exact absurd (List.mem_singleton.mp last) same

/-- The running thread is in no queue. -/
theorem current_apart (queued : Queued (some m.current) none m) :
    m.current ∉ m.readyList ∧ (∀ s, m.current ∉ (m.sema s).waiters) ∧
      ∀ creator, m.making creator ≠ .made m.current := by
  have runs := current_running queued
  refine ⟨fun member => ?_, fun s member => ?_, fun creator made => ?_⟩
  · rw [((queued.ready _).mp member).1] at runs
    cases runs
  · rw [((queued.waiting _ s).mp member).1] at runs
    cases runs
  · rw [(queued.made creator _ made).1] at runs
    cases runs

/-- The running thread gets another status, `ready` or `blocked`, and is put in the queue that
goes with it. -/
theorem stops_queued (queued : Queued (some m.current) none m) {status : ThreadStatus}
    {wait : Wait} {readyList : List Tid} {readied : Tid → Nat} {clock : Nat}
    {sema : Nat → Semaphore} (stopped : status = .ready ∨ status = .blocked)
    (ready : ∀ u, u ∈ readyList ↔
      u ∈ m.readyList ∨ u = m.current ∧ status = .ready ∧ m.current ≠ m.idleThread)
    (order : readyList.Pairwise fun first later => readied first < readied later)
    (early : ∀ u ∈ readyList, readied u < clock)
    (waiting : ∀ u s, u ∈ (sema s).waiters ↔
      u ∈ (m.sema s).waiters ∨ u = m.current ∧ status = .blocked ∧ wait = .down s)
    (waitingOnce : ∀ s, (sema s).waiters.Nodup)
    (idle : m.current = m.idleThread → ∀ s, wait ≠ .down s) :
    Queued none none (({ m with
      wait := Function.update m.wait m.current wait, readyList := readyList, readied := readied,
      clock := clock, sema := sema } : Machine).setStatus m.current status) := by
  have runs := current_running queued
  obtain ⟨notReady, notWaiting, notMade⟩ := current_apart queued
  have there : (m.status m.current).isSome = true := by
    rw [runs]
    rfl
  have isSome := @set_status_some { m with
      wait := Function.update m.wait m.current wait, readyList := readyList, readied := readied,
      clock := clock, sema := sema } m.current status there
  refine { queued with
    running := ?_, dying := ?_, ready := ?_, order := order, early := early, waiting := ?_,
    waitingOnce := waitingOnce, present := ?_, made := ?_, allocated := ?_, used := ?_,
    pages := ?_, idle := ?_ }
  · intro u
    refine iff_of_false ?_ (by simp)
    by_cases same : u = m.current
    · rw [same, set_status_here]
      rcases stopped with rfl | rfl <;> decide
    · rw [set_status_other same]
      exact fun running => same (Option.some.inj ((queued.running u).mp running)).symm
  · intro u
    by_cases same : u = m.current
    · rw [same, set_status_here]
      refine iff_of_false ?_ fun dying => ?_
      · rcases stopped with rfl | rfl <;> decide
      · rw [(queued.dying _).mpr dying] at runs
        cases runs
    · rw [set_status_other same]
      exact queued.dying u
  · intro u
    rw [set_status_ready_list, ready]
    by_cases same : u = m.current
    · rw [same, set_status_here]
      constructor
      · rintro (member | ⟨_, isReady, notIdle⟩)
        · exact absurd member notReady
        · exact ⟨congrArg some isReady, notIdle⟩
      · rintro ⟨isReady, notIdle⟩
        exact .inr ⟨rfl, Option.some.inj isReady, notIdle⟩
    · rw [set_status_other same]
      refine (or_iff_left ?_).trans (queued.ready u)
      exact fun isCurrent => same isCurrent.1
  · intro u s
    rw [set_status_sema, waiting]
    by_cases same : u = m.current
    · rw [same, set_status_here, set_status_wait]
      dsimp only
      rw [Function.update_self]
      constructor
      · rintro (member | ⟨_, isBlocked, inLoop⟩)
        · exact absurd member (notWaiting s)
        · exact ⟨congrArg some isBlocked, inLoop⟩
      · rintro ⟨isBlocked, inLoop⟩
        exact .inr ⟨rfl, Option.some.inj isBlocked, inLoop⟩
    · rw [set_status_other same, set_status_wait]
      dsimp only
      rw [Function.update_of_ne same]
      refine (or_iff_left ?_).trans (queued.waiting u s)
      exact fun isCurrent => same isCurrent.1
  · intro u
    rw [isSome]
    exact queued.present u
  · intro creator u made
    have different : u ≠ m.current := by
      rintro rfl
      exact notMade creator made
    rw [set_status_other different, set_status_wait]
    dsimp only
    rw [Function.update_of_ne different]
    exact queued.made creator u made
  · intro creator page has
    obtain ⟨used, apart⟩ := queued.allocated creator page has
    refine ⟨used, fun u => ?_⟩
    rw [isSome]
    exact apart u
  · intro u
    rw [isSome]
    exact queued.used u
  · intro u v
    rw [isSome, isSome]
    exact queued.pages u v
  · obtain ⟨listed, notDown, rest⟩ := queued.idle
    refine ⟨listed, fun s => ?_, rest⟩
    rw [set_status_wait]
    by_cases same : m.idleThread = m.current
    · rw [set_status_idle_thread]
      dsimp only
      rw [same, Function.update_self]
      exact idle same.symm s
    · rw [set_status_idle_thread]
      dsimp only
      rw [Function.update_of_ne same]
      exact notDown s

/-- The running thread is off `all_list` and dying. -/
theorem leaves_queued (queued : Queued (some m.current) none m) (notIdle : m.current ≠ m.idleThread) :
    Queued none (some m.current) (({ m with
      allList := m.allList.erase m.current
      exited := m.exited ++ [m.current] } : Machine).setStatus m.current .dying) := by
  have runs := current_running queued
  obtain ⟨notReady, notWaiting, notMade⟩ := current_apart queued
  have there : (m.status m.current).isSome = true := by
    rw [runs]
    rfl
  have living : ¬(m.current = m.initialThread ∧ m.current ∈ m.exited) := by
    intro gone
    rw [(queued.dying _).mpr (.inr gone)] at runs
    cases runs
  have listed : m.current ∈ m.allList := by
    rcases (queued.present _).mp there with listed | impossible | gone
    · exact listed
    · cases impossible
    · exact absurd gone living
  obtain ⟨known, new⟩ := (queued.all _).mp listed
  have isSome := @set_status_some { m with
      allList := m.allList.erase m.current
      exited := m.exited ++ [m.current] } m.current .dying there
  refine { queued with
    running := ?_, dying := ?_, ready := ?_, waiting := ?_, all := ?_,
    allOnce := queued.allOnce.erase _, present := ?_, made := ?_, allocated := ?_, used := ?_,
    pages := ?_, idle := ?_, known := ?_, exitedOnce := ?_, left := ?_, freed := ?_ }
  · intro u
    refine iff_of_false ?_ (by simp)
    by_cases same : u = m.current
    · rw [same, set_status_here]
      decide
    · rw [set_status_other same]
      exact fun running => same (Option.some.inj ((queued.running u).mp running)).symm
  · intro u
    by_cases same : u = m.current
    · rw [same, set_status_here]
      exact iff_of_true rfl (.inl rfl)
    · rw [set_status_other same]
      refine (queued.dying u).trans ?_
      constructor
      · rintro (impossible | ⟨isInitial, gone⟩)
        · cases impossible
        · exact .inr ⟨isInitial, List.mem_append_left _ gone⟩
      · rintro (isCurrent | ⟨isInitial, gone⟩)
        · exact absurd (Option.some.inj isCurrent).symm same
        · rcases List.mem_append.mp gone with before | last
          · exact .inr ⟨isInitial, before⟩
          · exact absurd (List.mem_singleton.mp last) same
  · intro u
    by_cases same : u = m.current
    · rw [same, set_status_here]
      exact iff_of_false notReady (by simp)
    · rw [set_status_other same]
      exact queued.ready u
  · intro u s
    by_cases same : u = m.current
    · rw [same, set_status_here]
      exact iff_of_false (notWaiting s) (by simp)
    · rw [set_status_other same]
      exact queued.waiting u s
  · intro u
    refine (queued.allOnce.mem_erase_iff).trans ?_
    rw [queued.all]
    dsimp only [Machine.setStatus]
    rw [List.mem_append, List.mem_singleton, not_or]
    tauto
  · intro u
    rw [isSome, queued.present]
    dsimp only [Machine.setStatus]
    rw [queued.allOnce.mem_erase_iff, List.mem_append, List.mem_singleton, Option.some.injEq]
    by_cases same : u = m.current
    · exact iff_of_true (by rw [same]; exact .inl listed) (.inr (.inl same.symm))
    · have other : m.current ≠ u := fun eq => same eq.symm
      simp [same, other]
  · intro creator u made
    have different : u ≠ m.current := by
      rintro rfl
      exact notMade creator made
    rw [set_status_other different]
    exact queued.made creator u made
  · intro creator page has
    obtain ⟨used, apart⟩ := queued.allocated creator page has
    refine ⟨used, fun u => ?_⟩
    rw [isSome]
    exact apart u
  · intro u
    rw [isSome]
    exact queued.used u
  · intro u v
    rw [isSome, isSome]
    exact queued.pages u v
  · obtain ⟨idleListed, rest⟩ := queued.idle
    exact ⟨(List.mem_erase_of_ne fun same => notIdle same.symm).mpr idleListed, rest⟩
  · intro u gone
    rcases List.mem_append.mp gone with before | last
    · exact queued.known u before
    · rw [List.mem_singleton] at last
      rw [last]
      exact known
  · refine List.nodup_append.mpr ⟨queued.exitedOnce, List.nodup_singleton _, ?_⟩
    rintro u gone v last rfl
    rw [List.mem_singleton.mp last] at gone
    exact new gone
  · intro u isCurrent
    rw [← Option.some.inj isCurrent]
    exact List.mem_append_right _ (List.mem_singleton_self _)
  · have before := queued.freed
    rw [Option.toList_none, List.filter_nil, List.append_nil] at before
    have all : (m.exited ++ [m.current]).filter (fun t => t ≠ m.initialThread) =
        m.freed.map Prod.fst ++ [m.current].filter (fun t => t ≠ m.initialThread) := by
      rw [List.filter_append, before]
    exact all

/-- A blocked thread that is not idle becomes ready; its node may come from a semaphore. -/
theorem readied_queued {who : Option Tid} (queued : Queued who none m) (blocked : m.status t = some .blocked)
    (notIdle : t ≠ m.idleThread) {sema : Nat → Semaphore} {making : Tid → Making}
    (waiting : ∀ u s, u ∈ (sema s).waiters ↔ u ∈ (m.sema s).waiters ∧ u ≠ t)
    (waitingOnce : ∀ s, (sema s).waiters.Nodup)
    (made : ∀ creator u, making creator = .made u → m.making creator = .made u ∧ u ≠ t)
    (allocated : ∀ creator page, making creator = .allocated page →
      m.making creator = .allocated page)
    (idle : making m.idleThread = .nothing) :
    Queued who none
      ((({ m with sema := sema, making := making } : Machine).pushReady t).setStatus t .ready) := by
  have there : (m.status t).isSome = true := by
    rw [blocked]
    rfl
  have notReady : t ∉ m.readyList := by
    intro member
    rw [((queued.ready t).mp member).1] at blocked
    cases blocked
  have isSome := @set_status_some (({ m with sema := sema, making := making } : Machine).pushReady t)
    t .ready there
  refine { queued with
    running := ?_, dying := ?_, ready := ?_, order := ?_, early := ?_, waiting := ?_,
    waitingOnce := waitingOnce, present := ?_, made := ?_, madeOnce := ?_, allocated := ?_,
    allocatedOnce := ?_, used := ?_, pages := ?_, idle := ?_ }
  · intro u
    by_cases same : u = t
    · rw [same, set_status_here]
      refine iff_of_false (by simp) fun isWho => ?_
      rw [(queued.running t).mpr isWho] at blocked
      cases blocked
    · rw [set_status_other same]
      exact queued.running u
  · intro u
    by_cases same : u = t
    · rw [same, set_status_here]
      refine iff_of_false (by simp) fun dying => ?_
      rw [(queued.dying t).mpr dying] at blocked
      cases blocked
    · rw [set_status_other same]
      exact queued.dying u
  · intro u
    rw [set_status_ready_list]
    dsimp only [Machine.pushReady]
    rw [List.mem_append, List.mem_singleton]
    by_cases same : u = t
    · rw [same, set_status_here]
      exact iff_of_true (.inr rfl) ⟨rfl, notIdle⟩
    · rw [set_status_other same, or_iff_left same]
      exact queued.ready u
  · rw [set_status_ready_list]
    dsimp only [Machine.pushReady, Machine.setStatus]
    exact pushed_order queued.order queued.early notReady
  · rw [set_status_ready_list]
    dsimp only [Machine.pushReady, Machine.setStatus]
    exact pushed_early queued.early
  · intro u s
    rw [set_status_sema, set_status_wait]
    dsimp only [Machine.pushReady]
    rw [waiting]
    by_cases same : u = t
    · rw [same, set_status_here]
      exact iff_of_false (fun both => both.2 rfl) (by simp)
    · rw [set_status_other same, and_iff_left same]
      exact queued.waiting u s
  · intro u
    rw [isSome]
    exact queued.present u
  · intro creator u isMade
    obtain ⟨before, different⟩ := made creator u isMade
    rw [set_status_other different]
    exact queued.made creator u before
  · intro first second u isFirst isSecond
    exact queued.madeOnce first second u (made first u isFirst).1 (made second u isSecond).1
  · intro creator page has
    obtain ⟨used, apart⟩ := queued.allocated creator page (allocated creator page has)
    refine ⟨used, fun u => ?_⟩
    rw [isSome]
    exact apart u
  · intro first second page isFirst isSecond
    exact queued.allocatedOnce first second page (allocated first page isFirst)
      (allocated second page isSecond)
  · intro u
    rw [isSome]
    exact queued.used u
  · intro u v
    rw [isSome, isSome]
    exact queued.pages u v
  · obtain ⟨listed, notDown, _, notInitial⟩ := queued.idle
    exact ⟨listed, notDown, idle, notInitial⟩

theorem block_queued (queued : Queued (some m.current) none m) :
    Queued (some (threadBlock { m with wait := Function.update m.wait m.current .block }).current)
      none (threadBlock { m with wait := Function.update m.wait m.current .block }) := by
  refine schedule_queued ?_ (.inl rfl)
  apply stops_queued queued (.inr rfl) (fun u => ?_) queued.order queued.early (fun u s => ?_)
    queued.waitingOnce (fun _ _ => by simp)
  · simp
  · simp

theorem yield_queued (queued : Queued (some m.current) none m) :
    Queued (some (threadYield m).current) none (threadYield m) := by
  have same : Function.update m.wait m.current (m.wait m.current) = m.wait :=
    Function.update_eq_self ..
  obtain ⟨notReady, notWaiting, _⟩ := current_apart queued
  unfold threadYield
  by_cases isIdle : m.current = m.idleThread
  · rw [if_pos isIdle]
    refine schedule_queued ?_ (.inl rfl)
    have stopped := @stops_queued m queued _ (m.wait m.current) _ _ _ _ (.inl rfl) (fun u => ?_)
      queued.order queued.early (fun u s => ?_) queued.waitingOnce ?_
    · rw [same] at stopped
      exact stopped
    · simp [isIdle]
    · simp
    · rw [isIdle]
      exact fun _ => queued.idle.2.1
  · rw [if_neg isIdle]
    refine schedule_queued ?_ (.inl rfl)
    have stopped := @stops_queued m queued _ (m.wait m.current) _ _ _ _ (.inl rfl) (fun u => ?_)
      (pushed_order queued.order queued.early notReady) (pushed_early queued.early)
      (fun u s => ?_) queued.waitingOnce (fun same => absurd same isIdle)
    · rw [same] at stopped
      exact stopped
    · simp [isIdle]
    · simp

theorem exit_queued (queued : Queued (some m.current) none m) (notIdle : m.current ≠ m.idleThread) :
    Queued (some (threadExit m).current) none (threadExit m) :=
  schedule_queued (leaves_queued queued notIdle) (.inr rfl)

theorem test_queued (queued : Queued (some m.current) none m) (notIdle : m.current ≠ m.idleThread)
    (s : Nat) : Queued (some (m.testSema s).current) none (m.testSema s) := by
  obtain ⟨_, notWaiting, notMade⟩ := current_apart queued
  unfold Machine.testSema semaDown
  by_cases empty : (m.sema s).value = 0
  · rw [if_pos empty]
    dsimp only
    rw [if_neg (by decide)]
    refine schedule_queued ?_ (.inl rfl)
    apply stops_queued queued (.inr rfl) (fun u => ?_) queued.order queued.early (fun u other => ?_)
      (fun other => ?_) (fun same => absurd same notIdle)
    · simp
    · by_cases same : other = s
      · rw [same, Function.update_self]
        simp
      · rw [Function.update_of_ne same]
        have different : s ≠ other := fun eq => same eq.symm
        simp [different]
    · by_cases same : other = s
      · rw [same, Function.update_self]
        refine List.nodup_append.mpr ⟨queued.waitingOnce s, List.nodup_singleton _, ?_⟩
        rintro u waits v last rfl
        rw [List.mem_singleton.mp last] at waits
        exact notWaiting s waits
      · rw [Function.update_of_ne same]
        exact queued.waitingOnce other
  · rw [if_neg empty]
    dsimp only
    rw [if_pos rfl]
    have waiters : ∀ other, (Function.update m.sema s { (m.sema s) with value := (m.sema s).value - 1 }
        other).waiters = (m.sema other).waiters := by
      intro other
      by_cases same : other = s
      · rw [same, Function.update_self]
      · rw [Function.update_of_ne same]
    refine { queued with waiting := ?_, waitingOnce := ?_, made := ?_, idle := ?_ }
    · intro u other
      dsimp only
      rw [waiters]
      by_cases same : u = m.current
      · rw [same, Function.update_self]
        exact iff_of_false (notWaiting other) (by simp)
      · rw [Function.update_of_ne same]
        exact queued.waiting u other
    · intro other
      dsimp only
      rw [waiters]
      exact queued.waitingOnce other
    · intro creator u made
      have different : u ≠ m.current := by
        rintro rfl
        exact notMade creator made
      dsimp only
      rw [Function.update_of_ne different]
      exact queued.made creator u made
    · obtain ⟨listed, notDown, rest⟩ := queued.idle
      refine ⟨listed, fun other => ?_, rest⟩
      dsimp only
      rw [Function.update_of_ne (fun same => notIdle same.symm)]
      exact notDown other

/-- `thread_unblock` of a thread that has called `thread_block` itself. -/
theorem unblock_queued {who : Option Tid} (queued : Queued who none m) (own : m.wait t = .block)
    (notIdle : t ≠ m.idleThread) (taken : threadUnblock m t = some next) :
    Queued who none next := by
  obtain ⟨blocked, eq⟩ := Option.ite_none_right_eq_some.mp taken
  cases eq
  apply readied_queued queued blocked notIdle (fun u s => ?_) queued.waitingOnce
    (fun creator u made => ⟨made, ?_⟩) (fun _ _ has => has) queued.idle.2.2.1
  · refine (and_iff_left_of_imp fun waits => ?_).symm
    rintro rfl
    rw [((queued.waiting u s).mp waits).2] at own
    cases own
  · rintro rfl
    rw [(queued.made creator u made).2.1] at own
    cases own

theorem start_queued {who : Option Tid} {creator : Tid} (queued : Queued who none m)
    (made : m.making creator = .made t)
    (taken : threadUnblock { m with making := Function.update m.making creator .nothing } t =
      some next) : Queued who none next := by
  obtain ⟨blocked, eq⟩ := Option.ite_none_right_eq_some.mp taken
  cases eq
  obtain ⟨_, notDown, notIdle⟩ := queued.made creator t made
  have fewer : ∀ other making, making ≠ .nothing →
      Function.update m.making creator .nothing other = making →
      m.making other = making ∧ other ≠ creator := by
    intro other making something has
    by_cases same : other = creator
    · rw [same, Function.update_self] at has
      exact absurd has.symm something
    · rw [Function.update_of_ne same] at has
      exact ⟨has, same⟩
  refine readied_queued queued blocked notIdle (fun u s => ?_) queued.waitingOnce
    (fun other u isMade => ?_) (fun other page has => ?_) ?_
  · refine (and_iff_left_of_imp fun waits => ?_).symm
    rintro rfl
    rw [((queued.waiting u s).mp waits).2] at notDown
    cases notDown
  · obtain ⟨before, different⟩ := fewer other (.made u) (by simp) isMade
    refine ⟨before, ?_⟩
    rintro rfl
    exact different (queued.madeOnce other creator u before made)
  · exact (fewer other (.allocated page) (by simp) has).1
  · by_cases same : m.idleThread = creator
    · rw [same, Function.update_self]
    · rw [Function.update_of_ne same]
      exact queued.idle.2.2.1

theorem up_queued {who : Option Tid} (queued : Queued who none m) {s : Nat}
    (taken : m.upSema s = some next) : Queued who none next := by
  unfold Machine.upSema semaUp at taken
  cases queue : (m.sema s).waiters with
  | nil =>
      rw [queue] at taken
      cases taken
      have waiters : ∀ other, (Function.update m.sema s
          { value := ((m.sema s).value + 1) % 2 ^ 32, waiters := [] } other).waiters =
          (m.sema other).waiters := by
        intro other
        by_cases same : other = s
        · rw [same, Function.update_self, queue]
        · rw [Function.update_of_ne same]
      refine { queued with waiting := fun u other => ?_, waitingOnce := fun other => ?_ }
      · dsimp only
        rw [waiters]
        exact queued.waiting u other
      · dsimp only
        rw [waiters]
        exact queued.waitingOnce other
  | cons first rest =>
      rw [queue] at taken
      dsimp only at taken
      obtain ⟨blocked, eq⟩ := Option.ite_none_right_eq_some.mp taken
      cases eq
      have once := queued.waitingOnce s
      rw [queue] at once
      obtain ⟨notAgain, restOnce⟩ := List.nodup_cons.mp once
      have inLoop : m.wait first = .down s :=
        ((queued.waiting first s).mp (by rw [queue]; exact List.mem_cons_self)).2
      apply readied_queued queued blocked _ (fun u other => ?_) (fun other => ?_)
        (fun creator u made => ⟨made, ?_⟩) (fun _ _ has => has) queued.idle.2.2.1
      · rintro rfl
        exact queued.idle.2.1 s inLoop
      · by_cases same : other = s
        · rw [same, Function.update_self, queue, List.mem_cons]
          dsimp only
          constructor
          · intro later
            refine ⟨.inr later, ?_⟩
            rintro rfl
            exact notAgain later
          · rintro ⟨isFirst | later, different⟩
            · exact absurd isFirst different
            · exact later
        · rw [Function.update_of_ne same]
          refine (and_iff_left_of_imp fun waits => ?_).symm
          rintro rfl
          have both := ((queued.waiting u other).mp waits).2
          rw [inLoop] at both
          cases both
          exact same rfl
      · by_cases same : other = s
        · rw [same, Function.update_self]
          exact restOnce
        · rw [Function.update_of_ne same]
          exact queued.waitingOnce other
      · rintro rfl
        rw [(queued.made creator u made).2.1] at inLoop
        cases inLoop

theorem get_page_queued {who : Option Tid} (queued : Queued who none m) {page : Nat} {creator : Tid}
    (notIdle : creator ≠ m.idleThread) (free : page ∉ m.usedPages) :
    Queued who none { m with
      making := Function.update m.making creator (.allocated page)
      usedPages := page :: m.usedPages } := by
  have cases_ : ∀ other making, Function.update m.making creator (.allocated page) other = making →
      other = creator ∧ making = .allocated page ∨ other ≠ creator ∧ m.making other = making := by
    intro other making has
    by_cases same : other = creator
    · rw [same, Function.update_self] at has
      exact .inl ⟨same, has.symm⟩
    · rw [Function.update_of_ne same] at has
      exact .inr ⟨same, has⟩
  refine { queued with
    made := fun other t made => ?_, madeOnce := fun first second t isFirst isSecond => ?_,
    allocated := fun other given has => ?_,
    allocatedOnce := fun first second given isFirst isSecond => ?_,
    used := fun t present => List.mem_cons_of_mem _ (queued.used t present),
    usedOnce := List.nodup_cons.mpr ⟨free, queued.usedOnce⟩, idle := ?_ }
  · rcases cases_ other _ made with ⟨_, impossible⟩ | ⟨_, before⟩
    · cases impossible
    · exact queued.made other t before
  · rcases cases_ first _ isFirst with ⟨_, impossible⟩ | ⟨_, firstBefore⟩
    · cases impossible
    rcases cases_ second _ isSecond with ⟨_, impossible⟩ | ⟨_, secondBefore⟩
    · cases impossible
    exact queued.madeOnce first second t firstBefore secondBefore
  · rcases cases_ other _ has with ⟨_, isNew⟩ | ⟨_, before⟩
    · cases isNew
      refine ⟨List.mem_cons_self, fun t present same => free ?_⟩
      rw [← same]
      exact queued.used t present
    · obtain ⟨used, apart⟩ := queued.allocated other given before
      exact ⟨List.mem_cons_of_mem _ used, apart⟩
  · have old : ∀ other, m.making other ≠ .allocated page :=
      fun other before => free (queued.allocated other page before).1
    rcases cases_ first _ isFirst with ⟨firstIs, firstNew⟩ | ⟨_, firstBefore⟩
    · rcases cases_ second _ isSecond with ⟨secondIs, _⟩ | ⟨_, secondBefore⟩
      · rw [firstIs, secondIs]
      · rw [firstNew] at secondBefore
        exact absurd secondBefore (old second)
    · rcases cases_ second _ isSecond with ⟨_, secondNew⟩ | ⟨_, secondBefore⟩
      · rw [secondNew] at firstBefore
        exact absurd firstBefore (old first)
      · exact queued.allocatedOnce first second given firstBefore secondBefore
  · obtain ⟨listed, notDown, notMaking, notInitial⟩ := queued.idle
    refine ⟨listed, notDown, ?_, notInitial⟩
    dsimp only
    rw [Function.update_of_ne (fun same => notIdle same.symm)]
    exact notMaking

theorem new_unlisted {who : Option Tid} (queued : Queued who none m) : m.nextThread ∉ m.allList :=
  fun listed => absurd ((queued.all _).mp listed).1.2 (Int.lt_irrefl _)

theorem new_not_exited {who : Option Tid} (queued : Queued who none m) : m.nextThread ∉ m.exited :=
  fun gone => absurd (queued.known _ gone).2 (Int.lt_irrefl _)

theorem new_absent {who : Option Tid} (queued : Queued who none m) : m.status m.nextThread = none := by
  cases there : m.status m.nextThread with
  | none => rfl
  | some status =>
      exfalso
      rcases (queued.present m.nextThread).mp (by rw [there]; rfl) with listed | no | gone
      · exact new_unlisted queued listed
      · cases no
      · exact new_not_exited queued gone.2

theorem init_status_new (m : Machine) (page : Nat) :
    (initThread m page).status m.nextThread = some .blocked :=
  Function.update_self ..

theorem init_status_old (page : Nat) (old : t ≠ m.nextThread) :
    (initThread m page).status t = m.status t :=
  Function.update_of_ne old ..

theorem init_page_new (m : Machine) (page : Nat) : (initThread m page).page m.nextThread = page :=
  Function.update_self ..

theorem init_page_old (page : Nat) (old : t ≠ m.nextThread) : (initThread m page).page t = m.page t :=
  Function.update_of_ne old ..

theorem init_wait_new (m : Machine) (page : Nat) : (initThread m page).wait m.nextThread = .nothing :=
  Function.update_self ..

theorem init_wait_old (page : Nat) (old : t ≠ m.nextThread) : (initThread m page).wait t = m.wait t :=
  Function.update_of_ne old ..

theorem init_present (m : Machine) (page : Nat) (t : Tid) :
    ((initThread m page).status t).isSome = true ↔
      (m.status t).isSome = true ∨ t = m.nextThread := by
  by_cases same : t = m.nextThread
  · rw [same, init_status_new]
    simp
  · rw [init_status_old page same]
    exact (or_iff_left same).symm

/-- What a thread is making after `init_thread`: the creator has made the new thread, which makes
    nothing, and every other thread goes on. -/
theorem init_makes {page : Nat} {creator : Tid} {making : Making}
    (has : (initThread m page).making creator = making) :
    creator = m.current ∧ making = .made m.nextThread ∨
    creator = m.nextThread ∧ making = .nothing ∨
    creator ≠ m.current ∧ creator ≠ m.nextThread ∧ m.making creator = making := by
  dsimp only [initThread] at has
  by_cases isCurrent : creator = m.current
  · rw [isCurrent, Function.update_self] at has
    exact .inl ⟨isCurrent, has.symm⟩
  rw [Function.update_of_ne isCurrent] at has
  by_cases isNew : creator = m.nextThread
  · rw [isNew, Function.update_self] at has
    exact .inr (.inl ⟨isNew, has.symm⟩)
  · rw [Function.update_of_ne isNew] at has
    exact .inr (.inr ⟨isCurrent, isNew, has⟩)

theorem new_never_made {who : Option Tid} (queued : Queued who none m) (creator : Tid) :
    m.making creator ≠ .made m.nextThread := by
  intro made
  have there := (queued.made creator _ made).1
  rw [new_absent queued] at there
  cases there

theorem init_made_once {who : Option Tid} (queued : Queued who none m) {page : Nat}
    {first second : Tid} (isFirst : (initThread m page).making first = .made t)
    (isSecond : (initThread m page).making second = .made t) : first = second := by
  rcases init_makes isFirst with ⟨firstIs, firstNew⟩ | ⟨_, impossible⟩ | ⟨_, _, firstBefore⟩
  · rcases init_makes isSecond with ⟨secondIs, _⟩ | ⟨_, impossible⟩ | ⟨_, _, secondBefore⟩
    · rw [firstIs, secondIs]
    · cases impossible
    · rw [firstNew] at secondBefore
      exact absurd secondBefore (new_never_made queued second)
  · cases impossible
  · rcases init_makes isSecond with ⟨_, secondNew⟩ | ⟨_, impossible⟩ | ⟨_, _, secondBefore⟩
    · rw [secondNew] at firstBefore
      exact absurd firstBefore (new_never_made queued first)
    · cases impossible
    · exact queued.madeOnce first second t firstBefore secondBefore

theorem init_allocates {page given : Nat} {creator : Tid}
    (has : (initThread m page).making creator = .allocated given) :
    creator ≠ m.current ∧ m.making creator = .allocated given := by
  rcases init_makes has with ⟨_, impossible⟩ | ⟨_, impossible⟩ | ⟨notCurrent, _, before⟩
  · cases impossible
  · cases impossible
  · exact ⟨notCurrent, before⟩

theorem init_allocated {who : Option Tid} (queued : Queued who none m) {page given : Nat}
    {creator : Tid} (allocated : m.making m.current = .allocated page)
    (has : (initThread m page).making creator = .allocated given) :
    given ∈ m.usedPages ∧
      ∀ u, ((initThread m page).status u).isSome = true → (initThread m page).page u ≠ given := by
  obtain ⟨notCurrent, before⟩ := init_allocates has
  obtain ⟨used, apart⟩ := queued.allocated creator given before
  refine ⟨used, fun u present => ?_⟩
  by_cases same : u = m.nextThread
  · rw [same, init_page_new]
    intro eq
    rw [eq] at allocated
    exact notCurrent (queued.allocatedOnce creator m.current given before allocated)
  · rw [init_page_old page same]
    exact apart u (((init_present m page u).mp present).resolve_right same)

theorem init_pages {who : Option Tid} (queued : Queued who none m) {page : Nat}
    (free : ∀ u, (m.status u).isSome = true → m.page u ≠ page) {u v : Tid}
    (first : ((initThread m page).status u).isSome = true)
    (second : ((initThread m page).status v).isSome = true)
    (same : (initThread m page).page u = (initThread m page).page v) : u = v := by
  have firstWas := (init_present m page u).mp first
  have secondWas := (init_present m page v).mp second
  by_cases firstNew : u = m.nextThread
  · by_cases secondNew : v = m.nextThread
    · rw [firstNew, secondNew]
    · rw [firstNew, init_page_new, init_page_old page secondNew] at same
      exact absurd same.symm (free v (secondWas.resolve_right secondNew))
  · by_cases secondNew : v = m.nextThread
    · rw [secondNew, init_page_new, init_page_old page firstNew] at same
      exact absurd same (free u (firstWas.resolve_right firstNew))
    · rw [init_page_old page firstNew, init_page_old page secondNew] at same
      exact queued.pages u v (firstWas.resolve_right firstNew) (secondWas.resolve_right secondNew) same

/-- A new thread is on `all_list`, blocked, and in no queue. -/
theorem init_queued (queued : Queued (some m.current) none m) {page : Nat}
    (allocated : m.making m.current = .allocated page) :
    Queued (some m.current) none (initThread m page) := by
  have positive : 1 ≤ m.nextThread := by
    obtain ⟨⟨least, most⟩, _⟩ := (queued.all _).mp queued.idle.1
    exact Int.le_trans least (Int.le_of_lt most)
  have absent : ∀ {status}, m.status m.nextThread ≠ some status := by
    intro status there
    rw [new_absent queued] at there
    cases there
  have currentOld : m.current ≠ m.nextThread := by
    intro same
    have runs := current_running queued
    rw [same] at runs
    exact absent runs
  have idleOld : m.idleThread ≠ m.nextThread := by
    intro same
    have listed := queued.idle.1
    rw [same] at listed
    exact new_unlisted queued listed
  have idleOther : m.idleThread ≠ m.current := by
    intro same
    have nothing := queued.idle.2.2.1
    rw [same, allocated] at nothing
    cases nothing
  obtain ⟨pageUsed, pageFree⟩ := queued.allocated m.current page allocated
  refine { queued with
    running := ?_, dying := ?_, ready := ?_, waiting := ?_, all := ?_, allOnce := ?_, present := ?_,
    made := ?_, madeOnce := fun _ _ _ => init_made_once queued,
    allocated := fun _ _ => init_allocated queued allocated, allocatedOnce := ?_, used := ?_,
    pages := fun _ _ => init_pages queued pageFree, idle := ?_, known := ?_ }
  · intro u
    by_cases same : u = m.nextThread
    · rw [same, init_status_new]
      exact iff_of_false (by simp) fun eq => currentOld (Option.some.inj eq)
    · rw [init_status_old page same]
      exact queued.running u
  · intro u
    by_cases same : u = m.nextThread
    · rw [same, init_status_new]
      exact iff_of_false (by simp) fun dying => absent ((queued.dying _).mpr dying)
    · rw [init_status_old page same]
      exact queued.dying u
  · intro u
    by_cases same : u = m.nextThread
    · rw [same, init_status_new]
      exact iff_of_false (fun member => absent ((queued.ready _).mp member).1) (by simp)
    · rw [init_status_old page same]
      exact queued.ready u
  · intro u s
    by_cases same : u = m.nextThread
    · rw [same, init_status_new, init_wait_new]
      exact iff_of_false (fun waits => absent ((queued.waiting _ s).mp waits).1) (by simp)
    · rw [init_status_old page same, init_wait_old page same]
      exact queued.waiting u s
  · intro u
    dsimp only [initThread]
    rw [List.mem_append, List.mem_singleton, queued.all]
    by_cases same : u = m.nextThread
    · rw [same]
      exact iff_of_true (.inr rfl) ⟨⟨positive, Int.lt_succ _⟩, new_not_exited queued⟩
    · rw [or_iff_left same]
      have bound : u < m.nextThread ↔ u < m.nextThread + 1 :=
        ⟨fun less => Int.lt_trans less (Int.lt_succ _),
          fun less => Int.lt_iff_le_and_ne.mpr ⟨Int.lt_add_one_iff.mp less, same⟩⟩
      rw [bound]
  · refine List.nodup_append.mpr ⟨queued.allOnce, List.nodup_singleton _, ?_⟩
    intro u listed v last same
    rw [same, List.mem_singleton.mp last] at listed
    exact new_unlisted queued listed
  · intro u
    rw [init_present, queued.present]
    dsimp only [initThread]
    rw [List.mem_append, List.mem_singleton]
    tauto
  · intro creator u made
    rcases init_makes made with ⟨_, isNew⟩ | ⟨_, impossible⟩ | ⟨_, _, before⟩
    · cases isNew
      rw [init_status_new, init_wait_new]
      exact ⟨rfl, rfl, fun same => idleOld same.symm⟩
    · cases impossible
    · have old : u ≠ m.nextThread := by
        intro same
        rw [same] at before
        exact new_never_made queued creator before
      rw [init_status_old page old, init_wait_old page old]
      exact queued.made creator u before
  · intro first second given isFirst isSecond
    have firstBefore := (init_allocates isFirst).2
    have secondBefore := (init_allocates isSecond).2
    exact queued.allocatedOnce first second given firstBefore secondBefore
  · intro u present
    by_cases same : u = m.nextThread
    · rw [same, init_page_new]
      exact pageUsed
    · rw [init_page_old page same]
      exact queued.used u (((init_present m page u).mp present).resolve_right same)
  · obtain ⟨listed, notDown, notMaking, notInitial⟩ := queued.idle
    refine ⟨List.mem_append_left _ listed, fun s => ?_, ?_, notInitial⟩
    · have same : (initThread m page).wait m.idleThread = m.wait m.idleThread :=
        init_wait_old page idleOld
      exact fun inLoop => notDown s (same.symm.trans inLoop)
    · dsimp only [initThread]
      rw [Function.update_of_ne idleOther, Function.update_of_ne idleOld]
      exact notMaking
  · intro u gone
    have before := queued.known u gone
    exact ⟨before.1, Int.lt_trans before.2 (Int.lt_succ _)⟩

end Steps

theorem unblock_current {m next : Machine} {t : Tid} (taken : threadUnblock m t = some next) :
    next.current = m.current := by
  obtain ⟨_, eq⟩ := Option.ite_none_right_eq_some.mp taken
  cases eq
  rfl

theorem up_current {m next : Machine} {s : Nat} (taken : m.upSema s = some next) :
    next.current = m.current := by
  unfold Machine.upSema at taken
  dsimp only at taken
  split at taken
  · cases taken
    rfl
  · have same := unblock_current taken
    exact same

theorem step_queued {m next : Machine} {action : Action} (queued : Queued (some m.current) none m)
    (proper : Proper m action) (taken : step m action = some next) :
    Queued (some next.current) none next := by
  unfold step at taken
  split at taken
  · next s inLoop =>
    cases taken
    apply test_queued queued
    intro isIdle
    rw [isIdle] at inLoop
    exact queued.idle.2.1 s inLoop
  · cases taken
  · cases taken
    exact yield_queued queued
  · rw [unblock_current taken]
    exact unblock_queued queued proper.1 proper.2 taken
  · rw [up_current taken]
    exact up_queued queued taken
  · obtain ⟨_, eq⟩ := Option.ite_none_right_eq_some.mp taken
    cases eq
    exact block_queued queued
  · obtain ⟨⟨notIdle, _⟩, eq⟩ := Option.ite_none_right_eq_some.mp taken
    cases eq
    exact exit_queued queued notIdle
  · next _ s _ =>
    obtain ⟨notIdle, eq⟩ := Option.ite_none_right_eq_some.mp taken
    cases eq
    exact test_queued queued notIdle s
  · obtain ⟨⟨notIdle, _⟩, got⟩ := Option.ite_none_right_eq_some.mp taken
    split at got
    · cases got
      exact queued
    · obtain ⟨free, eq⟩ := Option.ite_none_left_eq_some.mp got
      cases eq
      exact get_page_queued queued notIdle free
  · split at taken
    · next page allocated =>
      cases taken
      exact init_queued queued allocated
    · cases taken
  · split at taken
    · next t made =>
      rw [unblock_current taken]
      exact start_queued queued made taken
    · cases taken
  · cases taken

theorem boot_queued (values : Nat → Nat) (preempted : Bool) :
    Queued (some (boot values preempted).current) none (boot values preempted) := by
  have status : ∀ t, (boot values preempted).status t = if t = 1 then some .running
      else if t = 2 then some (if preempted then .ready else .blocked) else none := fun _ => rfl
  have present : ∀ t, ((boot values preempted).status t).isSome = true ↔ t = 1 ∨ t = 2 := by
    intro t
    rw [status]
    by_cases isInitial : t = 1
    · simp [isInitial]
    · by_cases isIdle : t = 2
      · simp [isIdle]
      · simp [isInitial, isIdle]
  constructor
  case running =>
    intro t
    rw [status]
    by_cases isInitial : t = 1
    · simp [isInitial, boot]
    · have other : ¬1 = t := fun same => isInitial same.symm
      by_cases isIdle : t = 2
      · cases preempted <;> simp [isIdle, boot]
      · simp [isInitial, isIdle, boot, other]
  case dying =>
    intro t
    rw [status]
    refine iff_of_false ?_ (by simp [boot])
    by_cases isInitial : t = 1
    · simp [isInitial]
    · by_cases isIdle : t = 2
      · cases preempted <;> simp [isIdle]
      · simp [isInitial, isIdle]
  case ready =>
    intro t
    rw [status]
    refine iff_of_false List.not_mem_nil ?_
    rintro ⟨ready, notIdle⟩
    have notIdle : t ≠ 2 := notIdle
    by_cases isInitial : t = 1
    · simp [isInitial] at ready
    · simp [isInitial, notIdle] at ready
  case order => exact List.Pairwise.nil
  case early => exact fun _ impossible => absurd impossible List.not_mem_nil
  case waiting =>
    intro t s
    refine iff_of_false List.not_mem_nil ?_
    rintro ⟨_, inLoop⟩
    have wait : (boot values preempted).wait t =
        if t = 2 ∧ preempted = false then .block else .nothing := rfl
    rw [wait] at inLoop
    split at inLoop <;> cases inLoop
  case waitingOnce => exact fun _ => List.nodup_nil
  case all =>
    intro t
    have listed : t ∈ (boot values preempted).allList ↔ t = 1 ∨ t = 2 := by simp [boot]
    rw [listed]
    constructor
    · rintro (rfl | rfl)
      · exact ⟨(by decide : (1 : Int) ≤ 1 ∧ (1 : Int) < 3), List.not_mem_nil⟩
      · exact ⟨(by decide : (1 : Int) ≤ 2 ∧ (2 : Int) < 3), List.not_mem_nil⟩
    · rintro ⟨⟨least, most⟩, _⟩
      have two : ∀ u : Int, 1 ≤ u → u < 3 → u = 1 ∨ u = 2 := by
        intro u
        omega
      exact two t least most
  case allOnce => exact (by decide : [(1 : Tid), 2].Nodup)
  case present =>
    intro t
    rw [present]
    simp [boot]
  case made => exact fun _ _ impossible => (by cases impossible)
  case madeOnce => exact fun _ _ _ impossible => (by cases impossible)
  case allocated => exact fun _ _ impossible => (by cases impossible)
  case allocatedOnce => exact fun _ _ _ impossible => (by cases impossible)
  case used =>
    intro t there
    rcases (present t).mp there with rfl | rfl
    · exact List.mem_cons_self
    · exact List.mem_cons_of_mem _ List.mem_cons_self
  case usedOnce => exact (by decide : [(0 : Nat), 1].Nodup)
  case pages =>
    intro t u first second same
    rcases (present t).mp first with rfl | rfl <;> rcases (present u).mp second with rfl | rfl
    · rfl
    · cases same
    · cases same
    · rfl
  case idle =>
    refine ⟨List.mem_cons_of_mem _ List.mem_cons_self, fun s => ?_, rfl, (by decide : (2 : Int) ≠ 1)⟩
    cases preempted <;> simp [boot]
  case known => exact fun _ impossible => absurd impossible List.not_mem_nil
  case exitedOnce => exact List.nodup_nil
  case left => exact fun _ impossible => (by cases impossible)
  case freed => rfl
  case freedApart => exact fun _ impossible => absurd impossible List.not_mem_nil

theorem reaches_queued {values : Nat → Nat} {preempted : Bool} {m : Machine}
    (run : Reaches step Proper (boot values preempted) m) : Queued (some m.current) none m :=
  reaches_invariant (fun m => Queued (some m.current) none m) (boot_queued values preempted)
    (fun _ _ _ queued proper taken => step_queued queued proper taken) run

/-- In every run one thread runs; `ready_list` holds the others that are ready, the idle thread
apart, in the order in which they have become ready; a thread blocked in `sema_down` is among the
waiters of that semaphore and nowhere else; `all_list` holds the threads that have not exited; and
of each that has, the initial thread apart, the page is freed once, while another thread runs. -/
theorem queues_hold_the_threads (values : Nat → Nat) (preempted : Bool) (m : Machine)
    (run : Reaches step Proper (boot values preempted) m) :
    (∀ t, m.status t = some .running ↔ t = m.current) ∧
    (m.readyList.Nodup ∧ (∀ t, t ∈ m.readyList ↔ m.status t = some .ready ∧ t ≠ m.idleThread) ∧
      m.readyList.Pairwise fun first later => m.readied first < m.readied later) ∧
    (∀ s, (m.sema s).waiters.Nodup) ∧
    (∀ t s, t ∈ (m.sema s).waiters ↔ m.status t = some .blocked ∧ m.wait t = .down s) ∧
    (∀ t s, t ∈ (m.sema s).waiters →
      t ∉ m.readyList ∧ ∀ other, t ∈ (m.sema other).waiters → other = s) ∧
    (m.allList.Nodup ∧
      ∀ t, t ∈ m.allList ↔ (1 ≤ t ∧ t < m.nextThread) ∧ t ∉ m.exited) ∧
    (m.exited.Nodup ∧ m.freed.map Prod.fst = m.exited.filter fun t => t ≠ m.initialThread) ∧
    ∀ entry ∈ m.freed, entry.1 ≠ entry.2 := by
  have queued := reaches_queued run
  have once : m.readyList.Nodup := queued.order.imp fun less => by
    rintro rfl
    exact absurd less (Nat.lt_irrefl _)
  have freed := queued.freed
  rw [Option.toList_none, List.filter_nil, List.append_nil] at freed
  refine ⟨fun t => ?_, ⟨once, queued.ready, queued.order⟩, queued.waitingOnce, queued.waiting,
    fun t s waits => ?_, ⟨queued.allOnce, queued.all⟩, ⟨queued.exitedOnce, freed.symm⟩,
    queued.freedApart⟩
  · rw [queued.running t, Option.some.injEq]
    exact eq_comm
  · obtain ⟨blocked, inLoop⟩ := (queued.waiting t s).mp waits
    refine ⟨fun member => ?_, fun other too => ?_⟩
    · rw [((queued.ready t).mp member).1] at blocked
      cases blocked
    · have both := ((queued.waiting t other).mp too).2
      rw [inLoop] at both
      exact (Wait.down.inj both).symm

/-- Thread 3 waits for semaphore 0, thread 4 has exited. -/
theorem queues_hold_the_threads_exit :
    ∃ m, Reaches step Proper (boot (fun _ => 0) false) m ∧ (m.sema 0).waiters = [3] ∧
      m.exited = [4] ∧ m.freed.map Prod.fst = [4] ∧ 3 ∉ m.readyList ∧
      ∀ entry ∈ m.freed, entry.1 ≠ entry.2 := by
  obtain ⟨m, run, passes⟩ := @reaches_of_check _ _ step Proper _ (boot (fun _ => 0) false)
    [.getPage (some 2), .init, .start, .getPage (some 3), .init, .start, .yield, .down 0, .exit]
    (fun m => (m.sema 0).waiters = [3] ∧ m.exited = [4] ∧ m.initialThread = 1) (by decide)
  obtain ⟨waiters, exited, initial⟩ := of_decide_eq_true passes
  obtain ⟨_, _, _, _, apart, _, ⟨_, freed⟩, others⟩ := queues_hold_the_threads _ _ m run
  refine ⟨m, run, waiters, exited, ?_, (apart 3 0 ?_).1, others⟩
  · rw [freed, exited, initial]
    rfl
  · rw [waiters]
    exact List.mem_singleton_self 3

/-- The page of the initial thread is never freed; and `thread_unblock` of a thread that waits for
a semaphore leaves its node in two lists. -/
theorem initial_page_is_kept :
    (∃ m, Reaches step (fun _ _ => True) (boot (fun _ => 0) false) m ∧ m.exited = [1] ∧
      m.freed = [] ∧ m.current = 2) ∧
    ∃ m, Reaches step (fun _ _ => True) (boot (fun _ => 0) false) m ∧ 3 ∈ m.readyList ∧
      3 ∈ (m.sema 0).waiters := by
  constructor
  · obtain ⟨m, run, passes⟩ := @reaches_of_check _ _ step (fun _ _ => True) _
      (boot (fun _ => 0) false) [.exit]
      (fun m => m.exited = [1] ∧ m.freed = [] ∧ m.current = 2) (by decide)
    exact ⟨m, run, of_decide_eq_true passes⟩
  · obtain ⟨m, run, passes⟩ := @reaches_of_check _ _ step (fun _ _ => True) _
      (boot (fun _ => 0) false)
      [.getPage (some 2), .init, .start, .yield, .down 0, .unblock 3]
      (fun m => 3 ∈ m.readyList ∧ 3 ∈ (m.sema 0).waiters) (by decide)
    exact ⟨m, run, of_decide_eq_true passes⟩

end UtSystems.Threads.SchedulerQueues

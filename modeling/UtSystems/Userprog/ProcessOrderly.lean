import UtSystems.Userprog.ProcessSignals

/-!
# Every orderly run keeps the invariant

The remaining statements create a thread or only move one on. With them every
statement is covered, and the invariant holds along every orderly run.
-/

namespace UtSystems.Userprog.ProcessOrderly

open Threads.Synch Userprog.ProcessTable Userprog.ProcessSystem Userprog.ProcessSteps
open Userprog.ProcessThreads Userprog.ProcessInvariant Userprog.ProcessSessions
open Userprog.ProcessSignals Lib.GuardedRun

set_option autoImplicit false

/-! ## A new thread -/

section Create

variable {threads : Tid → Option Thread} {nextTid t : Tid} {thread after born : Thread}

/-- The thread table after `thread_create` gave the caller `t` the tid `nextTid`. -/
def withChild (threads : Tid → Option Thread) (nextTid t : Tid) (after born : Thread) :
    Tid → Option Thread :=
  Function.update (Function.update threads nextTid (some born)) t (some after)

theorem with_child_cases {u : Tid} {record : Thread}
    (present : withChild threads nextTid t after born u = some record) :
    (u = t ∧ record = after) ∨ (u ≠ t ∧ u = nextTid ∧ record = born) ∨
      (u ≠ t ∧ u ≠ nextTid ∧ threads u = some record) := by
  unfold withChild at present
  by_cases self : u = t
  · subst self
    rw [Function.update_self, Option.some.injEq] at present
    exact .inl ⟨rfl, present.symm⟩
  · rw [Function.update_of_ne self] at present
    by_cases new : u = nextTid
    · subst new
      rw [Function.update_self, Option.some.injEq] at present
      exact .inr (.inl ⟨self, rfl, present.symm⟩)
    · rw [Function.update_of_ne new] at present
      exact .inr (.inr ⟨self, new, present⟩)

theorem with_child_self : withChild threads nextTid t after born t = some after :=
  Function.update_self ..

theorem with_child_born (different : nextTid ≠ t) :
    withChild threads nextTid t after born nextTid = some born := by
  unfold withChild
  rw [Function.update_of_ne different, Function.update_self]

theorem with_child_rest (ok : ThreadsOk threads nextTid) {u : Tid} {record : Thread}
    (different : u ≠ t) (present : threads u = some record) :
    withChild threads nextTid t after born u = some record := by
  unfold withChild
  rw [Function.update_of_ne different, Function.update_of_ne (ok.range u record present).2.2.ne,
    present]

theorem with_child_threads (ok : ThreadsOk threads nextTid) (found : threads t = some thread)
    (ready : thread.blocked = false) (stands : thread.pc = .execCreate)
    (own : OwnOk { thread with pc := .execAddSem nextTid }) :
    ThreadsOk (withChild threads nextTid t { thread with pc := .execAddSem nextTid }
      { parent := t, process := true, pc := .load }) (nextTid + 1) := by
  have range := ok.range t thread found
  have parentTable : ∀ u record parent (Duty : Pc → Prop), threads u = some record →
      threads record.parent = some parent → ¬Duty .execCreate → Duty parent.pc →
      ∃ changed, withChild threads nextTid t { thread with pc := .execAddSem nextTid }
        { parent := t, process := true, pc := .load } record.parent = some changed ∧
          Duty changed.pc := by
    intro u record parent Duty _ lookup outside duty
    by_cases self : record.parent = t
    · rw [self, found, Option.some.injEq] at lookup
      rw [← lookup, stands] at duty
      exact absurd duty outside
    · exact ⟨parent, with_child_rest ok self lookup, duty⟩
  constructor
  · intro u record present
    rcases with_child_cases present with ⟨rfl, rfl⟩ | ⟨_, rfl, rfl⟩ | ⟨_, _, old⟩
    · exact ⟨range.1, range.2.1, range.2.2.trans (Int.lt_succ nextTid)⟩
    · exact ⟨range.1.trans range.2.1.le, range.2.2, Int.lt_succ u⟩
    · obtain ⟨low, below, bound⟩ := ok.range u record old
      exact ⟨low, below, bound.trans (Int.lt_succ nextTid)⟩
  · intro u record present
    rcases with_child_cases present with ⟨_, rfl⟩ | ⟨_, _, rfl⟩ | ⟨_, _, old⟩
    · exact own
    · exact ⟨nofun, nofun, nofun, nofun, nofun, nofun, nofun, rfl⟩
    · exact ok.own u record old
  · intro u record present child works
    rcases with_child_cases present with ⟨rfl, rfl⟩ | ⟨_, rfl, rfl⟩ | ⟨_, _, old⟩
    · obtain rfl : nextTid = child := Option.some.inj works
      exact ⟨_, with_child_born range.2.2.ne', rfl, rfl, rfl, rfl, rfl⟩
    · cases works
    · obtain ⟨charge, lookup, parent, process, session⟩ := ok.charge u record old child works
      by_cases self : child = t
      · subst self
        rw [found, Option.some.injEq] at lookup
        subst lookup
        exact ⟨_, with_child_self, parent, process,
          session_at_of_same ⟨rfl, rfl, rfl, rfl, rfl, rfl⟩ session⟩
      · exact ⟨charge, with_child_rest ok self lookup, parent, process, session⟩
  · intro u record present process awaited
    rcases with_child_cases present with ⟨rfl, rfl⟩ | ⟨_, rfl, rfl⟩ | ⟨_, _, old⟩
    · obtain ⟨parent, lookup, launches⟩ := ok.launching u thread found process awaited
      exact parentTable u thread parent (Launching u) found lookup id launches
    · exact ⟨_, with_child_self, rfl⟩
    · obtain ⟨parent, lookup, launches⟩ := ok.launching u record old process awaited
      exact parentTable u record parent (Launching u) old lookup id launches
  · intro u record present reaped entry
    rcases with_child_cases present with ⟨rfl, rfl⟩ | ⟨_, rfl, rfl⟩ | ⟨_, _, old⟩
    · obtain ⟨parent, lookup, reaps⟩ := ok.reaping u thread found reaped entry
      exact parentTable u thread parent (Reaping u) found lookup id reaps
    · cases reaped
    · obtain ⟨parent, lookup, reaps⟩ := ok.reaping u record old reaped entry
      exact parentTable u record parent (Reaping u) old lookup id reaps
  · intro u record present blocked
    rcases with_child_cases present with ⟨rfl, rfl⟩ | ⟨_, rfl, rfl⟩ | ⟨_, _, old⟩
    · rw [show thread.blocked = true from blocked] at ready
      cases ready
    · cases blocked
    · exact ok.blockedAt u record old blocked

/-- Every record with a session is an old one, up to its place. -/
theorem with_child_origin (found : threads t = some thread)
    {u : Tid} {record : Thread} {pc : Pc}
    (present : withChild threads nextTid t { thread with pc := pc }
      { parent := t, process := true, pc := .load } u = some record)
    (session : record.entry.isSome ∨ record.slot.isSome) :
    ∃ before, threads u = some before ∧ record.entry = before.entry ∧ SameFlags before record := by
  rcases with_child_cases present with ⟨rfl, rfl⟩ | ⟨_, rfl, rfl⟩ | ⟨_, _, old⟩
  · exact ⟨thread, found, rfl, rfl, rfl, rfl, rfl, rfl, rfl⟩
  · rcases session with entry | slot
    · cases entry
    · cases slot
  · exact ⟨record, old, rfl, rfl, rfl, rfl, rfl, rfl, rfl⟩

theorem with_child_procs {procList : ProcList} {pc : Pc} (ok : ProcOk procList threads)
    (threadsOk : ThreadsOk threads nextTid) (found : threads t = some thread) :
    ProcOk procList (withChild threads nextTid t { thread with pc := pc }
      { parent := t, process := true, pc := .load }) := by
  constructor
  · intro u record k present held
    obtain ⟨before, old, entry, _⟩ := with_child_origin found present (.inl (by simp [held]))
    exact ok.entryTid u before k old (by rw [← entry, held])
  · intro u record k i present held slotHeld
    obtain ⟨before, old, entry, flags⟩ := with_child_origin found present (.inl (by simp [held]))
    exact ok.entryIdx u before k i old (by rw [← entry, held]) (by rw [← flags.slot, slotHeld])
  · intro k used
    obtain ⟨before, old, held⟩ := ok.onlyEntries k used
    by_cases self : (procList k).tid = t
    · rw [self, found, Option.some.injEq] at old
      rw [self]
      exact ⟨_, with_child_self, by rw [← held, ← old]⟩
    · exact ⟨before, with_child_rest threadsOk self old, held⟩

theorem with_child_sems {semList : SemList} {pc : Pc} (ok : SemOk semList threads)
    (threadsOk : ThreadsOk threads nextTid) (found : threads t = some thread)
    (ready : thread.blocked = false) :
    SemOk semList (withChild threads nextTid t { thread with pc := pc }
      { parent := t, process := true, pc := .load }) := by
  have stuck : ∀ u Place, Stuck (withChild threads nextTid t { thread with pc := pc }
      { parent := t, process := true, pc := .load }) u Place ↔ Stuck threads u Place := by
    intro u Place
    constructor
    · rintro ⟨record, present, blocked, place⟩
      rcases with_child_cases present with ⟨rfl, rfl⟩ | ⟨_, rfl, rfl⟩ | ⟨_, _, old⟩
      · rw [show thread.blocked = true from blocked] at ready
        cases ready
      · cases blocked
      · exact ⟨record, old, blocked, place⟩
    · rintro ⟨record, old, blocked, place⟩
      have different : u ≠ t := by
        rintro rfl
        rw [found, Option.some.injEq] at old
        rw [← old, ready] at blocked
        cases blocked
      exact ⟨record, with_child_rest threadsOk different old, blocked, place⟩
  constructor
  · intro u v record other i presentU presentV slotU slotV
    obtain ⟨before, old, _, flags⟩ := with_child_origin found presentU (.inr (by simp [slotU]))
    obtain ⟨beforeV, oldV, _, flagsV⟩ := with_child_origin found presentV (.inr (by simp [slotV]))
    exact ok.apart u v before beforeV i old oldV (by rw [← flags.slot, slotU])
      (by rw [← flagsV.slot, slotV])
  · intro u record i present held
    obtain ⟨before, old, _, flags⟩ := with_child_origin found present (.inr (by simp [held]))
    exact sem_fits_frame flags (stuck _ _) (stuck _ _)
      (ok.fits u before i old (by rw [← flags.slot, held]))

end Create

theorem inv_create {s : Kernel} (inv : Consistent s) {t : Tid} {thread : Thread} {event : Event}
    (here : At s t thread .execCreate) :
    Consistent (((({ s with nextTid := s.nextTid + 1 }).put s.nextTid
      { parent := t, process := true, pc := .load }).put t
        { thread with pc := .execAddSem s.nextTid }).log event) := by
  have own := inv.threads.own t thread here.found
  have place := own.place
  unfold PlaceOk at place
  rw [here.stands] at place
  have ownNext : OwnOk { thread with pc := .execAddSem s.nextTid } :=
    own_ok_move own (by rw [here.stands]; nofun) place
  exact ⟨with_child_threads inv.threads here.found here.ready here.stands ownNext,
    with_child_procs inv.procs inv.threads here.found,
    with_child_sems inv.sems inv.threads here.found here.ready⟩

/-! ## Statements that only move a thread on -/

/-- What `fetch_process` returns for the tid of a thread is the entry it holds. -/
theorem fetch_process_entry {s : Kernel} (inv : Consistent s) {c : Tid} {record : Thread}
    (found : s.threads c = some record) : fetchProcess s.procList c = record.entry := by
  obtain ⟨low, below, _⟩ := inv.threads.range c record found
  have nonzero : c ≠ 0 := (lt_of_le_of_lt low below).ne'
  have held : ∀ k, (s.procList k).tid = c → record.entry = some k := by
    intro k isHere
    obtain ⟨owner, lookup, entry⟩ := inv.procs.onlyEntries k (by rw [isHere]; exact nonzero)
    rw [isHere, found, Option.some.injEq] at lookup
    rw [lookup, entry]
  cases entry : record.entry with
  | none =>
      rw [fetch_process_none]
      intro k isHere
      rw [held k isHere] at entry
      cases entry
  | some k =>
      apply fetch_process_unique (inv.procs.entryTid c record k found entry)
      intro other isHere
      rw [held other isHere, Option.some.injEq] at entry
      exact entry

theorem unreaped_of_alive {thread : Thread} (own : OwnOk thread) (alive : thread.pc ≠ .dead) :
    thread.reaped = false := by
  by_contra reaped
  exact alive (own.signalledDead (own.reapedSignalled (by simpa using reaped)))

/-- The index that a registered, unreaped process finds in its entry. -/
theorem entry_index {s : Kernel} (inv : Consistent s) {c : Tid} {record : Thread} {k : Slot}
    (found : s.threads c = some record) (entry : record.entry = some k)
    (unreaped : record.reaped = false) :
    ∃ i : Slot, record.slot = some i ∧ (s.procList k).semListIdx = i.val := by
  have slot := (inv.threads.own c record found).entrySlot (by simp [entry]) unreaped
  obtain ⟨i, held⟩ := Option.isSome_iff_exists.mp slot
  exact ⟨i, held, inv.procs.entryIdx c record k i found entry held⟩

theorem inv_goto {s next : Kernel} (inv : Consistent s) {t : Tid} {thread : Thread} {pc after : Pc}
    {ending : Option Ending} (here : At s t thread pc)
    (threads : next.threads =
      Function.update s.threads t (some { thread with pc := after, ending := ending }))
    (procs : ProcOk next.procList s.threads) (sems : next.semList = s.semList)
    (tid : next.nextTid = s.nextTid) (alive : pc ≠ .dead)
    (place : PlaceOk { thread with pc := after })
    (charge : Charge s.threads t after)
    (launching : ∀ child, Launching child pc → Launching child after)
    (reaping : ∀ child, Reaping child pc → Reaping child after) : Consistent next := by
  have own := inv.threads.own t thread here.found
  have ownNext := own_ok_move own (by rw [here.stands]; exact alive) place
  rw [← here.stands] at launching reaping
  exact inv_move inv here.found here.ready threads procs sems tid ⟨rfl, rfl, rfl, rfl, rfl, rfl⟩
    ⟨rfl, rfl, rfl, rfl, rfl, rfl⟩ here.ready
    ⟨ownNext.awaitedLaunched, ownNext.reapedAwaited, ownNext.reapedSignalled,
      ownNext.signalledDead, ownNext.launchedHolds, ownNext.signalledHolds, ownNext.entrySlot,
      place_ok_update ownNext.place rfl rfl rfl (fun _ same => same) (fun _ same => same)⟩
    charge launching reaping

/-- `inv_goto` outside the places where a parent works on a session. -/
theorem inv_goto_idle {s next : Kernel} (inv : Consistent s) {t : Tid} {thread : Thread}
    {pc after : Pc} {ending : Option Ending} (here : At s t thread pc)
    (threads : next.threads =
      Function.update s.threads t (some { thread with pc := after, ending := ending }))
    (procs : ProcOk next.procList s.threads) (sems : next.semList = s.semList)
    (tid : next.nextTid = s.nextTid) (alive : pc ≠ .dead) (idle : worksOn pc = none)
    (place : PlaceOk { thread with pc := after }) (charge : Charge s.threads t after) :
    Consistent next := by
  apply inv_goto inv here threads procs sems tid alive place charge
  · intro child launches
    rw [launching_works launches] at idle
    cases idle
  · intro child reaps
    rw [reaping_works reaps] at idle
    cases idle

theorem charge_idle {threads : Tid → Option Thread} {t : Tid} {pc : Pc}
    (idle : worksOn pc = none) : Charge threads t pc := by
  intro child works
  rw [idle] at works
  cases works

theorem place_at {s : Kernel} (inv : Consistent s) {t : Tid} {thread : Thread} {pc : Pc}
    (here : At s t thread pc) : PlaceOk { thread with pc := pc } := by
  have place := (inv.threads.own t thread here.found).place
  unfold PlaceOk at place ⊢
  rw [here.stands] at place
  exact place

theorem inv_wait_finds {s : Kernel} (inv : Consistent s) {t child : Tid} {thread : Thread} {pc : Pc}
    {p : Slot} (orderly : Orderly s (.wait t child)) (here : At s t thread pc)
    (calls : (pc = .user ∧ thread.process = true) ∨ pc = .runTask child)
    (found : fetchProcess s.procList child = some p) :
    Consistent (s.put t { thread with pc := .waitIdx child p }) := by
  have place := place_at inv here
  rcases orderly with ⟨record, childFound, parent, process⟩ | absent
  · have entry : record.entry = some p := by
      rw [← fetch_process_entry inv childFound, found]
    have outside : ¬Launching child pc ∧ ¬Reaping child pc := by
      rcases calls with ⟨rfl, _⟩ | rfl
      · exact ⟨id, id⟩
      · exact ⟨id, id⟩
    have awaited : record.awaited = true := by
      by_contra early
      obtain ⟨caller, lookup, launches⟩ := inv.threads.launching child record childFound process
        (Bool.eq_false_iff.mpr early)
      rw [parent, here.found, Option.some.injEq] at lookup
      rw [← lookup, here.stands] at launches
      exact outside.1 launches
    have unreaped : record.reaped = false := by
      by_contra reaped
      obtain ⟨caller, lookup, reaps⟩ := inv.threads.reaping child record childFound
        (by simpa using reaped) (by simp [entry])
      rw [parent, here.found, Option.some.injEq] at lookup
      rw [← lookup, here.stands] at reaps
      exact outside.2 reaps
    have slot := (inv.threads.own child record childFound).entrySlot (by simp [entry]) unreaped
    have next : PlaceOk { thread with pc := .waitIdx child p } := by
      rcases calls with ⟨rfl, _⟩ | rfl
      · exact place
      · exact place
    have idle : worksOn pc = none ∧ pc ≠ .dead := by
      rcases calls with ⟨rfl, _⟩ | rfl
      · exact ⟨rfl, nofun⟩
      · exact ⟨rfl, nofun⟩
    refine inv_goto_idle inv here rfl inv.procs rfl rfl idle.2 idle.1 next ?_
    intro other works
    obtain rfl : child = other := Option.some.inj works
    exact ⟨record, childFound, parent, process, slot, entry, awaited, unreaped⟩
  · rw [found] at absent
    cases absent

theorem proc_ok_status {procList : ProcList} {threads : Tid → Option Thread}
    (ok : ProcOk procList threads) (p : Slot) (status : Int) :
    ProcOk (Function.update procList p { procList p with exitStatus := status }) threads := by
  have same : ∀ k, (Function.update procList p { procList p with exitStatus := status } k).tid =
      (procList k).tid ∧
      (Function.update procList p { procList p with exitStatus := status } k).semListIdx =
        (procList k).semListIdx := by
    intro k
    by_cases equal : k = p
    · subst equal
      simp
    · simp [Function.update_of_ne equal]
  constructor
  · intro c record k found entry
    rw [(same k).1]
    exact ok.entryTid c record k found entry
  · intro c record k i found entry slot
    rw [(same k).2]
    exact ok.entryIdx c record k i found entry slot
  · intro k used
    rw [(same k).1] at used ⊢
    exact ok.onlyEntries k used

theorem inv_exit_idx {s : Kernel} (inv : Consistent s) {t : Tid} {thread : Thread} {p : Slot}
    (here : At s t thread (.exitIdx p)) :
    Consistent (s.put t { thread with
      pc := if (s.procList p).semListIdx = -1 then .dead
        else .exitSignal (s.procList p).semListIdx }) := by
  have entry : thread.entry = some p := place_at inv here
  have unreaped := unreaped_of_alive (inv.threads.own t thread here.found)
    (by rw [here.stands]; nofun)
  obtain ⟨i, held, idx⟩ := entry_index inv here.found entry unreaped
  rw [idx, if_neg (by omega)]
  exact inv_goto_idle inv here rfl inv.procs rfl rfl nofun rfl ⟨by simp [entry], i, held, rfl⟩
    (charge_idle rfl)

theorem inv_launch {s : Kernel} (inv : Consistent s) {t : Tid} {thread : Thread} {p : Slot}
    (here : At s t thread .launch) (found : fetchProcess s.procList t = some p) :
    Consistent (s.put t { thread with pc := .launchUp (s.procList p).semListIdx }) := by
  have early : thread.launched = false := place_at inv here
  have entry : thread.entry = some p := by
    rw [← fetch_process_entry inv here.found, found]
  have unreaped := unreaped_of_alive (inv.threads.own t thread here.found)
    (by rw [here.stands]; nofun)
  obtain ⟨i, held, idx⟩ := entry_index inv here.found entry unreaped
  exact inv_goto_idle inv here rfl inv.procs rfl rfl nofun rfl
    ⟨early, by simp [entry], i, held, idx⟩ (charge_idle rfl)

theorem inv_wait_idx {s : Kernel} (inv : Consistent s) {t child : Tid} {thread : Thread} {p : Slot}
    (here : At s t thread (.waitIdx child p)) :
    Consistent (s.put t { thread with pc := .waitDown child p (s.procList p).semListIdx }) := by
  obtain ⟨record, childFound, different, parent, process, slot, entry, awaited, unreaped⟩ :=
    charged inv here rfl
  obtain ⟨i, held, idx⟩ := entry_index inv childFound entry unreaped
  have place : thread.process = true → thread.launched = true := place_at inv here
  refine inv_goto inv here rfl inv.procs rfl rfl nofun place ?_ (fun _ => id) (fun _ => id)
  intro other works
  obtain rfl : child = other := Option.some.inj works
  exact ⟨record, childFound, parent, process, ⟨i, held, idx⟩, entry, awaited, unreaped⟩

theorem inv_wait_read {s : Kernel} (inv : Consistent s) {t child : Tid} {thread : Thread} {p : Slot}
    (here : At s t thread (.waitRead child p)) :
    Consistent (s.put t { thread with pc := .waitClear child p (s.procList p).exitStatus }) := by
  obtain ⟨record, childFound, different, parent, process, session⟩ := charged inv here rfl
  have place : thread.process = true → thread.launched = true := place_at inv here
  refine inv_goto inv here rfl inv.procs rfl rfl nofun place ?_ (fun _ => id) (fun _ => id)
  intro other works
  obtain rfl : child = other := Option.some.inj works
  exact ⟨record, childFound, parent, process, session⟩

theorem inv_load {s : Kernel} (inv : Consistent s) {t : Tid} {thread : Thread}
    (outcome : LoadOutcome) (here : At s t thread .load) :
    Consistent (s.put t { thread with pc := afterLoad outcome }) := by
  have early : thread.launched = false := place_at inv here
  cases outcome with
  | success => exact inv_goto_idle inv here rfl inv.procs rfl rfl nofun rfl early (charge_idle rfl)
  | _ => exact inv_goto_idle inv here rfl inv.procs rfl rfl nofun rfl trivial (charge_idle rfl)

theorem inv_finish {s : Kernel} (inv : Consistent s) {t : Tid} {thread : Thread} {event : Event}
    (ending : Ending) (here : At s t thread .user) :
    Consistent ((s.put t { thread with
      pc := afterFinish ending, ending := some ending }).log event) := by
  cases ending with
  | _ => exact inv_goto_idle inv here rfl inv.procs rfl rfl nofun rfl trivial (charge_idle rfl)

/-- One statement of an orderly run keeps the invariant. -/
theorem took_consistent {s next : Kernel} {action : Action} (inv : Consistent s)
    (orderly : Orderly s action) (took : Took s action next) : Consistent next := by
  cases took with
  | exec lock here =>
      have place : _ → _ := place_at inv here
      exact inv_goto_idle inv here rfl inv.procs rfl rfl nofun rfl place (charge_idle rfl)
  | create here => exact inv_create inv here
  | createFails here =>
      have place : _ → _ := place_at inv here
      exact inv_goto_idle inv here rfl inv.procs rfl rfl nofun rfl place (charge_idle rfl)
  | tidOverflow here => exact ⟨inv.threads, inv.procs, inv.sems⟩
  | launchNull here absent => exact ⟨inv.threads, inv.procs, inv.sems⟩
  | outside here indexes missing => exact ⟨inv.threads, inv.procs, inv.sems⟩
  | waitMisses here calls absent =>
      have place := place_at inv here
      rcases calls with ⟨rfl, _⟩ | rfl
      · exact inv_goto_idle inv here rfl inv.procs rfl rfl nofun rfl place (charge_idle rfl)
      · exact inv_goto_idle inv here rfl inv.procs rfl rfl nofun rfl place (charge_idle rfl)
  | waitFinds here calls found => exact inv_wait_finds inv orderly here calls found
  | load outcome here => exact inv_load inv outcome here
  | finish ending here process => exact inv_finish inv ending here
  | execAddSem here =>
      have room := orderly _ here.found
      rw [here.stands] at room
      exact inv_exec_add_sem inv here room
  | execAddProc here =>
      have room := orderly _ here.found
      rw [here.stands] at room
      exact inv_exec_add_proc inv here room
  | execBlocks here slot zero => exact inv_exec_blocks inv here slot zero
  | execPasses here slot positive => exact inv_exec_passes inv here slot positive
  | @execReturn t child thread lock here =>
      have place : thread.process = true → thread.launched = true := place_at inv here
      refine inv_goto_idle inv here rfl inv.procs rfl rfl nofun rfl ?_ (charge_idle ?_)
      · split
        · exact place
        · exact place
      · split
        · rfl
        · rfl
  | waitIdx here => exact inv_wait_idx inv here
  | waitSkips here error =>
      obtain ⟨record, _, _, _, _, ⟨i, _, idx⟩, _⟩ := charged inv here rfl
      omega
  | waitBlocks here slot zero => exact inv_wait_blocks inv here slot zero
  | waitPasses here slot positive => exact inv_wait_passes inv here slot positive
  | waitRelease here slot => exact inv_wait_release inv here slot
  | waitRead here => exact inv_wait_read inv here
  | waitClear here => exact inv_wait_clear inv here
  | waitReturn here =>
      have place : _ → _ := place_at inv here
      exact inv_goto_idle inv here rfl inv.procs rfl rfl nofun rfl place (charge_idle rfl)
  | launch here found => exact inv_launch inv here found
  | launchUp here slot => exact inv_launch_up inv here slot
  | exitFetchMisses here absent =>
      exact inv_goto_idle inv here rfl inv.procs rfl rfl nofun rfl trivial (charge_idle rfl)
  | exitFetch here found =>
      refine inv_goto_idle inv here rfl inv.procs rfl rfl nofun rfl ?_ (charge_idle rfl)
      exact (fetch_process_entry inv here.found).symm.trans found
  | exitStore here =>
      exact inv_goto_idle inv here rfl (proc_ok_status inv.procs _ _) rfl rfl nofun rfl trivial
        (charge_idle rfl)
  | exitProcessMisses here absent =>
      exact inv_goto_idle inv here rfl inv.procs rfl rfl nofun rfl trivial (charge_idle rfl)
  | exitProcess here found =>
      refine inv_goto_idle inv here rfl inv.procs rfl rfl nofun rfl ?_ (charge_idle rfl)
      exact (fetch_process_entry inv here.found).symm.trans found
  | exitIdx here => exact inv_exit_idx inv here
  | exitSignal here slot => exact inv_exit_signal inv here slot

theorem boot_threads {t : Tid} {thread : Thread} (found : boot.threads t = some thread) :
    t = bootTid ∧ thread = { parent := 0, process := false, pc := .user } := by
  simp only [boot] at found
  split at found
  · next self => exact ⟨self, (Option.some.inj found).symm⟩
  · cases found

theorem boot_consistent : Consistent boot := by
  refine ⟨⟨?_, ?_, ?_, ?_, ?_, ?_⟩, ⟨?_, ?_, ?_⟩, ⟨?_, ?_⟩⟩
  · intro t thread found
    obtain ⟨rfl, rfl⟩ := boot_threads found
    decide
  · intro t thread found
    obtain ⟨rfl, rfl⟩ := boot_threads found
    exact ⟨nofun, nofun, nofun, nofun, nofun, nofun, nofun, nofun⟩
  · intro t thread found
    obtain ⟨rfl, rfl⟩ := boot_threads found
    exact charge_idle rfl
  · intro t thread found process
    obtain ⟨rfl, rfl⟩ := boot_threads found
    cases process
  · intro t thread found reaped
    obtain ⟨rfl, rfl⟩ := boot_threads found
    cases reaped
  · intro t thread found blocked
    obtain ⟨rfl, rfl⟩ := boot_threads found
    cases blocked
  · intro t thread k found entry
    obtain ⟨rfl, rfl⟩ := boot_threads found
    cases entry
  · intro t thread k i found entry
    obtain ⟨rfl, rfl⟩ := boot_threads found
    cases entry
  · intro k used
    exact absurd rfl used
  · intro c d record other i found _ slot
    obtain ⟨rfl, rfl⟩ := boot_threads found
    cases slot
  · intro c record i found slot
    obtain ⟨rfl, rfl⟩ := boot_threads found
    cases slot

theorem tid_in_use {s : Kernel} (inv : Consistent s) {t : Tid} {thread : Thread}
    (found : s.threads t = some thread) : t ≠ s.nextTid :=
  (inv.threads.range t thread found).2.2.ne

/-- The invariant holds in every state of every orderly run. -/
theorem orderly_consistent {s : Kernel} (run : Reaches step Orderly boot s) : Consistent s :=
  reaches_invariant Consistent boot_consistent
    (fun _ _ _ inv orderly taken => took_consistent inv orderly (step_took taken)) run

/-- The boot thread starts one process and waits for it; the process exits with 7. -/
def oneProcess : List Action :=
  [.exec 1, .create 1 true, .run 1, .run 1, .run 1, .load 3 .success, .run 3, .run 3, .run 1,
    .run 1, .wait 1 3, .run 1, .run 1, .finish 3 (.sysExit 7), .run 3, .run 3, .run 3, .run 3,
    .run 3, .run 1, .run 1, .run 1, .run 1, .run 1]

end UtSystems.Userprog.ProcessOrderly

import UtSystems.Userprog.ProcessOrderly

/-!
# What a step leaves of the threads' records

A step writes the record of the thread that takes it. In another thread's record
it touches only the session fields, which belong to the parent, and `blocked`.
-/

namespace UtSystems.Userprog.ProcessRecords

open Threads.Synch Userprog.ProcessTable Userprog.ProcessSystem Userprog.ProcessSteps
open Userprog.ProcessThreads Userprog.ProcessSignals

set_option autoImplicit false

/-- The fields of a record that only its own thread changes. -/
structure Untouched (before after : Thread) : Prop where
  parent : after.parent = before.parent
  process : after.process = before.process
  pc : after.pc = before.pc
  launched : after.launched = before.launched
  signalled : after.signalled = before.signalled
  ending : after.ending = before.ending

theorem untouched_refl (thread : Thread) : Untouched thread thread :=
  ⟨rfl, rfl, rfl, rfl, rfl, rfl⟩

section Lookup

variable {threads : Tid → Option Thread} {t u : Tid} {after : Thread}

theorem put_other {thread : Thread} (different : u ≠ t)
    (present : Function.update threads t (some thread) u = some after) :
    threads u = some after := by
  rwa [Function.update_of_ne different] at present

theorem put_self {thread : Thread}
    (present : Function.update threads t (some thread) t = some after) : after = thread := by
  rw [Function.update_self, Option.some.injEq] at present
  exact present.symm

theorem modify_self {change : Thread → Thread}
    (present : Function.update threads t ((threads t).map change) t = some after) :
    ∃ before, threads t = some before ∧ change before = after := by
  rwa [Function.update_self, Option.map_eq_some_iff] at present

theorem modify_cases {change : Thread → Thread}
    (present : Function.update threads t ((threads t).map change) u = some after) :
    ∃ before, threads u = some before ∧ ((u = t ∧ change before = after) ∨ before = after) := by
  by_cases same : u = t
  · subst same
    obtain ⟨before, found, changed⟩ := modify_self present
    exact ⟨before, found, .inl ⟨rfl, changed⟩⟩
  · rw [Function.update_of_ne same] at present
    exact ⟨after, present, .inr rfl⟩

/-- A wake-up clears `blocked` and nothing else. -/
theorem wake_some {s : Kernel} {woken : Option Tid}
    (present : (s.wake woken).threads u = some after) :
    ∃ before, s.threads u = some before ∧ Untouched before after ∧ SameSession before after := by
  cases woken with
  | none => exact ⟨after, present, untouched_refl after, same_session_refl after⟩
  | some v =>
      simp only [Kernel.wake, Kernel.modify] at present
      by_cases same : u = v
      · subst same
        obtain ⟨before, found, rfl⟩ := modify_self present
        exact ⟨before, found, ⟨rfl, rfl, rfl, rfl, rfl, rfl⟩, ⟨rfl, rfl, rfl, rfl, rfl, rfl⟩⟩
      · rw [Function.update_of_ne same] at present
        exact ⟨after, present, untouched_refl after, same_session_refl after⟩

end Lookup

/-- What thread `t` does to the session of thread `c`, at the statements of
`process_execute` and `process_wait` that work on `c`. -/
inductive Serves (s next : Kernel) (t c : Tid) (before after : Thread) : Prop where
  | kept (same : SameSession before after)
  | addSem {thread : Thread} (here : At s t thread (.execAddSem c))
      (told : Event.waitsOn t c (addSemListEntry s.semList).1 ∈ next.history)
      (record : after = { before with slot := slotAt (addSemListEntry s.semList).1 })
  | addProc {thread : Thread} {idx : Int} (here : At s t thread (.execAddProc c idx))
      (record : after = { before with
        entry := slotAt (addProcListEntry s.procList (procData s t c idx)).1 })
  | awaits {thread : Thread} {idx : Int} (here : At s t thread (.execDown c idx))
      (record : after = { before with awaited := true })
  | reaps {thread : Thread} {p : Slot} {idx : Int} (here : At s t thread (.waitDown c p idx))
      (record : after = { before with reaped := true })
  | releases {thread : Thread} {p : Slot} {idx : Int} (here : At s t thread (.waitRelease c p idx))
      (record : after = { before with slot := none })
  | clears {thread : Thread} {p : Slot} {status : Int}
      (here : At s t thread (.waitClear c p status))
      (moved : next.threads t = some { thread with pc := .waitReturn c status })
      (record : after = { before with entry := none })

theorem took_other {s next : Kernel} {action : Action} {u : Tid} {after : Thread}
    (took : Took s action next) (different : u ≠ action.tid)
    (present : next.threads u = some after) :
    (∃ t, action = .create t true ∧ u = s.nextTid ∧
      after = { parent := t, process := true, pc := .load }) ∨
      ∃ before, s.threads u = some before ∧ Untouched before after ∧
        Serves s next action.tid u before after := by
  have kept : s.threads u = some after →
      (∃ t, action = .create t true ∧ u = s.nextTid ∧
        after = { parent := t, process := true, pc := .load }) ∨
      ∃ before, s.threads u = some before ∧ Untouched before after ∧
        Serves s next action.tid u before after :=
    fun found => .inr ⟨after, found, untouched_refl after, .kept (same_session_refl after)⟩
  cases took with
  | create here =>
      have old := put_other different present
      by_cases born : u = s.nextTid
      · subst born
        exact .inl ⟨_, rfl, rfl, put_self old⟩
      · exact kept (put_other born old)
  | tidOverflow here => exact kept present
  | launchNull here absent => exact kept present
  | outside here indexes missing => exact kept present
  | execAddSem here =>
      have old := put_other different present
      obtain ⟨before, found, ⟨rfl, rfl⟩ | rfl⟩ := modify_cases old
      · exact .inr ⟨before, found, ⟨rfl, rfl, rfl, rfl, rfl, rfl⟩, .addSem here List.mem_cons_self rfl⟩
      · exact kept found
  | execAddProc here =>
      have old := put_other different present
      obtain ⟨before, found, ⟨rfl, rfl⟩ | rfl⟩ := modify_cases old
      · exact .inr ⟨before, found, ⟨rfl, rfl, rfl, rfl, rfl, rfl⟩, .addProc here rfl⟩
      · exact kept found
  | execPasses here slot positive =>
      have old := put_other different present
      obtain ⟨before, found, ⟨rfl, rfl⟩ | rfl⟩ := modify_cases old
      · exact .inr ⟨before, found, ⟨rfl, rfl, rfl, rfl, rfl, rfl⟩, .awaits here rfl⟩
      · exact kept found
  | waitPasses here slot positive =>
      have old := put_other different present
      obtain ⟨before, found, ⟨rfl, rfl⟩ | rfl⟩ := modify_cases old
      · exact .inr ⟨before, found, ⟨rfl, rfl, rfl, rfl, rfl, rfl⟩, .reaps here rfl⟩
      · exact kept found
  | waitRelease here slot =>
      have old := put_other different present
      obtain ⟨before, found, ⟨rfl, rfl⟩ | rfl⟩ := modify_cases old
      · exact .inr ⟨before, found, ⟨rfl, rfl, rfl, rfl, rfl, rfl⟩, .releases here rfl⟩
      · exact kept found
  | waitClear here =>
      have old := put_other different present
      obtain ⟨before, found, ⟨rfl, rfl⟩ | rfl⟩ := modify_cases old
      · exact .inr ⟨before, found, ⟨rfl, rfl, rfl, rfl, rfl, rfl⟩, .clears here (Function.update_self ..) rfl⟩
      · exact kept found
  | launchUp here slot =>
      obtain ⟨before, old, same, session⟩ := wake_some present
      exact .inr ⟨before, put_other different old, same, .kept session⟩
  | exitSignal here slot =>
      obtain ⟨before, old, same, session⟩ := wake_some present
      exact .inr ⟨before, put_other different old, same, .kept session⟩
  | _ => exact kept (put_other different present)

/-- The session of a thread is not changed by its own steps. -/
theorem took_self {s next : Kernel} {action : Action} {after : Thread}
    (took : Took s action next) (present : next.threads action.tid = some after) :
    ∃ before, s.threads action.tid = some before ∧ SameSession before after := by
  cases took with
  | tidOverflow here => exact ⟨after, present, same_session_refl after⟩
  | launchNull here absent => exact ⟨after, present, same_session_refl after⟩
  | outside here indexes missing => exact ⟨after, present, same_session_refl after⟩
  | launchUp here slot =>
      obtain ⟨before, old, _, same⟩ := wake_some present
      obtain rfl := put_self old
      exact ⟨_, here.found,
        ⟨same.parent, same.process, same.slot, same.entry, same.awaited, same.reaped⟩⟩
  | exitSignal here slot =>
      obtain ⟨before, old, _, same⟩ := wake_some present
      obtain rfl := put_self old
      exact ⟨_, here.found,
        ⟨same.parent, same.process, same.slot, same.entry, same.awaited, same.reaped⟩⟩
  | exec lock here =>
      obtain rfl := put_self present
      exact ⟨_, here.found, ⟨rfl, rfl, rfl, rfl, rfl, rfl⟩⟩
  | finish ending here process =>
      obtain rfl := put_self present
      exact ⟨_, here.found, ⟨rfl, rfl, rfl, rfl, rfl, rfl⟩⟩
  | load outcome here =>
      obtain rfl := put_self present
      exact ⟨_, here.found, ⟨rfl, rfl, rfl, rfl, rfl, rfl⟩⟩
  | _ here =>
      obtain rfl := put_self present
      exact ⟨_, here.found, ⟨rfl, rfl, rfl, rfl, rfl, rfl⟩⟩

/-- The control flow: the places a thread can go to from a place, with what it finds. -/
inductive Edge (s : Kernel) (t : Tid) (process : Bool) : Action → Pc → Pc → Prop where
  | exec : Edge s t process (.exec t) .user .execCreate
  | create : Edge s t process (.create t true) .execCreate (.execAddSem s.nextTid)
  | createFails : Edge s t process (.create t false) .execCreate (.execReturn tidError)
  | waitMisses {pc : Pc} {child : Tid} (calls : pc = .user ∨ pc = .runTask child)
      (absent : fetchProcess s.procList child = none) :
      Edge s t process (.wait t child) pc (.waitReturn child (-1))
  | waitFinds {pc : Pc} {child : Tid} {p : Slot} (calls : pc = .user ∨ pc = .runTask child)
      (found : fetchProcess s.procList child = some p) :
      Edge s t process (.wait t child) pc (.waitIdx child p)
  | loads : Edge s t process (.load t .success) .load .launch
  | loadFails {outcome : LoadOutcome} {status : Int} (fails : outcome ≠ .success) :
      Edge s t process (.load t outcome) .load (.exitFetch status)
  | finishStores {ending : Ending} {status : Int} (user : process = true)
      (stores : afterFinish ending = .exitFetch status) :
      Edge s t process (.finish t ending) .user (.exitFetch status)
  | finishSilent {ending : Ending} (user : process = true) (silent : afterFinish ending = .exitProcess) :
      Edge s t process (.finish t ending) .user .exitProcess
  | addSem {child : Tid} : Edge s t process (.run t) (.execAddSem child)
      (.execAddProc child (addSemListEntry s.semList).1)
  | addProc {child : Tid} {idx : Int} :
      Edge s t process (.run t) (.execAddProc child idx) (.execDown child idx)
  | execPasses {child : Tid} {idx : Int} :
      Edge s t process (.run t) (.execDown child idx) (.execReturn child)
  | execReturns {child : Tid} : Edge s t process (.run t) (.execReturn child) .user
  | execTask {child : Tid} : Edge s t process (.run t) (.execReturn child) (.runTask child)
  | waitIdx {child : Tid} {p : Slot} : Edge s t process (.run t) (.waitIdx child p)
      (.waitDown child p (s.procList p).semListIdx)
  | waitSkips {child : Tid} {p : Slot} :
      Edge s t process (.run t) (.waitDown child p (-1)) (.waitRead child p)
  | waitPasses {child : Tid} {p : Slot} {idx : Int} :
      Edge s t process (.run t) (.waitDown child p idx) (.waitRelease child p idx)
  | waitReleases {child : Tid} {p : Slot} {idx : Int} :
      Edge s t process (.run t) (.waitRelease child p idx) (.waitRead child p)
  | waitReads {child : Tid} {p : Slot} : Edge s t process (.run t) (.waitRead child p)
      (.waitClear child p (s.procList p).exitStatus)
  | waitClears {child : Tid} {p : Slot} {status : Int} :
      Edge s t process (.run t) (.waitClear child p status) (.waitReturn child status)
  | waitReturns {child : Tid} {status : Int} :
      Edge s t process (.run t) (.waitReturn child status) .user
  | launches {p : Slot} (found : fetchProcess s.procList t = some p) :
      Edge s t process (.run t) .launch (.launchUp (s.procList p).semListIdx)
  | launchUps {idx : Int} : Edge s t process (.run t) (.launchUp idx) .user
  | exitMisses {status : Int} (absent : fetchProcess s.procList t = none) :
      Edge s t process (.run t) (.exitFetch status) .exitProcess
  | exitFetches {status : Int} {p : Slot} (found : fetchProcess s.procList t = some p) :
      Edge s t process (.run t) (.exitFetch status) (.exitStore p status)
  | exitStores {status : Int} {p : Slot} :
      Edge s t process (.run t) (.exitStore p status) .exitProcess
  | processMisses (absent : fetchProcess s.procList t = none) :
      Edge s t process (.run t) .exitProcess .dead
  | processFetches {p : Slot} (found : fetchProcess s.procList t = some p) :
      Edge s t process (.run t) .exitProcess (.exitIdx p)
  | exitSilent {p : Slot} (error : (s.procList p).semListIdx = -1) :
      Edge s t process (.run t) (.exitIdx p) .dead
  | exitIdx {p : Slot} : Edge s t process (.run t) (.exitIdx p)
      (.exitSignal (s.procList p).semListIdx)
  | exitSignals {idx : Int} : Edge s t process (.run t) (.exitSignal idx) .dead

theorem edge_load {s : Kernel} {t : Tid} {process : Bool} (outcome : LoadOutcome) :
    Edge s t process (.load t outcome) .load (afterLoad outcome) := by
  cases outcome with
  | success => exact .loads
  | _ => exact .loadFails (by decide)

theorem edge_finish {s : Kernel} {t : Tid} {process : Bool} (ending : Ending)
    (user : process = true) :
    Edge s t process (.finish t ending) .user (afterFinish ending) := by
  cases ending with
  | exception => exact .finishSilent user rfl
  | unknownCall => exact .finishSilent user rfl
  | _ => exact .finishStores user rfl

/-- A thread that is put at another place follows an edge. -/
theorem edge_of_put {s middle : Kernel} {t : Tid} {action : Action} {before thread moved after : Thread}
    {pc : Pc} (here : At s t thread pc) (found : s.threads t = some before)
    (present : (middle.put t moved).threads t = some after)
    (edge : Edge s t before.process action pc moved.pc) :
    after.pc = before.pc ∨ Edge s t before.process action before.pc after.pc := by
  have same : before = thread := Option.some.inj (found.symm.trans here.found)
  have stands : before.pc = pc := by rw [same, here.stands]
  have moves := put_self present
  rw [moves, stands]
  exact .inr edge

/-- The thread that takes a step stays in place or follows an edge. -/
theorem took_edge {s next : Kernel} {action : Action} {before after : Thread}
    (took : Took s action next) (found : s.threads action.tid = some before)
    (present : next.threads action.tid = some after) :
    after.pc = before.pc ∨ Edge s action.tid before.process action before.pc after.pc := by
  have own : ∀ {thread : Thread} {pc : Pc}, At s action.tid thread pc →
      before = thread ∧ before.pc = pc := by
    intro thread pc here
    have equal : before = thread := Option.some.inj (found.symm.trans here.found)
    exact ⟨equal, by rw [equal, here.stands]⟩
  cases took with
  | tidOverflow here =>
      exact .inl (congrArg Thread.pc (Option.some.inj (present.symm.trans found)))
  | launchNull here absent =>
      exact .inl (congrArg Thread.pc (Option.some.inj (present.symm.trans found)))
  | outside here indexes missing =>
      exact .inl (congrArg Thread.pc (Option.some.inj (present.symm.trans found)))
  | execBlocks here slot zero =>
      obtain rfl := put_self present
      exact .inl (by rw [(own here).1])
  | waitBlocks here slot zero =>
      obtain rfl := put_self present
      exact .inl (by rw [(own here).1])
  | launchUp here slot =>
      obtain ⟨middle, old, same, _⟩ := wake_some present
      obtain rfl := put_self old
      rw [same.pc, (own here).2]
      exact .inr .launchUps
  | exitSignal here slot =>
      obtain ⟨middle, old, same, _⟩ := wake_some present
      obtain rfl := put_self old
      rw [same.pc, (own here).2]
      exact .inr .exitSignals
  | load outcome here =>
      exact edge_of_put here found present (edge_load outcome)
  | finish ending here process =>
      exact edge_of_put here found present (edge_finish ending (by rw [(own here).1, process]))
  | exec lock here =>
      exact edge_of_put here found present .exec
  | create here =>
      exact edge_of_put here found present .create
  | createFails here =>
      exact edge_of_put here found present .createFails
  | waitMisses here calls absent =>
      exact edge_of_put here found present (.waitMisses (calls.imp And.left id) absent)
  | waitFinds here calls listed =>
      exact edge_of_put here found present (.waitFinds (calls.imp And.left id) listed)
  | execAddSem here =>
      exact edge_of_put here found present .addSem
  | execAddProc here =>
      exact edge_of_put here found present .addProc
  | execPasses here slot positive =>
      exact edge_of_put here found present .execPasses
  | execReturn here =>
      obtain rfl := put_self present
      rw [(own here).2]
      split
      · exact .inr .execReturns
      · exact .inr .execTask
  | waitIdx here =>
      exact edge_of_put here found present .waitIdx
  | waitSkips here error =>
      subst error
      exact edge_of_put here found present .waitSkips
  | waitPasses here slot positive =>
      exact edge_of_put here found present .waitPasses
  | waitRelease here slot =>
      exact edge_of_put here found present .waitReleases
  | waitRead here =>
      exact edge_of_put here found present .waitReads
  | waitClear here =>
      exact edge_of_put here found present .waitClears
  | waitReturn here =>
      exact edge_of_put here found present .waitReturns
  | launch here listed =>
      exact edge_of_put here found present (.launches listed)
  | exitFetchMisses here absent =>
      exact edge_of_put here found present (.exitMisses absent)
  | exitFetch here listed =>
      exact edge_of_put here found present (.exitFetches listed)
  | exitStore here =>
      exact edge_of_put here found present .exitStores
  | exitProcessMisses here absent =>
      exact edge_of_put here found present (.processMisses absent)
  | exitProcess here listed =>
      exact edge_of_put here found present (.processFetches listed)
  | exitIdx here =>
      obtain rfl := put_self present
      rw [(own here).2]
      split
      · next error => exact .inr (.exitSilent error)
      · exact .inr .exitIdx

/-- The places in `sys_exit`, `process_exit` and after them. -/
def Exiting : Pc → Prop
  | .exitFetch _ => True
  | .exitStore _ _ => True
  | .exitProcess => True
  | .exitIdx _ => True
  | .exitSignal _ => True
  | .dead => True
  | _ => False

/-- `sys_exit` and `process_exit` are entered from user code or from a failed load. -/
theorem edge_to_exit {s : Kernel} {t : Tid} {process : Bool} {action : Action} {pc after : Pc}
    (edge : Edge s t process action pc after) (exits : Exiting after) :
    Exiting pc ∨ (pc = .user ∧ process = true ∧ ∃ ending, action = .finish t ending) ∨
      (pc = .load ∧ ∃ outcome, action = .load t outcome ∧ outcome ≠ .success) := by
  cases edge with
  | loadFails fails => exact .inr (.inr ⟨rfl, _, rfl, fails⟩)
  | finishStores user stores => exact .inr (.inl ⟨rfl, user, _, rfl⟩)
  | finishSilent user silent => exact .inr (.inl ⟨rfl, user, _, rfl⟩)
  | exitMisses absent => exact .inl trivial
  | exitFetches found => exact .inl trivial
  | exitStores => exact .inl trivial
  | processMisses absent => exact .inl trivial
  | processFetches found => exact .inl trivial
  | exitSilent error => exact .inl trivial
  | exitIdx => exact .inl trivial
  | exitSignals => exact .inl trivial
  | _ => exact exits.elim

/-- How a step changes `procList`. -/
theorem took_procs {s next : Kernel} {action : Action} (took : Took s action next) :
    next.procList = s.procList ∨
      (∃ thread child idx, At s action.tid thread (.execAddProc child idx) ∧
        next.procList = (addProcListEntry s.procList (procData s action.tid child idx)).2) ∨
      (∃ thread child p status, At s action.tid thread (.waitClear child p status) ∧
        next.procList = Function.update s.procList p zeroProc) ∨
      ∃ thread p status, At s action.tid thread (.exitStore p status) ∧
        next.procList =
          Function.update s.procList p { s.procList p with exitStatus := status } := by
  cases took with
  | execAddProc here => exact .inr (.inl ⟨_, _, _, here, rfl⟩)
  | waitClear here => exact .inr (.inr (.inl ⟨_, _, _, _, here, rfl⟩))
  | exitStore here => exact .inr (.inr (.inr ⟨_, _, _, here, rfl⟩))
  | launchUp here slot => exact .inl (wake_proc_list _ _)
  | exitSignal here slot => exact .inl (wake_proc_list _ _)
  | _ => exact .inl rfl

/-- A thread holds a slot since its parent was told to wait there. -/
theorem took_slot {s next : Kernel} {action : Action} {c : Tid} {after : Thread} {i : Slot}
    (took : Took s action next) (present : next.threads c = some after)
    (held : after.slot = some i) :
    (∃ before, s.threads c = some before ∧ before.slot = some i ∧
      after.parent = before.parent) ∨
      Event.waitsOn action.tid c i.val ∈ next.history ∧
        ∃ thread, At s action.tid thread (.execAddSem c) := by
  by_cases self : c = action.tid
  · subst self
    obtain ⟨before, found, same⟩ := took_self took present
    exact .inl ⟨before, found, by rw [← same.slot, held], same.parent⟩
  · rcases took_other took self present with ⟨_, _, _, rfl⟩ | ⟨before, found, same, serves⟩
    · cases held
    · cases serves with
      | kept session => exact .inl ⟨before, found, by rw [← session.slot, held], same.parent⟩
      | addSem here told record =>
          rw [record] at held
          rw [slot_at_some held] at told
          exact .inr ⟨told, _, here⟩
      | releases here record =>
          rw [record] at held
          cases held
      | addProc here record =>
          rw [record] at held
          exact .inl ⟨before, found, held, same.parent⟩
      | awaits here record =>
          rw [record] at held
          exact .inl ⟨before, found, held, same.parent⟩
      | reaps here record =>
          rw [record] at held
          exact .inl ⟨before, found, held, same.parent⟩
      | clears here moved record =>
          rw [record] at held
          exact .inl ⟨before, found, held, same.parent⟩

/-- What no step takes back. -/
structure Lasts (before after : Thread) : Prop where
  parent : after.parent = before.parent
  process : after.process = before.process
  awaited : before.awaited = true → after.awaited = true
  reaped : before.reaped = true → after.reaped = true

theorem lasts_refl (thread : Thread) : Lasts thread thread :=
  ⟨rfl, rfl, id, id⟩

section Forward

variable {threads middle : Tid → Option Thread} {t c : Tid} {thread before : Thread}

theorem put_forward {after : Thread} (found : threads t = some thread) (lasts : Lasts thread after)
    (others : ∀ u record, u ≠ t → threads u = some record →
      ∃ changed, middle u = some changed ∧ Lasts record changed)
    (present : threads c = some before) :
    ∃ changed, Function.update middle t (some after) c = some changed ∧ Lasts before changed := by
  by_cases same : c = t
  · subst same
    rw [found, Option.some.injEq] at present
    rw [← present]
    exact ⟨after, Function.update_self .., lasts⟩
  · obtain ⟨changed, lookup, kept⟩ := others c before same present
    exact ⟨changed, by rw [Function.update_of_ne same, lookup], kept⟩

theorem modify_forward {change : Thread → Thread} {u : Tid} {record : Thread}
    (present : threads u = some record) (lasts : ∀ record, Lasts record (change record)) :
    ∃ changed, Function.update threads c ((threads c).map change) u = some changed ∧
      Lasts record changed := by
  by_cases same : u = c
  · subst same
    exact ⟨change record, by simp [present], lasts record⟩
  · exact ⟨record, by rw [Function.update_of_ne same, present], lasts_refl record⟩

theorem wake_forward {s : Kernel} {woken : Option Tid} {u : Tid} {record : Thread}
    (present : s.threads u = some record) :
    ∃ changed, (s.wake woken).threads u = some changed ∧ Lasts record changed := by
  cases woken with
  | none => exact ⟨record, present, lasts_refl record⟩
  | some v => exact modify_forward present fun _ => ⟨rfl, rfl, id, id⟩

theorem lasts_trans {first second third : Thread} (early : Lasts first second)
    (late : Lasts second third) : Lasts first third :=
  ⟨late.parent.trans early.parent, late.process.trans early.process,
    fun awaited => late.awaited (early.awaited awaited),
    fun reaped => late.reaped (early.reaped reaped)⟩

theorem signal_forward {s : Kernel} {after : Thread} (woken : Option Tid)
    (found : s.threads t = some thread) (lasts : Lasts thread after)
    (present : s.threads c = some before) :
    ∃ changed, ((s.put t after).wake woken).threads c = some changed ∧ Lasts before changed := by
  have put : ∃ changed, (s.put t after).threads c = some changed ∧ Lasts before changed :=
    put_forward found lasts (fun _ record _ old => ⟨record, old, lasts_refl record⟩) present
  obtain ⟨middle, lookup, early⟩ := put
  obtain ⟨changed, final, late⟩ := @wake_forward _ woken _ _ lookup
  exact ⟨changed, final, lasts_trans early late⟩

end Forward

/-- Threads stay in the table, each with its parent. -/
theorem took_forward {s next : Kernel} {action : Action} (took : Took s action next)
    (bound : ∀ u record, s.threads u = some record → u ≠ s.nextTid) {c : Tid} {before : Thread}
    (present : s.threads c = some before) :
    ∃ after, next.threads c = some after ∧ Lasts before after := by
  have rest : ∀ (t : Tid) u record, u ≠ t → s.threads u = some record →
      ∃ changed, s.threads u = some changed ∧ Lasts record changed :=
    fun _ _ record _ found => ⟨record, found, lasts_refl record⟩
  cases took with
  | tidOverflow here => exact ⟨before, present, lasts_refl before⟩
  | launchNull here absent => exact ⟨before, present, lasts_refl before⟩
  | outside here indexes missing => exact ⟨before, present, lasts_refl before⟩
  | create here =>
      refine put_forward here.found ⟨rfl, rfl, id, id⟩ ?_ present
      intro u record _ found
      refine ⟨record, ?_, lasts_refl record⟩
      exact (Function.update_of_ne (bound u record found) _ _).trans found
  | execAddSem here =>
      exact put_forward here.found ⟨rfl, rfl, id, id⟩
        (fun _ _ _ found => modify_forward found fun _ => ⟨rfl, rfl, id, id⟩) present
  | execAddProc here =>
      exact put_forward here.found ⟨rfl, rfl, id, id⟩
        (fun _ _ _ found => modify_forward found fun _ => ⟨rfl, rfl, id, id⟩) present
  | execPasses here slot positive =>
      exact put_forward here.found ⟨rfl, rfl, id, id⟩
        (fun _ _ _ found => modify_forward found fun _ => ⟨rfl, rfl, fun _ => rfl, id⟩) present
  | waitPasses here slot positive =>
      exact put_forward here.found ⟨rfl, rfl, id, id⟩
        (fun _ _ _ found => modify_forward found fun _ => ⟨rfl, rfl, id, fun _ => rfl⟩) present
  | waitRelease here slot =>
      exact put_forward here.found ⟨rfl, rfl, id, id⟩
        (fun _ _ _ found => modify_forward found fun _ => ⟨rfl, rfl, id, id⟩) present
  | waitClear here =>
      exact put_forward here.found ⟨rfl, rfl, id, id⟩
        (fun _ _ _ found => modify_forward found fun _ => ⟨rfl, rfl, id, id⟩) present
  | launchUp here slot => exact signal_forward _ here.found ⟨rfl, rfl, id, id⟩ present
  | exitSignal here slot => exact signal_forward _ here.found ⟨rfl, rfl, id, id⟩ present
  | exec lock here => exact put_forward here.found ⟨rfl, rfl, id, id⟩ (rest _) present
  | finish ending here process => exact put_forward here.found ⟨rfl, rfl, id, id⟩ (rest _) present
  | load outcome here => exact put_forward here.found ⟨rfl, rfl, id, id⟩ (rest _) present
  | _ here => exact put_forward here.found ⟨rfl, rfl, id, id⟩ (rest _) present

/-- The step by which an event comes into the history. -/
def Emits (s : Kernel) (action : Action) : Event → Prop
  | .created parent child => action = .create parent true ∧ child = s.nextTid
  | .waitsOn parent child _ => action = .run parent ∧ ∃ thread, At s parent thread (.execAddSem child)
  | .semAccess _ => False
  | .launchedUp child idx => action = .run child ∧ ∃ thread, At s child thread (.launchUp idx)
  | .exitingUp child idx => action = .run child ∧ ∃ thread, At s child thread (.exitSignal idx)
  | .handedOut parent child =>
      action = .run parent ∧ ∃ thread, At s parent thread (.execReturn child)
  | .ended child ending => action = .finish child ending
  | .waitReturned caller child status =>
      action = .run caller ∧ ∃ thread, At s caller thread (.waitReturn child status)

/-- A step uses `semList` at the indices `uses` and reports at most one event. -/
structure Grows (s : Kernel) (action : Action) (next : Kernel) (uses : List Int)
    (news : Option Event) : Prop where
  history : next.history = news.toList ++ (uses.map Event.semAccess ++ s.history)
  indexes : ∀ idx ∈ uses, ∃ thread pc, At s action.tid thread pc ∧ Indexes idx pc
  emits : ∀ event ∈ news, Emits s action event

theorem grows_quietly {s next : Kernel} {action : Action} (same : next.history = s.history) :
    Grows s action next [] none :=
  ⟨same, by simp, by simp⟩

theorem grows_news {s next : Kernel} {action : Action} {event : Event}
    (history : next.history = event :: s.history) (emits : Emits s action event) :
    Grows s action next [] (some event) :=
  ⟨history, by simp, by simpa using emits⟩

theorem grows_use {s next : Kernel} {action : Action} {idx : Int} {thread : Thread} {pc : Pc}
    (history : next.history = .semAccess idx :: s.history) (here : At s action.tid thread pc)
    (indexes : Indexes idx pc) : Grows s action next [idx] none :=
  ⟨history, List.forall_mem_singleton.mpr ⟨thread, pc, here, indexes⟩, by simp⟩

theorem wake_history (s : Kernel) (woken : Option Tid) : (s.wake woken).history = s.history := by
  cases woken <;> rfl

theorem slot_at_ne_error {idx : Int} {i : Slot} (slot : slotAt idx = some i) : idx ≠ -1 := by
  have equal := slot_at_some slot
  omega

/-- The events that go with a change of a thread's own flags. -/
def Marks : Event → Prop
  | .launchedUp _ _ => True
  | .exitingUp _ _ => True
  | .ended _ _ => True
  | _ => False

/-- How the thread that takes a step changes the flags of its own life, and what it
reports when it does. -/
structure Flags (action : Action) (news : Option Event) (before after : Thread) : Prop where
  launched : (after.launched = before.launched ∧ ∀ c idx, news ≠ some (.launchedUp c idx)) ∨
    ∃ idx, before.pc = .launchUp idx ∧ news = some (.launchedUp action.tid idx) ∧
      after.pc = .user ∧ after.launched = true
  signalled : (after.signalled = before.signalled ∧ ∀ c idx, news ≠ some (.exitingUp c idx)) ∨
    ∃ idx, before.pc = .exitSignal idx ∧ news = some (.exitingUp action.tid idx) ∧
      after.pc = .dead ∧ after.signalled = true
  ending : (after.ending = before.ending ∧ ∀ c ending, news ≠ some (.ended c ending)) ∨
    ∃ ending, action = .finish action.tid ending ∧ before.pc = .user ∧ before.process = true ∧
      news = some (.ended action.tid ending) ∧ after.pc = afterFinish ending ∧
      after.ending = some ending

theorem flags_same {action : Action} {news : Option Event} {before after : Thread}
    (plain : ∀ event ∈ news, ¬Marks event) (launched : after.launched = before.launched)
    (signalled : after.signalled = before.signalled) (ending : after.ending = before.ending) :
    Flags action news before after := by
  have unmarked : ∀ event, Marks event → news ≠ some event := by
    rintro event marks rfl
    exact plain event rfl marks
  exact ⟨.inl ⟨launched, fun c idx => unmarked (.launchedUp c idx) trivial⟩,
    .inl ⟨signalled, fun c idx => unmarked (.exitingUp c idx) trivial⟩,
    .inl ⟨ending, fun c ending => unmarked (.ended c ending) trivial⟩⟩

/-- All that a step reports and does to the flags of its thread. -/
def Reports (s : Kernel) (action : Action) (next : Kernel) : Prop :=
  ∃ uses news, Grows s action next uses news ∧
    ∀ before after, s.threads action.tid = some before → next.threads action.tid = some after →
      Flags action news before after

/-- A statement that puts back its thread's record with the same flags. -/
theorem reports_put {s next : Kernel} {action : Action} {middle : Tid → Option Thread}
    {uses : List Int} {news : Option Event} {thread changed : Thread} {pc : Pc}
    (here : At s action.tid thread pc)
    (threads : next.threads = Function.update middle action.tid (some changed))
    (grows : Grows s action next uses news) (plain : ∀ event ∈ news, ¬Marks event)
    (launched : changed.launched = thread.launched)
    (signalled : changed.signalled = thread.signalled)
    (ending : changed.ending = thread.ending) : Reports s action next := by
  refine ⟨uses, news, grows, ?_⟩
  intro before after found present
  rw [here.found, Option.some.injEq] at found
  rw [threads] at present
  rw [put_self present, ← found]
  exact flags_same plain launched signalled ending

theorem reports_quietly {s next : Kernel} {action : Action} {middle : Tid → Option Thread}
    {thread changed : Thread} {pc : Pc} (here : At s action.tid thread pc)
    (threads : next.threads = Function.update middle action.tid (some changed))
    (same : next.history = s.history) (launched : changed.launched = thread.launched)
    (signalled : changed.signalled = thread.signalled)
    (ending : changed.ending = thread.ending) : Reports s action next :=
  reports_put here threads (grows_quietly same) (by simp) launched signalled ending

theorem reports_use {s next : Kernel} {action : Action} {middle : Tid → Option Thread}
    {thread changed : Thread} {pc : Pc} {idx : Int} (here : At s action.tid thread pc)
    (threads : next.threads = Function.update middle action.tid (some changed))
    (history : next.history = .semAccess idx :: s.history) (indexes : Indexes idx pc)
    (launched : changed.launched = thread.launched)
    (signalled : changed.signalled = thread.signalled)
    (ending : changed.ending = thread.ending) : Reports s action next :=
  reports_put here threads (grows_use history here indexes) (by simp) launched signalled ending

theorem reports_news {s next : Kernel} {action : Action} {middle : Tid → Option Thread}
    {thread changed : Thread} {pc : Pc} {event : Event} (here : At s action.tid thread pc)
    (threads : next.threads = Function.update middle action.tid (some changed))
    (history : next.history = event :: s.history) (emits : Emits s action event)
    (plain : ¬Marks event) (launched : changed.launched = thread.launched)
    (signalled : changed.signalled = thread.signalled)
    (ending : changed.ending = thread.ending) : Reports s action next :=
  reports_put here threads (grows_news history emits) (by simpa using plain) launched signalled
    ending

theorem took_reports {s next : Kernel} {action : Action} (took : Took s action next) :
    Reports s action next := by
  cases took with
  | tidOverflow here =>
      refine ⟨[], none, grows_quietly rfl, fun before after found present => ?_⟩
      obtain rfl := Option.some.inj (present.symm.trans found)
      exact flags_same (by simp) rfl rfl rfl
  | launchNull here absent =>
      refine ⟨[], none, grows_quietly rfl, fun before after found present => ?_⟩
      obtain rfl := Option.some.inj (present.symm.trans found)
      exact flags_same (by simp) rfl rfl rfl
  | outside here indexes missing =>
      refine ⟨_, none, grows_use rfl here indexes, fun before after found present => ?_⟩
      obtain rfl := Option.some.inj (present.symm.trans found)
      exact flags_same (by simp) rfl rfl rfl
  | create here => exact reports_news here rfl rfl ⟨rfl, rfl⟩ id rfl rfl rfl
  | execAddSem here => exact reports_news here rfl rfl ⟨rfl, _, here⟩ id rfl rfl rfl
  | execReturn here => exact reports_news here rfl rfl ⟨rfl, _, here⟩ id rfl rfl rfl
  | waitReturn here => exact reports_news here rfl rfl ⟨rfl, _, here⟩ id rfl rfl rfl
  | execBlocks here slot zero => exact reports_use here rfl rfl rfl rfl rfl rfl
  | execPasses here slot positive => exact reports_use here rfl rfl rfl rfl rfl rfl
  | waitBlocks here slot zero =>
      exact reports_use here rfl rfl ⟨rfl, slot_at_ne_error slot⟩ rfl rfl rfl
  | waitPasses here slot positive =>
      exact reports_use here rfl rfl ⟨rfl, slot_at_ne_error slot⟩ rfl rfl rfl
  | waitRelease here slot => exact reports_use here rfl rfl rfl rfl rfl rfl
  | @finish t thread ending here process =>
      refine ⟨_, _, grows_news rfl rfl, fun before after found present => ?_⟩
      obtain rfl := Option.some.inj (here.found.symm.trans found)
      obtain rfl := put_self present
      exact ⟨.inl ⟨rfl, by simp⟩, .inl ⟨rfl, by simp⟩,
        .inr ⟨ending, rfl, here.stands, process, rfl, rfl, rfl⟩⟩
  | @launchUp t thread idx i here slot =>
      refine ⟨[idx], some (.launchedUp t idx), ⟨congrArg (List.cons _) (wake_history _ _),
        List.forall_mem_singleton.mpr ⟨_, _, here, rfl⟩, by simpa using ⟨rfl, _, here⟩⟩, ?_⟩
      intro before after found present
      obtain ⟨middle, old, same, _⟩ := wake_some present
      obtain rfl := put_self old
      obtain rfl := Option.some.inj (here.found.symm.trans found)
      exact ⟨.inr ⟨idx, here.stands, rfl, same.pc, same.launched⟩,
        .inl ⟨same.signalled, by simp⟩, .inl ⟨same.ending, by simp⟩⟩
  | @exitSignal t thread idx i here slot =>
      refine ⟨[idx], some (.exitingUp t idx), ⟨congrArg (List.cons _) (wake_history _ _),
        List.forall_mem_singleton.mpr ⟨_, _, here, rfl⟩, by simpa using ⟨rfl, _, here⟩⟩, ?_⟩
      intro before after found present
      obtain ⟨middle, old, same, _⟩ := wake_some present
      obtain rfl := put_self old
      obtain rfl := Option.some.inj (here.found.symm.trans found)
      exact ⟨.inl ⟨same.launched, by simp⟩,
        .inr ⟨idx, here.stands, rfl, same.pc, same.signalled⟩, .inl ⟨same.ending, by simp⟩⟩
  | exec lock here => exact reports_quietly here rfl rfl rfl rfl rfl
  | load outcome here => exact reports_quietly here rfl rfl rfl rfl rfl
  | _ here => exact reports_quietly here rfl rfl rfl rfl rfl

/-- An event other than a use of `semList` is old or the one this step reports. -/
theorem grows_mem {s next : Kernel} {action : Action} {uses : List Int} {news : Option Event}
    (grows : Grows s action next uses news) {event : Event} (plain : ∀ idx, event ≠ .semAccess idx)
    (member : event ∈ next.history) : event ∈ s.history ∨ Emits s action event := by
  rw [grows.history, List.mem_append, List.mem_append] at member
  rcases member with new | use | old
  · exact .inr (grows.emits event (by simpa using new))
  · obtain ⟨idx, _, rfl⟩ := List.mem_map.mp use
    exact absurd rfl (plain idx)
  · exact .inl old

theorem grows_keeps {s next : Kernel} {action : Action} {uses : List Int} {news : Option Event}
    (grows : Grows s action next uses news) {event : Event} (member : event ∈ s.history) :
    event ∈ next.history := by
  rw [grows.history]
  simp [member]

theorem uses_split {uses : List Int} {history newer older : List Event} {event : Event}
    (plain : ∀ idx, event ≠ .semAccess idx)
    (split : uses.map Event.semAccess ++ history = newer ++ event :: older) :
    ∃ middle, history = middle ++ event :: older := by
  induction uses generalizing newer with
  | nil => exact ⟨newer, split⟩
  | cons idx rest ih =>
      cases newer with
      | nil =>
          rw [List.map_cons, List.cons_append, List.nil_append, List.cons.injEq] at split
          exact absurd split.1.symm (plain idx)
      | cons first newer =>
          rw [List.map_cons, List.cons_append, List.cons_append, List.cons.injEq] at split
          exact ih split.2

/-- An event other than a use of `semList` has its place in the old history or is the
one this step reports. -/
theorem grows_split {s next : Kernel} {action : Action} {uses : List Int} {news : Option Event}
    (grows : Grows s action next uses news) {event : Event} (plain : ∀ idx, event ≠ .semAccess idx)
    {newer older : List Event} (split : next.history = newer ++ event :: older) :
    (∃ middle, s.history = middle ++ event :: older) ∨
      (news = some event ∧ older = uses.map Event.semAccess ++ s.history) := by
  rw [grows.history] at split
  cases news with
  | none => exact .inl (uses_split plain split)
  | some reported =>
      cases newer with
      | nil =>
          rw [Option.toList_some, List.singleton_append, List.nil_append, List.cons.injEq] at split
          exact .inr ⟨by rw [split.1], split.2.symm⟩
      | cons first newer =>
          rw [Option.toList_some, List.singleton_append, List.cons_append, List.cons.injEq] at split
          exact .inl (uses_split plain split.2)

end UtSystems.Userprog.ProcessRecords

import UtSystems.Userprog.ProcessRecords

/-!
# The launch hand-off between parent and child

`start_process` raises `launched` only after a successful `load`; every failing
exit of `load` ends in `sys_exit` without it, and the parent stays blocked. The
child may also run before its parent has registered it: `fetch_process` then
answers NULL and `start_process` dereferences it.
-/

namespace UtSystems.Userprog.ProcessLaunch

open Threads.Synch Userprog.ProcessTable Userprog.ProcessSystem Userprog.ProcessSteps
open Userprog.ProcessThreads Userprog.ProcessInvariant Userprog.ProcessSessions
open Userprog.ProcessSignals Userprog.ProcessOrderly Userprog.ProcessRecords Lib.GuardedRun

set_option autoImplicit false

def isLaunchUp (c : Tid) : Event → Bool
  | .launchedUp d _ => d == c
  | _ => false

/-- How often process `c` has done `sema_up(launched)`. -/
def launchUps (c : Tid) (history : List Event) : Nat := history.countP (isLaunchUp c)

structure LaunchHandOff (s : Kernel) : Prop where
  once : ∀ c newer older idx, s.history = newer ++ .exitingUp c idx :: older → launchUps c older = 1
  terminated : ∀ c record, s.threads c = some record → record.process = true →
    record.pc = .dead → launchUps c s.history = 1
  own : ∀ c idx, Event.launchedUp c idx ∈ s.history → ∃ parent, Event.waitsOn parent c idx ∈ s.history
  awake : ∀ p c parent record, s.threads p = some parent → s.threads c = some record →
    record.pc = .dead → ¬(parent.blocked = true ∧ LaunchDown c parent.pc)

/-- The condition on one step: it is orderly, and no `load` fails. -/
def LaunchSucceeds (s : Kernel) (action : Action) : Prop :=
  Orderly s action ∧ match action with
    | .load _ outcome => outcome = .success
    | _ => True

instance (s : Kernel) (action : Action) : Decidable (LaunchSucceeds s action) :=
  @instDecidableAnd _ _ inferInstance <| match action with
    | .load _ outcome => inferInstanceAs (Decidable (outcome = .success))
    | .exec _ | .create _ _ | .wait _ _ | .finish _ _ | .run _ => instDecidableTrue

/-! ## Every process that comes to its end has been launched -/

structure LaunchOk (s : Kernel) : Prop where
  ended : ∀ c record, s.threads c = some record → Exiting record.pc → record.launched = true
  waits : ∀ c record (i : Slot), s.threads c = some record → record.slot = some i →
    Event.waitsOn record.parent c i.val ∈ s.history
  own : ∀ c idx, Event.launchedUp c idx ∈ s.history → ∃ parent, Event.waitsOn parent c idx ∈ s.history
  count : ∀ c record, s.threads c = some record →
    launchUps c s.history = record.launched.toNat
  none : ∀ c, s.threads c = none → launchUps c s.history = 0
  once : ∀ c newer older idx, s.history = newer ++ .exitingUp c idx :: older → launchUps c older = 1

theorem took_ended {s next : Kernel} {action : Action} (inv : Consistent s)
    (succeeds : LaunchSucceeds s action)
    (old : ∀ c record, s.threads c = some record → Exiting record.pc → record.launched = true)
    (took : Took s action next) {c : Tid} {after : Thread} (present : next.threads c = some after)
    (exits : Exiting after.pc) : after.launched = true := by
  by_cases self : c = action.tid
  · subst self
    obtain ⟨before, found, _⟩ := took_self took present
    obtain ⟨_, _, _, flags⟩ := took_reports took
    rcases (flags before after found present).launched with ⟨same, _⟩ | ⟨_, _, _, _, launched⟩
    · rw [same]
      rcases took_edge took found present with stays | edge
      · exact old _ before found (by rw [← stays]; exact exits)
      · rcases edge_to_exit edge exits with earlier | ⟨user, process, _⟩ | ⟨_, outcome, isLoad, fails⟩
        · exact old _ before found earlier
        · have place := (inv.threads.own _ before found).place
          unfold PlaceOk at place
          rw [user] at place
          exact place process
        · have success := succeeds.2
          rw [isLoad] at success
          exact absurd success fails
    · exact launched
  · rcases took_other took self present with ⟨_, _, _, rfl⟩ | ⟨before, found, same, _⟩
    · exact exits.elim
    · rw [same.launched]
      exact old c before found (by rw [← same.pc]; exact exits)

/-! ## Counting the signals -/

theorem launch_ups_uses (c : Tid) (uses : List Int) (history : List Event) :
    launchUps c (uses.map Event.semAccess ++ history) = launchUps c history := by
  induction uses with
  | nil => rfl
  | cons idx rest ih =>
      rw [← ih]
      exact List.countP_cons_of_neg (by simp [isLaunchUp])

theorem launch_ups_grows {s next : Kernel} {action : Action} {uses : List Int}
    {news : Option Event} (grows : Grows s action next uses news) (c : Tid) :
    launchUps c next.history = launchUps c news.toList + launchUps c s.history := by
  rw [grows.history]
  unfold launchUps
  rw [List.countP_append]
  exact congrArg _ (launch_ups_uses c uses s.history)

theorem launch_ups_other {c : Tid} {news : Option Event}
    (other : ∀ idx, news ≠ some (.launchedUp c idx)) : launchUps c news.toList = 0 := by
  cases news with
  | none => rfl
  | some event =>
      cases event with
      | launchedUp d idx =>
          have different : d ≠ c := by
            rintro rfl
            exact other idx rfl
          simp [launchUps, isLaunchUp, different]
      | _ => rfl

/-- Only the thread that takes the step can report its own launch. -/
theorem launch_ups_rest {s next : Kernel} {action : Action} {uses : List Int}
    {news : Option Event} (grows : Grows s action next uses news) {c : Tid}
    (different : c ≠ action.tid ∨ s.threads c = none) :
    launchUps c next.history = launchUps c s.history := by
  have other : ∀ idx, news ≠ some (.launchedUp c idx) := by
    rintro idx rfl
    obtain ⟨isRun, thread, here⟩ := grows.emits (.launchedUp c idx) rfl
    rcases different with apart | missing
    · exact apart (by rw [isRun]; rfl)
    · rw [here.found] at missing
      cases missing
  rw [launch_ups_grows grows, launch_ups_other other, Nat.zero_add]

theorem took_count {s next : Kernel} {action : Action} (inv : Consistent s) (ok : LaunchOk s)
    (took : Took s action next) {c : Tid} {after : Thread} (present : next.threads c = some after) :
    launchUps c next.history = after.launched.toNat := by
  obtain ⟨uses, news, grows, flags⟩ := took_reports took
  by_cases self : c = action.tid
  · subst self
    obtain ⟨before, found, _⟩ := took_self took present
    rcases (flags before after found present).launched with
      ⟨same, quiet⟩ | ⟨idx, stands, isNews, _, launched⟩
    · rw [launch_ups_grows grows, launch_ups_other (quiet _), Nat.zero_add, same]
      exact ok.count _ before found
    · have place := (inv.threads.own _ before found).place
      unfold PlaceOk at place
      rw [stands] at place
      rw [launch_ups_grows grows, ok.count _ before found, place.1, isNews, launched]
      simp [launchUps, isLaunchUp]
  · rw [launch_ups_rest grows (.inl self)]
    rcases took_other took self present with ⟨t, _, rfl, rfl⟩ | ⟨before, found, same, _⟩
    · apply ok.none
      by_contra exists_
      obtain ⟨record, found⟩ := Option.ne_none_iff_exists'.mp exists_
      exact (inv.threads.range _ record found).2.2.ne rfl
    · rw [same.launched]
      exact ok.count c before found

theorem took_waits {s next : Kernel} {action : Action} (inv : Consistent s)
    (old : ∀ c record (i : Slot), s.threads c = some record → record.slot = some i →
      Event.waitsOn record.parent c i.val ∈ s.history)
    (took : Took s action next) {c : Tid} {after : Thread} {i : Slot}
    (present : next.threads c = some after) (held : after.slot = some i) :
    Event.waitsOn after.parent c i.val ∈ next.history := by
  obtain ⟨uses, news, grows, _⟩ := took_reports took
  rcases took_slot took present held with ⟨before, found, slot, parent⟩ | ⟨member, thread, here⟩
  · rw [parent]
    exact grows_keeps grows (old c before i found slot)
  · obtain ⟨record, found, _, parent, _⟩ := charged inv here rfl
    obtain ⟨changed, lookup, lasts⟩ := took_forward took (fun _ _ => tid_in_use inv) found
    rw [present, Option.some.injEq] at lookup
    rw [lookup, lasts.parent, parent]
    exact member

theorem took_launch {s next : Kernel} {action : Action} (inv : Consistent s)
    (succeeds : LaunchSucceeds s action) (ok : LaunchOk s) (took : Took s action next) :
    LaunchOk next := by
  obtain ⟨uses, news, grows, _⟩ := took_reports took
  constructor
  · intro c after present exits
    exact took_ended inv succeeds ok.ended took present exits
  · intro c after i present held
    exact took_waits inv ok.waits took present held
  · intro c idx member
    have early : ∃ parent, Event.waitsOn parent c idx ∈ s.history := by
      rcases grows_mem grows (by simp) member with old | ⟨_, thread, here⟩
      · exact ok.own c idx old
      · obtain ⟨_, _, i, held, isIdx⟩ := place_at inv here
        exact ⟨thread.parent, by rw [isIdx]; exact ok.waits c thread i here.found held⟩
    obtain ⟨parent, old⟩ := early
    exact ⟨parent, grows_keeps grows old⟩
  · intro c after present
    exact took_count inv ok took present
  · intro c missing
    have before : s.threads c = none := by
      by_contra found
      obtain ⟨record, lookup⟩ := Option.ne_none_iff_exists'.mp found
      obtain ⟨after, present, _⟩ := took_forward took (fun _ _ => tid_in_use inv) lookup
      rw [missing] at present
      cases present
    rw [launch_ups_rest grows (.inr before)]
    exact ok.none c before
  · intro c newer older idx split
    rcases grows_split grows (by simp) split with ⟨middle, old⟩ | ⟨isNews, rfl⟩
    · exact ok.once c middle older idx old
    · obtain ⟨_, thread, here⟩ := grows.emits (.exitingUp c idx) isNews
      have launched : thread.launched = true :=
        ok.ended c thread here.found (by rw [here.stands]; trivial)
      rw [launch_ups_uses, ok.count c thread here.found, launched]
      rfl

theorem boot_launch : LaunchOk boot := by
  constructor
  · intro c record found exits
    rw [(boot_threads found).2] at exits
    exact exits.elim
  · intro c record i found held
    rw [(boot_threads found).2] at held
    cases held
  · intro c idx member
    cases member
  · intro c record found
    rw [(boot_threads found).2]
    rfl
  · exact fun _ _ => rfl
  · intro c newer older idx split
    simp [boot] at split

theorem launch_ok {s : Kernel} (run : Reaches step LaunchSucceeds boot s) :
    Consistent s ∧ LaunchOk s := by
  refine reaches_invariant (fun state => Consistent state ∧ LaunchOk state)
    ⟨boot_consistent, boot_launch⟩ ?_ run
  rintro state action next ⟨inv, ok⟩ succeeds taken
  have took := step_took taken
  exact ⟨took_consistent inv succeeds.1 took, took_launch inv succeeds ok took⟩

theorem launch_hand_off_of_loads {s : Kernel} (run : Reaches step LaunchSucceeds boot s) :
    LaunchHandOff s := by
  obtain ⟨inv, ok⟩ := launch_ok run
  refine ⟨ok.once, ?_, ok.own, ?_⟩
  · intro c record found _ dead
    have launched : record.launched = true := ok.ended c record found (by rw [dead]; trivial)
    rw [ok.count c record found, launched]
    rfl
  · rintro p c parent record parentFound found dead ⟨blocked, down⟩
    have launched : record.launched = true := ok.ended c record found (by rw [dead]; trivial)
    -- The parent on the waiters list says that nobody has raised the semaphore yet.
    obtain ⟨child, childFound, isParent, _, session⟩ :=
      inv.threads.charge p parent parentFound c (launch_down_works down)
    obtain rfl : record = child := Option.some.inj (found.symm.trans childFound)
    obtain ⟨idx, stands⟩ := down
    rw [stands] at session
    obtain ⟨⟨i, slot, _⟩, _⟩ := session
    have fits := (inv.sems.fits c record i found slot).launched
    have stuck : Stuck s.threads record.parent (LaunchDown c) :=
      ⟨parent, by rw [isParent, parentFound], blocked, idx, stands⟩
    have quiet := (fits.waits stuck).2
    rw [launched] at quiet
    cases quiet

theorem launch_hand_off_one_process :
    ∃ s, Reaches step LaunchSucceeds boot s ∧ Event.waitReturned 1 3 7 ∈ s.history ∧
      LaunchHandOff s := by
  obtain ⟨s, run, check⟩ := @reaches_of_check _ _ step LaunchSucceeds _ boot oneProcess
    (fun s => Event.waitReturned 1 3 7 ∈ s.history) (by decide +kernel)
  exact ⟨s, run, of_decide_eq_true check, launch_hand_off_of_loads run⟩

/-- The boot thread starts a process whose executable cannot be opened. -/
def failedLoad : List Action :=
  [.exec 1, .create 1 true, .run 1, .run 1, .run 1, .load 3 .openFailed, .run 3, .run 3, .run 3,
    .run 3, .run 3]

theorem launch_lost_when_load_fails : ∃ s, Reachable s ∧ ¬LaunchHandOff s := by
  obtain ⟨s, run, check⟩ := @reaches_of_check _ _ step (fun _ _ => True) _ boot failedLoad
    (fun s => (∃ parent ∈ s.threads 1, parent.blocked = true ∧ parent.pc = .execDown 3 0) ∧
      ∃ child ∈ s.threads 3, child.pc = .dead) (by decide +kernel)
  obtain ⟨⟨parent, found, blocked, stands⟩, child, childFound, dead⟩ := of_decide_eq_true check
  exact ⟨s, run, fun handOff =>
    handOff.awake 1 3 parent child found childFound dead ⟨blocked, 0, stands⟩⟩

/-! ## Registration before the child looks itself up -/

/-- The statements that evaluate `fetch_process(thread_current()->tid)`. -/
def Fetches : Pc → Prop
  | .launch => True
  | .exitFetch _ => True
  | .exitProcess => True
  | _ => False

/-- The parent is past `thread_create` of `child` and not past `add_proc_list_entry`. -/
def Registering (child : Tid) : Pc → Prop
  | .execAddSem tid => tid = child
  | .execAddProc tid _ => tid = child
  | _ => False

/-- The condition on one step: it is orderly, and a thread takes no step while its
parent is registering it. -/
def NotEarly (s : Kernel) (action : Action) : Prop :=
  Orderly s action ∧ ∀ record ∈ s.threads action.tid, ∀ parent ∈ s.threads record.parent,
    ¬Registering action.tid parent.pc

instance (child : Tid) (pc : Pc) : Decidable (Registering child pc) :=
  match pc with
  | .execAddSem tid => inferInstanceAs (Decidable (tid = child))
  | .execAddProc tid _ => inferInstanceAs (Decidable (tid = child))
  | .user | .execCreate | .execDown _ _ | .execReturn _ | .runTask _ | .waitIdx _ _
  | .waitDown _ _ _ | .waitRelease _ _ _ | .waitRead _ _ | .waitClear _ _ _ | .waitReturn _ _
  | .load | .launch | .launchUp _ | .exitFetch _ | .exitStore _ _ | .exitProcess | .exitIdx _
  | .exitSignal _ | .dead => instDecidableFalse

instance (s : Kernel) (action : Action) : Decidable (NotEarly s action) := by
  unfold NotEarly
  infer_instance

/-- `fetch_process` finds the entry of `c`, with the index of the slot on which its
parent waits. -/
def FindsEntry (s : Kernel) (c : Tid) : Prop :=
  ∃ record k, s.threads c = some record ∧ fetchProcess s.procList c = some k ∧
    Event.waitsOn record.parent c (s.procList k).semListIdx ∈ s.history

theorem orderly_waits {s : Kernel} (run : Reaches step Orderly boot s) :
    ∀ c record (i : Slot), s.threads c = some record → record.slot = some i →
      Event.waitsOn record.parent c i.val ∈ s.history := by
  have both := reaches_invariant (fun state => Consistent state ∧
    ∀ c record (i : Slot), state.threads c = some record → record.slot = some i →
      Event.waitsOn record.parent c i.val ∈ state.history)
    ⟨boot_consistent, boot_launch.waits⟩ (by
      rintro state action next ⟨inv, old⟩ orderly taken
      have took := step_took taken
      exact ⟨took_consistent inv orderly took, fun c record i present held =>
        took_waits inv old took present held⟩) run
  exact both.2

/-- A process that is alive and not being registered has its entry. -/
theorem entry_of_alive {s : Kernel} (inv : Consistent s) {c : Tid} {record : Thread}
    (found : s.threads c = some record) (process : record.process = true)
    (alive : record.pc ≠ .dead)
    (registered : ∀ parent ∈ s.threads record.parent, ¬Registering c parent.pc) :
    ∃ k, record.entry = some k := by
  have own := inv.threads.own c record found
  rw [← Option.isSome_iff_exists]
  by_cases awaited : record.awaited = true
  · exact (own.launchedHolds (own.awaitedLaunched awaited) (unreaped_of_alive own alive)).2
  · obtain ⟨parent, lookup, launches⟩ := inv.threads.launching c record found process
      (Bool.eq_false_iff.mpr awaited)
    have later := registered parent lookup
    obtain ⟨child, childFound, _, _, session⟩ := inv.threads.charge _ parent lookup c
      (launching_works launches)
    obtain rfl : record = child := Option.some.inj (found.symm.trans childFound)
    cases stands : parent.pc with
    | execAddSem tid =>
        rw [stands] at launches later
        exact absurd launches later
    | execAddProc tid idx =>
        rw [stands] at launches later
        exact absurd launches later
    | execDown tid idx =>
        rw [stands] at session
        exact session.2.1
    | _ =>
        rw [stands] at launches
        exact launches.elim

theorem child_finds_entry {s : Kernel} (run : Reaches step NotEarly boot s) {c : Tid}
    {record : Thread} (found : s.threads c = some record) (process : record.process = true)
    (fetches : Fetches record.pc) (allowed : NotEarly s (.run c)) : FindsEntry s c := by
  have orderly : Reaches step Orderly boot s := reaches_mono (fun _ _ meets => meets.1) run
  have inv := orderly_consistent orderly
  have alive : record.pc ≠ .dead := by
    intro dead
    rw [dead] at fetches
    exact fetches
  obtain ⟨k, entry⟩ := entry_of_alive inv found process alive (allowed.2 record found)
  obtain ⟨i, slot, idx⟩ := entry_index inv found entry
    (unreaped_of_alive (inv.threads.own c record found) alive)
  refine ⟨record, k, found, (fetch_process_entry inv found).trans entry, ?_⟩
  rw [idx]
  exact orderly_waits orderly c record i found slot

/-- The parent is blocked in `sema_down(launched)` when the child has loaded. -/
def loaded : List Action :=
  [.exec 1, .create 1 true, .run 1, .run 1, .run 1, .load 3 .success]

theorem child_finds_entry_loaded :
    ∃ s record, Reaches step NotEarly boot s ∧ s.threads 3 = some record ∧
      record.process = true ∧ Fetches record.pc ∧ NotEarly s (.run 3) ∧ FindsEntry s 3 := by
  obtain ⟨s, run, check⟩ := @reaches_of_check _ _ step NotEarly _ boot loaded
    (fun s => (∃ record ∈ s.threads 3, record.process = true ∧ record.pc = .launch) ∧
      NotEarly s (.run 3)) (by decide +kernel)
  obtain ⟨⟨record, found, process, stands⟩, allowed⟩ := of_decide_eq_true check
  have fetches : Fetches record.pc := by rw [stands]; trivial
  exact ⟨s, record, run, found, process, fetches, allowed,
    child_finds_entry run found process fetches allowed⟩

/-- The child is scheduled right after `thread_create`. -/
def earlyChild : List Action := [.exec 1, .create 1 true, .load 3 .success]

theorem child_misses_entry :
    ∃ s record, Reachable s ∧ s.threads 3 = some record ∧ record.process = true ∧
      Fetches record.pc ∧ ¬FindsEntry s 3 ∧
      ∃ next, step s (.run 3) = some next ∧ next.fault = some (.nullProcess 3) := by
  obtain ⟨s, run, check⟩ := @reaches_of_check _ _ step (fun _ _ => True) _ boot earlyChild
    (fun s => (∃ record ∈ s.threads 3, record.process = true ∧ record.pc = .launch) ∧
      fetchProcess s.procList 3 = none ∧
      ∃ next ∈ step s (.run 3), next.fault = some (.nullProcess 3)) (by decide +kernel)
  obtain ⟨⟨record, found, process, stands⟩, absent, next, taken, fault⟩ :=
    of_decide_eq_true check
  refine ⟨s, record, run, found, process, by rw [stands]; trivial, ?_, next, taken, fault⟩
  rintro ⟨_, k, _, listed, _⟩
  rw [absent] at listed
  cases listed

end UtSystems.Userprog.ProcessLaunch

import UtSystems.Lib.GuardedRun
import UtSystems.Threads.Synch
import Mathlib.Data.List.Nodup

/-!
# Wake-ups of semaphores

Any number of threads use one semaphore. `sema_up` takes a thread off the waiters and makes it
ready; the thread tests the value again when it runs, and another thread may have taken the unit
in between. Ups and downs are counted when they are complete.
-/

namespace UtSystems.Threads.Semaphores

open Lib.GuardedRun Threads.Synch

set_option autoImplicit false

structure Shared where
  sema : Semaphore
  -- unblocked by `sema_up`, and not yet back at the test of `sema_down`
  woken : List Tid
  ups : Nat
  downs : Nat
  deriving DecidableEq, Repr

def Shared.init (value : Nat) : Shared :=
  { sema := semaInit value, woken := [], ups := 0, downs := 0 }

/-- The thread is inside `sema_down`. -/
def Shared.Sleeps (s : Shared) (t : Tid) : Prop := t ∈ s.sema.waiters ∨ t ∈ s.woken

instance (s : Shared) (t : Tid) : Decidable (s.Sleeps t) :=
  inferInstanceAs (Decidable (t ∈ s.sema.waiters ∨ t ∈ s.woken))

/-- The test of `sema_down`; true if the unit is taken. -/
def Shared.down (s : Shared) (t : Tid) : Shared × Bool :=
  let (sema, taken) := semaDown s.sema t
  ({ s with sema := sema, downs := s.downs + taken.toNat }, taken)

/-- A woken thread is back at the test. -/
def Shared.retest (s : Shared) (t : Tid) : Shared × Bool :=
  Shared.down { s with woken := s.woken.erase t } t

def Shared.tryDown (s : Shared) : Shared × Bool :=
  let (sema, taken) := semaTryDown s.sema
  ({ s with sema := sema, downs := s.downs + taken.toNat }, taken)

def Shared.up (s : Shared) : Shared :=
  let (sema, first) := semaUp s.sema
  { s with sema := sema, woken := s.woken ++ first.toList, ups := s.ups + 1 }

inductive Action where
  | down (t : Tid)
  | retest (t : Tid)
  -- also in an interrupt handler
  | tryDown
  | up
  deriving DecidableEq, Repr

def step (s : Shared) : Action → Option Shared
  | .down t => if s.Sleeps t then none else some (s.down t).1
  | .retest t => if t ∈ s.woken then some (s.retest t).1 else none
  | .tryDown => some s.tryDown.1
  | .up => some s.up

/-- The value counts modulo `2 ^ 32`, nobody sleeps twice, and there are as many threads on their
way to the test as units are left while others wait. -/
structure Sound (initial : Nat) (s : Shared) : Prop where
  enough : s.downs ≤ initial + s.ups
  value : s.sema.value = (initial + s.ups - s.downs) % 2 ^ 32
  apart : (s.sema.waiters ++ s.woken).Nodup
  pending : s.sema.waiters ≠ [] → s.sema.value ≤ s.woken.length

section Steps

variable {initial : Nat} {s : Shared} {t : Tid}

theorem sound_init (small : initial < 2 ^ 32) : Sound initial (Shared.init initial) where
  enough := Nat.zero_le _
  value := (Nat.mod_eq_of_lt small).symm
  apart := List.nodup_nil
  pending := fun waits => absurd rfl waits

/-- A unit is taken; `woken` are the threads on their way afterwards. -/
theorem take_sound {woken : List Tid} (sound : Sound initial s) (positive : 0 < s.sema.value)
    (apart : (s.sema.waiters ++ woken).Nodup)
    (pending : s.sema.waiters ≠ [] → s.sema.value ≤ woken.length + 1) :
    Sound initial { s with
      sema := { s.sema with value := s.sema.value - 1 }
      woken := woken
      downs := s.downs + 1 } := by
  have enough := sound.enough
  have value := sound.value
  have more : s.downs + 1 ≤ initial + s.ups := by omega
  have less : s.sema.value - 1 = (initial + s.ups - (s.downs + 1)) % 2 ^ 32 := by omega
  refine ⟨more, less, apart, fun waits => ?_⟩
  exact Nat.sub_le_of_le_add (pending waits)

/-- There is no unit, and the thread queues behind the waiters. -/
theorem queue_sound {woken : List Tid} (sound : Sound initial s) (empty : s.sema.value = 0)
    (apart : (s.sema.waiters ++ woken).Nodup) (fresh : t ∉ s.sema.waiters ++ woken) :
    Sound initial { s with
      sema := { s.sema with waiters := s.sema.waiters ++ [t] }
      woken := woken } := by
  refine ⟨sound.enough, sound.value, ?_, fun _ => ?_⟩
  · rw [List.append_assoc]
    exact List.nodup_middle.mpr (List.nodup_cons.mpr ⟨fresh, apart⟩)
  · exact Nat.le_trans (Nat.le_of_eq empty) (Nat.zero_le _)

theorem down_sound (sound : Sound initial s) (awake : ¬s.Sleeps t) :
    Sound initial (s.down t).1 := by
  unfold Shared.down semaDown
  by_cases empty : s.sema.value = 0
  · rw [if_pos empty]
    exact queue_sound sound empty sound.apart fun here => awake (List.mem_append.mp here)
  · rw [if_neg empty]
    exact take_sound sound (Nat.pos_of_ne_zero empty) sound.apart fun waits =>
      Nat.le_succ_of_le (sound.pending waits)

theorem try_down_sound (sound : Sound initial s) : Sound initial s.tryDown.1 := by
  unfold Shared.tryDown semaTryDown
  by_cases positive : 0 < s.sema.value
  · rw [if_pos positive]
    exact take_sound sound positive sound.apart fun waits =>
      Nat.le_succ_of_le (sound.pending waits)
  · rw [if_neg positive]
    exact sound

/-- The woken thread is not on its way any more, and takes the unit if there is one. -/
theorem retest_sound (sound : Sound initial s) (woken : t ∈ s.woken) :
    Sound initial (s.retest t).1 := by
  have length := List.length_erase_of_mem woken
  have one := List.length_pos_of_mem woken
  have apart : (s.sema.waiters ++ s.woken.erase t).Nodup :=
    sound.apart.sublist (List.Sublist.append_left List.erase_sublist _)
  unfold Shared.retest Shared.down semaDown
  dsimp only
  by_cases empty : s.sema.value = 0
  · rw [if_pos empty]
    refine queue_sound sound empty apart fun here => ?_
    rcases List.mem_append.mp here with waits | again
    · exact List.disjoint_of_nodup_append sound.apart waits woken
    · exact List.Nodup.not_mem_erase (List.Nodup.of_append_right sound.apart) again
  · rw [if_neg empty]
    refine take_sound sound (Nat.pos_of_ne_zero empty) apart fun waits => ?_
    have pending := sound.pending waits
    omega

theorem up_sound (sound : Sound initial s) : Sound initial s.up := by
  have enough : s.downs ≤ initial + (s.ups + 1) := Nat.le_succ_of_le sound.enough
  have total : (s.sema.value + 1) % 2 ^ 32 = (initial + (s.ups + 1) - s.downs) % 2 ^ 32 := by
    have before := sound.enough
    rw [sound.value, Nat.mod_add_mod]
    congr 1
    omega
  unfold Shared.up semaUp
  cases waiters : s.sema.waiters with
  | nil =>
      dsimp only
      have apart := sound.apart
      rw [waiters] at apart
      refine ⟨enough, total, ?_, fun waits => absurd rfl waits⟩
      rw [Option.toList_none, List.append_nil]
      exact apart
  | cons first rest =>
      have pending := sound.pending (by rw [waiters]; exact List.cons_ne_nil _ _)
      have apart := sound.apart
      rw [waiters] at apart
      dsimp only
      refine ⟨enough, total, ?_, fun _ => ?_⟩
      · rw [Option.toList_some, ← List.append_assoc]
        apply List.nodup_middle.mpr
        rw [List.append_nil]
        exact apart
      · rw [Option.toList_some, List.length_append, List.length_singleton]
        exact Nat.le_trans (Nat.mod_le _ _) (Nat.succ_le_succ pending)

/-- A test takes a unit, or there was none. -/
structure Tested (s : Shared) (result : Shared × Bool) : Prop where
  taken : result.2 = true → 0 < s.sema.value ∧ result.1.sema.value = s.sema.value - 1
  refused : result.2 = false → s.sema.value = 0 ∧ result.1.sema.value = 0

theorem down_tested : Tested s (s.down t) := by
  unfold Shared.down semaDown
  by_cases empty : s.sema.value = 0
  · rw [if_pos empty]
    exact ⟨fun taken => (by cases taken), fun _ => ⟨empty, empty⟩⟩
  · rw [if_neg empty]
    exact ⟨fun _ => ⟨Nat.pos_of_ne_zero empty, rfl⟩, fun refused => (by cases refused)⟩

theorem retest_tested : Tested s (s.retest t) := by
  have tested := @down_tested { s with woken := s.woken.erase t } t
  exact ⟨tested.taken, tested.refused⟩

theorem try_down_tested : Tested s s.tryDown := by
  unfold Shared.tryDown semaTryDown
  by_cases positive : 0 < s.sema.value
  · rw [if_pos positive]
    exact ⟨fun _ => ⟨positive, rfl⟩, fun refused => (by cases refused)⟩
  · rw [if_neg positive]
    have empty : s.sema.value = 0 := Nat.eq_zero_of_not_pos positive
    exact ⟨fun taken => (by cases taken), fun _ => ⟨empty, empty⟩⟩

theorem down_sleeps (u : Tid) :
    (s.down t).1.Sleeps u ↔ s.Sleeps u ∨ u = t ∧ (s.down t).2 = false := by
  unfold Shared.down semaDown Shared.Sleeps
  by_cases empty : s.sema.value = 0
  · simp only [if_pos empty, List.mem_append, List.mem_singleton, and_true]
    exact or_right_comm
  · simp only [if_neg empty, Bool.true_eq_false, and_false, or_false]

theorem retest_sleeps (apart : (s.sema.waiters ++ s.woken).Nodup) (woken : t ∈ s.woken) (u : Tid) :
    (s.retest t).1.Sleeps u ↔ s.Sleeps u ∧ u ≠ t ∨ u = t ∧ (s.retest t).2 = false := by
  unfold Shared.retest
  rw [down_sleeps]
  apply or_congr_left
  unfold Shared.Sleeps
  dsimp only
  rw [List.Nodup.mem_erase_iff (List.Nodup.of_append_right apart)]
  constructor
  · rintro (waits | ⟨different, wakes⟩)
    · refine ⟨.inl waits, ?_⟩
      rintro rfl
      exact List.disjoint_of_nodup_append apart waits woken
    · exact ⟨.inr wakes, different⟩
  · rintro ⟨waits | wakes, different⟩
    · exact .inl waits
    · exact .inr ⟨different, wakes⟩

theorem try_down_sleeps (u : Tid) : s.tryDown.1.Sleeps u ↔ s.Sleeps u := by
  unfold Shared.tryDown semaTryDown Shared.Sleeps
  by_cases positive : 0 < s.sema.value
  · rw [if_pos positive]
  · rw [if_neg positive]

theorem up_sleeps (u : Tid) : s.up.Sleeps u ↔ s.Sleeps u := by
  unfold Shared.up semaUp Shared.Sleeps
  cases waiters : s.sema.waiters with
  | nil => simp only [Option.toList_none, List.append_nil]
  | cons first rest =>
      simp only [Option.toList_some, List.mem_append, List.mem_cons, List.not_mem_nil, or_false]
      constructor
      · rintro (later | wakes | isFirst)
        · exact .inl (.inr later)
        · exact .inr wakes
        · exact .inl (.inl isFirst)
      · rintro ((isFirst | later) | wakes)
        · exact .inr (.inr isFirst)
        · exact .inl later
        · exact .inr (.inl wakes)

theorem up_value : s.up.sema.value = (s.sema.value + 1) % 2 ^ 32 := by
  unfold Shared.up semaUp
  cases s.sema.waiters with
  | nil => rfl
  | cons first rest => rfl

end Steps

theorem step_sound {initial : Nat} {s next : Shared} {action : Action} (sound : Sound initial s)
    (taken : step s action = some next) : Sound initial next := by
  cases action with
  | down t =>
      obtain ⟨awake, eq⟩ := Option.ite_none_left_eq_some.mp taken
      cases eq
      exact down_sound sound awake
  | retest t =>
      obtain ⟨woken, eq⟩ := Option.ite_none_right_eq_some.mp taken
      cases eq
      exact retest_sound sound woken
  | tryDown =>
      cases taken
      exact try_down_sound sound
  | up =>
      cases taken
      exact up_sound sound

theorem reaches_sound {initial : Nat} (small : initial < 2 ^ 32) {s : Shared}
    (run : Reaches step (fun _ _ => True) (Shared.init initial) s) : Sound initial s :=
  reaches_invariant (Sound initial) (sound_init small)
    (fun _ _ _ sound _ taken => step_sound sound taken) run

end UtSystems.Threads.Semaphores

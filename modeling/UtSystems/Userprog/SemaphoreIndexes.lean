import UtSystems.Userprog.ProcessStatus

/-!
# The semaphores that the process table refers to

An index in `procList` is -1 or that of an entry of `semList` that `add_sem_list_entry` has set up
at some time. A free slot of `procList` has the index 0. The entry 0 is the first one to be set up,
so that it is set up before the first process is in user mode.
-/

namespace UtSystems.Userprog.SemaphoreIndexes

open Threads.Synch Lib.GuardedRun Userprog.ProcessTable Userprog.ProcessSystem Userprog.ProcessSteps
open Userprog.ProcessSignals Userprog.ProcessOrderly Userprog.ProcessRecords Userprog.ProcessWait
open Userprog.ProcessStatus

set_option autoImplicit false

/-- `add_sem_list_entry` has handed out this index. -/
def SetUp (s : Kernel) (idx : Int) : Prop :=
  ∃ parent child, Event.waitsOn parent child idx ∈ s.history

/-- A process is past its start and not on its way out. -/
def inCall : Pc → Bool
  | .load | .launch | .launchUp _ | .exitFetch _ | .exitStore _ _ | .exitProcess | .exitIdx _
  | .exitSignal _ | .dead => false
  | _ => true

structure Indexed (s : Kernel) : Prop where
  told : ∀ idx, SetUp s idx → idx = -1 ∨ ∃ i, slotAt idx = some i
  present : ∀ i, (s.semList i).present = true → SetUp s i.val
  first : ∀ (i : Slot), SetUp s i.val → SetUp s 0
  entries : ∀ k, ((s.procList k).tid = 0 ∧ (s.procList k).semListIdx = 0) ∨
    SetUp s (s.procList k).semListIdx
  registers : ∀ t thread child idx, s.threads t = some thread →
    thread.pc = .execAddProc child idx → SetUp s idx
  launches : ∀ t thread idx, s.threads t = some thread → thread.pc = .launchUp idx → SetUp s idx
  positive : 0 < s.nextTid ∧ ∀ t thread, s.threads t = some thread → 0 < t
  running : ∀ t thread, s.threads t = some thread → thread.process = true →
    inCall thread.pc = true → SetUp s 0

theorem fresh_index (semList : SemList) : (addSemListEntry semList).1 = -1 ∨
    ∃ i, freeSemSlot semList = some i ∧ (addSemListEntry semList).1 = i.val := by
  unfold addSemListEntry
  cases found : freeSemSlot semList with
  | none => exact .inl rfl
  | some i => exact .inr ⟨i, rfl, rfl⟩

/-- A free list of semaphores is taken from its start. -/
theorem free_sem_slot_first {semList : SemList} (free : ∀ i, (semList i).present = false) :
    freeSemSlot semList = some 0 := by
  unfold freeSemSlot
  cases found : Fin.find? fun i => !(semList i).present with
  | none =>
      have none_ := Fin.find?_eq_none_iff.mp found 0
      simp [free] at none_
  | some i =>
      obtain ⟨_, before⟩ := Fin.find?_eq_some_iff.mp found
      by_contra later
      have positive : 0 < i := by
        apply Fin.pos_of_ne_zero
        intro zero
        rw [zero] at later
        exact later rfl
      have earlier := before 0 positive
      simp [free] at earlier

section Steps

variable {s next : Kernel} {action : Action}

/-- Where a new index comes from. -/
theorem took_told (took : Took s action next) {idx : Int} (told : SetUp next idx) :
    SetUp s idx ∨ idx = (addSemListEntry s.semList).1 := by
  obtain ⟨parent, child, member⟩ := told
  have old : Event.waitsOn parent child idx ∈ s.history → SetUp s idx :=
    fun member => ⟨parent, child, member⟩
  cases took with
  | execAddSem here =>
      rcases List.mem_cons.mp member with new | member
      · cases new
        exact .inr rfl
      · exact .inl (old member)
  | launchUp here slot =>
      rcases List.mem_cons.mp member with new | member
      · cases new
      · rw [wake_history] at member
        rcases List.mem_cons.mp member with new | member
        · cases new
        · exact .inl (old member)
  | exitSignal here slot =>
      rcases List.mem_cons.mp member with new | member
      · cases new
      · rw [wake_history] at member
        rcases List.mem_cons.mp member with new | member
        · cases new
        · exact .inl (old member)
  | create here | outside here | finish here | execBlocks here | execPasses here | execReturn here
  | waitBlocks here | waitPasses here | waitRelease here | waitReturn here =>
      rcases List.mem_cons.mp member with new | member
      · cases new
      · exact .inl (old member)
  | _ => exact .inl (old member)

theorem took_set_up (took : Took s action next) {idx : Int} (told : SetUp s idx) :
    SetUp next idx := by
  obtain ⟨parent, child, member⟩ := told
  obtain ⟨uses, news, grows, _⟩ := took_reports took
  exact ⟨parent, child, grows_keeps grows member⟩

theorem wake_sem_list (s : Kernel) (woken : Option Tid) : (s.wake woken).semList = s.semList := by
  cases woken <;> rfl

/-- The first entry that is ever set up is the entry 0. -/
theorem took_first (inv : Indexed s) (took : Took s action next) (i : Slot)
    (told : SetUp next i.val) : SetUp next 0 := by
  rcases took_told took told with old | isNew
  · exact took_set_up took (inv.first i old)
  · rcases fresh_index s.semList with error | ⟨j, free, isIdx⟩
    · rw [error] at isNew
      omega
    · by_cases used : ∃ k, (s.semList k).present = true
      · obtain ⟨k, present⟩ := used
        exact took_set_up took (inv.first k (inv.present k present))
      · have allFree : ∀ k, (s.semList k).present = false := fun k =>
          Bool.eq_false_iff.mpr fun present => used ⟨k, present⟩
        rw [free_sem_slot_first allFree] at free
        cases free
        rw [isNew, isIdx] at told
        exact told

end Steps

end UtSystems.Userprog.SemaphoreIndexes

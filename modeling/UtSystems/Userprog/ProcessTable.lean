import UtSystems.Threads.Synch
import Mathlib.Data.Fin.Tuple.Basic
import Mathlib.Logic.Function.Basic

/-!
# The process and semaphore tables of userprog/process.c

`procList` and `semList` are static arrays of 100 zeroed entries. A free `procList`
slot is one whose `tid` field is 0, and `fetch_process` compares that same field,
so a lookup of tid 0 finds a free slot. The list links of `sProcType` are
initialised but never read and are left out.
-/

namespace UtSystems.Userprog.ProcessTable

open Threads.Synch

set_option autoImplicit false

/-- An index of `semList` or of `procList`. -/
abbrev Slot := Fin 100

structure SSemType where
  launched : Semaphore
  exiting : Semaphore
  present : Bool
  deriving DecidableEq, Repr

structure SProcType where
  tid : Tid
  parentTid : Tid
  semListIdx : Int
  exitStatus : Int
  deriving DecidableEq, Repr

abbrev ProcList := Slot → SProcType
abbrev SemList := Slot → SSemType

/-- `memset(p, 0, sizeof(sProcType))`. -/
def zeroProc : SProcType := { tid := 0, parentTid := 0, semListIdx := 0, exitStatus := 0 }

def zeroSem : SSemType :=
  { launched := semaInit 0, exiting := semaInit 0, present := false }

@[irreducible] def fetchProcess (procList : ProcList) (tid : Tid) : Option Slot :=
  Fin.find? fun i => (procList i).tid == tid

/-- The slot at which the loop of `add_proc_list_entry` stops. -/
@[irreducible] def freeProcSlot (procList : ProcList) : Option Slot :=
  Fin.find? fun i => (procList i).tid == 0

def addProcListEntry (procList : ProcList) (process : SProcType) : Int × ProcList :=
  match freeProcSlot procList with
  | some i => (i.val, Function.update procList i process)
  | none => (-1, procList)

/-- The slot at which the loop of `add_sem_list_entry` stops. -/
@[irreducible] def freeSemSlot (semList : SemList) : Option Slot :=
  Fin.find? fun i => !(semList i).present

/-- What `add_sem_list_entry` writes into the slot it takes. -/
def freshSem : SSemType := { launched := semaInit 0, exiting := semaInit 0, present := true }

def addSemListEntry (semList : SemList) : Int × SemList :=
  match freeSemSlot semList with
  | some i => (i.val, Function.update semList i freshSem)
  | none => (-1, semList)

/-- The element `semList[idx]` denotes, when the index is one of the array's. -/
def slotAt (idx : Int) : Option Slot :=
  if bound : 0 ≤ idx ∧ idx < 100 then some ⟨idx.toNat, by omega⟩ else none

@[simp] theorem slot_at_val (slot : Slot) : slotAt (slot.val : Int) = some slot := by
  have bound : (0 : Int) ≤ slot.val ∧ (slot.val : Int) < 100 := by
    have := slot.isLt
    omega
  rw [slotAt, dif_pos bound]
  simp

theorem slot_at_same {idx : Int} {i j : Slot} (isIdx : idx = j.val)
    (found : slotAt idx = some i) : j = i := by
  rw [isIdx, slot_at_val, Option.some.injEq] at found
  exact found

theorem slot_at_some {idx : Int} {slot : Slot} (found : slotAt idx = some slot) :
    idx = slot.val := by
  unfold slotAt at found
  split at found
  · next bound =>
    cases found
    simp only
    omega
  · cases found

theorem fetch_process_none {procList : ProcList} {tid : Tid} :
    fetchProcess procList tid = none ↔ ∀ k, (procList k).tid ≠ tid := by
  unfold fetchProcess
  rw [Fin.find?_eq_none_iff]
  simp

theorem fetch_process_some {procList : ProcList} {tid : Tid} {k : Slot}
    (found : fetchProcess procList tid = some k) : (procList k).tid = tid := by
  unfold fetchProcess at found
  simpa using Fin.eq_true_of_find?_eq_some found

/-- A tid that occurs in exactly one slot is found there. -/
theorem fetch_process_unique {procList : ProcList} {tid : Tid} {k : Slot}
    (here : (procList k).tid = tid)
    (only : ∀ other, (procList other).tid = tid → other = k) :
    fetchProcess procList tid = some k := by
  cases found : fetchProcess procList tid with
  | none => exact absurd here (fetch_process_none.mp found k)
  | some other => rw [only other (fetch_process_some found)]

theorem add_proc_list_entry_free {procList : ProcList} (process : SProcType)
    (room : ∃ k, (procList k).tid = 0) :
    ∃ k, (procList k).tid = 0 ∧
      addProcListEntry procList process =
        ((k.val : Int), Function.update procList k process) := by
  cases found : freeProcSlot procList with
  | none =>
      obtain ⟨k, free⟩ := room
      unfold freeProcSlot at found
      have absent := Fin.find?_eq_none_iff.mp found k
      simp [free] at absent
  | some k =>
      have entry : addProcListEntry procList process =
          ((k.val : Int), Function.update procList k process) := by
        simp only [addProcListEntry, found]
      unfold freeProcSlot at found
      have free := Fin.eq_true_of_find?_eq_some found
      exact ⟨k, by simpa using free, entry⟩

/-- An entry in use is not overwritten. -/
theorem add_proc_list_entry_used {procList : ProcList} (process : SProcType) {k : Slot}
    (used : (procList k).tid ≠ 0) : (addProcListEntry procList process).2 k = procList k := by
  cases found : freeProcSlot procList with
  | none => simp only [addProcListEntry, found]
  | some i =>
      simp only [addProcListEntry, found]
      apply Function.update_of_ne
      rintro rfl
      unfold freeProcSlot at found
      have free := Fin.eq_true_of_find?_eq_some found
      exact used (by simpa using free)

theorem add_sem_list_entry_free {semList : SemList}
    (room : ∃ i, (semList i).present = false) :
    ∃ i, (semList i).present = false ∧
      addSemListEntry semList = ((i.val : Int), Function.update semList i freshSem) := by
  cases found : freeSemSlot semList with
  | none =>
      obtain ⟨i, free⟩ := room
      unfold freeSemSlot at found
      have absent := Fin.find?_eq_none_iff.mp found i
      simp [free] at absent
  | some i =>
      have entry : addSemListEntry semList =
          ((i.val : Int), Function.update semList i freshSem) := by
        simp only [addSemListEntry, found]
      unfold freeSemSlot at found
      have free := Fin.eq_true_of_find?_eq_some found
      exact ⟨i, by simpa using free, entry⟩

end UtSystems.Userprog.ProcessTable

import UtSystems.Filesys.OpenCounts
import UtSystems.Userprog.SemaphoreIndexes
import UtSystems.Userprog.SyscallStubs
import UtSystems.Userprog.UserWrites

/-!
# The assertions that system calls reach

`syscall_handler` with all that the `sys_*` functions do in the thread that calls them: the locks,
the file system, the stores to user memory, and the tables of processes and semaphores. A call
stops where an assertion fails, where the kernel touches memory that is not there, and where the
process or the machine ends.

`filesys_lock` is taken by the calls that the handler takes it for. A thread that waits for a
semaphore finds the tables as the others have left them.
-/

namespace UtSystems.Userprog.SystemCalls

open Lib.Bytes Lib.Effects Threads.Synch Filesys.Volume Filesys.FreeMap Filesys.Inode
open Filesys.Directory Filesys.Consistency Filesys.NamedFiles Filesys.Creation Filesys.Format
open Filesys.NamedInodes Filesys.OpenCounts Userprog.UserMemory Userprog.SyscallFetch
open Userprog.SyscallStubs Userprog.UserWrites Userprog.ProcessTable
open Userprog.ProcessWait (oneRunning)
open Userprog.Elf Userprog.Descriptors Userprog.HeldFiles Userprog.HeldSteps

set_option autoImplicit false

/-- Why a call does not come back to user mode. -/
inductive Stop where
  -- `sys_exit`, or a user page that the kernel may not touch
  | ended (ended : Ended)
  -- `thread_exit` alone
  | threadExit
  | poweredOff
  -- An assertion of the file system
  | filesystem (panic : Panic)
  -- `lock_acquire` of a lock that the thread holds
  | lockHeld
  -- `lock_release` of a lock that the thread does not hold
  | lockNotHeld
  -- The waiters list of a semaphore on which `sema_init` has not been called
  | semaNotSetUp (i : Slot)
  -- An element outside of `semList`
  | semListBounds (idx : Int)

/-- An assertion fails, or the kernel faults. -/
def Stop.Panics : Stop → Prop
  | .ended (.exited _) | .threadExit | .poweredOff => False
  | .ended (.readFault _) | .ended (.writeFault _) | .filesystem _ | .lockHeld | .lockNotHeld
  | .semaNotSetUp _ | .semListBounds _ => True

structure Machine where
  fs : FileSys
  process : Process
  filesysLock : Option Tid
  procList : ProcList
  semList : SemList
  -- The entries of `semList` whose semaphores have been initialised
  setUp : Slot → Bool

namespace Machine

def setSem (m : Machine) (i : Slot) (entry : SSemType) : Machine :=
  { m with semList := Function.update m.semList i entry }

def setProc (m : Machine) (p : Slot) (entry : SProcType) : Machine :=
  { m with procList := Function.update m.procList p entry }

def setFdt (m : Machine) (fdt : Fdt) : Machine :=
  { m with process := { m.process with fdt := fdt } }

end Machine

abbrev CallM := EStateM Stop Machine

/-- The thread that makes the call, and what the others do meanwhile. -/
structure Caller where
  self : Tid
  -- What `input_getc` delivers
  input : Nat → Byte
  -- The tid that `thread_create` gives out
  child : Tid
  -- What it finds when it comes back from a semaphore
  fs : FileSys
  procList : ProcList
  semList : SemList

def onFiles {Value : Type} (program : FsM Value) : CallM Value := fun m =>
  match program m.fs with
  | .ok value fs => .ok value { m with fs := fs }
  | .error panic fs => .error (.filesystem panic) { m with fs := fs }

/-- The string at a user address. Past the last user address there is none that `str_check` has
accepted, so `2 ^ 32` bytes are never used up. -/
def stringFrom (space : AddressSpace) : Nat → Addr → List Byte
  | 0, _ => []
  | rounds + 1, str =>
      if space.contents str = 0 then []
      else space.contents str :: stringFrom space rounds (str + 1#32)

def stringAt (space : AddressSpace) (str : Addr) : List Byte := stringFrom space (2 ^ 32) str

def lockAcquire (self : Tid) : CallM Unit := do
  if (← get).filesysLock = some self then throw .lockHeld
  else modify fun m => { m with filesysLock := some self }

def lockRelease (self : Tid) : CallM Unit := do
  if (← get).filesysLock = some self then modify fun m => { m with filesysLock := none }
  else throw .lockNotHeld

def locked {Value : Type} (self : Tid) (program : CallM Value) : CallM Value := do
  lockAcquire self
  let value ← program
  lockRelease self
  return value

/-- `&semList[idx]`, for an operation on one of its semaphores. -/
def semAt (idx : Int) : CallM Slot := do
  match slotAt idx with
  | none => throw (.semListBounds idx)
  | some i =>
      if (← get).setUp i then return i
      else throw (.semaNotSetUp i)

section Functions

variable (space : AddressSpace) (caller : Caller)

def semaDownAt (idx : Int) : CallM Slot := do
  let i ← semAt idx
  modify fun m =>
    { m with fs := caller.fs, procList := caller.procList, semList := caller.semList }
  return i

def semaUpExiting (idx : Int) : CallM Unit := do
  let i ← semAt idx
  modify fun m => m.setSem i
    { m.semList i with exiting := (semaUp (m.semList i).exiting).1 }

/-- `process_execute`; a process is never the first to call it. -/
def processExecute : CallM Int := do
  let m ← get
  let (idx, semList) := addSemListEntry m.semList
  let procData : SProcType :=
    { tid := caller.child, parentTid := caller.self, semListIdx := idx, exitStatus := 0 }
  let (_, procList) := addProcListEntry m.procList procData
  set { m with procList := procList, semList := semList,
               setUp := fun i => m.setUp i || decide (idx = i.val) }
  let _ ← semaDownAt caller idx
  return caller.child

def processWait (childTid : Tid) : CallM Int := do
  let m ← get
  match fetchProcess m.procList childTid with
  | none => return -1
  | some p =>
      let idx := (m.procList p).semListIdx
      if idx ≠ -1 then
        let i ← semaDownAt caller idx
        modify fun m => m.setSem i { m.semList i with present := false }
      let exitStatus := ((← get).procList p).exitStatus
      modify fun m => m.setProc p zeroProc
      return exitStatus

/-- `process_exit` up to the end of the thread. -/
def processExit : CallM Unit := do
  let m ← get
  match fetchProcess m.procList caller.self with
  | none => return ()
  | some p =>
      if (m.procList p).semListIdx ≠ -1 then semaUpExiting (m.procList p).semListIdx

/-- `sys_exit`, with the files and the tables. -/
def exitWith {Value : Type} (status : Int) : CallM Value := do
  onFiles (sysExit (← get).process)
  let m ← get
  match fetchProcess m.procList caller.self with
  | none => pure ()
  | some p =>
      set (m.setProc p { m.procList p with exitStatus := status })
  processExit caller
  throw (.ended (.exited status))

/-- The stores of `sys_read` in the buffer. -/
def storeBytes (buffer : Addr) (count : Nat) : CallM Unit :=
  match (store space buffer count 0).ended with
  | none => return ()
  | some ended => throw (.ended ended)

/-- The cases of the handler's switch after their checks. -/
def serve : Call → CallM Word
  | .halt => do
      onFiles filesysDone
      throw .poweredOff
  | .exit status => exitWith caller status.toInt
  | .exec cmdLine => locked caller.self do
      if ← onFiles (sysExec (stringAt space cmdLine)) then
        return BitVec.ofInt 32 (← processExecute caller)
      else return BitVec.ofInt 32 (-1)
  | .wait pid => return BitVec.ofInt 32 (← processWait caller pid.toInt)
  | .create file initialSize => locked caller.self do
      return if ← onFiles (sysCreate (stringAt space file) initialSize) then 1 else 0
  | .remove file => locked caller.self do
      return if ← onFiles (sysRemove (stringAt space file)) then 1 else 0
  | .open file => locked caller.self do
      let (fd, fdt) ← onFiles (sysOpen (← get).process.fdt (stringAt space file))
      modify fun m => m.setFdt fdt
      return BitVec.ofInt 32 fd
  | .filesize fd => locked caller.self do
      return BitVec.ofInt 32 (← onFiles (sysFilesize (← get).process.fdt fd.toInt))
  | .read fd buffer size => locked caller.self do
      let (total, bytes) ← onFiles (sysRead (← get).process.fdt fd.toInt size caller.input)
      storeBytes space buffer bytes.length
      return BitVec.ofInt 32 total
  | .write fd buffer size => locked caller.self do
      return BitVec.ofInt 32 (← onFiles (sysWrite (← get).process.fdt fd.toInt
        (fun index => space.contents (buffer + BitVec.ofNat 32 index)) size))
  | .seek fd position => locked caller.self do
      onFiles (sysSeek (← get).process.fdt fd.toInt position)
      return 0
  | .tell fd => locked caller.self do
      return BitVec.ofNat 32 (← onFiles (sysTell (← get).process.fdt fd.toInt))
  | .close fd => do
      let fdt ← onFiles (sysClose (← get).process.fdt fd.toInt)
      modify fun m => m.setFdt fdt
      return 0
  | .unknown _ => do
      processExit caller
      throw .threadExit

end Functions

/-- `syscall_handler`: `sys_exit` where a check fails, or else the call. -/
def handle (space : AddressSpace) (caller : Caller) (esp : Addr) (eax : Word) : CallM Word :=
  match fetchCall space esp with
  | .error (.exited status) => exitWith caller status
  | _ => syscallHandler .ended (serve space caller) space esp eax

/-- The program comes back without `filesys_lock`, or ends the process or the machine, and no
assertion fails. -/
def Safe {Value : Type} (self : Tid) (program : CallM Value) (m : Machine) : Prop :=
  Ends program m (fun _ next => next.filesysLock ≠ some self) fun stop => ¬stop.Panics

section Files

variable {fs : FileSys} {tidy exclusive : Prop} {processes : Processes} {process : Process}
  {pid : Nat} {name : Name} {size : Word}

end Files

section Rules

variable {Value Result : Type} {m : Machine} {caller : Caller} {raised : Stop → Prop}

end Rules

section Tables

variable {m : Machine} {caller : Caller} {raised : Stop → Prop}

/-- An index of the process table is -1, or its semaphores have been initialised. -/
def TablesOk (m : Machine) : Prop :=
  ∀ p, (m.procList p).semListIdx = -1 ∨
    ∃ i, slotAt (m.procList p).semListIdx = some i ∧ m.setUp i = true

theorem sem_at_returns {idx : Int} {i : Slot} (slot : slotAt idx = some i) (setUp : m.setUp i = true) :
    Returns (semAt idx) m fun found next => found = i ∧ next = m := by
  unfold semAt
  rw [slot]
  apply returns_get
  rw [if_pos setUp]
  exact returns_pure ⟨rfl, rfl⟩

theorem process_exit_returns (ok : TablesOk m) :
    Returns (processExit caller) m fun _ _ => True := by
  unfold processExit
  apply returns_get
  cases fetchProcess m.procList caller.self with
  | none => exact returns_pure trivial
  | some p =>
      dsimp only
      rcases ok p with error | ⟨i, slot, setUp⟩
      · rw [if_neg (not_not.mpr error)]
        exact returns_pure trivial
      · rw [if_pos (ProcessRecords.slot_at_ne_error slot)]
        unfold semaUpExiting
        apply returns_bind (sem_at_returns slot setUp)
        intro _ next _
        exact returns_modify_last trivial

end Tables

end UtSystems.Userprog.SystemCalls

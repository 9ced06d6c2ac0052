import Mathlib.Algebra.Group.Int.Defs
import UtSystems.Userprog.ProcessTable
import UtSystems.Lib.GuardedRun

/-!
# Process creation, waiting and termination as interleaved threads

Each thread runs `process_execute`, `start_process`, `process_wait`, `sys_exit`
and `process_exit` one statement at a time, and a scheduler may switch threads
between any two statements. The two tables are shared and no lock guards them:
`list_lock` and `sem_list_lock` are initialised and never taken. System calls
reach `process_execute` with `filesys_lock` held; the boot thread calls it from
`run_task` without the lock and waits only for the tid it was given.

A null `fetch_process` result that is dereferenced faults in kernel mode and
panics. An index of `semList` outside the array, and an increment of `next_tid`
past `INT_MAX`, have no meaning in C. The model stops in all three cases.
-/

namespace UtSystems.Userprog.ProcessSystem

open Threads.Synch Userprog.ProcessTable Lib.GuardedRun

set_option autoImplicit false

/-- `TID_ERROR`. -/
def tidError : Tid := -1

def intMax : Int := 2 ^ 31 - 1

/-- The exits of `load`. Each `goto done` before `success = true` makes
`start_process` call `sys_exit(-1)`; the header check calls `sys_exit(12)` itself. -/
inductive LoadOutcome where
  | success
  | noPageDirectory
  | openFailed
  | badHeader
  | programHeaderOffset
  | programHeaderRead
  | unsupportedSegment
  | invalidSegment
  | segmentNotLoaded
  | stackNotSetUp
  deriving DecidableEq, Repr

/-- How a running process comes to its end. -/
inductive Ending where
  -- `exit(status)` requested by user code
  | sysExit (status : Int)
  -- A page fault in user mode: `page_fault` calls `sys_exit(-1)`
  | pageFault
  -- Any other exception in user mode: `kill` calls `thread_exit`
  | exception
  -- A pointer that `syscall_handler` rejects: `sys_exit(-1)`
  | badPointer
  -- The default case of `syscall_handler`: `thread_exit`
  | unknownCall
  deriving DecidableEq, Repr

/-- Where a thread stands: the next statement, with the local variables it needs. -/
inductive Pc where
  -- User code; for the boot thread, between two actions of `run_actions`
  | user
  -- `process_execute` before `thread_create`
  | execCreate
  -- Before `proc_data.sem_list_idx = add_sem_list_entry()`
  | execAddSem (tid : Tid)
  -- Before `add_proc_list_entry(&proc_data)`
  | execAddProc (tid : Tid) (idx : Int)
  -- In `sema_down(&(semList[proc_data.sem_list_idx].launched))`
  | execDown (tid : Tid) (idx : Int)
  -- Before `first_pass = false; return tid`
  | execReturn (tid : Tid)
  -- `run_task` between `process_execute` and `process_wait`
  | runTask (tid : Tid)
  -- `process_wait` with `p` fetched, before `sem_list_idx = p->sem_list_idx`
  | waitIdx (tid : Tid) (p : Slot)
  -- At `if(-1 != sem_list_idx) sema_down(&(semList[sem_list_idx].exiting))`
  | waitDown (tid : Tid) (p : Slot) (idx : Int)
  -- Before `semList[sem_list_idx].present = false`
  | waitRelease (tid : Tid) (p : Slot) (idx : Int)
  -- Before `exit_status = p->exit_status`
  | waitRead (tid : Tid) (p : Slot)
  -- Before `memset(p, 0, sizeof(sProcType))`
  | waitClear (tid : Tid) (p : Slot) (status : Int)
  -- Before `process_wait` returns
  | waitReturn (tid : Tid) (status : Int)
  -- `start_process` inside `load`
  | load
  -- Before `fetch_process(thread_current()->tid)->sem_list_idx`
  | launch
  -- Before `sema_up` of that slot's `launched`
  | launchUp (idx : Int)
  -- `sys_exit` before `p = fetch_process(curThread->tid)`
  | exitFetch (status : Int)
  -- Before `p->exit_status = status`
  | exitStore (p : Slot) (status : Int)
  -- `process_exit` before `p = fetch_process(thread_current()->tid)`
  | exitProcess
  -- Before `sem_list_idx = p->sem_list_idx`
  | exitIdx (p : Slot)
  -- Before `sema_up(&(semList[sem_list_idx].exiting))`
  | exitSignal (idx : Int)
  | dead
  deriving DecidableEq, Repr

/-- A thread. The fields after `blocked` are ghosts: no statement reads them. They
record the slots that the parent obtained for this process and still holds, and
which of the four semaphore operations of its life have been completed. -/
structure Thread where
  parent : Tid
  process : Bool
  pc : Pc
  blocked : Bool := false
  slot : Option Slot := none
  entry : Option Slot := none
  -- The child has done `sema_up(launched)`
  launched : Bool := false
  -- The parent has passed `sema_down(launched)`
  awaited : Bool := false
  -- The child has done `sema_up(exiting)`
  signalled : Bool := false
  -- The parent has passed `sema_down(exiting)`
  reaped : Bool := false
  ending : Option Ending := none
  deriving DecidableEq, Repr

inductive Event where
  | created (parent child : Tid)
  -- `add_sem_list_entry` told the parent on which slot to wait
  | waitsOn (parent child : Tid) (idx : Int)
  | semAccess (idx : Int)
  | launchedUp (child : Tid) (idx : Int)
  | exitingUp (child : Tid) (idx : Int)
  | handedOut (parent child : Tid)
  | ended (child : Tid) (ending : Ending)
  | waitReturned (caller child : Tid) (status : Int)
  deriving DecidableEq, Repr

inductive Fault where
  | nullProcess (tid : Tid)
  | semListBounds (idx : Int)
  | tidOverflow
  deriving DecidableEq, Repr

structure Kernel where
  procList : ProcList
  semList : SemList
  firstPass : Bool
  filesysLock : Option Tid
  nextTid : Tid
  threads : Tid → Option Thread
  fault : Option Fault
  /-- What has happened so far, newest first. -/
  history : List Event

/-- The boot thread is tid 1; the idle thread took tid 2. -/
def bootTid : Tid := 1

def boot : Kernel where
  procList _ := zeroProc
  semList _ := zeroSem
  firstPass := true
  filesysLock := none
  nextTid := 3
  threads t := if t = bootTid then some { parent := 0, process := false, pc := .user } else none
  fault := none
  history := []

namespace Kernel

def put (s : Kernel) (t : Tid) (thread : Thread) : Kernel :=
  { s with threads := Function.update s.threads t (some thread) }

def modify (s : Kernel) (t : Tid) (change : Thread → Thread) : Kernel :=
  { s with threads := Function.update s.threads t ((s.threads t).map change) }

def log (s : Kernel) (event : Event) : Kernel := { s with history := event :: s.history }

def halt (s : Kernel) (fault : Fault) : Kernel := { s with fault := some fault }

def wake (s : Kernel) : Option Tid → Kernel
  | none => s
  | some t => s.modify t fun thread => { thread with blocked := false }

def setSem (s : Kernel) (i : Slot) (entry : SSemType) : Kernel :=
  { s with semList := Function.update s.semList i entry }

def setProc (s : Kernel) (k : Slot) (entry : SProcType) : Kernel :=
  { s with procList := Function.update s.procList k entry }

end Kernel

inductive Action where
  -- A thread enters `process_execute`
  | exec (t : Tid)
  -- `palloc_get_page` and `thread_create` succeed or fail
  | create (t : Tid) (succeeds : Bool)
  -- A thread calls `process_wait(child)` and fetches `p`
  | wait (t : Tid) (child : Tid)
  | load (t : Tid) (outcome : LoadOutcome)
  | finish (t : Tid) (ending : Ending)
  -- The thread executes its next statement
  | run (t : Tid)
  deriving DecidableEq, Repr

/-- `load` returned, or left through `sys_exit(12)`. -/
def afterLoad : LoadOutcome → Pc
  | .success => .launch
  | .badHeader => .exitFetch 12
  | _ => .exitFetch (-1)

def afterFinish : Ending → Pc
  | .sysExit status => .exitFetch status
  | .pageFault => .exitFetch (-1)
  | .badPointer => .exitFetch (-1)
  | .exception => .exitProcess
  | .unknownCall => .exitProcess

def exec (s : Kernel) (t : Tid) (thread : Thread) : Option Kernel :=
  if thread.pc = .user then
    if thread.process then
      if s.filesysLock = none then
        some ({ s with filesysLock := some t }.put t { thread with pc := .execCreate })
      else none
    else some (s.put t { thread with pc := .execCreate })
  else none

def create (s : Kernel) (t : Tid) (thread : Thread) (succeeds : Bool) : Option Kernel :=
  if thread.pc = .execCreate then
    if succeeds then
      if s.nextTid < intMax then
        some (((({ s with nextTid := s.nextTid + 1 }).put s.nextTid
          { parent := t, process := true, pc := .load }).put t
            { thread with pc := .execAddSem s.nextTid }).log (.created t s.nextTid))
      else some (s.halt .tidOverflow)
    else some (s.put t { thread with pc := .execReturn tidError })
  else none

def wait (s : Kernel) (t : Tid) (thread : Thread) (child : Tid) : Option Kernel :=
  if (thread.pc = .user ∧ thread.process) ∨ thread.pc = .runTask child then
    match fetchProcess s.procList child with
    | none => some (s.put t { thread with pc := .waitReturn child (-1) })
    | some p => some (s.put t { thread with pc := .waitIdx child p })
  else none

def load (s : Kernel) (t : Tid) (thread : Thread) (outcome : LoadOutcome) : Option Kernel :=
  if thread.pc = .load then some (s.put t { thread with pc := afterLoad outcome }) else none

def finish (s : Kernel) (t : Tid) (thread : Thread) (ending : Ending) : Option Kernel :=
  if thread.pc = .user ∧ thread.process then
    some ((s.put t { thread with pc := afterFinish ending, ending := some ending }).log
      (.ended t ending))
  else none

/-- The statements of `process_execute` after `thread_create`. -/
def runExec (s : Kernel) (t : Tid) (thread : Thread) : Pc → Option Kernel
  | .execAddSem tid =>
      let added := addSemListEntry s.semList
      some (((({ s with semList := added.2 }).modify tid fun child =>
        { child with slot := slotAt added.1 }).put t
          { thread with pc := .execAddProc tid added.1 }).log (.waitsOn t tid added.1))
  | .execAddProc tid idx =>
      let procData : SProcType :=
        { tid := tid, parentTid := if s.firstPass then 0 else t, semListIdx := idx,
          exitStatus := 0 }
      let added := addProcListEntry s.procList procData
      some ((({ s with procList := added.2 }).modify tid fun child =>
        { child with entry := slotAt added.1 }).put t { thread with pc := .execDown tid idx })
  | .execDown tid idx =>
      match slotAt idx with
      | none => some ((s.log (.semAccess idx)).halt (.semListBounds idx))
      | some i =>
          let down := semaDown (s.semList i).launched t
          let s := (s.log (.semAccess idx)).setSem i { s.semList i with launched := down.1 }
          if down.2 then
            some ((s.modify tid fun child => { child with awaited := true }).put t
              { thread with pc := .execReturn tid })
          else some (s.put t { thread with blocked := true })
  | .execReturn tid =>
      some (({ s with firstPass := false,
                      filesysLock := if thread.process then none else s.filesysLock }.put t
        { thread with pc := if thread.process then .user else .runTask tid }).log
          (.handedOut t tid))
  | _ => none

/-- The statements of `process_wait` after the fetch. -/
def runWait (s : Kernel) (t : Tid) (thread : Thread) : Pc → Option Kernel
  | .waitIdx tid p =>
      some (s.put t { thread with pc := .waitDown tid p (s.procList p).semListIdx })
  | .waitDown tid p idx =>
      if idx = -1 then some (s.put t { thread with pc := .waitRead tid p })
      else
        match slotAt idx with
        | none => some ((s.log (.semAccess idx)).halt (.semListBounds idx))
        | some i =>
            let down := semaDown (s.semList i).exiting t
            let s := (s.log (.semAccess idx)).setSem i { s.semList i with exiting := down.1 }
            if down.2 then
              some ((s.modify tid fun child => { child with reaped := true }).put t
                { thread with pc := .waitRelease tid p idx })
            else some (s.put t { thread with blocked := true })
  | .waitRelease tid p idx =>
      match slotAt idx with
      | none => some ((s.log (.semAccess idx)).halt (.semListBounds idx))
      | some i =>
          some ((((s.log (.semAccess idx)).setSem i { s.semList i with present := false }).modify
            tid fun child => { child with slot := none }).put t
              { thread with pc := .waitRead tid p })
  | .waitRead tid p =>
      some (s.put t { thread with pc := .waitClear tid p (s.procList p).exitStatus })
  | .waitClear tid p status =>
      some (((s.setProc p zeroProc).modify tid fun child => { child with entry := none }).put t
        { thread with pc := .waitReturn tid status })
  | .waitReturn tid status =>
      some ((s.put t { thread with pc := .user }).log (.waitReturned t tid status))
  | _ => none

/-- `start_process` after `load`, then `sys_exit`, `thread_exit` and `process_exit`. -/
def runChild (s : Kernel) (t : Tid) (thread : Thread) : Pc → Option Kernel
  | .launch =>
      match fetchProcess s.procList t with
      | none => some (s.halt (.nullProcess t))
      | some p => some (s.put t { thread with pc := .launchUp (s.procList p).semListIdx })
  | .launchUp idx =>
      match slotAt idx with
      | none => some ((s.log (.semAccess idx)).halt (.semListBounds idx))
      | some i =>
          let up := semaUp (s.semList i).launched
          some (((((s.log (.semAccess idx)).setSem i
            { s.semList i with launched := up.1 }).put t
              { thread with pc := .user, launched := true }).wake up.2).log
                (.launchedUp t idx))
  | .exitFetch status =>
      match fetchProcess s.procList t with
      | none => some (s.put t { thread with pc := .exitProcess })
      | some p => some (s.put t { thread with pc := .exitStore p status })
  | .exitStore p status =>
      some ((s.setProc p { s.procList p with exitStatus := status }).put t
        { thread with pc := .exitProcess })
  | .exitProcess =>
      match fetchProcess s.procList t with
      | none => some (s.put t { thread with pc := .dead })
      | some p => some (s.put t { thread with pc := .exitIdx p })
  | .exitIdx p =>
      some (s.put t { thread with
        pc := if (s.procList p).semListIdx = -1 then .dead
          else .exitSignal (s.procList p).semListIdx })
  | .exitSignal idx =>
      match slotAt idx with
      | none => some ((s.log (.semAccess idx)).halt (.semListBounds idx))
      | some i =>
          let up := semaUp (s.semList i).exiting
          some (((((s.log (.semAccess idx)).setSem i
            { s.semList i with exiting := up.1 }).put t
              { thread with pc := .dead, signalled := true }).wake up.2).log
                (.exitingUp t idx))
  | _ => none

def run (s : Kernel) (t : Tid) (thread : Thread) : Option Kernel :=
  (runExec s t thread thread.pc).or
    ((runWait s t thread thread.pc).or (runChild s t thread thread.pc))

def Action.tid : Action → Tid
  | .exec t => t
  | .create t _ => t
  | .wait t _ => t
  | .load t _ => t
  | .finish t _ => t
  | .run t => t

def act (s : Kernel) (t : Tid) (thread : Thread) : Action → Option Kernel
  | .exec _ => exec s t thread
  | .create _ succeeds => create s t thread succeeds
  | .wait _ child => wait s t thread child
  | .load _ outcome => load s t thread outcome
  | .finish _ ending => finish s t thread ending
  | .run _ => run s t thread

/-- One statement of one thread. A thread on a waiters list and a stopped kernel
take no step. -/
def step (s : Kernel) (action : Action) : Option Kernel :=
  if s.fault.isSome then none
  else
    match s.threads action.tid with
    | none => none
    | some thread =>
        if thread.blocked then none else act s action.tid thread action

/-- The states that interleavings of any length lead to from boot. -/
def Reachable : Kernel → Prop := Reaches step (fun _ _ => True) boot

end UtSystems.Userprog.ProcessSystem

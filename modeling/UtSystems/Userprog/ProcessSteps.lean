import UtSystems.Userprog.ProcessSystem

/-!
# What one step of the process system can do

`Took` lists every statement with its guard and its effect. `step_took` is the
one place where the step function is unfolded; every invariant is proved by
cases on `Took`.
-/

namespace UtSystems.Userprog.ProcessSteps

open Threads.Synch Userprog.ProcessTable Userprog.ProcessSystem

set_option autoImplicit false

/-- `thread` is thread `t`, it is not on a waiters list and stands at `pc`. -/
structure At (s : Kernel) (t : Tid) (thread : Thread) (pc : Pc) : Prop where
  found : s.threads t = some thread
  ready : thread.blocked = false
  stands : thread.pc = pc

/-- The record `process_execute` passes to `add_proc_list_entry`. -/
def procData (s : Kernel) (t child : Tid) (idx : Int) : SProcType :=
  { tid := child, parentTid := if s.firstPass then 0 else t, semListIdx := idx, exitStatus := 0 }

/-- The state after a semaphore of slot `i` has been used through index `idx`. -/
def used (s : Kernel) (idx : Int) (i : Slot) (entry : SSemType) : Kernel :=
  (s.log (.semAccess idx)).setSem i entry

/-- The statement at this place indexes `semList` with `idx`. -/
def Indexes (idx : Int) : Pc → Prop
  | .execDown _ own => own = idx
  | .waitDown _ _ own => own = idx ∧ idx ≠ -1
  | .waitRelease _ _ own => own = idx
  | .launchUp own => own = idx
  | .exitSignal own => own = idx
  | _ => False

inductive Took (s : Kernel) : Action → Kernel → Prop where
  | exec {t : Tid} {thread : Thread} (lock : Option Tid) (here : At s t thread .user) :
      Took s (.exec t)
        ({ s with filesysLock := lock }.put t { thread with pc := .execCreate })
  | create {t : Tid} {thread : Thread} (here : At s t thread .execCreate) :
      Took s (.create t true)
        (((({ s with nextTid := s.nextTid + 1 }).put s.nextTid
          { parent := t, process := true, pc := .load }).put t
            { thread with pc := .execAddSem s.nextTid }).log (.created t s.nextTid))
  | createFails {t : Tid} {thread : Thread} (here : At s t thread .execCreate) :
      Took s (.create t false) (s.put t { thread with pc := .execReturn tidError })
  | tidOverflow {t : Tid} {thread : Thread} (here : At s t thread .execCreate) :
      Took s (.create t true) (s.halt .tidOverflow)
  | launchNull {t : Tid} {thread : Thread} (here : At s t thread .launch)
      (absent : fetchProcess s.procList t = none) : Took s (.run t) (s.halt (.nullProcess t))
  | outside {t : Tid} {thread : Thread} {pc : Pc} {idx : Int} (here : At s t thread pc)
      (indexes : Indexes idx pc) (missing : slotAt idx = none) :
      Took s (.run t) ((s.log (.semAccess idx)).halt (.semListBounds idx))
  | waitMisses {t child : Tid} {thread : Thread} {pc : Pc} (here : At s t thread pc)
      (calls : (pc = .user ∧ thread.process = true) ∨ pc = .runTask child)
      (absent : fetchProcess s.procList child = none) :
      Took s (.wait t child) (s.put t { thread with pc := .waitReturn child (-1) })
  | waitFinds {t child : Tid} {thread : Thread} {pc : Pc} {p : Slot} (here : At s t thread pc)
      (calls : (pc = .user ∧ thread.process = true) ∨ pc = .runTask child)
      (found : fetchProcess s.procList child = some p) :
      Took s (.wait t child) (s.put t { thread with pc := .waitIdx child p })
  | load {t : Tid} {thread : Thread} (outcome : LoadOutcome) (here : At s t thread .load) :
      Took s (.load t outcome) (s.put t { thread with pc := afterLoad outcome })
  | finish {t : Tid} {thread : Thread} (ending : Ending) (here : At s t thread .user)
      (process : thread.process = true) :
      Took s (.finish t ending)
        ((s.put t { thread with pc := afterFinish ending, ending := some ending }).log
          (.ended t ending))
  | execAddSem {t child : Tid} {thread : Thread} (here : At s t thread (.execAddSem child)) :
      Took s (.run t)
        (((({ s with semList := (addSemListEntry s.semList).2 }).modify child fun record =>
          { record with slot := slotAt (addSemListEntry s.semList).1 }).put t
            { thread with pc := .execAddProc child (addSemListEntry s.semList).1 }).log
              (.waitsOn t child (addSemListEntry s.semList).1))
  | execAddProc {t child : Tid} {thread : Thread} {idx : Int}
      (here : At s t thread (.execAddProc child idx)) :
      Took s (.run t)
        ((({ s with
            procList := (addProcListEntry s.procList (procData s t child idx)).2 }).modify child
          fun record => { record with
            entry := slotAt (addProcListEntry s.procList (procData s t child idx)).1 }).put t
              { thread with pc := .execDown child idx })
  | execBlocks {t child : Tid} {thread : Thread} {idx : Int} {i : Slot}
      (here : At s t thread (.execDown child idx)) (slot : slotAt idx = some i)
      (zero : (s.semList i).launched.value = 0) :
      Took s (.run t)
        ((used s idx i { s.semList i with
          launched := (semaDown (s.semList i).launched t).1 }).put t
            { thread with blocked := true })
  | execPasses {t child : Tid} {thread : Thread} {idx : Int} {i : Slot}
      (here : At s t thread (.execDown child idx)) (slot : slotAt idx = some i)
      (positive : (s.semList i).launched.value ≠ 0) :
      Took s (.run t)
        (((used s idx i { s.semList i with
          launched := (semaDown (s.semList i).launched t).1 }).modify child fun record =>
            { record with awaited := true }).put t { thread with pc := .execReturn child })
  | execReturn {t child : Tid} {thread : Thread} {lock : Option Tid}
      (here : At s t thread (.execReturn child)) :
      Took s (.run t)
        (({ s with firstPass := false, filesysLock := lock }.put t
          { thread with pc := if thread.process then .user else .runTask child }).log
            (.handedOut t child))
  | waitIdx {t child : Tid} {thread : Thread} {p : Slot}
      (here : At s t thread (.waitIdx child p)) :
      Took s (.run t)
        (s.put t { thread with pc := .waitDown child p (s.procList p).semListIdx })
  | waitSkips {t child : Tid} {thread : Thread} {p : Slot} {idx : Int}
      (here : At s t thread (.waitDown child p idx)) (error : idx = -1) :
      Took s (.run t) (s.put t { thread with pc := .waitRead child p })
  | waitBlocks {t child : Tid} {thread : Thread} {p : Slot} {idx : Int} {i : Slot}
      (here : At s t thread (.waitDown child p idx)) (slot : slotAt idx = some i)
      (zero : (s.semList i).exiting.value = 0) :
      Took s (.run t)
        ((used s idx i { s.semList i with
          exiting := (semaDown (s.semList i).exiting t).1 }).put t
            { thread with blocked := true })
  | waitPasses {t child : Tid} {thread : Thread} {p : Slot} {idx : Int} {i : Slot}
      (here : At s t thread (.waitDown child p idx)) (slot : slotAt idx = some i)
      (positive : (s.semList i).exiting.value ≠ 0) :
      Took s (.run t)
        (((used s idx i { s.semList i with
          exiting := (semaDown (s.semList i).exiting t).1 }).modify child fun record =>
            { record with reaped := true }).put t { thread with pc := .waitRelease child p idx })
  | waitRelease {t child : Tid} {thread : Thread} {p : Slot} {idx : Int} {i : Slot}
      (here : At s t thread (.waitRelease child p idx)) (slot : slotAt idx = some i) :
      Took s (.run t)
        (((used s idx i { s.semList i with present := false }).modify child fun record =>
          { record with slot := none }).put t { thread with pc := .waitRead child p })
  | waitRead {t child : Tid} {thread : Thread} {p : Slot}
      (here : At s t thread (.waitRead child p)) :
      Took s (.run t)
        (s.put t { thread with pc := .waitClear child p (s.procList p).exitStatus })
  | waitClear {t child : Tid} {thread : Thread} {p : Slot} {status : Int}
      (here : At s t thread (.waitClear child p status)) :
      Took s (.run t)
        (((s.setProc p zeroProc).modify child fun record => { record with entry := none }).put t
          { thread with pc := .waitReturn child status })
  | waitReturn {t child : Tid} {thread : Thread} {status : Int}
      (here : At s t thread (.waitReturn child status)) :
      Took s (.run t)
        ((s.put t { thread with pc := .user }).log (.waitReturned t child status))
  | launch {t : Tid} {thread : Thread} {p : Slot} (here : At s t thread .launch)
      (found : fetchProcess s.procList t = some p) :
      Took s (.run t) (s.put t { thread with pc := .launchUp (s.procList p).semListIdx })
  | launchUp {t : Tid} {thread : Thread} {idx : Int} {i : Slot}
      (here : At s t thread (.launchUp idx)) (slot : slotAt idx = some i) :
      Took s (.run t)
        ((((used s idx i { s.semList i with
          launched := (semaUp (s.semList i).launched).1 }).put t
            { thread with pc := .user, launched := true }).wake
              (semaUp (s.semList i).launched).2).log (.launchedUp t idx))
  | exitFetchMisses {t : Tid} {thread : Thread} {status : Int}
      (here : At s t thread (.exitFetch status))
      (absent : fetchProcess s.procList t = none) :
      Took s (.run t) (s.put t { thread with pc := .exitProcess })
  | exitFetch {t : Tid} {thread : Thread} {status : Int} {p : Slot}
      (here : At s t thread (.exitFetch status))
      (found : fetchProcess s.procList t = some p) :
      Took s (.run t) (s.put t { thread with pc := .exitStore p status })
  | exitStore {t : Tid} {thread : Thread} {p : Slot} {status : Int}
      (here : At s t thread (.exitStore p status)) :
      Took s (.run t)
        ((s.setProc p { s.procList p with exitStatus := status }).put t
          { thread with pc := .exitProcess })
  | exitProcessMisses {t : Tid} {thread : Thread} (here : At s t thread .exitProcess)
      (absent : fetchProcess s.procList t = none) :
      Took s (.run t) (s.put t { thread with pc := .dead })
  | exitProcess {t : Tid} {thread : Thread} {p : Slot} (here : At s t thread .exitProcess)
      (found : fetchProcess s.procList t = some p) :
      Took s (.run t) (s.put t { thread with pc := .exitIdx p })
  | exitIdx {t : Tid} {thread : Thread} {p : Slot} (here : At s t thread (.exitIdx p)) :
      Took s (.run t)
        (s.put t { thread with
          pc := if (s.procList p).semListIdx = -1 then .dead
            else .exitSignal (s.procList p).semListIdx })
  | exitSignal {t : Tid} {thread : Thread} {idx : Int} {i : Slot}
      (here : At s t thread (.exitSignal idx)) (slot : slotAt idx = some i) :
      Took s (.run t)
        ((((used s idx i { s.semList i with
          exiting := (semaUp (s.semList i).exiting).1 }).put t
            { thread with pc := .dead, signalled := true }).wake
              (semaUp (s.semList i).exiting).2).log (.exitingUp t idx))

theorem sema_down_blocks {sema : Semaphore} {t : Tid} (zero : sema.value = 0) :
    semaDown sema t = ({ sema with waiters := sema.waiters ++ [t] }, false) := by
  simp [semaDown, zero]

theorem sema_down_passes {sema : Semaphore} {t : Tid} (positive : sema.value ≠ 0) :
    semaDown sema t = ({ sema with value := sema.value - 1 }, true) := by
  simp [semaDown, positive]

theorem run_exec_took {s next : Kernel} {t : Tid} {thread : Thread} {pc : Pc}
    (here : At s t thread pc) (ran : runExec s t thread pc = some next) :
    Took s (.run t) next := by
  cases pc with
  | execAddSem child =>
      cases ran
      exact Took.execAddSem here
  | execAddProc child idx =>
      cases ran
      exact Took.execAddProc here
  | execDown child idx =>
      simp only [runExec] at ran
      split at ran
      · next outside =>
        cases ran
        exact Took.outside here rfl outside
      · next i slot =>
        by_cases zero : (s.semList i).launched.value = 0
        · simp only [sema_down_blocks zero, Bool.false_eq_true, if_false] at ran
          cases ran
          have blocks := Took.execBlocks here slot zero
          rwa [sema_down_blocks zero] at blocks
        · simp only [sema_down_passes zero, if_true] at ran
          cases ran
          have passes := Took.execPasses here slot zero
          rwa [sema_down_passes zero] at passes
  | execReturn child =>
      cases ran
      exact Took.execReturn here
  | _ => simp [runExec] at ran

theorem run_wait_took {s next : Kernel} {t : Tid} {thread : Thread} {pc : Pc}
    (here : At s t thread pc) (ran : runWait s t thread pc = some next) :
    Took s (.run t) next := by
  cases pc with
  | waitIdx child p =>
      cases ran
      exact Took.waitIdx here
  | waitDown child p idx =>
      simp only [runWait] at ran
      split at ran
      · next error =>
        cases ran
        exact Took.waitSkips here error
      · next index =>
        split at ran
        · next outside =>
          cases ran
          exact Took.outside here ⟨rfl, index⟩ outside
        · next i slot =>
          by_cases zero : (s.semList i).exiting.value = 0
          · simp only [sema_down_blocks zero, Bool.false_eq_true, if_false] at ran
            cases ran
            have blocks := Took.waitBlocks here slot zero
            rwa [sema_down_blocks zero] at blocks
          · simp only [sema_down_passes zero, if_true] at ran
            cases ran
            have passes := Took.waitPasses here slot zero
            rwa [sema_down_passes zero] at passes
  | waitRelease child p idx =>
      simp only [runWait] at ran
      split at ran
      · next outside =>
        cases ran
        exact Took.outside here rfl outside
      · next i slot =>
        cases ran
        exact Took.waitRelease here slot
  | waitRead child p =>
      cases ran
      exact Took.waitRead here
  | waitClear child p status =>
      cases ran
      exact Took.waitClear here
  | waitReturn child status =>
      cases ran
      exact Took.waitReturn here
  | _ => simp [runWait] at ran

theorem run_child_took {s next : Kernel} {t : Tid} {thread : Thread} {pc : Pc}
    (here : At s t thread pc) (ran : runChild s t thread pc = some next) :
    Took s (.run t) next := by
  cases pc with
  | launch =>
      simp only [runChild] at ran
      split at ran
      · next absent =>
        cases ran
        exact Took.launchNull here absent
      · next p found =>
        cases ran
        exact Took.launch here found
  | launchUp idx =>
      simp only [runChild] at ran
      split at ran
      · next outside =>
        cases ran
        exact Took.outside here rfl outside
      · next i slot =>
        cases ran
        exact Took.launchUp here slot
  | exitFetch status =>
      simp only [runChild] at ran
      split at ran
      · next absent =>
        cases ran
        exact Took.exitFetchMisses here absent
      · next p found =>
        cases ran
        exact Took.exitFetch here found
  | exitStore p status =>
      cases ran
      exact Took.exitStore here
  | exitProcess =>
      simp only [runChild] at ran
      split at ran
      · next absent =>
        cases ran
        exact Took.exitProcessMisses here absent
      · next p found =>
        cases ran
        exact Took.exitProcess here found
  | exitIdx p =>
      cases ran
      exact Took.exitIdx here
  | exitSignal idx =>
      simp only [runChild] at ran
      split at ran
      · next outside =>
        cases ran
        exact Took.outside here rfl outside
      · next i slot =>
        cases ran
        exact Took.exitSignal here slot
  | _ => simp [runChild] at ran

theorem run_took {s next : Kernel} {t : Tid} {thread : Thread} {pc : Pc}
    (here : At s t thread pc) (ran : run s t thread = some next) : Took s (.run t) next := by
  have stands := here.stands
  simp only [run, stands, Option.or_eq_some_iff] at ran
  rcases ran with ran | ⟨_, ran | ⟨_, ran⟩⟩
  · exact run_exec_took here ran
  · exact run_wait_took here ran
  · exact run_child_took here ran

theorem step_took {s next : Kernel} {action : Action} (taken : step s action = some next) :
    Took s action next := by
  simp only [step] at taken
  split at taken
  · cases taken
  · split at taken
    · cases taken
    · next thread found =>
      split at taken
      · cases taken
      · next awake =>
        have ready : thread.blocked = false := by simpa using awake
        have here : At s action.tid thread thread.pc := ⟨found, ready, rfl⟩
        cases action with
        | exec t =>
            simp only [act, exec] at taken
            split_ifs at taken with user process free
            · cases taken
              exact Took.exec (some t) ⟨found, ready, user⟩
            · cases taken
              exact Took.exec s.filesysLock ⟨found, ready, user⟩
        | create t succeeds =>
            simp only [act, create] at taken
            split_ifs at taken with user created fits
            · cases taken
              subst created
              exact Took.create ⟨found, ready, user⟩
            · cases taken
              subst created
              exact Took.tidOverflow ⟨found, ready, user⟩
            · cases taken
              have failed : succeeds = false := by simpa using created
              subst failed
              exact Took.createFails ⟨found, ready, user⟩
        | wait t child =>
            simp only [act, wait] at taken
            split_ifs at taken with calls
            split at taken
            · next absent =>
              cases taken
              exact Took.waitMisses here calls absent
            · next p present =>
              cases taken
              exact Took.waitFinds here calls present
        | load t outcome =>
            simp only [act, load] at taken
            split_ifs at taken with loading
            cases taken
            exact Took.load outcome ⟨found, ready, loading⟩
        | finish t ending =>
            simp only [act, finish] at taken
            split_ifs at taken with user
            cases taken
            exact Took.finish ending ⟨found, ready, user.1⟩ user.2
        | run t => exact run_took here taken

end UtSystems.Userprog.ProcessSteps

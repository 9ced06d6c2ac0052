import UtSystems.Userprog.HeldFiles

/-!
# What the steps of processes do to the files they hold

Each call, each start and each end of a process keeps the invariant of the held files, and
stops only on the assertions that its arguments allow it to reach.
-/

namespace UtSystems.Userprog.HeldSteps

open Lib.Bytes Lib.Effects Lib.GuardedRun Filesys.Volume Filesys.Inode Filesys.Directory
open Filesys.Consistency Filesys.NamedFiles Filesys.Format Filesys.SectorOwners Userprog.Elf
open Userprog.Descriptors Userprog.HeldFiles

set_option autoImplicit false

section Processes

variable {processes : Processes} {process : Process} {pid fd : Nat}

theorem held_slot (alive : processes pid = some process) (value : Option Ptr) :
    Processes.held (Function.update processes pid
      (some { process with fdt := Function.update process.fdt fd value })) =
      Function.update processes.held (.descriptor pid fd) value := by
  funext holder
  cases holder with
  | descriptor owner slot =>
      by_cases samePid : owner = pid
      · subst samePid
        by_cases sameFd : slot = fd
        · subst sameFd
          simp [Processes.held]
        · simp [Processes.held, sameFd, alive]
      · simp [Processes.held, samePid]
  | executable owner =>
      by_cases samePid : owner = pid
      · subst samePid
        simp [Processes.held, alive]
      · simp [Processes.held, samePid]

theorem held_same (alive : processes pid = some process) :
    Function.update processes pid (some process) = processes :=
  Function.update_eq_self_iff.mpr alive.symm

theorem held_started (absent : processes pid = none) (fileToExe : Ptr) :
    Processes.held (Function.update processes pid
      (some { fdt := fun _ => none, fileToExe := some fileToExe })) =
      Function.update processes.held (.executable pid) (some fileToExe) := by
  funext holder
  cases holder with
  | descriptor owner slot =>
      by_cases samePid : owner = pid
      · subst samePid
        simp [Processes.held, absent]
      · simp [Processes.held, samePid]
  | executable owner =>
      by_cases samePid : owner = pid
      · subst samePid
        simp [Processes.held]
      · simp [Processes.held, samePid]

/-- A process without descriptors disappears with its executable. -/
theorem held_ended (alive : processes pid = some process) (empty : ∀ slot, process.fdt slot = none) :
    Processes.held (Function.update processes pid none) =
      Function.update processes.held (.executable pid) none := by
  funext holder
  cases holder with
  | descriptor owner slot =>
      by_cases samePid : owner = pid
      · subst samePid
        simp [Processes.held, alive, empty slot]
      · simp [Processes.held, samePid]
  | executable owner =>
      by_cases samePid : owner = pid
      · subst samePid
        simp [Processes.held]
      · simp [Processes.held, samePid]

theorem held_fewer (holder : Holder) (file : Ptr)
    (holds : Processes.held (Function.update processes pid none) holder = some file) :
    processes.held holder = some file := by
  cases holder with
  | descriptor owner slot =>
      by_cases samePid : owner = pid
      · subst samePid
        simp [Processes.held] at holds
      · simpa [Processes.held, samePid] using holds
  | executable owner =>
      by_cases samePid : owner = pid
      · subst samePid
        simp [Processes.held] at holds
      · simpa [Processes.held, samePid] using holds

theorem fdt_file_some {fdt : Fdt} {number : Int} {file : Ptr} (found : fdtFile fdt number = some file) :
    1 < number ∧ number < 128 ∧ fdt number.toNat = some file := by
  unfold fdtFile at found
  obtain ⟨inside, here⟩ := Option.ite_none_right_eq_some.mp found
  exact ⟨inside.1, inside.2, here⟩

theorem free_fdt_slot_some {fdt : Fdt} {slot : Nat} (found : freeFdtSlot fdt = some slot) :
    2 ≤ slot ∧ slot < 128 ∧ fdt slot = none := by
  unfold freeFdtSlot at found
  have inside := List.mem_of_find?_eq_some found
  have free := List.find?_some found
  simp only [List.mem_range'_1, Option.isNone_iff_eq_none] at inside free
  exact ⟨inside.1, by omega, free⟩

end Processes

section Calls

variable {tidy exclusive : Prop} {fs : FileSys} {processes : Processes} {process : Process}
  {pid : Nat}

/-- The file of a descriptor is open and not the free map's. -/
theorem descriptor_open (inv : Inv tidy exclusive fs processes.held)
    (alive : processes pid = some process) {number : Int} {file : Ptr}
    (found : fdtFile process.fdt number = some file) :
    processes.held (.descriptor pid number.toNat) = some file ∧
      (∃ handle, fs.files file = some handle) ∧ fs.freeMapFile ≠ some file := by
  obtain ⟨_, _, here⟩ := fdt_file_some found
  have holds : processes.held (.descriptor pid number.toNat) = some file := by
    simp only [Processes.held, alive, Option.bind_some, here]
  exact ⟨holds, inv.present _ file holds⟩

theorem sys_close_returns (inv : Inv tidy exclusive fs processes.held)
    (alive : processes pid = some process) (number : Int) :
    Returns (sysClose process.fdt number) fs fun fdt next =>
      Inv tidy exclusive next (Processes.held (Function.update processes pid
        (some { process with fdt := fdt }))) ∧ Calm fs next ∧
      fdt = if (fdtFile process.fdt number).isSome then Function.update process.fdt number.toNat none
        else process.fdt := by
  unfold sysClose
  cases found : fdtFile process.fdt number with
  | none =>
      apply returns_pure
      rw [held_same alive]
      exact ⟨inv, (kept_refl fs).toCalm, rfl⟩
  | some file =>
      obtain ⟨holds, ⟨handle, here⟩, notMap⟩ := descriptor_open inv alive found
      apply returns_bind (file_close_in_order inv.order here notMap)
      rintro _ next ⟨calm, order, files⟩
      apply returns_pure
      rw [held_slot alive]
      exact ⟨inv_closed inv order calm.freeMapFile files holds, calm, rfl⟩

/-- What the loop of `sys_exit` leaves of a table. -/
def closedSlots (indices : List Nat) (fdt : Fdt) : Fdt :=
  fun slot => if slot ∈ indices ∧ 2 ≤ slot ∧ slot < 128 then none else fdt slot

theorem closed_slot (index : Nat) (fdt : Fdt) :
    (if (fdtFile fdt index).isSome then Function.update fdt (index : Int).toNat none else fdt) =
      closedSlots [index] fdt := by
  have elsewhere : ∀ slot, slot ≠ index → closedSlots [index] fdt slot = fdt slot := by
    intro slot different
    exact if_neg fun both => different (List.mem_singleton.mp both.1)
  rw [Int.toNat_natCast]
  funext slot
  by_cases range : 2 ≤ index ∧ index < 128
  · have found : fdtFile fdt index = fdt index := by
      unfold fdtFile
      rw [if_pos (by omega), Int.toNat_natCast]
    rw [found]
    by_cases same : slot = index
    · subst same
      have cleared : closedSlots [slot] fdt slot = none :=
        if_pos ⟨List.mem_singleton.mpr rfl, range⟩
      rw [cleared]
      cases here : fdt slot with
      | none => exact here
      | some file => exact Function.update_self ..
    · rw [elsewhere slot same]
      cases fdt index with
      | none => rfl
      | some file => exact Function.update_of_ne same ..
  · have missing : fdtFile fdt index = none := by
      unfold fdtFile
      rw [if_neg (by omega)]
    rw [missing]
    by_cases same : slot = index
    · subst same
      exact (if_neg fun both => range both.2).symm
    · exact (elsewhere slot same).symm

theorem close_loop_returns (indices : List Nat) (inv : Inv tidy exclusive fs processes.held)
    (alive : processes pid = some process) :
    Returns (closeLoop indices process.fdt) fs fun fdt next =>
      Inv tidy exclusive next (Processes.held (Function.update processes pid
        (some { process with fdt := fdt }))) ∧ Calm fs next ∧
      fdt = closedSlots indices process.fdt := by
  induction indices generalizing fs processes process with
  | nil =>
      apply returns_pure
      rw [held_same alive]
      refine ⟨inv, (kept_refl fs).toCalm, ?_⟩
      funext slot
      simp [closedSlots]
  | cons index rest ih =>
      unfold closeLoop
      apply returns_bind (sys_close_returns inv alive index)
      rintro fdt next ⟨after, calm, left⟩
      rw [closed_slot] at left
      apply returns_mono (ih after (Function.update_self ..))
      rintro last final ⟨done, more, eq⟩
      refine ⟨?_, calm_trans calm more, ?_⟩
      · rw [Function.update_idem] at done
        exact done
      · rw [eq]
        dsimp only
        rw [left]
        funext slot
        unfold closedSlots
        by_cases isFirst : slot = index
        · subst isFirst
          by_cases range : 2 ≤ slot ∧ slot < 128
          · simp [range]
          · simp [range]
        · simp [isFirst]

/-- `sys_exit` closes everything the process holds. -/
theorem sys_exit_returns (inv : Inv tidy exclusive fs processes.held)
    (alive : processes pid = some process) :
    Returns (sysExit process) fs fun _ next =>
      Inv tidy exclusive next (Processes.held (Function.update processes pid none)) ∧
        Calm fs next := by
  have empty : ∀ slot, closedSlots (List.range 128) process.fdt slot = none := by
    intro slot
    unfold closedSlots
    split
    · rfl
    · next outside =>
      by_contra used
      obtain ⟨file, here⟩ := Option.ne_none_iff_exists'.mp used
      have holds : processes.held (.descriptor pid slot) = some file := by
        simp only [Processes.held, alive, Option.bind_some, here]
      obtain ⟨low, high⟩ := inv.valid _ file holds
      exact outside ⟨List.mem_range.mpr high, low, high⟩
  unfold sysExit
  apply returns_bind (close_loop_returns (List.range 128) inv alive)
  rintro fdt next ⟨after, calm, rfl⟩
  have ended := @held_ended (Function.update processes pid
    (some { process with fdt := closedSlots (List.range 128) process.fdt })) _ pid
    (Function.update_self ..) empty
  rw [Function.update_idem] at ended
  rw [ended]
  cases executable : process.fileToExe with
  | none =>
      apply returns_pure
      refine ⟨?_, calm⟩
      have same : Function.update (Processes.held (Function.update processes pid
          (some { process with fdt := closedSlots (List.range 128) process.fdt })))
          (.executable pid) none = Processes.held (Function.update processes pid
          (some { process with fdt := closedSlots (List.range 128) process.fdt })) := by
        apply Function.update_eq_self_iff.mpr
        simp [Processes.held, executable]
      rw [executable] at same
      rw [same]
      rw [executable] at after
      exact after
  | some file =>
      have holds : Processes.held (Function.update processes pid
          (some { process with fdt := closedSlots (List.range 128) process.fdt }))
          (.executable pid) = some file := by
        simp [Processes.held, executable]
      obtain ⟨⟨handle, here⟩, notMap⟩ := after.present _ file holds
      apply returns_mono (file_close_in_order after.order here notMap)
      rintro _ last ⟨more, order, files⟩
      have closed := inv_closed after order more.freeMapFile files holds
      rw [executable] at closed
      exact ⟨closed, calm_trans calm more⟩

end Calls

/-- `filesys_open` finds the file and has the memory to open it. -/
def opens (fs : FileSys) (name : Name) : Bool :=
  match filesysOpen (some name) fs with
  | .ok (some _) _ => true
  | _ => false

/-- The step leaves no file open that nobody holds. -/
def Tidy (fs : FileSys) (processes : Processes) : Action → Prop
  | .openFile pid file => ∀ process ∈ processes pid, (freeFdtSlot process.fdt).isSome ∨
      nameMax < file.length ∨ opens fs file = false
  | .killed _ => False
  | .start _ command room => headerRejected fs room command = false
  | _ => True

instance (fs : FileSys) (processes : Processes) (action : Action) :
    Decidable (Tidy fs processes action) := by
  unfold Tidy
  cases action <;> dsimp only <;> infer_instance

/-- No process ends without `sys_exit`. -/
def Exclusive : Action → Prop
  | .killed _ => False
  | _ => True

instance (action : Action) : Decidable (Exclusive action) := by
  unfold Exclusive
  cases action <;> dsimp only <;> infer_instance

/-- The assertions that a step can reach, and with which arguments. -/
def Raised (action : Action) (error : Panic) : Prop :=
  match action with
  | .create _ _ initialSize => error = .negativeLength ∧ initialSize.toInt < 0
  | .seek _ _ position => error = .negativePosition ∧ position.toInt < 0
  | .exec _ cmdLine => error = .nullName ∧ strtok [0x20] cmdLine = none
  | .start _ command _ => LoadStops command error
  | .extract _ _ => True
  | _ => False

section Steps

variable {tidy exclusive : Prop} {fs : FileSys} {processes : Processes} {process : Process}
  {pid : Nat}

/-- A call that changes no more than the position in one file. -/
theorem unchanged_ends {Value : Type} {call : Process → FsM Value} {program : FsM Processes}
    {raised : Panic → Prop} (possible : unchanged processes pid call = some program)
    (ends : ∀ process, processes pid = some process →
      Ends (call process) fs
        (fun _ next => Inv tidy exclusive next processes.held ∧ Calm fs next) raised) :
    Ends program fs (fun after next => Inv tidy exclusive next (Processes.held after) ∧ Calm fs next)
      raised := by
  obtain ⟨process, alive, rfl⟩ := Option.map_eq_some_iff.mp possible
  apply ends_bind (ends process alive)
  intro _ next after
  exact ends_returns (returns_pure after)

theorem resting_refl (order : Ordered fs) : Resting fs fs := ⟨order, (kept_refl fs).toCalm, rfl⟩

theorem inv_rested {next : FileSys} (inv : Inv tidy exclusive fs processes.held)
    (resting : Resting fs next) : Inv tidy exclusive next processes.held ∧ Calm fs next :=
  ⟨inv_resting inv resting, resting.calm⟩

theorem sys_create_ends (order : Ordered fs) (file : Name) (initialSize : Word) :
    Ends (sysCreate file initialSize) fs (fun _ next => Resting fs next)
      (fun error => error = .negativeLength ∧ initialSize.toInt < 0) := by
  unfold sysCreate
  split
  · exact ends_returns (returns_pure (resting_refl order))
  · refine ends_mono (filesys_create_ends order file initialSize) ?_ fun _ raised => raised
    rintro _ next ⟨quiet, after⟩
    exact ⟨after, quiet.toCalm, quiet.files⟩

theorem sys_remove_returns (order : Ordered fs) (file : Name) :
    Returns (sysRemove file) fs fun _ next => Resting fs next := by
  unfold sysRemove
  split
  · exact returns_pure (resting_refl order)
  · apply returns_mono (filesys_remove_returns order file)
    rintro _ next ⟨quiet, after⟩
    exact ⟨after, quiet.toCalm, quiet.files⟩

theorem sys_filesize_returns (inv : Inv tidy exclusive fs processes.held)
    (alive : processes pid = some process) (fd : Int) :
    Returns (sysFilesize process.fdt fd) fs fun _ next => next = fs := by
  unfold sysFilesize
  cases found : fdtFile process.fdt fd with
  | none => exact returns_pure rfl
  | some file =>
      obtain ⟨_, ⟨handle, here⟩, _⟩ := descriptor_open inv alive found
      obtain ⟨_, _, ran⟩ := file_length_returns inv.order here
      exact returns_mono ran fun _ _ both => both.1

theorem sys_tell_returns (inv : Inv tidy exclusive fs processes.held)
    (alive : processes pid = some process) (fd : Int) :
    Returns (sysTell process.fdt fd) fs fun _ next => next = fs := by
  unfold sysTell
  cases found : fdtFile process.fdt fd with
  | none => exact returns_pure rfl
  | some file =>
      obtain ⟨_, ⟨handle, here⟩, _⟩ := descriptor_open inv alive found
      apply returns_bind (file_at_returns here)
      rintro _ _ ⟨rfl, rfl⟩
      exact returns_pure rfl

theorem sys_read_returns (inv : Inv tidy exclusive fs processes.held)
    (alive : processes pid = some process) (fd : Int) (size : Word) (input : Nat → Byte) :
    Returns (sysRead process.fdt fd size input) fs fun _ next =>
      Inv tidy exclusive next processes.held ∧ Calm fs next := by
  have same : Inv tidy exclusive fs processes.held ∧ Calm fs fs := ⟨inv, (kept_refl fs).toCalm⟩
  unfold sysRead
  split
  · exact returns_pure same
  split
  · exact returns_pure same
  cases found : fdtFile process.fdt fd with
  | none => exact returns_pure same
  | some file =>
      obtain ⟨_, ⟨handle, here⟩, notMap⟩ := descriptor_open inv alive found
      apply returns_bind (file_read_in_order inv.order here notMap size.toInt)
      rintro bytes _ ⟨order, requests, grown, rfl⟩
      have steady : Steady fs { fs with
          files := Function.update fs.files file
            (some { handle with pos := handle.pos + bytes.length })
          requests := requests } := steady_inodes rfl rfl rfl grown rfl
      exact returns_pure ⟨inv_replaced inv order rfl rfl here rfl, steady.toCalm⟩

theorem sys_write_returns (inv : Inv tidy exclusive fs processes.held)
    (alive : processes pid = some process) (fd : Int) (buffer : Nat → Byte) (size : Word) :
    Returns (sysWrite process.fdt fd buffer size) fs fun _ next =>
      Inv tidy exclusive next processes.held ∧ Calm fs next := by
  have same : Inv tidy exclusive fs processes.held ∧ Calm fs fs := ⟨inv, (kept_refl fs).toCalm⟩
  unfold sysWrite
  split
  · exact returns_pure same
  split
  · exact returns_pure same
  cases found : fdtFile process.fdt fd with
  | none => exact returns_pure same
  | some file =>
      obtain ⟨_, ⟨handle, here⟩, notMap⟩ := descriptor_open inv alive found
      apply returns_bind (file_write_in_order inv.order here notMap buffer size.toInt)
      rintro total next ⟨calm, order, _, files⟩
      exact returns_pure ⟨inv_replaced inv order calm.freeMapFile files here rfl, calm⟩

theorem sys_seek_ends (inv : Inv tidy exclusive fs processes.held)
    (alive : processes pid = some process) (fd : Int) (position : Word) :
    Ends (sysSeek process.fdt fd position) fs
      (fun _ next => Inv tidy exclusive next processes.held ∧ Calm fs next)
      (fun error => error = .negativePosition ∧ position.toInt < 0) := by
  unfold sysSeek
  cases found : fdtFile process.fdt fd with
  | none => exact ends_returns (returns_pure ⟨inv, (kept_refl fs).toCalm⟩)
  | some file =>
      obtain ⟨_, ⟨handle, here⟩, notMap⟩ := descriptor_open inv alive found
      by_cases negative : position.toInt < 0
      · dsimp only
        unfold fileSeek
        rw [if_pos negative]
        exact ends_throw ⟨rfl, negative⟩
      · apply ends_returns
        apply returns_mono (file_seek_in_order inv.order here notMap (by omega))
        rintro _ _ ⟨order, rfl⟩
        have steady : Steady fs { fs with
            files := Function.update fs.files file
              (some { handle with pos := position.toInt.toNat }) } :=
          steady_inodes rfl rfl rfl (Nat.le_refl _) rfl
        exact ⟨inv_replaced inv order rfl rfl here rfl, steady.toCalm⟩

theorem sys_open_returns (inv : Inv tidy exclusive fs processes.held)
    (alive : processes pid = some process) (file : Name)
    (isTidy : tidy → Tidy fs processes (.openFile pid file)) :
    Returns (sysOpen process.fdt file) fs fun result next =>
      Inv tidy exclusive next (Processes.held (Function.update processes pid
        (some { process with fdt := result.2 }))) ∧ Calm fs next := by
  have same : Inv tidy exclusive fs (Processes.held (Function.update processes pid
      (some { process with fdt := process.fdt }))) ∧ Calm fs fs := by
    rw [held_same alive]
    exact ⟨inv, (kept_refl fs).toCalm⟩
  unfold sysOpen
  split
  · exact returns_pure same
  next nameOk =>
  obtain ⟨result, next, ran, post⟩ := filesys_open_borrows inv.order file
  apply returns_after ran
  cases result with
  | none =>
      apply returns_pure
      rw [held_same alive]
      exact ⟨inv_resting inv post.1, post.1.calm⟩
  | some new =>
      obtain ⟨borrowed, _⟩ := post
      apply returns_pure
      unfold addFdtEntry
      cases slot : freeFdtSlot process.fdt with
      | some index =>
          obtain ⟨low, high, free⟩ := free_fdt_slot_some slot
          obtain ⟨handle, allows, files⟩ := borrowed.files
          dsimp only
          rw [held_slot alive]
          refine ⟨?_, borrowed.calm⟩
          refine inv_held inv borrowed.order borrowed.calm.freeMapFile borrowed.fresh borrowed.notMap
            files ?_ ?_ ?_
          · simp only [Processes.held, alive, Option.bind_some, free]
          · exact ⟨low, high⟩
          · rw [allows]
            simp
      | none =>
          dsimp only
          rw [held_same alive]
          refine ⟨inv_leaked inv borrowed ?_, borrowed.calm⟩
          intro holds
          rcases isTidy holds process alive with room | long | closed
          · rw [slot] at room
            cases room
          · exact nameOk (.inl long)
          · unfold opens at closed
            rw [ran] at closed
            cases closed

theorem sys_exec_ends (order : Ordered fs) (cmdLine : List Byte) :
    Ends (sysExec cmdLine) fs (fun _ next => Resting fs next)
      (fun error => error = .nullName ∧ strtok [0x20] cmdLine = none) := by
  unfold sysExec
  cases name : strtok [0x20] cmdLine with
  | none =>
      apply ends_bind (ends_mono (filesys_open_null order) (fun _ _ post => post)
        fun _ raised => ⟨raised, rfl⟩)
      rintro _ next ⟨rfl, resting⟩
      exact ends_returns (returns_pure resting)
  | some word =>
      apply ends_returns
      apply returns_bind (filesys_open_borrows order word)
      rintro (_ | file) next post
      · exact returns_pure post.1
      · apply returns_bind (borrowed_close post.1)
        intro _ last resting
        exact returns_pure resting

theorem copy_loop_ends {base : FileSys} {dst : Ptr} (sectors : Nat) (content : List Byte)
    (borrowed : Borrowed base fs dst) :
    Ends (copyLoop dst sectors content) fs (fun _ next => Borrowed base next dst)
      (fun _ => True) := by
  induction sectors generalizing fs content with
  | zero => exact ends_returns (returns_pure borrowed)
  | succ sectors ih =>
      unfold copyLoop
      apply ends_bind (ends_returns (borrowed_write borrowed _ _))
      intro written next again
      split
      · exact ih _ again
      · exact ends_throw trivial

theorem fsutil_extract_ends (order : Ordered fs) (fileName : Name) (content : List Byte) :
    Ends (fsutilExtract fileName content) fs (fun _ next => Resting fs next) (fun _ => True) := by
  unfold fsutilExtract
  apply ends_bind (ends_mono (filesys_create_ends order fileName _) (fun _ _ post => post)
    fun _ _ => trivial)
  rintro created next ⟨quiet, after⟩
  have resting : Resting fs next := ⟨after, quiet.toCalm, quiet.files⟩
  cases created with
  | false => exact ends_throw trivial
  | true =>
      apply ends_bind (ends_returns (filesys_open_borrows after fileName))
      rintro (_ | dst) opened post
      · exact ends_throw trivial
      · apply ends_bind (copy_loop_ends _ _ (resting_borrowed resting post.1))
        intro _ copied borrowed
        exact ends_returns (borrowed_close borrowed)

/-- Every step keeps the invariant, and stops only where its arguments lead it to an
assertion. -/
theorem perform_ends (inv : Inv tidy exclusive fs processes.held) {action : Action}
    {program : FsM Processes} (possible : action.perform processes = some program)
    (isTidy : tidy → Tidy fs processes action) (isExclusive : exclusive → Exclusive action) :
    Ends program fs (fun after next => Inv tidy exclusive next (Processes.held after) ∧ Calm fs next)
      (Raised action) := by
  have calls : ∀ {next : FileSys}, next = fs →
      Inv tidy exclusive next processes.held ∧ Calm fs next := by
    rintro _ rfl
    exact ⟨inv, (kept_refl _).toCalm⟩
  cases action with
  | create pid file initialSize =>
      exact unchanged_ends possible fun _ _ =>
        ends_mono (sys_create_ends inv.order file initialSize)
          (fun _ _ resting => inv_rested inv resting) fun _ raised => raised
  | remove pid file =>
      exact unchanged_ends possible fun _ _ =>
        ends_returns (returns_mono (sys_remove_returns inv.order file)
          fun _ _ resting => inv_rested inv resting)
  | openFile pid file =>
      obtain ⟨process, alive, rfl⟩ := Option.map_eq_some_iff.mp possible
      apply ends_returns
      apply returns_bind (sys_open_returns inv alive file isTidy)
      rintro ⟨fd, fdt⟩ next after
      exact returns_pure after
  | filesize pid fd =>
      refine unchanged_ends possible fun process alive => ends_returns ?_
      exact returns_mono (sys_filesize_returns inv alive fd) fun _ _ same => calls same
  | read pid fd size input =>
      exact unchanged_ends possible fun _ alive =>
        ends_returns (sys_read_returns inv alive fd size input)
  | write pid fd buffer size =>
      exact unchanged_ends possible fun _ alive =>
        ends_returns (sys_write_returns inv alive fd buffer size)
  | seek pid fd position =>
      exact unchanged_ends possible fun _ alive => sys_seek_ends inv alive fd position
  | tell pid fd =>
      refine unchanged_ends possible fun process alive => ends_returns ?_
      exact returns_mono (sys_tell_returns inv alive fd) fun _ _ same => calls same
  | close pid fd =>
      obtain ⟨process, alive, rfl⟩ := Option.map_eq_some_iff.mp possible
      apply ends_returns
      apply returns_bind (sys_close_returns inv alive fd)
      rintro fdt next ⟨after, calm, _⟩
      exact returns_pure ⟨after, calm⟩
  | exec pid cmdLine =>
      exact unchanged_ends possible fun _ _ =>
        ends_mono (sys_exec_ends inv.order cmdLine)
          (fun _ _ resting => inv_rested inv resting) fun _ raised => raised
  | exit pid =>
      obtain ⟨process, alive, rfl⟩ := Option.map_eq_some_iff.mp possible
      apply ends_returns
      apply returns_bind (sys_exit_returns inv alive)
      intro _ next after
      exact returns_pure after
  | killed pid =>
      obtain ⟨process, alive, rfl⟩ := Option.map_eq_some_iff.mp possible
      apply ends_returns
      apply returns_pure
      exact ⟨inv_forgotten inv held_fewer isTidy isExclusive, (kept_refl fs).toCalm⟩
  | start pid command room =>
      obtain ⟨absent, eq⟩ := Option.ite_none_left_eq_some.mp possible
      cases eq
      have free : processes pid = none := Option.not_isSome_iff_eq_none.mp absent
      apply ends_bind (load_ends inv.order command)
      rintro (_ | _ | fileToExe) next after
      · exact ends_returns (returns_pure (inv_rested inv after))
      · obtain ⟨rejected, file, borrowed⟩ := after
        apply ends_returns
        apply returns_pure
        refine ⟨inv_leaked inv borrowed ?_, borrowed.calm⟩
        intro holds
        have accepted := isTidy holds
        change headerRejected fs room command = false at accepted
        rw [rejected] at accepted
        cases accepted
      · obtain ⟨order, calm, fresh, notMap, handle, denies, files⟩ := after
        apply ends_returns
        apply returns_pure
        rw [held_started free]
        refine ⟨?_, calm⟩
        refine inv_held inv order calm.freeMapFile fresh notMap files ?_ ?_ ?_
        · simp only [Processes.held, free, Option.bind_none]
        · exact trivial
        · rw [denies]
          exact ⟨fun _ => ⟨pid, rfl⟩, fun _ => rfl⟩
  | extract fileName content =>
      cases possible
      apply ends_bind (fsutil_extract_ends inv.order fileName content)
      intro _ next resting
      exact ends_returns (returns_pure (inv_rested inv resting))

end Steps

/-- After `filesys_init` with formatting, and before the first process. -/
def Boots (start : System) : Prop :=
  (∃ size disk memory, IdeAccepts size ∧
    filesysInit true (powerUp size disk memory) = .ok () start.fs) ∧
    start.processes = fun _ => none

theorem boot_inv (tidy exclusive : Prop) {start : System} (boots : Boots start) :
    Inv tidy exclusive start.fs start.processes.held := by
  obtain ⟨⟨size, disk, memory, accepted, ran⟩, none_⟩ := boots
  have small : size < 2 ^ 21 := by
    unfold IdeAccepts blockSectorSize at accepted
    omega
  obtain ⟨order, _, _, onlyMap⟩ := filesys_init_format_ensures size disk memory small _ _ ran
  have nobody : ∀ holder, start.processes.held holder = none := by
    intro holder
    rw [none_]
    cases holder <;> rfl
  constructor
  case order => exact order
  case valid =>
    intro holder file holds
    rw [nobody] at holds
    cases holds
  case present =>
    intro holder file holds
    rw [nobody] at holds
    cases holds
  case once =>
    intro first second file one
    rw [nobody] at one
    cases one
  case denies =>
    intro pid file handle holds
    rw [nobody] at holds
    cases holds
  case owned => exact fun _ file handle here => .inl (onlyMap file handle here)
  case denied =>
    intro _ file handle here denies
    obtain ⟨inodes, sound, _⟩ := order
    obtain ⟨map, mapHandle, _, named, _, mapHere, allows, _⟩ := sound.mapFile
    have isMap := onlyMap file handle here
    rw [isMap] at named
    cases named
    rw [mapHere] at here
    cases here
    rw [allows] at denies
    cases denies

theorem step_ok {system next : System} {action : Action} (taken : step system action = some next) :
    ∃ program, action.perform system.processes = some program ∧
      program system.fs = .ok next.processes next.fs := by
  unfold step at taken
  cases possible : action.perform system.processes with
  | none =>
      rw [possible] at taken
      cases taken
  | some program =>
      rw [possible] at taken
      dsimp only at taken
      cases ran : program system.fs with
      | error error last =>
          rw [ran] at taken
          cases taken
      | ok processes fs =>
          rw [ran] at taken
          cases taken
          exact ⟨program, rfl, ran⟩

/-- A step of a run under the conditions that `tidy` and `exclusive` ask for. -/
def Within (tidy exclusive : Prop) (system : System) (action : Action) : Prop :=
  (tidy → Tidy system.fs system.processes action) ∧ (exclusive → Exclusive action)

/-- The invariant holds in every state of a run. -/
theorem reaches_inv (tidy exclusive : Prop) {start system : System} (boots : Boots start)
    (run : Reaches step (Within tidy exclusive) start system) :
    Inv tidy exclusive system.fs system.processes.held := by
  apply reaches_invariant (fun system => Inv tidy exclusive system.fs system.processes.held)
    (boot_inv tidy exclusive boots) _ run
  intro system action next inv within taken
  obtain ⟨program, possible, ran⟩ := step_ok taken
  exact (ends_ok (perform_ends inv possible within.1 within.2) ran).1

/-- The state that a program ends in, whether or not it returns. -/
def after {α : Type} (program : FsM α) (fs : FileSys) : FileSys :=
  match program fs with
  | .ok _ next => next
  | .error _ next => next

theorem after_ok {α : Type} {program : FsM α} {fs : FileSys} {value : α}
    (runs : program.run' fs = some value) : program fs = .ok value (after program fs) := by
  obtain ⟨next, ran⟩ := ok_of_run runs
  unfold after
  rw [ran]

/-- A formatted device, with no process. -/
def bootedWith (sectors : Nat) (memory : Nat → Bool) : System :=
  { fs := after (filesysInit true) (powerUp sectors (fun _ => 0) memory),
    processes := fun _ => none }

theorem booted_boots {sectors : Nat} {memory : Nat → Bool} (accepts : IdeAccepts sectors)
    (runs : (filesysInit true).run' (powerUp sectors (fun _ => 0) memory) = some ()) :
    Boots (bootedWith sectors memory) :=
  ⟨⟨sectors, fun _ => 0, memory, accepts, after_ok runs⟩, rfl⟩

theorem eight_sectors_accepted : IdeAccepts 8 := by
  unfold IdeAccepts blockSectorSize
  omega

/-- Memory never runs out. -/
def booted (sectors : Nat) : System := bootedWith sectors fun _ => true

theorem eight_sectors_boot : Boots (booted 8) :=
  booted_boots eight_sectors_accepted (by decide +kernel)

theorem booted_plenty : Plenty (booted 8).fs := by
  have runs : (filesysInit true).run' (powerUp 8 (fun _ => 0) fun _ => true) = some () := by
    decide +kernel
  have formatted := filesys_init_format_ensures 8 (fun _ => 0) (fun _ => true) (by decide) () _
    (after_ok runs)
  unfold booted bootedWith
  intro request
  rw [formatted.2.1]

def roomy : Room := { pagedir := true, frames := fun _ => .mapped, stack := true }

/-- The kernel puts an executable `a` on the device and starts it as process 1. -/
def startFirst : List Action := [.extract [0x61] zeroPageProgram, .start 1 [0x61] roomy]

end UtSystems.Userprog.HeldSteps

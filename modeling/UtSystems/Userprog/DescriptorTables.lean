import UtSystems.Userprog.HeldSteps

/-!
# Descriptor tables as private maps

Each process has a partial map from the descriptors 2 to 127 to open files, each with a position
of its own. The calls on descriptors act on the map of their process as the map says, and leave
the maps of the other processes alone.
-/

namespace UtSystems.Userprog.DescriptorTables

open Lib.Bytes Lib.Effects Lib.GuardedRun Filesys.Volume Filesys.InodeData Filesys.Inode
open Filesys.Directory Filesys.OpenFiles Filesys.NamedFiles Filesys.NamedInodes Filesys.Entries
open Userprog.Descriptors Userprog.HeldFiles Userprog.HeldSteps

set_option autoImplicit false

/-- A file object, what it refers to and its position. -/
structure OpenFile where
  file : Ptr
  inode : Ptr
  pos : Nat
  deriving DecidableEq, Repr

abbrev Table := Nat → Option OpenFile

/-- What a descriptor number denotes; only 2 to 127 denote anything. -/
def Table.lookup (table : Table) (fd : Int) : Option OpenFile :=
  if 1 < fd ∧ fd < 128 then table fd.toNat else none

def openFile (fs : FileSys) (file : Ptr) : Option OpenFile :=
  (fs.files file).map fun handle => { file := file, inode := handle.inode, pos := handle.pos }

/-- The map of a process. -/
def tableOf (system : System) (pid : Nat) : Table :=
  fun fd => (system.processes.held (.descriptor pid fd)).bind (openFile system.fs)

/-- The calls on a descriptor. -/
inductive Use where
  | close
  | read (size : Word) (input : Nat → Byte)
  | write (buffer : Nat → Byte) (size : Word)
  | seek (position : Word)
  | tell
  | filesize

/-- What a call returns, and the bytes it delivers. -/
structure Answer where
  value : Int
  bytes : List Byte
  deriving DecidableEq, Repr

def Use.action (pid : Nat) (fd : Int) : Use → Action
  | .close => .close pid fd
  | .read size input => .read pid fd size input
  | .write buffer size => .write pid fd buffer size
  | .seek position => .seek pid fd position
  | .tell => .tell pid fd
  | .filesize => .filesize pid fd

/-- The function of syscall.c that serves the call. -/
def Use.perform (fdt : Fdt) (fd : Int) : Use → FsM (Answer × Fdt)
  | .close => do
      let fdt ← sysClose fdt fd
      return ({ value := 0, bytes := [] }, fdt)
  | .read size input => do
      let (value, bytes) ← sysRead fdt fd size input
      return ({ value := value, bytes := bytes }, fdt)
  | .write buffer size => do
      let value ← sysWrite fdt fd buffer size
      return ({ value := value, bytes := [] }, fdt)
  | .seek position => do
      sysSeek fdt fd position
      return ({ value := 0, bytes := [] }, fdt)
  | .tell => do
      let value ← sysTell fdt fd
      return ({ value := value, bytes := [] }, fdt)
  | .filesize => do
      let value ← sysFilesize fdt fd
      return ({ value := value, bytes := [] }, fdt)

/-- The root directory has a file of that name. -/
def Exists (fs : FileSys) (name : Name) : Prop :=
  ValidName name ∧ ∃ index < rootPlace.entries, Matches rootPlace fs.disk name index

/-- How many bytes a transfer at the position of the file moves. -/
def moves (fs : FileSys) (opened : OpenFile) (target : Inode) (size : Word) : Nat :=
  transferred (fs.memory fs.requests) opened.pos (available target.data size.toInt opened.pos)

/-- What a call does on an open file, and what it leaves of it. -/
def Does (fs next : FileSys) (opened : OpenFile) (target : Inode) (answer : Answer)
    (left : Option OpenFile) : Use → Prop
  | .close => left = none
  | .read size _ => answer.value = answer.bytes.length ∧
      answer.bytes = slice fs.disk (dataBase target.data + opened.pos) (moves fs opened target size) ∧
      left = some { opened with pos := opened.pos + answer.bytes.length }
  | .write buffer size =>
      answer.value = ((if target.denyWriteCnt ≠ 0 then 0 else moves fs opened target size : Nat) : Int) ∧
      next.disk = overwrite fs.disk (dataBase target.data + opened.pos)
        (slice buffer 0 answer.value.toNat) ∧
      left = some { opened with pos := opened.pos + answer.value.toNat }
  | .seek position => left = some { opened with pos := position.toNat }
  | .tell => answer.value = opened.pos ∧ left = some opened
  | .filesize => answer.value = inodeLength target.data ∧ left = some opened

/-- A call acts on the file that its descriptor denotes, and does nothing if it denotes none. -/
def Acts (fs next : FileSys) (before after : Table) (fd : Int) (use : Use) (answer : Answer) : Prop :=
  match before.lookup fd with
  | some opened => ∃ target left, fs.inodes opened.inode = some target ∧
      Does fs next opened target answer left use ∧ after = Function.update before fd.toNat left
  | none => next = fs ∧ after = before

/-- The open file is on the inode that the directory has for the name. -/
def Named (fs next : FileSys) (name : Name) (opened : OpenFile) : Prop :=
  ∃ index target, index < rootPlace.entries ∧ Matches rootPlace fs.disk name index ∧
    next.inodes opened.inode = some target ∧
    target.sector = (entryAt rootPlace fs.disk index).inodeSector.toNat

/-- `sys_open` fails, or the file is opened at its start on a descriptor that was not in use. -/
def Opens (fs next : FileSys) (before after : Table) (name : Name) (answer : Int) : Prop :=
  (answer = -1 ∧ after = before ∧
    ¬(Plenty fs ∧ Exists fs name ∧ ∃ fd, 2 ≤ fd ∧ fd < 128 ∧ before fd = none)) ∨
  ∃ fd opened, answer = (fd : Nat) ∧ 2 ≤ fd ∧ fd < 128 ∧ before fd = none ∧
    opened.pos = 0 ∧ Named fs next name opened ∧ after = Function.update before fd (some opened)

/-- The system after a call of process `pid`. -/
def served (system : System) (pid : Nat) (process : Process) (fdt : Fdt) (next : FileSys) : System where
  fs := next
  processes := Function.update system.processes pid (some { process with fdt := fdt })

section Maps

variable {tidy exclusive : Prop} {system : System} {next : FileSys} {process : Process}
  {pid fd : Nat}

/-- One slot of a table has changed, and no file of another holder. -/
theorem table_of_slot (alive : system.processes pid = some process) (slot : Option Ptr)
    (agree : ∀ holder file, holder ≠ .descriptor pid fd → system.processes.held holder = some file →
      next.files file = system.fs.files file) (owner : Nat) :
    tableOf (served system pid process (Function.update process.fdt fd slot) next) owner =
      if owner = pid then Function.update (tableOf system pid) fd (slot.bind (openFile next))
      else tableOf system owner := by
  have elsewhere : ∀ holder, holder ≠ .descriptor pid fd →
      (system.processes.held holder).bind (openFile next) =
        (system.processes.held holder).bind (openFile system.fs) := by
    intro holder different
    cases holds : system.processes.held holder with
    | none => rfl
    | some file =>
        simp only [Option.bind_some, openFile]
        rw [agree holder file different holds]
  funext number
  unfold tableOf served
  dsimp only
  rw [held_slot alive]
  by_cases mine : owner = pid
  · subst mine
    rw [if_pos rfl]
    by_cases here : number = fd
    · subst here
      rw [Function.update_self, Function.update_self]
    · have different : Holder.descriptor owner number ≠ .descriptor owner fd := by
        intro same
        cases same
        exact here rfl
      rw [Function.update_of_ne different, Function.update_of_ne here]
      exact elsewhere _ different
  · have different : Holder.descriptor owner number ≠ .descriptor pid fd := by
      intro same
      cases same
      exact mine rfl
    rw [if_neg mine, Function.update_of_ne different]
    exact elsewhere _ different

/-- The table and the files that are held stay as they are. -/
theorem table_of_kept (alive : system.processes pid = some process)
    (agree : ∀ holder file, system.processes.held holder = some file →
      next.files file = system.fs.files file) (owner : Nat) :
    tableOf (served system pid process process.fdt next) owner = tableOf system owner := by
  unfold tableOf served
  dsimp only
  rw [held_same alive]
  funext number
  cases holds : system.processes.held (.descriptor owner number) with
  | none => rfl
  | some file =>
      simp only [Option.bind_some, openFile]
      rw [agree _ file holds]

theorem served_same (alive : system.processes pid = some process) :
    served system pid process process.fdt system.fs = system := by
  unfold served
  rw [held_same alive]

theorem table_lookup (alive : system.processes pid = some process) (number : Int) :
    (tableOf system pid).lookup number = (fdtFile process.fdt number).bind (openFile system.fs) := by
  unfold Table.lookup fdtFile tableOf
  split
  · simp only [Processes.held, alive, Option.bind_some]
  · rfl

/-- The file of a descriptor has been replaced or closed. -/
theorem other_files {change : Option File} {file : Ptr}
    (inv : Inv tidy exclusive system.fs system.processes.held)
    (holds : system.processes.held (.descriptor pid fd) = some file)
    (files : next.files = Function.update system.fs.files file change) (holder : Holder)
    (another : Ptr) (different : holder ≠ .descriptor pid fd)
    (keeps : system.processes.held holder = some another) :
    next.files another = system.fs.files another := by
  rw [files, Function.update_of_ne]
  rintro rfl
  exact different (inv.once holder _ another keeps holds)

end Maps

/-- A position that `file_seek` takes. -/
def Use.Accepted : Use → Prop
  | .seek position => position.toNat < 2 ^ 31
  | _ => True

section Uses

variable {tidy exclusive : Prop} {fs : FileSys} {system : System} {process : Process} {pid : Nat}
  {fd : Int} {file : Ptr} {handle : File} {target : Inode}

/-- A descriptor that denotes nothing. -/
theorem use_closed (missing : fdtFile process.fdt fd = none) (use : Use) :
    Returns (use.perform process.fdt fd) fs fun result next => result.2 = process.fdt ∧ next = fs := by
  cases use with
  | close =>
      simp only [Use.perform, sysClose, missing]
      exact returns_pure ⟨rfl, rfl⟩
  | read size input =>
      simp only [Use.perform, sysRead, missing]
      split
      · exact returns_pure ⟨rfl, rfl⟩
      · split
        · exact returns_pure ⟨rfl, rfl⟩
        · exact returns_pure ⟨rfl, rfl⟩
  | write buffer size =>
      simp only [Use.perform, sysWrite, missing]
      split
      · exact returns_pure ⟨rfl, rfl⟩
      · split
        · exact returns_pure ⟨rfl, rfl⟩
        · exact returns_pure ⟨rfl, rfl⟩
  | seek position =>
      simp only [Use.perform, sysSeek, missing]
      exact returns_pure ⟨rfl, rfl⟩
  | tell =>
      simp only [Use.perform, sysTell, missing]
      exact returns_pure ⟨rfl, rfl⟩
  | filesize =>
      simp only [Use.perform, sysFilesize, missing]
      exact returns_pure ⟨rfl, rfl⟩

/-- What a call has changed: a slot of the table and a file. -/
structure Changed (fs next : FileSys) (fdt after : Fdt) (fd : Int) (file : Ptr)
    (left : Option OpenFile) : Prop where
  table : ∃ slot, after = Function.update fdt fd.toNat slot ∧ slot.bind (openFile next) = left
  files : ∃ change, next.files = Function.update fs.files file change

/-- The file keeps its slot. -/
theorem changed_file {next : FileSys} (found : fdtFile process.fdt fd = some file)
    (files : next.files = Function.update fs.files file (some handle)) :
    Changed fs next process.fdt process.fdt fd file
      (some { file := file, inode := handle.inode, pos := handle.pos }) := by
  obtain ⟨_, _, here⟩ := fdt_file_some found
  refine ⟨⟨some file, ?_, ?_⟩, some handle, files⟩
  · exact (Function.update_eq_self_iff.mpr here.symm).symm
  · simp only [Option.bind_some, openFile, files, Function.update_self, Option.map_some]

theorem files_same (here : fs.files file = some handle) :
    fs.files = Function.update fs.files file (some handle) :=
  (Function.update_eq_self_iff.mpr here.symm).symm

theorem use_does (order : Ordered fs) (found : fdtFile process.fdt fd = some file)
    (here : fs.files file = some handle) (notMap : fs.freeMapFile ≠ some file)
    (reached : fs.inodes handle.inode = some target) (use : Use) (accepted : use.Accepted) :
    Returns (use.perform process.fdt fd) fs fun result next => ∃ left,
      Changed fs next process.fdt result.2 fd file left ∧
      Does fs next { file := file, inode := handle.inode, pos := handle.pos } target result.1 left
        use := by
  obtain ⟨low, high, _⟩ := fdt_file_some found
  obtain ⟨inodes, sound, _, other, present, apart, _⟩ := user_handle order here notMap
  rw [reached] at present
  cases present
  cases use with
  | close =>
      simp only [Use.perform, sysClose, found]
      rw [bind_assoc]
      apply returns_bind (file_close_in_order order here notMap)
      rintro _ next ⟨_, _, files⟩
      apply returns_pure
      exact ⟨none, ⟨⟨none, rfl, rfl⟩, none, files⟩, rfl⟩
  | read size input =>
      simp only [Use.perform, sysRead, found]
      rw [if_neg (by omega), if_neg (by omega), bind_assoc]
      apply returns_bind (file_read_returns sound here reached size.toInt)
      rintro bytes _ ⟨delivered, _, requests, _, rfl⟩
      apply returns_pure
      exact ⟨_, changed_file found rfl, rfl, delivered, rfl⟩
  | write buffer size =>
      simp only [Use.perform, sysWrite, found]
      rw [if_neg (by omega), if_neg (by omega), bind_assoc]
      apply returns_bind (file_write_returns sound here reached apart buffer size.toInt)
      rintro total next ⟨count, _, _, _, _, disk, files⟩
      apply returns_pure
      refine ⟨_, changed_file found files, ?_, ?_, ?_⟩
      · rw [count]
        rfl
      · rw [Int.toNat_natCast]
        exact disk
      · rw [Int.toNat_natCast]
  | seek position =>
      simp only [Use.perform, sysSeek, found]
      have small : position.toNat < 2 ^ 31 := accepted
      have signed : position.toInt = position.toNat := by
        rw [BitVec.toInt_eq_toNat_cond, if_pos (by omega)]
      apply returns_bind (file_seek_in_order order here notMap (by omega))
      rintro _ _ ⟨_, rfl⟩
      apply returns_pure
      refine ⟨_, changed_file found rfl, ?_⟩
      rw [signed, Int.toNat_natCast]
      rfl
  | tell =>
      simp only [Use.perform, sysTell, found]
      unfold fileTell
      rw [bind_assoc]
      apply returns_bind (file_at_returns here)
      rintro _ _ ⟨rfl, rfl⟩
      apply returns_pure
      exact ⟨_, changed_file found (files_same here), rfl, rfl⟩
  | filesize =>
      simp only [Use.perform, sysFilesize, found]
      obtain ⟨other, there, ran⟩ := file_length_returns order here
      rw [reached] at there
      cases there
      apply returns_bind ran
      rintro _ _ ⟨rfl, rfl⟩
      apply returns_pure
      exact ⟨_, changed_file found (files_same here), rfl, rfl⟩

/-- A call acts on the map of its process as the map says, and on no other map. -/
theorem use_acts (inv : Inv tidy exclusive system.fs system.processes.held)
    (alive : system.processes pid = some process) (fd : Int) (use : Use)
    (accepted : (fdtFile process.fdt fd).isSome → use.Accepted) :
    Returns (use.perform process.fdt fd) system.fs fun result next =>
      Acts system.fs next (tableOf system pid)
        (tableOf (served system pid process result.2 next) pid) fd use result.1 ∧
      ∀ other, other ≠ pid →
        tableOf (served system pid process result.2 next) other = tableOf system other := by
  cases found : fdtFile process.fdt fd with
  | none =>
      apply returns_mono (use_closed found use)
      rintro ⟨answer, fdt⟩ _ ⟨rfl, rfl⟩
      rw [served_same alive]
      refine ⟨?_, fun _ _ => rfl⟩
      unfold Acts
      rw [table_lookup alive, found]
      exact ⟨rfl, rfl⟩
  | some file =>
      obtain ⟨holds, ⟨handle, here⟩, notMap⟩ := descriptor_open inv alive found
      obtain ⟨_, _, _, target, reached, _⟩ := user_handle inv.order here notMap
      apply returns_mono (use_does inv.order found here notMap reached use
        (accepted (by rw [found]; rfl)))
      rintro ⟨answer, fdt⟩ next ⟨left, ⟨⟨slot, rfl, slotLeft⟩, change, files⟩, does⟩
      have tables := table_of_slot alive slot (other_files inv holds files)
      have opened : openFile system.fs file =
          some { file := file, inode := handle.inode, pos := handle.pos } := by
        rw [openFile, here, Option.map_some]
      constructor
      · unfold Acts
        rw [table_lookup alive, found, Option.bind_some, opened]
        refine ⟨target, left, reached, does, ?_⟩
        rw [tables pid, if_pos rfl, slotLeft]
      · intro other different
        rw [tables other, if_neg different]

/-- `sys_open` on the map of its process. -/
theorem sys_open_acts (inv : Inv tidy exclusive system.fs system.processes.held)
    (alive : system.processes pid = some process) (name : Name) :
    Returns (sysOpen process.fdt name) system.fs fun result next =>
      Opens system.fs next (tableOf system pid)
        (tableOf (served system pid process result.2 next) pid) name result.1 ∧
      ∀ other, other ≠ pid →
        tableOf (served system pid process result.2 next) other = tableOf system other := by
  have free : ∀ slot, tableOf system pid slot = none → process.fdt slot = none := by
    intro slot empty
    by_contra used
    obtain ⟨file, here⟩ := Option.ne_none_iff_exists'.mp used
    have holds : system.processes.held (.descriptor pid slot) = some file := by
      simp only [Processes.held, alive, Option.bind_some, here]
    obtain ⟨⟨handle, opened⟩, _⟩ := inv.present _ file holds
    rw [tableOf, holds, Option.bind_some, openFile, opened] at empty
    cases empty
  unfold sysOpen
  split
  · next badName =>
    apply returns_pure
    have same := @table_of_kept system system.fs process pid alive fun _ _ _ => rfl
    refine ⟨.inl ⟨rfl, same pid, ?_⟩, fun other _ => same other⟩
    rintro ⟨_, ⟨⟨notEmpty, short⟩, _⟩, _⟩
    rcases badName with long | empty
    · omega
    · exact notEmpty (List.length_eq_zero_iff.mp empty)
  apply returns_bind (filesys_open_borrows inv.order name)
  rintro (_ | file) next result
  · obtain ⟨resting, missing⟩ := result
    apply returns_pure
    have same := @table_of_kept system next process pid alive fun _ _ _ => by rw [resting.files]
    refine ⟨.inl ⟨rfl, same pid, ?_⟩, fun other _ => same other⟩
    rintro ⟨plenty, ⟨_, index, inside, found⟩, _⟩
    exact missing plenty index inside found
  · obtain ⟨borrowed, _, inode, target, index, files, present, inside, found, place⟩ := result
    have agree : ∀ holder another, system.processes.held holder = some another →
        next.files another = system.fs.files another := by
      intro holder another holds
      rw [files, Function.update_of_ne]
      rintro rfl
      obtain ⟨⟨handle, here⟩, _⟩ := inv.present holder _ holds
      rw [borrowed.fresh] at here
      cases here
    apply returns_pure
    unfold addFdtEntry
    cases slot : freeFdtSlot process.fdt with
    | none =>
        dsimp only
        have same := @table_of_kept system next process pid alive agree
        refine ⟨.inl ⟨rfl, same pid, ?_⟩, fun other _ => same other⟩
        rintro ⟨_, _, fd, low, high, empty⟩
        have used := List.find?_eq_none.mp slot fd (List.mem_range'_1.mpr ⟨low, by omega⟩)
        rw [free fd empty] at used
        exact used rfl
    | some fd =>
        obtain ⟨low, high, empty⟩ := free_fdt_slot_some slot
        dsimp only
        have tables := @table_of_slot system next process pid fd alive (some file)
          fun holder another _ holds => agree holder another holds
        refine ⟨.inr ⟨fd, { file := file, inode := inode, pos := 0 }, rfl, low, high, ?_, rfl, ?_, ?_⟩,
          ?_⟩
        · unfold tableOf
          simp only [Processes.held, alive, Option.bind_some, empty, Option.bind_none]
        · exact ⟨index, target, inside, found, present, place⟩
        · rw [tables pid, if_pos rfl]
          simp only [Option.bind_some, openFile, files, Function.update_self, Option.map_some]
        · intro other different
          rw [tables other, if_neg different]

end Uses

section Steps

variable {tidy exclusive : Prop} {system : System} {process : Process} {pid : Nat}

theorem step_of_ok {action : Action} {program : FsM Processes} {after : Processes} {next : FileSys}
    (possible : action.perform system.processes = some program)
    (ran : program system.fs = .ok after next) :
    step system action = some { fs := next, processes := after } := by
  unfold step
  rw [possible]
  dsimp only
  rw [ran]

theorem unchanged_step {Value : Type} {call : Process → FsM Value} {action : Action} {value : Value}
    {next : FileSys} (performs : action.perform system.processes = unchanged system.processes pid call)
    (alive : system.processes pid = some process) (ran : call process system.fs = .ok value next) :
    step system action = some (served system pid process process.fdt next) := by
  have possible : action.perform system.processes = some (do
      let _ ← call process
      return system.processes) := by
    rw [performs, unchanged, alive, Option.map_some]
  unfold served
  rw [held_same alive]
  apply step_of_ok possible
  exact bind_run ran

/-- The call is the step of its process. -/
theorem use_step {fd : Int} {use : Use} {answer : Answer} {fdt : Fdt} {next : FileSys}
    (alive : system.processes pid = some process)
    (ran : use.perform process.fdt fd system.fs = .ok (answer, fdt) next) :
    step system (use.action pid fd) = some (served system pid process fdt next) := by
  cases use with
  | close =>
      obtain ⟨_, _, closed, rest⟩ := bind_ok ran
      cases rest
      have possible : (Action.close pid fd).perform system.processes = some (do
          let fdt ← sysClose process.fdt fd
          return Function.update system.processes pid (some { process with fdt := fdt })) := by
        rw [Action.perform, alive, Option.map_some]
      apply step_of_ok possible
      exact bind_run closed
  | read size input =>
      obtain ⟨_, _, delivered, rest⟩ := bind_ok ran
      cases rest
      exact unchanged_step rfl alive delivered
  | write buffer size =>
      obtain ⟨_, _, written, rest⟩ := bind_ok ran
      cases rest
      exact unchanged_step rfl alive written
  | seek position =>
      obtain ⟨_, _, moved, rest⟩ := bind_ok ran
      cases rest
      exact unchanged_step rfl alive moved
  | tell =>
      obtain ⟨_, _, told, rest⟩ := bind_ok ran
      cases rest
      exact unchanged_step rfl alive told
  | filesize =>
      obtain ⟨_, _, measured, rest⟩ := bind_ok ran
      cases rest
      exact unchanged_step rfl alive measured

theorem open_step {name : Name} {fd : Int} {fdt : Fdt} {next : FileSys}
    (alive : system.processes pid = some process)
    (ran : sysOpen process.fdt name system.fs = .ok (fd, fdt) next) :
    step system (.openFile pid name) = some (served system pid process fdt next) := by
  apply step_of_ok
  · rw [Action.perform, alive, Option.map_some]
  · exact bind_run ran

end Steps

section Frames

variable {tidy exclusive : Prop} {system next : System} {fs : FileSys} {processes : Processes}
  {process : Process} {pid owner : Nat}

theorem table_of_same (same : next.processes pid = system.processes pid)
    (agree : ∀ fd file, system.processes.held (.descriptor pid fd) = some file →
      next.fs.files file = system.fs.files file) : tableOf next pid = tableOf system pid := by
  funext fd
  have holds : next.processes.held (.descriptor pid fd) = system.processes.held (.descriptor pid fd) := by
    simp only [Processes.held, same]
  unfold tableOf
  rw [holds]
  cases here : system.processes.held (.descriptor pid fd) with
  | none => rfl
  | some file =>
      simp only [Option.bind_some, openFile]
      rw [agree fd file here]

/-- Files that are not in the table are left alone. -/
def Spared (fdt : Fdt) (fs next : FileSys) : Prop :=
  ∀ file, (∀ slot, fdt slot ≠ some file) → next.files file = fs.files file

theorem sys_close_spares (inv : Inv tidy exclusive fs processes.held)
    (alive : processes pid = some process) (number : Int) :
    Returns (sysClose process.fdt number) fs fun _ next => Spared process.fdt fs next := by
  unfold sysClose
  cases found : fdtFile process.fdt number with
  | none => exact returns_pure fun _ _ => rfl
  | some file =>
      obtain ⟨_, ⟨handle, here⟩, notMap⟩ := descriptor_open inv alive found
      obtain ⟨_, _, slot⟩ := fdt_file_some found
      apply returns_bind (file_close_in_order inv.order here notMap)
      rintro _ next ⟨_, _, files⟩
      apply returns_pure
      intro other absent
      rw [files, Function.update_of_ne]
      rintro rfl
      exact absent _ slot

theorem close_loop_spares (indices : List Nat) (inv : Inv tidy exclusive fs processes.held)
    (alive : processes pid = some process) :
    Returns (closeLoop indices process.fdt) fs fun _ next => Spared process.fdt fs next := by
  induction indices generalizing fs processes process with
  | nil => exact returns_pure fun _ _ => rfl
  | cons index rest ih =>
      unfold closeLoop
      apply returns_bind (returns_and (sys_close_returns inv alive index)
        (sys_close_spares inv alive index))
      rintro fdt middle ⟨⟨after, _, left⟩, first⟩
      rw [closed_slot] at left
      apply returns_mono (ih after (Function.update_self ..))
      intro _ last second file absent
      refine (second file ?_).trans (first file absent)
      intro slot here
      dsimp only at here
      rw [left, closedSlots] at here
      exact absent slot (Option.ite_none_left_eq_some.mp here).2

theorem sys_exit_spares (inv : Inv tidy exclusive fs processes.held)
    (alive : processes pid = some process) :
    Returns (sysExit process) fs fun _ next => ∀ file, (∀ slot, process.fdt slot ≠ some file) →
      process.fileToExe ≠ some file → next.files file = fs.files file := by
  unfold sysExit
  apply returns_bind (returns_and (close_loop_returns (List.range 128) inv alive)
    (close_loop_spares (List.range 128) inv alive))
  rintro fdt middle ⟨⟨after, _, _⟩, spared⟩
  cases executable : process.fileToExe with
  | none => exact returns_pure fun file absent _ => spared file absent
  | some held =>
      have holds : Processes.held (Function.update processes pid (some { process with fdt := fdt }))
          (.executable pid) = some held := by
        simp [Processes.held, executable]
      obtain ⟨⟨handle, here⟩, notMap⟩ := after.present _ held holds
      apply returns_mono (file_close_in_order after.order here notMap)
      rintro _ last ⟨_, _, files⟩ file absent different
      rw [files, Function.update_of_ne]
      · exact spared file absent
      · rintro rfl
        exact different rfl

/-- The step does not move in, close or replace what descriptor `fd` of process `pid` denotes. -/
def Spares (pid fd : Nat) (_ : System) : Action → Prop
  | .read owner number _ _ => ¬(owner = pid ∧ number = fd)
  | .write owner number _ _ => ¬(owner = pid ∧ number = fd)
  | .seek owner number _ => ¬(owner = pid ∧ number = fd)
  | .close owner number => ¬(owner = pid ∧ number = fd)
  | .exit owner => owner ≠ pid
  | .killed owner => owner ≠ pid
  | _ => True

/-- A call that leaves the open files as they are. -/
theorem unchanged_spares {Value : Type} {call : Process → FsM Value} {program : FsM Processes}
    (possible : unchanged system.processes owner call = some program)
    (ran : program system.fs = .ok next.processes next.fs)
    (ensures : ∀ process, system.processes owner = some process →
      Ensures (call process) system.fs fun _ last => last.files = system.fs.files) :
    tableOf next pid = tableOf system pid := by
  obtain ⟨process, alive, rfl⟩ := Option.map_eq_some_iff.mp possible
  obtain ⟨value, middle, called, rest⟩ := bind_ok ran
  have files := ensures process alive _ _ called
  injection rest with processes last
  apply table_of_same
  · rw [processes]
  · intro _ _ _
    rw [← last, files]

/-- A call of a process on one of its descriptors. -/
theorem use_spares {number : Int} {fd : Nat} {opened : OpenFile} (use : Use)
    (inv : Inv tidy exclusive system.fs system.processes.held)
    (taken : step system (use.action owner number) = some next)
    (spares : ¬(owner = pid ∧ number = fd)) (here : tableOf system pid fd = some opened)
    (alive : system.processes owner = some process)
    (accepted : (fdtFile process.fdt number).isSome → use.Accepted) :
    tableOf next pid fd = some opened := by
  obtain ⟨⟨answer, fdt⟩, last, ran, acts, others⟩ := use_acts inv alive number use accepted
  rw [use_step alive ran] at taken
  cases taken
  by_cases mine : owner = pid
  · subst mine
    unfold Acts at acts
    cases found : (tableOf system owner).lookup number with
    | none =>
        rw [found] at acts
        rw [acts.2]
        exact here
    | some denoted =>
        rw [found] at acts
        obtain ⟨_, left, _, _, after⟩ := acts
        obtain ⟨inside, _⟩ := Option.ite_none_right_eq_some.mp found
        have apart : fd ≠ number.toNat := by
          intro same
          exact spares ⟨rfl, by omega⟩
        rw [after, Function.update_of_ne apart]
        exact here
  · rw [others pid fun same => mine same.symm]
    exact here

theorem load_spares (order : Ordered fs) {command : List Byte} {room : Room} :
    Ends (load room command) fs (fun _ last => ∀ file handle, fs.files file = some handle →
      last.files file = some handle) (LoadStops command) := by
  refine ends_mono (load_ends order command) ?_ fun _ stops => stops
  rintro (_ | _ | fileToExe) last after file handle here
  · rw [Resting.files after]
    exact here
  · obtain ⟨_, other, borrowed⟩ := after
    obtain ⟨_, _, files⟩ := borrowed.files
    rw [files, Function.update_of_ne]
    · exact here
    · rintro rfl
      rw [borrowed.fresh] at here
      cases here
  · obtain ⟨_, _, fresh, _, _, _, files⟩ := after
    rw [files, Function.update_of_ne]
    · exact here
    · rintro rfl
      rw [fresh] at here
      cases here

/-- One step of a run leaves what a descriptor denotes as it is. -/
theorem exit_spares {fd : Nat} {opened : OpenFile}
    (inv : Inv tidy exclusive system.fs system.processes.held) (apart : pid ≠ owner)
    (taken : step system (.exit owner) = some next) (here : tableOf system pid fd = some opened) :
    tableOf next pid fd = some opened := by
  obtain ⟨program, possible, ran⟩ := step_ok taken
  obtain ⟨process, alive, rfl⟩ := Option.map_eq_some_iff.mp possible
  obtain ⟨_, last, exited, rest⟩ := bind_ok ran
  have spared := returns_ok (sys_exit_spares inv alive) exited
  injection rest with processes same
  rw [table_of_same]
  · exact here
  · rw [← processes, Function.update_of_ne apart]
  · intro slot found keeps
    rw [← same]
    apply spared found
    · intro other taken
      have holds : system.processes.held (.descriptor owner other) = some found := by
        simp only [Processes.held, alive, Option.bind_some, taken]
      cases inv.once _ _ found keeps holds
      exact apart rfl
    · intro taken
      have holds : system.processes.held (.executable owner) = some found := by
        simp only [Processes.held, alive, Option.bind_some, taken]
      cases inv.once _ _ found keeps holds

theorem killed_spares {fd : Nat} {opened : OpenFile} (apart : pid ≠ owner)
    (taken : step system (.killed owner) = some next) (here : tableOf system pid fd = some opened) :
    tableOf next pid fd = some opened := by
  obtain ⟨program, possible, ran⟩ := step_ok taken
  obtain ⟨process, alive, rfl⟩ := Option.map_eq_some_iff.mp possible
  injection ran with processes same
  rw [table_of_same]
  · exact here
  · rw [← processes, Function.update_of_ne apart]
  · intro _ _ _
    rw [← same]

theorem start_spares {fd : Nat} {opened : OpenFile} {command : List Byte} {room : Room}
    (inv : Inv tidy exclusive system.fs system.processes.held)
    (taken : step system (.start owner command room) = some next)
    (here : tableOf system pid fd = some opened) : tableOf next pid fd = some opened := by
  obtain ⟨file, holds, _⟩ := Option.bind_eq_some_iff.mp here
  obtain ⟨program, possible, ran⟩ := step_ok taken
  obtain ⟨absent, eq⟩ := Option.ite_none_left_eq_some.mp possible
  cases eq
  have free : system.processes owner = none := Option.not_isSome_iff_eq_none.mp absent
  have apart : pid ≠ owner := by
    rintro rfl
    simp only [Processes.held, free, Option.bind_none] at holds
    cases holds
  obtain ⟨loaded, last, ran, rest⟩ := bind_ok ran
  have kept := ends_ok (load_spares inv.order) ran
  have same : next.processes pid = system.processes pid ∧ next.fs = last := by
    cases loaded with
    | failed =>
        injection rest with processes same
        rw [← processes, same]
        exact ⟨rfl, rfl⟩
    | exited =>
        injection rest with processes same
        rw [← processes, same]
        exact ⟨rfl, rfl⟩
    | success fileToExe =>
        injection rest with processes same
        rw [← processes, same, Function.update_of_ne apart]
        exact ⟨rfl, rfl⟩
  rw [table_of_same same.1]
  · exact here
  · intro slot found keeps
    obtain ⟨⟨handle, opened⟩, _⟩ := inv.present _ found keeps
    rw [same.2, kept found handle opened, opened]

theorem extract_spares {fd : Nat} {opened : OpenFile} {fileName : Name} {content : List Byte}
    (inv : Inv tidy exclusive system.fs system.processes.held)
    (taken : step system (.extract fileName content) = some next)
    (here : tableOf system pid fd = some opened) : tableOf next pid fd = some opened := by
  obtain ⟨program, possible, ran⟩ := step_ok taken
  cases possible
  obtain ⟨_, last, ran, rest⟩ := bind_ok ran
  have resting := ends_ok (fsutil_extract_ends inv.order fileName content) ran
  injection rest with processes same
  rw [table_of_same]
  · exact here
  · rw [← processes]
  · intro _ _ _
    rw [← same, resting.files]

theorem step_spares {fd : Nat} {opened : OpenFile} {action : Action}
    (inv : Inv tidy exclusive system.fs system.processes.held)
    (spares : Spares pid fd system action) (taken : step system action = some next)
    (here : tableOf system pid fd = some opened) : tableOf next pid fd = some opened := by
  obtain ⟨program, possible, ran⟩ := step_ok taken
  cases action with
  | create owner name initialSize =>
      rw [unchanged_spares possible ran fun _ _ _ _ result =>
        (ends_ok (sys_create_ends inv.order name initialSize) result).files]
      exact here
  | remove owner name =>
      rw [unchanged_spares possible ran fun _ _ _ _ result =>
        (returns_ok (sys_remove_returns inv.order name) result).files]
      exact here
  | exec owner cmdLine =>
      rw [unchanged_spares possible ran fun _ _ _ _ result =>
        (ends_ok (sys_exec_ends inv.order cmdLine) result).files]
      exact here
  | filesize owner number =>
      rw [unchanged_spares possible ran fun _ alive _ _ result => by
        rw [returns_ok (sys_filesize_returns inv alive number) result]]
      exact here
  | tell owner number =>
      rw [unchanged_spares possible ran fun _ alive _ _ result => by
        rw [returns_ok (sys_tell_returns inv alive number) result]]
      exact here
  | openFile owner name =>
      obtain ⟨process, alive, _⟩ := Option.map_eq_some_iff.mp possible
      obtain ⟨⟨answer, fdt⟩, last, opens, acts, others⟩ := sys_open_acts inv alive name
      rw [open_step alive opens] at taken
      cases taken
      by_cases mine : owner = pid
      · subst mine
        rcases acts with ⟨_, after, _⟩ | ⟨slot, _, _, _, _, empty, _, _, after⟩
        · rw [after]
          exact here
        · rw [after, Function.update_of_ne]
          · exact here
          · rintro rfl
            rw [empty] at here
            cases here
      · rw [others pid fun same => mine same.symm]
        exact here
  | read owner number size input =>
      obtain ⟨process, alive, _⟩ := Option.map_eq_some_iff.mp possible
      exact use_spares (.read size input) inv taken spares here alive fun _ => trivial
  | write owner number buffer size =>
      obtain ⟨process, alive, _⟩ := Option.map_eq_some_iff.mp possible
      exact use_spares (.write buffer size) inv taken spares here alive fun _ => trivial
  | seek owner number position =>
      obtain ⟨process, alive, rfl⟩ := Option.map_eq_some_iff.mp possible
      refine use_spares (.seek position) inv taken spares here alive fun found => ?_
      obtain ⟨denoted, found⟩ := Option.isSome_iff_exists.mp found
      -- a larger position is negative, and `file_seek` stops the kernel
      by_contra large
      have negative : position.toInt < 0 := (word_negative position).mpr large
      simp only [sysSeek, found, fileSeek, if_pos negative] at ran
      cases ran
  | close owner number =>
      obtain ⟨process, alive, _⟩ := Option.map_eq_some_iff.mp possible
      exact use_spares .close inv taken spares here alive fun _ => trivial
  | exit owner => exact exit_spares inv (fun same => spares same.symm) taken here
  | killed owner => exact killed_spares (fun same => spares same.symm) taken here
  | start owner command room => exact start_spares inv taken here
  | extract fileName content => exact extract_spares inv taken here

end Frames

/-- The tables and the maps have the same entries, and no file object is in two of them. -/
structure Mapped (system : System) : Prop where
  slots : ∀ pid process fd file, system.processes pid = some process → process.fdt fd = some file →
    2 ≤ fd ∧ fd < 128 ∧ ∃ opened, tableOf system pid fd = some opened ∧ opened.file = file
  entries : ∀ pid fd opened, tableOf system pid fd = some opened → ∃ process,
    system.processes pid = some process ∧ process.fdt fd = some opened.file
  apart : ∀ pid fd owner slot opened found, tableOf system pid fd = some opened →
    tableOf system owner slot = some found → opened.file = found.file → pid = owner ∧ fd = slot

theorem inv_mapped {tidy exclusive : Prop} {system : System}
    (inv : Inv tidy exclusive system.fs system.processes.held) : Mapped system := by
  have entry : ∀ {pid fd opened}, tableOf system pid fd = some opened →
      system.processes.held (.descriptor pid fd) = some opened.file := by
    intro pid fd opened here
    obtain ⟨file, holds, opens⟩ := Option.bind_eq_some_iff.mp here
    obtain ⟨handle, _, rfl⟩ := Option.map_eq_some_iff.mp opens
    exact holds
  constructor
  case slots =>
    intro pid process fd file alive here
    have holds : system.processes.held (.descriptor pid fd) = some file := by
      simp only [Processes.held, alive, Option.bind_some, here]
    obtain ⟨low, high⟩ := inv.valid _ file holds
    obtain ⟨⟨handle, opened⟩, _⟩ := inv.present _ file holds
    refine ⟨low, high, { file := file, inode := handle.inode, pos := handle.pos }, ?_, rfl⟩
    rw [tableOf, holds, Option.bind_some, openFile, opened, Option.map_some]
  case entries =>
    intro pid fd opened here
    exact Option.bind_eq_some_iff.mp (entry here)
  case apart =>
    intro pid fd owner slot opened found here there same
    have first := entry here
    rw [same] at first
    have one := inv.once _ _ found.file first (entry there)
    cases one
    exact ⟨rfl, rfl⟩

/-- A call of process `pid` does what its map says and leaves the other maps alone. -/
def Serves (system : System) (pid : Nat) (process : Process) (fd : Int) (use : Use) : Prop :=
  ∃ answer fdt next, use.perform process.fdt fd system.fs = .ok (answer, fdt) next.fs ∧
    step system (use.action pid fd) = some next ∧
    Acts system.fs next.fs (tableOf system pid) (tableOf next pid) fd use answer ∧
    ∀ other, other ≠ pid → tableOf next other = tableOf system other

def ServesOpen (system : System) (pid : Nat) (process : Process) (name : Name) : Prop :=
  ∃ fd fdt next, sysOpen process.fdt name system.fs = .ok (fd, fdt) next.fs ∧
    step system (.openFile pid name) = some next ∧
    Opens system.fs next.fs (tableOf system pid) (tableOf next pid) name fd ∧
    ∀ other, other ≠ pid → tableOf next other = tableOf system other

/-- In every state of every run the tables are private maps: the calls of a process act on its own
map, and until a process uses, closes or gives up a descriptor, that denotes the same file at the
same position, whatever else happens. -/
theorem tables_refine_maps {start system : System} (boots : Boots start)
    (run : Reaches step (fun _ _ => True) start system) :
    Mapped system ∧
    (∀ pid process, system.processes pid = some process →
      (∀ name, ServesOpen system pid process name) ∧
      ∀ fd use, use.Accepted → Serves system pid process fd use) ∧
    ∀ pid fd opened later, tableOf system pid fd = some opened →
      Reaches step (Spares pid fd) system later → tableOf later pid fd = some opened := by
  have reached : ∀ {system}, Reaches step (fun _ _ => True) start system →
      Inv False False system.fs system.processes.held := by
    intro system run
    exact reaches_inv False False boots
      (reaches_mono (fun _ _ _ => ⟨False.elim, False.elim⟩) run)
  refine ⟨inv_mapped (reached run), ?_, ?_⟩
  · intro pid process alive
    constructor
    · intro name
      obtain ⟨⟨fd, fdt⟩, next, ran, opens, others⟩ := sys_open_acts (reached run) alive name
      exact ⟨fd, fdt, served system pid process fdt next, ran, open_step alive ran, opens, others⟩
    · intro fd use accepted
      obtain ⟨⟨answer, fdt⟩, next, ran, acts, others⟩ :=
        use_acts (reached run) alive fd use fun _ => accepted
      exact ⟨answer, fdt, served system pid process fdt next, ran, use_step alive ran, acts, others⟩
  · intro pid fd opened later here spared
    have both : Reaches step (fun _ _ => True) start later ∧ tableOf later pid fd = some opened := by
      induction spared with
      | start => exact ⟨run, here⟩
      | push _ spares taken ih =>
          obtain ⟨before, was⟩ := ih
          exact ⟨.push before trivial taken, step_spares (reached before) spares taken was⟩
    exact both.2

/-- Process 1 opens its own executable. -/
def openOwn : List Action := startFirst ++ [.openFile 1 [0x61]]

theorem tables_refine_maps_open_own :
    ∃ system process opened, Reaches step (fun _ _ => True) (booted 8) system ∧
      system.processes 1 = some process ∧ tableOf system 1 2 = some opened ∧ Mapped system ∧
      ServesOpen system 1 process [0x61] ∧ Serves system 1 process 2 (.seek 5) ∧
      ∀ later, Reaches step (Spares 1 2) system later → tableOf later 1 2 = some opened := by
  obtain ⟨system, run, opens⟩ := @reaches_of_check _ _ step (fun _ _ => True) _ (booted 8) openOwn
    (fun system => (system.processes 1).isSome && (tableOf system 1 2).isSome) (by decide +kernel)
  obtain ⟨alive, here⟩ := Bool.and_eq_true_iff.mp opens
  obtain ⟨process, alive⟩ := Option.isSome_iff_exists.mp alive
  obtain ⟨opened, here⟩ := Option.isSome_iff_exists.mp here
  obtain ⟨mapped, serves, stays⟩ := tables_refine_maps eight_sectors_boot run
  obtain ⟨servesOpen, uses⟩ := serves 1 process alive
  have accepted : (Use.seek 5).Accepted := by
    change (5 : Word).toNat < 2 ^ 31
    decide
  exact ⟨system, process, opened, run, alive, here, mapped, servesOpen [0x61],
    uses 2 (.seek 5) accepted, fun later spared => stays 1 2 opened later here spared⟩

/-- Memory runs out after the first process has started. -/
def scarce : System := bootedWith 8 fun request => request < 52

/-- The file of process 1 exists, all descriptors are free, and `sys_open` fails. -/
def failsToOpen (system : System) : Bool :=
  (system.processes 1).any fun process =>
    (entryAt rootPlace system.fs.disk 0).inUse ≠ 0 &&
      ((entryAt rootPlace system.fs.disk 0).string = [0x61] &&
      ((process.fdt 2).isNone &&
      ((sysOpen process.fdt [0x61]).run' system.fs).any fun result => result.1 = -1))

theorem sys_open_fails_without_memory :
    ∃ system process, Reaches step (fun _ _ => True) scarce system ∧
      system.processes 1 = some process ∧ Exists system.fs [0x61] ∧ tableOf system 1 2 = none ∧
      ∃ fdt next, sysOpen process.fdt [0x61] system.fs = .ok (-1, fdt) next := by
  obtain ⟨system, run, fails⟩ := @reaches_of_check _ _ step (fun _ _ => True) _ scarce startFirst
    failsToOpen (by decide +kernel)
  unfold failsToOpen at fails
  simp only [Option.any_eq_true, Bool.and_eq_true, decide_eq_true_eq] at fails
  obtain ⟨process, alive, used, name, empty, ⟨fd, fdt⟩, result, failed⟩ := fails
  obtain ⟨next, ran⟩ := ok_of_run result
  cases failed
  refine ⟨system, process, run, alive, ⟨⟨by decide, by decide⟩, 0, by decide, used, name.symm⟩, ?_,
    fdt, next, ran⟩
  unfold tableOf
  simp only [Processes.held, alive, Option.bind_some, Option.isNone_iff_eq_none.mp empty,
    Option.bind_none]

end UtSystems.Userprog.DescriptorTables

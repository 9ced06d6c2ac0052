import UtSystems.Filesys.SectorOwners
import UtSystems.Lib.GuardedRun
import UtSystems.Userprog.Elf

/-!
# Processes and the files they hold

The calls of syscall.c on files, `load` with the files it opens, and the ends of a process. A
process holds a file through a slot of its table or as its executable. System calls, `load`
and the end of a process are one step each, and processes take steps in any order. The kernel
puts files on the device with `fsutil_extract`.

What `load` needs of memory is the environment's choice, `Room`.
-/

namespace UtSystems.Userprog.Descriptors

open Lib.Bytes Filesys.Volume Filesys.InodeData Filesys.Inode Filesys.Directory Userprog.Elf

set_option autoImplicit false

/-- `fdt[i].pFile`; the slots from 2 to 127 are used. -/
abbrev Fdt := Nat → Option Ptr

structure Process where
  fdt : Fdt
  fileToExe : Option Ptr

abbrev Processes := Nat → Option Process

/-- The slot at which the loop of `add_fdt_entry` stops. -/
def freeFdtSlot (fdt : Fdt) : Option Nat := (List.range' 2 126).find? fun i => (fdt i).isNone

def addFdtEntry (fdt : Fdt) (file : Ptr) : Int × Fdt :=
  match freeFdtSlot fdt with
  | some i => (i, Function.update fdt i (some file))
  | none => (-1, fdt)

/-- The file of a descriptor, after the test of its range. -/
def fdtFile (fdt : Fdt) (fd : Int) : Option Ptr := if 1 < fd ∧ fd < 128 then fdt fd.toNat else none

def sysCreate (file : Name) (initialSize : Word) : FsM Bool :=
  if nameMax < file.length ∨ file.length = 0 then return false else filesysCreate file initialSize

def sysRemove (file : Name) : FsM Bool :=
  if nameMax < file.length ∨ file.length = 0 then return false else filesysRemove file

def sysOpen (fdt : Fdt) (file : Name) : FsM (Int × Fdt) := do
  if nameMax < file.length ∨ file.length = 0 then return (-1, fdt)
  else
    match ← filesysOpen (some file) with
    | some pFile => return addFdtEntry fdt pFile
    | none => return (-1, fdt)

def sysFilesize (fdt : Fdt) (fd : Int) : FsM Int :=
  match fdtFile fdt fd with
  | some pFile => fileLength pFile
  | none => return -1

/-- The result and the bytes that go to the buffer; `input` is what `input_getc` delivers. -/
def sysRead (fdt : Fdt) (fd : Int) (size : Word) (input : Nat → Byte) : FsM (Int × List Byte) := do
  if fd = 1 then return (0, [])
  else if fd = 0 then return (size.toInt, (List.range size.toNat).map input)
  else
    match fdtFile fdt fd with
    | some pFile =>
        let bytes ← fileRead pFile size.toInt
        return (bytes.length, bytes)
    | none => return (-1, [])

def sysWrite (fdt : Fdt) (fd : Int) (buffer : Nat → Byte) (size : Word) : FsM Int := do
  if fd = 0 then return 0
  else if fd = 1 then return size.toInt
  else
    match fdtFile fdt fd with
    | some pFile => return (← fileWrite pFile buffer size.toInt)
    | none => return -1

def sysSeek (fdt : Fdt) (fd : Int) (position : Word) : FsM Unit :=
  match fdtFile fdt fd with
  | some pFile => fileSeek pFile position.toInt
  | none => return ()

def sysTell (fdt : Fdt) (fd : Int) : FsM Nat :=
  match fdtFile fdt fd with
  | some pFile => fileTell pFile
  | none => return 0

def sysClose (fdt : Fdt) (fd : Int) : FsM Fdt := do
  match fdtFile fdt fd with
  | some pFile =>
      fileClose (some pFile)
      return Function.update fdt fd.toNat none
  | none => return fdt

/-- The loop of `sys_exit`. -/
def closeLoop : List Nat → Fdt → FsM Fdt
  | [], fdt => return fdt
  | i :: rest, fdt => do
      let fdt ← sysClose fdt i
      closeLoop rest fdt

def sysExit (process : Process) : FsM Unit := do
  let _ ← closeLoop (List.range 128) process.fdt
  fileClose process.fileToExe

/-- `sys_exec` up to `process_execute`: whether the file is there. -/
def sysExec (cmdLine : List Byte) : FsM Bool := do
  match ← filesysOpen (strtok [0x20] cmdLine) with
  | none => return false
  | some f =>
      fileClose (some f)
      return true

/-- What becomes of a page for a segment. -/
inductive Frame where
  | unavailable
  | unmappable
  | mapped
  deriving DecidableEq, Repr

structure Room where
  pagedir : Bool
  frames : Nat → Frame
  stack : Bool

section Load

variable (room : Room)

/-- The loop of `load_segment`. -/
def loadPages (file : Ptr) : Nat → Nat → Nat → FsM (Bool × Nat)
  | 0, _, frame => return (true, frame)
  | pages + 1, readBytes, frame => do
      if room.frames frame = .unavailable then return (false, frame + 1)
      else
        let pageReadBytes := min readBytes pgSize
        let bytes ← fileRead file pageReadBytes
        if bytes.length ≠ pageReadBytes ∨ room.frames frame = .unmappable then
          return (false, frame + 1)
        else loadPages file pages (readBytes - pageReadBytes) (frame + 1)

def loadSegment (file : Ptr) (segment : Segment) (frame : Nat) : FsM (Bool × Nat) := do
  fileSeek file segment.ofs
  loadPages room file ((segment.readBytes + segment.zeroBytes) / pgSize) segment.readBytes frame

/-- The loop over the program headers. -/
def loadPhdrs (file : Ptr) : Nat → Nat → Nat → FsM Bool
  | 0, _, _ => return true
  | headers + 1, fileOfs, frame => do
      let length ← fileLength file
      if 2 ^ 31 ≤ fileOfs ∨ length < fileOfs then return false
      else
        fileSeek file fileOfs
        let phdr ← fileRead file 32
        if phdr.length ≠ 32 then return false
        else
          match treatment length.toNat phdr with
          | .ignore => loadPhdrs file headers (fileOfs + 32) frame
          | .reject => return false
          | .load segment =>
              let (loaded, frame) ← loadSegment room file segment frame
              if loaded then loadPhdrs file headers (fileOfs + 32) frame else return false

inductive Loaded where
  | failed
  -- `sys_exit(12)`, with the file still open
  | exited
  | success (fileToExe : Ptr)
  deriving DecidableEq, Repr

def load (cmdstr : List Byte) : FsM Loaded := do
  if !room.pagedir then return .failed
  -- `cmdstrCpy1` has 100 bytes, and what lies behind it is not modelled
  else if 100 ≤ cmdstr.length then throw .dangling
  else
    match ← filesysOpen (strtok [0x20, 0x09, 0x0a] cmdstr) with
    | none => return .failed
    | some file =>
        let ehdr ← fileRead file 52
        if !ehdrOk ehdr then return .exited
        else
          let loaded ← loadPhdrs room file (ePhnum ehdr) (ePhoff ehdr) 0
          fileClose (some file)
          if loaded && room.stack then
            match ← filesysOpen (strtok [0x20, 0x09, 0x0a] cmdstr) with
            | none => throw .nullFile
            | some fileToExe =>
                fileDenyWrite (some fileToExe)
                return .success fileToExe
          else return .failed

end Load

/-- The copy loop of `fsutil_extract`, for so many sectors. -/
def copyLoop (dst : Ptr) : Nat → List Byte → FsM Unit
  | 0, _ => return ()
  | sectors + 1, content => do
      let chunk := content.take blockSectorSize
      if (← fileWrite dst (fun i => chunk.getD i 0) chunk.length) = chunk.length then
        copyLoop dst sectors (content.drop blockSectorSize)
      else throw (.message "write failed")

/-- `fsutil_extract` of one file. -/
def fsutilExtract (fileName : Name) (content : List Byte) : FsM Unit := do
  if ← filesysCreate fileName (BitVec.ofNat 32 content.length) then
    match ← filesysOpen (some fileName) with
    | none => throw (.message "open failed")
    | some dst =>
        copyLoop dst (bytesToSectors content.length) content
        fileClose (some dst)
  else throw (.message "create failed")

inductive Action where
  | create (pid : Nat) (file : Name) (initialSize : Word)
  | remove (pid : Nat) (file : Name)
  | openFile (pid : Nat) (file : Name)
  | filesize (pid : Nat) (fd : Int)
  | read (pid : Nat) (fd : Int) (size : Word) (input : Nat → Byte)
  | write (pid : Nat) (fd : Int) (buffer : Nat → Byte) (size : Word)
  | seek (pid : Nat) (fd : Int) (position : Word)
  | tell (pid : Nat) (fd : Int)
  | close (pid : Nat) (fd : Int)
  | exec (pid : Nat) (cmdLine : List Byte)
  -- `exit`, a page fault, or a pointer that `syscall_handler` rejects
  | exit (pid : Nat)
  -- `kill` and an unknown system call: `thread_exit` alone
  | killed (pid : Nat)
  -- a new process in `start_process`
  | start (pid : Nat) (command : List Byte) (room : Room)
  | extract (fileName : Name) (content : List Byte)

/-- A call that leaves the processes as they are. -/
def unchanged {Value : Type} (processes : Processes) (pid : Nat)
    (call : Process → FsM Value) : Option (FsM Processes) :=
  (processes pid).map fun process => do
    let _ ← call process
    return processes

/-- What a step does to the file system and to the processes, if it is possible. -/
def Action.perform (processes : Processes) : Action → Option (FsM Processes)
  | .create pid file initialSize =>
      unchanged processes pid fun _ => sysCreate file initialSize
  | .remove pid file => unchanged processes pid fun _ => sysRemove file
  | .openFile pid file => (processes pid).map fun process => do
      let (_, fdt) ← sysOpen process.fdt file
      return Function.update processes pid (some { process with fdt := fdt })
  | .filesize pid fd => unchanged processes pid fun process => sysFilesize process.fdt fd
  | .read pid fd size input =>
      unchanged processes pid fun process => sysRead process.fdt fd size input
  | .write pid fd buffer size =>
      unchanged processes pid fun process => sysWrite process.fdt fd buffer size
  | .seek pid fd position => unchanged processes pid fun process => sysSeek process.fdt fd position
  | .tell pid fd => unchanged processes pid fun process => sysTell process.fdt fd
  | .close pid fd => (processes pid).map fun process => do
      let fdt ← sysClose process.fdt fd
      return Function.update processes pid (some { process with fdt := fdt })
  | .exec pid cmdLine => unchanged processes pid fun _ => sysExec cmdLine
  | .exit pid => (processes pid).map fun process => do
      sysExit process
      return Function.update processes pid none
  | .killed pid => (processes pid).map fun _ => return Function.update processes pid none
  | .start pid command room =>
      if (processes pid).isSome then none
      else some do
        match ← load room command with
        | .success fileToExe =>
            return Function.update processes pid
              (some { fdt := fun _ => none, fileToExe := some fileToExe })
        -- nothing is open that `sys_exit` could close
        | .failed => return processes
        | .exited => return processes
  | .extract fileName content => some do
      fsutilExtract fileName content
      return processes

structure System where
  fs : FileSys
  processes : Processes

/-- A step that panics is the last one. -/
def step (system : System) (action : Action) : Option System :=
  match action.perform system.processes with
  | none => none
  | some program =>
      match program system.fs with
      | .ok processes fs => some { fs := fs, processes := processes }
      | .error _ _ => none

/-- Who holds a file. -/
inductive Holder where
  | descriptor (pid fd : Nat)
  | executable (pid : Nat)
  deriving DecidableEq, Repr

def Processes.held (processes : Processes) : Holder → Option Ptr
  | .descriptor pid fd => (processes pid).bind fun process => process.fdt fd
  | .executable pid => (processes pid).bind fun process => process.fileToExe

end UtSystems.Userprog.Descriptors

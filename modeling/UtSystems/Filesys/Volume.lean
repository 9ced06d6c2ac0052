import UtSystems.Lib.Effects
import UtSystems.Lib.Bytes
import Mathlib.Logic.Function.Basic

/-!
# The file system device and the kernel objects on top of it

The device is a flat array of bytes, 512 to a sector. `ide.c` ignores disks of
1 GB and more, so it has fewer than `2 ^ 21` sectors. Objects of `malloc` and
`calloc` get the number of the request as their address. Whether a request
succeeds is the environment's choice, `memory`; a run in which every request
succeeds is one where `memory` is constantly true.

An assertion or a `PANIC` that the code reaches ends the run with a `Panic`. So
does the use of an object that has been freed, which no assertion catches.
-/

namespace UtSystems.Filesys.Volume

open Lib.Bytes Lib.Effects

set_option autoImplicit false

def blockSectorSize : Nat := 512

/-- `INODE_MAGIC`. -/
def inodeMagic : Word := 0x494e4f44

inductive Panic where
  -- `check_sector`: access past the end of the device
  | pastEnd (sector : Nat)
  -- `inode_create`: `ASSERT (length >= 0)`
  | negativeLength
  -- `file_seek`: `ASSERT (new_pos >= 0)`
  | negativePosition
  -- `dir_lookup` and `lookup`: `ASSERT (name != NULL)`
  | nullName
  -- `file_deny_write`: `ASSERT (file != NULL)`
  | nullFile
  -- `free_map_release`: `ASSERT (bitmap_all (free_map, sector, cnt))`
  | notAllocated
  -- bitmap.c: `ASSERT (start + cnt <= b->bit_cnt)`
  | bitmapRange
  -- `inode_deny_write` and `inode_allow_write`
  | denyWriteCount
  -- `PANIC` with its message
  | message (text : String)
  -- An object that is not there any more
  | dangling
  deriving DecidableEq, Repr

/-- `struct inode_disk`; the unused words are zero. -/
structure InodeDisk where
  start : Word
  length : Word
  magic : Word
  deriving DecidableEq, Repr

def encodeInode (inode : InodeDisk) : List Byte :=
  wordBytes inode.start ++ (wordBytes inode.length ++ (wordBytes inode.magic ++
    List.replicate 500 0))

def decodeInode (bytes : List Byte) : InodeDisk where
  start := readWord bytes
  length := readWord (bytes.drop 4)
  magic := readWord (bytes.drop 8)

theorem decode_encode_inode (inode : InodeDisk) : decodeInode (encodeInode inode) = inode := by
  have skip : ∀ (word : Word) (rest : List Byte), (wordBytes word ++ rest).drop 4 = rest :=
    fun word rest => rfl
  have twice : ∀ bytes : List Byte, bytes.drop 8 = (bytes.drop 4).drop 4 := by simp
  simp only [decodeInode, encodeInode, twice, skip, read_word_bytes]

theorem encode_inode_length (inode : InodeDisk) :
    (encodeInode inode).length = blockSectorSize := by
  simp only [encodeInode, List.length_append, word_bytes_length, List.length_replicate,
    blockSectorSize]

abbrev Ptr := Nat

/-- `struct inode`. -/
structure Inode where
  sector : Nat
  openCnt : Int
  removed : Bool
  denyWriteCnt : Int
  data : InodeDisk
  deriving DecidableEq, Repr

/-- `struct file`. `file_seek` asserts that positions are not negative. -/
structure File where
  inode : Ptr
  pos : Nat
  denyWrite : Bool
  deriving DecidableEq, Repr

structure FileSys where
  size : Nat
  disk : Nat → Byte
  freeMap : List Bool
  freeMapFile : Option Ptr
  openInodes : List Ptr
  inodes : Ptr → Option Inode
  files : Ptr → Option File
  memory : Nat → Bool
  requests : Nat

abbrev FsM := EStateM Panic FileSys

def malloc : FsM (Option Ptr) := do
  let fs ← get
  set { fs with requests := fs.requests + 1 }
  return if fs.memory fs.requests then some fs.requests else none

def blockRead (sector : Nat) : FsM (List Byte) := do
  let fs ← get
  if fs.size ≤ sector then throw (.pastEnd sector)
  else return slice fs.disk (sector * blockSectorSize) blockSectorSize

def blockWrite (sector : Nat) (buffer : List Byte) : FsM Unit := do
  let fs ← get
  if fs.size ≤ sector then throw (.pastEnd sector)
  else set { fs with disk := overwrite fs.disk (sector * blockSectorSize) buffer }

/-- The structure an `inode` pointer points to. -/
def inodeAt (inode : Ptr) : FsM Inode := do
  match (← get).inodes inode with
  | some structure_ => return structure_
  | none => throw .dangling

def fileAt (file : Ptr) : FsM File := do
  match (← get).files file with
  | some structure_ => return structure_
  | none => throw .dangling

def setInode (inode : Ptr) (value : Option Inode) : FsM Unit :=
  modify fun fs => { fs with inodes := Function.update fs.inodes inode value }

def setFile (file : Ptr) (value : Option File) : FsM Unit :=
  modify fun fs => { fs with files := Function.update fs.files file value }

/-- Every request for memory succeeds. -/
def Plenty (fs : FileSys) : Prop := ∀ request, fs.memory request = true

/-- Requests for memory may have been made; nothing else has changed. -/
def Requested (fs next : FileSys) : Prop :=
  ∃ requests, fs.requests ≤ requests ∧ next = { fs with requests := requests }

theorem requested_refl (fs : FileSys) : Requested fs fs := ⟨fs.requests, Nat.le_refl _, rfl⟩

theorem requested_trans {first second third : FileSys} (early : Requested first second)
    (late : Requested second third) : Requested first third := by
  obtain ⟨_, before, rfl⟩ := early
  obtain ⟨requests, after, rfl⟩ := late
  exact ⟨requests, Nat.le_trans before after, rfl⟩

theorem malloc_returns (fs : FileSys) :
    Returns malloc fs fun pointer next =>
      next = { fs with requests := fs.requests + 1 } ∧
        pointer = if fs.memory fs.requests then some fs.requests else none :=
  ⟨_, _, rfl, rfl, rfl⟩

theorem block_read_returns {fs : FileSys} {sector : Nat} (inside : sector < fs.size) :
    Returns (blockRead sector) fs fun bytes next =>
      next = fs ∧ bytes = slice fs.disk (sector * blockSectorSize) blockSectorSize := by
  have check : ¬fs.size ≤ sector := by omega
  apply returns_get
  rw [if_neg check]
  exact returns_pure ⟨rfl, rfl⟩

theorem block_write_returns {fs : FileSys} {sector : Nat} (buffer : List Byte)
    (inside : sector < fs.size) :
    Returns (blockWrite sector buffer) fs fun _ next =>
      next = { fs with disk := overwrite fs.disk (sector * blockSectorSize) buffer } := by
  have check : ¬fs.size ≤ sector := by omega
  apply returns_get
  rw [if_neg check]
  exact ⟨_, _, rfl, rfl⟩

theorem inode_at_returns {fs : FileSys} {inode : Ptr} {found : Inode}
    (present : fs.inodes inode = some found) :
    Returns (inodeAt inode) fs fun value next => next = fs ∧ value = found := by
  apply returns_get
  rw [present]
  exact returns_pure ⟨rfl, rfl⟩

theorem file_at_returns {fs : FileSys} {file : Ptr} {found : File}
    (present : fs.files file = some found) :
    Returns (fileAt file) fs fun value next => next = fs ∧ value = found := by
  apply returns_get
  rw [present]
  exact returns_pure ⟨rfl, rfl⟩

end UtSystems.Filesys.Volume

import UtSystems.Filesys.Inode

/-!
# The root directory and the operations on named files

A directory is a file of 20-byte entries. `lookup` and the search for a free slot
read one entry after another until a read falls short. Names are lists of bytes
without the terminating NUL; a null pointer for a name is `none`.
-/

namespace UtSystems.Filesys.Directory

open Lib.Bytes Filesys.Volume Filesys.InodeData Filesys.FreeMap Filesys.Inode

set_option autoImplicit false

def nameMax : Nat := 14

abbrev Name := List Byte

/-- `struct dir_entry`, with the whole of its `name` array. -/
structure DirEntry where
  inodeSector : Word
  name : List Byte
  inUse : Byte
  deriving DecidableEq, Repr

def entrySize : Nat := 20

def encodeEntry (entry : DirEntry) : List Byte :=
  wordBytes entry.inodeSector ++ (entry.name ++ [entry.inUse])

def decodeEntry (bytes : List Byte) : DirEntry where
  inodeSector := readWord bytes
  name := (bytes.drop 4).take (nameMax + 1)
  inUse := bytes.getD 19 0

/-- The string in the `name` array. -/
def DirEntry.string (entry : DirEntry) : Name := entry.name.takeWhile (· ≠ 0)

/-- `struct dir`. -/
structure Dir where
  inode : Ptr
  pos : Nat
  deriving DecidableEq, Repr

def dirCreate (sector entryCnt : Nat) : FsM Bool :=
  inodeCreate sector (BitVec.ofNat 32 (entryCnt * entrySize))

def dirOpen (inode : Option Ptr) : FsM (Option Dir) := do
  match inode, ← malloc with
  | some inode, some _ => return some { inode := inode, pos := 0 }
  | inode, _ =>
      inodeClose inode
      return none

def dirOpenRoot : FsM (Option Dir) := do
  dirOpen (← inodeOpen rootDirSector)

def dirClose : Option Dir → FsM Unit
  | none => return ()
  | some dir => inodeClose (some dir.inode)

/-- The loop of `lookup`. An offset stays below `2 ^ 31`, so `2 ^ 27` rounds are never used up. -/
def lookupLoop (inode : Ptr) (name : Name) : Nat → Nat → FsM (Option (DirEntry × Nat))
  | 0, _ => return none
  | rounds + 1, ofs => do
      let bytes ← inodeReadAt inode entrySize ofs
      if bytes.length = entrySize then
        let entry := decodeEntry bytes
        if entry.inUse ≠ 0 ∧ name = entry.string then return some (entry, ofs)
        else lookupLoop inode name rounds (ofs + entrySize)
      else return none

def lookup (dir : Dir) : Option Name → FsM (Option (DirEntry × Nat))
  | none => throw .nullName
  | some name => lookupLoop dir.inode name (2 ^ 27) 0

def dirLookup (dir : Dir) (name : Option Name) : FsM (Option Ptr) := do
  match ← lookup dir name with
  | some (entry, _) => inodeOpen entry.inodeSector.toNat
  | none => return none

/-- The search of `dir_add` for a free slot: the bytes of `e` and the offset where it stops. -/
def freeSlotLoop (inode : Ptr) : Nat → Nat → List Byte → FsM (List Byte × Nat)
  | 0, ofs, entry => return (entry, ofs)
  | rounds + 1, ofs, entry => do
      let bytes ← inodeReadAt inode entrySize ofs
      let filled := splice entry 0 bytes
      if bytes.length = entrySize then
        if (decodeEntry filled).inUse = 0 then return (filled, ofs)
        else freeSlotLoop inode rounds (ofs + entrySize) filled
      else return (filled, ofs)

/-- `strlcpy (e.name, name, sizeof e.name)`. -/
def copyName (target : List Byte) (name : Name) : List Byte :=
  splice target 0 (name.take nameMax ++ [0])

/-- `inode_write_at (dir->inode, &e, sizeof e, ofs) == sizeof e`. -/
def writeEntry (inode : Ptr) (entry : DirEntry) (ofs : Nat) : FsM Bool := do
  return (← inodeWriteAt inode (fun index => (encodeEntry entry).getD index 0) entrySize ofs) =
    entrySize

/-- The bytes of `e` before the first read are indeterminate. Only those behind the
NUL of a name can reach the device, and nothing reads them there. -/
def dirAdd (dir : Dir) (name : Name) (inodeSector : Nat) : FsM Bool := do
  if name = [] ∨ nameMax < name.length then return false
  else
    match ← lookup dir (some name) with
    | some _ => return false
    | none =>
        let (found, ofs) ← freeSlotLoop dir.inode (2 ^ 27) 0 (List.replicate entrySize 0)
        writeEntry dir.inode
          { inodeSector := BitVec.ofNat 32 inodeSector
            name := copyName (decodeEntry found).name name
            inUse := 1 } ofs

def dirRemove (dir : Dir) (name : Name) : FsM Bool := do
  match ← lookup dir (some name) with
  | none => return false
  | some (entry, ofs) =>
      match ← inodeOpen entry.inodeSector.toNat with
      | none => return false
      | some inode =>
          if ← writeEntry dir.inode { entry with inUse := 0 } ofs then
            inodeRemove inode
            inodeClose (some inode)
            return true
          else
            inodeClose (some inode)
            return false

/-- The loop of `dir_readdir`: the next name, if there is one, and the position after it. -/
def readdirLoop (inode : Ptr) : Nat → Nat → FsM (Option Name × Nat)
  | 0, pos => return (none, pos)
  | rounds + 1, pos => do
      let bytes ← inodeReadAt inode entrySize pos
      if bytes.length = entrySize then
        let entry := decodeEntry bytes
        -- `strlcpy (name, e.name, NAME_MAX + 1)`
        if entry.inUse ≠ 0 then return (some (entry.string.take nameMax), pos + entrySize)
        else readdirLoop inode rounds (pos + entrySize)
      else return (none, pos)

def dirReaddir (dir : Dir) : FsM (Option Name × Dir) := do
  let (name, pos) ← readdirLoop dir.inode (2 ^ 27) dir.pos
  return (name, { dir with pos := pos })

/-- `inode_create` and `dir_add` of `filesys_create`. -/
def createIn (dir : Dir) (name : Name) (initialSize : Word) (inodeSector : Nat) : FsM Bool := do
  if ← inodeCreate inodeSector initialSize then dirAdd dir name inodeSector
  else return false

def filesysCreate (name : Name) (initialSize : Word) : FsM Bool := do
  match ← dirOpenRoot with
  | none => return false
  | some dir =>
      match ← freeMapAllocate 1 with
      | none =>
          dirClose (some dir)
          return false
      | some inodeSector =>
          let success ← createIn dir name initialSize inodeSector
          if !success ∧ inodeSector ≠ 0 then freeMapRelease inodeSector 1
          dirClose (some dir)
          return success

def filesysOpen (name : Option Name) : FsM (Option Ptr) := do
  match ← dirOpenRoot with
  | none => fileOpen none
  | some dir =>
      let inode ← dirLookup dir name
      dirClose (some dir)
      fileOpen inode

def filesysRemove (name : Name) : FsM Bool := do
  match ← dirOpenRoot with
  | none => return false
  | some dir =>
      let success ← dirRemove dir name
      dirClose (some dir)
      return success

end UtSystems.Filesys.Directory

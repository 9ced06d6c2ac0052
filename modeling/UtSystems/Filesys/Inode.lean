import UtSystems.Filesys.FreeMap

/-!
# Creating, opening and closing inodes

`open_inodes` lists the in-memory inodes, newest first, so that opening a sector
twice yields the same object. The last `inode_close` of a removed inode gives its
sectors back. The `struct file` operations of file.c are here too, since the free
map, the directory and the descriptors all go through them.
-/

namespace UtSystems.Filesys.Inode

open Lib.Bytes Filesys.Volume Filesys.InodeData Filesys.FreeMap

set_option autoImplicit false

def zeroSector : List Byte := List.replicate blockSectorSize 0

/-- The loop that clears the data sectors of a new inode. -/
def zeroSectors : Nat → Nat → FsM Unit
  | _, 0 => return ()
  | start, count + 1 => do
      blockWrite start zeroSector
      zeroSectors (start + 1) count

def inodeCreate (sector : Nat) (length : Word) : FsM Bool := do
  if length.toInt < 0 then throw .negativeLength
  else
    match ← malloc with
    | none => return false
    | some _ =>
        let sectors := bytesToSectors length.toInt
        match ← freeMapAllocate sectors with
        | none => return false
        | some start =>
            blockWrite sector (encodeInode
              { start := BitVec.ofNat 32 start, length := length, magic := inodeMagic })
            zeroSectors start sectors
            return true

def inodeReopen (inode : Ptr) : FsM Unit := do
  let target ← inodeAt inode
  setInode inode (some { target with openCnt := target.openCnt + 1 })

/-- The element of `open_inodes` at which the loop of `inode_open` stops. -/
def findOpen (fs : FileSys) (sector : Nat) : Option Ptr :=
  fs.openInodes.find? fun inode => (fs.inodes inode).any fun target => target.sector == sector

def inodeOpen (sector : Nat) : FsM (Option Ptr) := do
  match findOpen (← get) sector with
  | some inode =>
      inodeReopen inode
      return some inode
  | none =>
      match ← malloc with
      | none => return none
      | some inode =>
          modify fun fs => { fs with openInodes := inode :: fs.openInodes }
          let bytes ← blockRead sector
          setInode inode (some
            { sector := sector, openCnt := 1, removed := false, denyWriteCnt := 0,
              data := decodeInode bytes })
          return some inode

/-- The end of `inode_close` for the last opener. -/
def inodeDiscard (inode : Ptr) (target : Volume.Inode) : FsM Unit := do
  modify fun fs => { fs with openInodes := fs.openInodes.erase inode }
  if target.removed then
    freeMapRelease target.sector 1
    freeMapRelease target.data.start.toNat (bytesToSectors (inodeLength target.data))
  setInode inode none

def inodeClose : Option Ptr → FsM Unit
  | none => return ()
  | some inode => do
      let target ← inodeAt inode
      let closed := { target with openCnt := target.openCnt - 1 }
      setInode inode (some closed)
      if closed.openCnt = 0 then inodeDiscard inode closed

def inodeRemove (inode : Ptr) : FsM Unit := do
  let target ← inodeAt inode
  setInode inode (some { target with removed := true })

def inodeDenyWrite (inode : Ptr) : FsM Unit := do
  let target ← inodeAt inode
  let denied := { target with denyWriteCnt := target.denyWriteCnt + 1 }
  setInode inode (some denied)
  if denied.denyWriteCnt ≤ denied.openCnt then return () else throw .denyWriteCount

def inodeAllowWrite (inode : Ptr) : FsM Unit := do
  let target ← inodeAt inode
  if 0 < target.denyWriteCnt ∧ target.denyWriteCnt ≤ target.openCnt then
    setInode inode (some { target with denyWriteCnt := target.denyWriteCnt - 1 })
  else throw .denyWriteCount

def fileOpen (inode : Option Ptr) : FsM (Option Ptr) := do
  match inode, ← malloc with
  | some inode, some file =>
      setFile file (some { inode := inode, pos := 0, denyWrite := false })
      return some file
  | inode, _ =>
      inodeClose inode
      return none

def fileDenyWrite : Option Ptr → FsM Unit
  | none => throw .nullFile
  | some file => do
      let handle ← fileAt file
      if handle.denyWrite then return ()
      else
        setFile file (some { handle with denyWrite := true })
        inodeDenyWrite handle.inode

def fileAllowWrite (file : Ptr) : FsM Unit := do
  let handle ← fileAt file
  if handle.denyWrite then
    setFile file (some { handle with denyWrite := false })
    inodeAllowWrite handle.inode

def fileClose : Option Ptr → FsM Unit
  | none => return ()
  | some file => do
      fileAllowWrite file
      inodeClose (some (← fileAt file).inode)
      setFile file none

def fileRead (file : Ptr) (size : Int) : FsM (List Byte) := do
  let handle ← fileAt file
  let bytes ← inodeReadAt handle.inode size handle.pos
  setFile file (some { handle with pos := handle.pos + bytes.length })
  return bytes

def fileWrite (file : Ptr) (buffer : Nat → Byte) (size : Int) : FsM Nat := do
  let handle ← fileAt file
  let bytesWritten ← inodeWriteAt handle.inode buffer size handle.pos
  setFile file (some { handle with pos := handle.pos + bytesWritten })
  return bytesWritten

def fileLength (file : Ptr) : FsM Int := do
  return inodeLength (← inodeAt (← fileAt file).inode).data

def fileSeek (file : Ptr) (newPos : Int) : FsM Unit := do
  if newPos < 0 then throw .negativePosition
  else
    let handle ← fileAt file
    setFile file (some { handle with pos := newPos.toNat })

def fileTell (file : Ptr) : FsM Nat := do
  return (← fileAt file).pos

end UtSystems.Filesys.Inode

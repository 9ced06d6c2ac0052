import UtSystems.Filesys.SectorOwners

/-!
# Shutting down and starting again

With memory to spare, the free map file holds the free map after every completed operation.
`filesys_done` writes nothing, so the next `filesys_init` on the device reads the same map,
and the names and the contents are where they were.
-/

namespace UtSystems.Filesys.Restart

open Lib.Effects Filesys.Volume Filesys.InodeData Filesys.FreeMap Filesys.Directory
open Filesys.Ownership Filesys.Consistency Filesys.Entries Filesys.NamedInodes Filesys.Format
open Filesys.SectorOwners

set_option autoImplicit false

/-- The root directory has `name` for the inode in `sector`. -/
def Lists (fs : FileSys) (name : Name) (sector : Nat) : Prop :=
  ∃ index, Names rootPlace fs.disk index sector ∧ name = (entryAt rootPlace fs.disk index).string

section Shutdown

variable {fs : FileSys} {inodes : Set Nat} {extra : Ptr → Nat}

end Shutdown

end UtSystems.Filesys.Restart

import UtSystems.Filesys.Inode
import UtSystems.Lib.Allocation
import Mathlib.Data.Set.Insert

/-!
# Who owns which sector

`Stored` says of a set of inodes on the device that their inode sectors and data extents
are disjoint, lie on the device and are marked in the free map. It speaks of the
bytes on the device and of the free map only. A write into the data of one file is
`Confined` to it: the inodes and the data of the other files stay as they are.
-/

namespace UtSystems.Filesys.Ownership

open Lib.Bytes Lib.Allocation Filesys.Volume Filesys.InodeData Filesys.FreeMap

set_option autoImplicit false

abbrev Disk := Nat → Byte

/-- The inode stored in a sector. -/
def diskInode (disk : Disk) (sector : Nat) : InodeDisk :=
  decodeInode (slice disk (sector * blockSectorSize) blockSectorSize)

/-- The data of the file whose inode is stored in a sector. -/
def contents (disk : Disk) (sector : Nat) : List Byte :=
  slice disk (dataBase (diskInode disk sector)) (inodeLength (diskInode disk sector)).toNat

/-- The data sectors of an inode. -/
def extent (data : InodeDisk) : Set Nat :=
  { sector | data.start.toNat ≤ sector ∧
    sector < data.start.toNat + bytesToSectors (inodeLength data) }

/-- The inode sector together with the data sectors. -/
def footprint (disk : Disk) (sector : Nat) : Set Nat :=
  insert sector (extent (diskInode disk sector))

def marked (freeMap : Bitmap) : Set Nat := { sector | bitmapTest freeMap sector = true }

structure Stored (size : Nat) (disk : Disk) (freeMap : Bitmap) (inodes : Set Nat) : Prop where
  mapLength : freeMap.length = size
  valid : ∀ sector ∈ inodes, OnDevice size (diskInode disk sector)
  own : ∀ sector ∈ inodes, sector ∉ extent (diskInode disk sector)
  tiling : Tiling inodes (footprint disk) (marked freeMap)

/-- The inodes are the same on both disks, and so is the data of those not in `touched`. -/
structure Confined (touched inodes : Set Nat) (disk other : Disk) : Prop where
  inode : ∀ sector ∈ inodes, diskInode other sector = diskInode disk sector
  data : ∀ sector ∈ inodes, sector ∉ touched → contents other sector = contents disk sector

section Frames

variable {size : Nat} {disk other : Disk} {freeMap map : Bitmap} {inodes fewer touched : Set Nat}
  {sector owner cell : Nat}

theorem confined_refl (touched inodes : Set Nat) (disk : Disk) :
    Confined touched inodes disk disk := ⟨fun _ _ => rfl, fun _ _ _ => rfl⟩

theorem confined_trans {last : Disk} (early : Confined touched inodes disk other)
    (late : Confined touched inodes other last) : Confined touched inodes disk last := by
  constructor
  · intro sector here
    rw [late.inode sector here, early.inode sector here]
  · intro sector here outside
    rw [late.data sector here outside, early.data sector here outside]

theorem confined_mono {more : Set Nat} (confined : Confined touched inodes disk other)
    (wider : touched ⊆ more) (less : fewer ⊆ inodes) : Confined more fewer disk other := by
  constructor
  · intro sector here
    exact confined.inode sector (less here)
  · intro sector here outside
    exact confined.data sector (less here) (fun inside => outside (wider inside))

theorem footprint_congr (same : diskInode other sector = diskInode disk sector) :
    footprint other sector = footprint disk sector := by
  unfold footprint
  rw [same]

theorem stored_disk (stored : Stored size disk freeMap inodes)
    (same : ∀ sector ∈ inodes, diskInode other sector = diskInode disk sector) :
    Stored size other freeMap inodes where
  mapLength := stored.mapLength
  valid := by
    intro sector here
    rw [same sector here]
    exact stored.valid sector here
  own := by
    intro sector here
    rw [same sector here]
    exact stored.own sector here
  tiling := tiling_mono stored.tiling Set.Subset.rfl
    (fun sector here => footprint_congr (same sector here)) Set.Subset.rfl

theorem stored_map (stored : Stored size disk freeMap inodes)
    (sized : map.length = freeMap.length)
    (marks : ∀ sector ∈ inodes, footprint disk sector ⊆ marked map) :
    Stored size disk map inodes where
  mapLength := by rw [sized, stored.mapLength]
  valid := stored.valid
  own := stored.own
  tiling := tiling_used stored.tiling marks

theorem marked_lt (mapLength : freeMap.length = size) (used : sector ∈ marked freeMap) :
    sector < size := by
  by_contra beyond
  have past : freeMap.length ≤ sector := by omega
  have unset : bitmapTest freeMap sector = false := by
    simp [bitmapTest, List.getD_eq_getElem?_getD, past]
  have set_ : bitmapTest freeMap sector = true := used
  rw [unset] at set_
  cases set_

theorem inode_marked (stored : Stored size disk freeMap inodes) (here : sector ∈ inodes) :
    sector ∈ marked freeMap :=
  stored.tiling.covered sector here (Set.mem_insert _ _)

theorem inode_lt (stored : Stored size disk freeMap inodes) (here : sector ∈ inodes) :
    sector < size :=
  marked_lt stored.mapLength (inode_marked stored here)

theorem extent_marked (stored : Stored size disk freeMap inodes) (here : sector ∈ inodes)
    (inside : cell ∈ extent (diskInode disk sector)) : cell ∈ marked freeMap :=
  stored.tiling.covered sector here (Set.mem_insert_of_mem _ inside)

/-- No inode sector lies in a data extent. -/
theorem inode_outside_extent (stored : Stored size disk freeMap inodes) (here : sector ∈ inodes)
    (there : owner ∈ inodes) : sector ∉ extent (diskInode disk owner) := by
  intro inside
  have same : sector = owner := stored.tiling.apart sector here owner there sector
    (Set.mem_insert _ _) (Set.mem_insert_of_mem _ inside)
  rw [same] at inside
  exact stored.own owner there inside

end Frames

section Addresses

variable {size : Nat} {disk other : Disk} {freeMap : Bitmap} {inodes : Set Nat} {sector : Nat}

theorem disk_inode_congr
    (same : ∀ address, address / blockSectorSize = sector → other address = disk address) :
    diskInode other sector = diskInode disk sector := by
  have bytes : slice other (sector * blockSectorSize) blockSectorSize =
      slice disk (sector * blockSectorSize) blockSectorSize := by
    apply slice_congr
    intro index inside
    apply same
    unfold blockSectorSize at *
    omega
  unfold diskInode
  rw [bytes]

/-- A byte of a file is in one of its data sectors. -/
theorem data_in_extent {data : InodeDisk} {offset : Nat} (valid : OnDevice size data)
    (inside : offset < (inodeLength data).toNat) :
    (dataBase data + offset) / blockSectorSize ∈ extent data := by
  have count := on_device_sectors valid
  unfold extent
  unfold dataBase
  simp only [blockSectorSize, Set.mem_ofPred_eq] at *
  omega

/-- Disks that agree on the sectors of a file agree on the file. -/
theorem same_on_footprint (valid : OnDevice size (diskInode disk sector))
    (same : ∀ address, address / blockSectorSize ∈ footprint disk sector →
      other address = disk address) :
    diskInode other sector = diskInode disk sector ∧
      contents other sector = contents disk sector := by
  have inode : diskInode other sector = diskInode disk sector := by
    apply disk_inode_congr
    intro address here
    apply same
    rw [here]
    exact Set.mem_insert _ _
  refine ⟨inode, ?_⟩
  unfold contents
  rw [inode]
  apply slice_congr
  intro offset inside
  apply same
  exact Set.mem_insert_of_mem _ (data_in_extent valid inside)

/-- Writes into sectors that no file owns. -/
theorem confined_of_cells (stored : Stored size disk freeMap inodes) {cells : Set Nat}
    (elsewhere : ∀ address, address / blockSectorSize ∉ cells → other address = disk address)
    (unowned : ∀ sector ∈ inodes, ∀ cell ∈ cells, cell ∉ footprint disk sector) :
    Confined ∅ inodes disk other := by
  have each : ∀ sector ∈ inodes, diskInode other sector = diskInode disk sector ∧
      contents other sector = contents disk sector := by
    intro sector here
    apply same_on_footprint (stored.valid sector here)
    intro address owned
    apply elsewhere
    intro inside
    exact unowned sector here _ inside owned
  exact ⟨fun sector here => (each sector here).1, fun sector here _ => (each sector here).2⟩

/-- Bytes written within the length of a file go to its data sectors. -/
theorem overwrite_in_extent {data : InodeDisk} {offset : Nat} {cells : List Byte}
    (valid : OnDevice size data) (fits : offset + cells.length ≤ (inodeLength data).toNat)
    (address : Nat) (outside : address / blockSectorSize ∉ extent data) :
    overwrite disk (dataBase data + offset) cells address = disk address := by
  apply overwrite_outside
  by_contra inside
  apply outside
  have place := data_in_extent valid (by omega : address - dataBase data < _)
  rw [show dataBase data + (address - dataBase data) = address by omega] at place
  exact place

theorem confined_write (stored : Stored size disk freeMap inodes) {offset : Nat}
    {cells : List Byte} (here : sector ∈ inodes)
    (fits : offset + cells.length ≤ (inodeLength (diskInode disk sector)).toNat) :
    Confined {sector} inodes disk
      (overwrite disk (dataBase (diskInode disk sector) + offset) cells) := by
  have elsewhere := @overwrite_in_extent size disk _ offset cells (stored.valid sector here) fits
  constructor
  · intro owner there
    apply disk_inode_congr
    intro address place
    apply elsewhere
    rw [place]
    exact inode_outside_extent stored there here
  · intro owner there different
    have both := same_on_footprint (stored.valid owner there)
      (fun address owned => elsewhere address fun inside => different
        (stored.tiling.apart owner there sector here _ owned (Set.mem_insert_of_mem _ inside)))
    exact both.2

end Addresses

section Transitions

variable {size : Nat} {disk other : Disk} {freeMap map : Bitmap} {inodes : Set Nat} {sector : Nat}

/-- The sectors of a file are given back. -/
theorem stored_release (stored : Stored size disk freeMap inodes) (here : sector ∈ inodes)
    (sized : map.length = freeMap.length)
    (kept : ∀ cell ∈ marked freeMap, cell ∉ footprint disk sector → cell ∈ marked map) :
    Stored size disk map (inodes \ {sector}) where
  mapLength := by rw [sized, stored.mapLength]
  valid := fun owner there => stored.valid owner there.1
  own := fun owner there => stored.own owner there.1
  tiling := tiling_release stored.tiling sector here (fun _ there => there) (fun _ _ => rfl) kept

/-- A new inode appears on sectors that no file owns. -/
theorem stored_create (stored : Stored size disk freeMap inodes)
    (same : ∀ owner ∈ inodes, diskInode other owner = diskInode disk owner)
    (valid : OnDevice size (diskInode other sector)) (own : sector ∉ extent (diskInode other sector))
    (fresh : ∀ owner ∈ inodes, ∀ cell ∈ footprint other sector, cell ∉ footprint disk owner)
    (marks : footprint other sector ⊆ marked freeMap) :
    Stored size other freeMap (insert sector inodes) where
  mapLength := stored.mapLength
  valid := by
    rintro owner (rfl | there)
    · exact valid
    · rw [same owner there]
      exact stored.valid owner there
  own := by
    rintro owner (rfl | there)
    · exact own
    · rw [same owner there]
      exact stored.own owner there
  tiling := tiling_insert stored.tiling sector
    (fun owner there => footprint_congr (same owner there)) fresh marks

end Transitions

end UtSystems.Filesys.Ownership

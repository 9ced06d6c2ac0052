import UtSystems.Filesys.OpenFiles

/-!
# Creating an inode

`inode_create` takes the data sectors from the free map, so no file owns them, and writes the
new inode to a sector that its caller has taken from the free map. The data of the new file
is zero.
-/

namespace UtSystems.Filesys.Creation

open Lib.Bytes Lib.Effects Filesys.Volume Filesys.InodeData Filesys.FreeMap Filesys.Inode
open Filesys.Ownership Filesys.Consistency

set_option autoImplicit false

variable {inodes : Set Nat} {fs : FileSys} {held : Set Ptr} {extra : Ptr → Nat} {sector start : Nat}
  {length : Word}

/-- No file owns the sector. -/
def Unowned (inodes : Set Nat) (disk : Disk) (cell : Nat) : Prop :=
  ∀ owner ∈ inodes, cell ∉ footprint disk owner

theorem unowned_of_free {size : Nat} {disk : Disk} {freeMap : Bitmap} {cell : Nat}
    (stored : Stored size disk freeMap inodes) (free : bitmapTest freeMap cell = false) :
    Unowned inodes disk cell := by
  intro owner here inside
  have used : bitmapTest freeMap cell = true := stored.tiling.covered owner here inside
  rw [free] at used
  cases used

theorem unowned_confined {touched : Set Nat} {disk other : Disk} {cell : Nat}
    (unowned : Unowned inodes disk cell) (confined : Confined touched inodes disk other) :
    Unowned inodes other cell := by
  intro owner here
  rw [footprint_congr (confined.inode owner here)]
  exact unowned owner here

theorem zero_sectors_returns (count : Nat) (fs : FileSys) (start : Nat)
    (inside : start + count ≤ fs.size) :
    Returns (zeroSectors start count) fs fun _ next =>
      next = { fs with
        disk := overwrite fs.disk (start * blockSectorSize)
          (List.replicate (count * blockSectorSize) 0) } := by
  induction count generalizing fs start with
  | zero =>
      have nothing : List.replicate (0 * blockSectorSize) (0 : Byte) = [] := by
        rw [Nat.zero_mul]
        rfl
      rw [nothing, overwrite_nil]
      exact returns_pure rfl
  | succ count induction =>
      unfold zeroSectors
      apply returns_bind (block_write_returns zeroSector (by omega))
      rintro _ _ rfl
      apply returns_mono (induction _ (start + 1) (by dsimp only; omega))
      rintro _ _ rfl
      have width : zeroSector.length = blockSectorSize := by
        unfold zeroSector
        rw [List.length_replicate]
      have place : (start + 1) * blockSectorSize = start * blockSectorSize + zeroSector.length := by
        rw [width, Nat.add_mul, Nat.one_mul]
      have joined : zeroSector ++ List.replicate (count * blockSectorSize) 0 =
          List.replicate ((count + 1) * blockSectorSize) (0 : Byte) := by
        unfold zeroSector
        rw [List.replicate_append_replicate, Nat.add_mul, Nat.one_mul, Nat.add_comm]
      dsimp only
      rw [place, overwrite_append, joined]

/-- The inode `inode_create` writes. -/
def newInode (start : Nat) (length : Word) : InodeDisk :=
  { start := BitVec.ofNat 32 start, length := length, magic := inodeMagic }

/-- The device after the end of `inode_create`. -/
def formatted (disk : Disk) (sector start : Nat) (length : Word) : Disk :=
  overwrite (overwrite disk (sector * blockSectorSize) (encodeInode (newInode start length)))
    (start * blockSectorSize)
    (List.replicate (bytesToSectors length.toInt * blockSectorSize) 0)

/-- The cells `inode_create` writes to. -/
def newCells (sector start : Nat) (length : Word) : Set Nat :=
  insert sector { cell | start ≤ cell ∧ cell < start + bytesToSectors length.toInt }

theorem formatted_elsewhere {disk : Disk} {address : Nat}
    (outside : address / blockSectorSize ∉ newCells sector start length) :
    formatted disk sector start length address = disk address := by
  have notSector : address / blockSectorSize ≠ sector := by
    rintro rfl
    exact outside (Set.mem_insert _ _)
  have notExtent : ¬(start ≤ address / blockSectorSize ∧
      address / blockSectorSize < start + bytesToSectors length.toInt) :=
    fun inside => outside (Set.mem_insert_of_mem _ inside)
  unfold formatted
  rw [overwrite_outside, overwrite_outside]
  · rw [encode_inode_length]
    unfold blockSectorSize at *
    omega
  · rw [List.length_replicate]
    unfold blockSectorSize at *
    omega

theorem disk_inode_written (disk : Disk) (sector : Nat) (inode : InodeDisk) :
    diskInode (overwrite disk (sector * blockSectorSize) (encodeInode inode)) sector = inode := by
  have bytes : slice (overwrite disk (sector * blockSectorSize) (encodeInode inode))
      (sector * blockSectorSize) blockSectorSize = encodeInode inode := by
    have width := encode_inode_length inode
    apply List.ext_getElem?
    intro index
    by_cases inside : index < blockSectorSize
    · rw [slice_get inside, overwrite_inside (by omega), List.getElem?_eq_getElem]
    · rw [slice_get_of_ge (by omega), List.getElem?_eq_none (by omega)]
  unfold diskInode
  rw [bytes, decode_encode_inode]

section Formatted

variable {disk : Disk} {size : Nat}

theorem formatted_inode
    (apart : ¬(start ≤ sector ∧ sector < start + bytesToSectors length.toInt)) :
    diskInode (formatted disk sector start length) sector = newInode start length := by
  rw [← disk_inode_written disk sector (newInode start length)]
  apply disk_inode_congr
  intro address here
  unfold formatted
  apply overwrite_outside
  rw [List.length_replicate]
  unfold blockSectorSize at *
  omega

theorem new_inode_start (small : start < 2 ^ 32) : (newInode start length).start.toNat = start := by
  simp only [newInode, BitVec.toNat_ofNat]
  omega

theorem new_inode_footprint (small : start < 2 ^ 32)
    (apart : ¬(start ≤ sector ∧ sector < start + bytesToSectors length.toInt)) :
    footprint (formatted disk sector start length) sector = newCells sector start length := by
  unfold footprint extent newCells
  rw [formatted_inode apart, new_inode_start small]
  rfl

theorem new_inode_valid (small : size < 2 ^ 21) (nonneg : 0 ≤ length.toInt)
    (fits : start + bytesToSectors length.toInt ≤ size) :
    OnDevice size (newInode start length) := by
  refine ⟨small, nonneg, ?_⟩
  rw [new_inode_start (by omega)]
  exact fits

/-- A new file holds zeros. -/
theorem formatted_contents (small : size < 2 ^ 21) (nonneg : 0 ≤ length.toInt)
    (fits : start + bytesToSectors length.toInt ≤ size)
    (apart : ¬(start ≤ sector ∧ sector < start + bytesToSectors length.toInt)) :
    contents (formatted disk sector start length) sector =
      List.replicate length.toInt.toNat 0 := by
  have count := on_device_sectors (new_inode_valid small nonneg fits)
  have same : inodeLength (newInode start length) = length.toInt := rfl
  rw [same] at count
  unfold contents
  rw [formatted_inode apart, same, dataBase, new_inode_start (by omega)]
  apply List.ext_getElem?
  intro index
  by_cases inside : index < length.toInt.toNat
  · have within : index < (List.replicate (bytesToSectors length.toInt * blockSectorSize)
        (0 : Byte)).length := by
      rw [List.length_replicate]
      unfold blockSectorSize
      omega
    rw [slice_get inside]
    unfold formatted
    rw [overwrite_inside within, List.getElem_replicate, List.getElem?_replicate_of_lt inside]
  · rw [slice_get_of_ge (by omega),
      List.getElem?_eq_none (by rw [List.length_replicate]; omega)]

end Formatted

section Allocating

/-- What `free_map_allocate` does between operations. -/
theorem allocate_returns (sound : Sound inodes fs held extra) (cnt : Nat) :
    Returns (freeMapAllocate cnt) fs fun result next =>
      Kept fs next ∧ Confined {freeMapSector} inodes fs.disk next.disk ∧
        Sound inodes next held extra ∧ next.inodes = fs.inodes ∧
        match result with
        | none => next.freeMap = fs.freeMap ∧
            (Plenty fs → next = fs ∧ bitmapScan fs.freeMap 0 cnt false = none)
        | some start => start + cnt ≤ fs.size ∧
            (∀ index < cnt, bitmapTest fs.freeMap (start + index) = false) ∧
            next.freeMap = bitmapSetMultiple fs.freeMap start cnt true ∧
            bitmapOfBytes next.freeMap.length (contents next.disk freeMapSector) =
              next.freeMap := by
  obtain ⟨file, target, ready, data, writable⟩ := sound_map_open sound
  apply returns_mono (free_map_allocate_returns cnt ready)
  rintro (_ | start) next result
  · obtain ⟨changed, full⟩ := result
    have again := sound_map_changed sound data rfl sound.stored.tiling.covered
      (fun plenty => .inr (full (writable plenty)).1) changed
    obtain ⟨kept, confined, settled⟩ := again
    obtain ⟨cells, _, _, requests, grown, rfl⟩ := changed
    exact ⟨kept, confined, settled, rfl, rfl, fun plenty => full (writable plenty)⟩
  · obtain ⟨fits, free, changed⟩ := result
    have marks : marked fs.freeMap ⊆ marked (bitmapSetMultiple fs.freeMap start cnt true) := by
      intro cell used
      change bitmapTest _ cell = true
      rw [bitmap_set_multiple_test fits]
      split
      · rfl
      · exact used
    have again := sound_map_changed sound data (bitmap_set_multiple_length fits)
      (fun owner here => (sound.stored.tiling.covered owner here).trans marks)
      (fun _ => .inl trivial) changed
    obtain ⟨kept, confined, settled⟩ := again
    obtain ⟨_, _, recorded⟩ := map_confined sound.stored (map_live sound) data changed
    have room : byteCnt (bitmapSetMultiple fs.freeMap start cnt true).length ≤
        (inodeLength target.data).toNat := by
      rw [bitmap_set_multiple_length fits, data]
      exact sound.mapRoom
    obtain ⟨cells, _, _, requests, grown, rfl⟩ := changed
    rw [sound.stored.mapLength] at fits
    exact ⟨kept, confined, settled, rfl, fits, free, rfl, recorded trivial room⟩

theorem marked_allocated {freeMap : Bitmap} {cnt : Nat} (fits : start + cnt ≤ freeMap.length) :
    marked (bitmapSetMultiple freeMap start cnt true) =
      marked freeMap ∪ { cell | start ≤ cell ∧ cell < start + cnt } := by
  ext cell
  change bitmapTest _ cell = true ↔ bitmapTest freeMap cell = true ∨ _
  rw [bitmap_set_multiple_test fits]
  split
  · next inside => simp [inside]
  · next outside => simp [outside]

end Allocating

/-- The end of `inode_create`, once the data sectors are allocated. -/
theorem create_finish_returns (table : Table inodes fs held extra) (small : fs.size < 2 ^ 21)
    (nonneg : 0 ≤ length.toInt) (fits : start + bytesToSectors length.toInt ≤ fs.size)
    (apart : ¬(start ≤ sector ∧ sector < start + bytesToSectors length.toInt))
    (unowned : ∀ cell ∈ newCells sector start length, Unowned inodes fs.disk cell)
    (marks : newCells sector start length ⊆ marked fs.freeMap) :
    Returns (do
        blockWrite sector (encodeInode (newInode start length))
        zeroSectors start (bytesToSectors length.toInt)
        return true : FsM Bool) fs fun result next =>
      result = true ∧ next = { fs with disk := formatted fs.disk sector start length } ∧
        Confined ∅ inodes fs.disk next.disk ∧ Table (insert sector inodes) next held extra := by
  have inside : sector < fs.size := marked_lt table.stored.mapLength (marks (Set.mem_insert _ _))
  apply returns_bind (block_write_returns _ inside)
  rintro _ _ rfl
  apply returns_bind (zero_sectors_returns _
    { fs with
      disk := overwrite fs.disk (sector * blockSectorSize) (encodeInode (newInode start length)) }
    start fits)
  rintro _ _ rfl
  apply returns_pure
  have confined : Confined ∅ inodes fs.disk (formatted fs.disk sector start length) := by
    apply confined_of_cells table.stored (fun address outside => formatted_elsewhere outside)
    intro owner here cell new
    exact unowned cell new owner here
  have cells := @new_inode_footprint sector start length fs.disk (by omega) apart
  have stored : Stored fs.size (formatted fs.disk sector start length) fs.freeMap
      (insert sector inodes) := by
    apply stored_create table.stored confined.inode
    · rw [formatted_inode apart]
      exact new_inode_valid small nonneg fits
    · rw [formatted_inode apart]
      intro clash
      unfold extent at clash
      rw [new_inode_start (by omega)] at clash
      exact apart clash
    · intro owner here cell new
      rw [cells] at new
      exact unowned cell new owner here
    · rw [cells]
      exact marks
  refine ⟨rfl, rfl, confined, ?_⟩
  constructor
  case stored => exact stored
  case nodup => exact table.nodup
  case listed => exact table.listed
  case inodeOld => exact table.inodeOld
  case fileOld => exact table.fileOld
  case refersOld => exact table.refersOld
  case sectorApart => exact table.sectorApart
  case live =>
    intro inode target present
    exact Set.mem_insert_of_mem _ (table.live inode target present)
  case loaded =>
    intro inode target present
    rw [table.loaded inode target present]
    exact (confined.inode _ (table.live inode target present)).symm
  case counted =>
    intro inode target present
    exact counted_congr (table.counted inode target present) rfl
  case reached => exact table.reached
  case spare => exact table.spare

/-- What a successful `inode_create` leaves behind. -/
structure Created (inodes : Set Nat) (fs next : FileSys) (held : Set Ptr) (extra : Ptr → Nat)
    (sector : Nat) (length : Word) : Prop where
  kept : Kept fs next
  confined : Confined {freeMapSector} inodes fs.disk next.disk
  table : next.inodes = fs.inodes
  sound : Sound (insert sector inodes) next held extra
  size : (diskInode next.disk sector).length = length
  zero : contents next.disk sector = List.replicate length.toInt.toNat 0
  marks : marked next.freeMap = marked fs.freeMap ∪ footprint next.disk sector
  fresh : ∀ cell ∈ extent (diskInode next.disk sector), cell ∉ marked fs.freeMap
  recorded : bitmapOfBytes next.freeMap.length (contents next.disk freeMapSector) = next.freeMap

/-- A failed `inode_create` leaves the free map as it was. -/
structure NotCreated (inodes : Set Nat) (fs next : FileSys) (held : Set Ptr)
    (extra : Ptr → Nat) : Prop where
  kept : Kept fs next
  confined : Confined {freeMapSector} inodes fs.disk next.disk
  table : next.inodes = fs.inodes
  sound : Sound inodes next held extra
  freeMap : next.freeMap = fs.freeMap

theorem inode_create_returns (sound : Sound inodes fs held extra) (nonneg : 0 ≤ length.toInt)
    (unowned : Unowned inodes fs.disk sector) (used : sector ∈ marked fs.freeMap) :
    Returns (inodeCreate sector length) fs fun result next =>
      (result = true ∧ Created inodes fs next held extra sector length) ∨
        (result = false ∧ NotCreated inodes fs next held extra) := by
  have small := (sound.stored.valid _ (map_live sound)).small
  unfold inodeCreate
  rw [if_neg (by omega)]
  apply returns_bind (malloc_returns fs)
  rintro pointer _ ⟨rfl, rfl⟩
  have requested : Requested fs { fs with requests := fs.requests + 1 } :=
    ⟨fs.requests + 1, Nat.le_succ _, rfl⟩
  have early := kept_requested requested
  have begun := sound_requested sound requested
  cases fs.memory fs.requests with
  | false =>
      apply returns_pure
      exact .inr ⟨rfl, early, confined_refl _ _ _, rfl, begun, rfl⟩
  | true =>
      apply returns_bind (allocate_returns begun (bytesToSectors length.toInt))
      rintro (_ | start) next ⟨kept, confined, again, table, result⟩
      · apply returns_pure
        exact .inr ⟨rfl, kept_trans early kept, confined, table, again, result.1⟩
      · obtain ⟨fits, free, map, recorded⟩ := result
        dsimp only at fits free map
        have room : start + bytesToSectors length.toInt ≤ fs.freeMap.length := by
          rw [sound.stored.mapLength]
          exact fits
        have marks : marked next.freeMap = marked fs.freeMap ∪
            { cell | start ≤ cell ∧ cell < start + bytesToSectors length.toInt } := by
          rw [map]
          exact marked_allocated room
        have clear : ∀ cell, start ≤ cell → cell < start + bytesToSectors length.toInt →
            bitmapTest fs.freeMap cell = false := by
          intro cell lower upper
          have here := free (cell - start) (by omega)
          rw [show start + (cell - start) = cell by omega] at here
          exact here
        have apart : ¬(start ≤ sector ∧ sector < start + bytesToSectors length.toInt) := by
          rintro ⟨lower, upper⟩
          have here : bitmapTest fs.freeMap sector = true := used
          rw [clear sector lower upper] at here
          cases here
        have newUnowned : ∀ cell ∈ newCells sector start length, Unowned inodes next.disk cell := by
          rintro cell (rfl | ⟨lower, upper⟩)
          · exact unowned_confined unowned confined
          · exact unowned_confined (unowned_of_free sound.stored (clear cell lower upper)) confined
        have newMarked : newCells sector start length ⊆ marked next.freeMap := by
          rw [marks]
          rintro cell (rfl | inside)
          · exact .inl used
          · exact .inr inside
        have sameSize : next.size = fs.size := kept.size
        refine returns_mono (create_finish_returns again.toTable (by omega) nonneg (by omega) apart
          newUnowned newMarked) ?_
        rintro result last ⟨rfl, rfl, finish, settled⟩
        have cells := @new_inode_footprint sector start length next.disk (by omega) apart
        have inode := @formatted_inode sector start length next.disk apart
        have ends : Kept next { next with disk := formatted next.disk sector start length } :=
          kept_device (Nat.le_refl _)
        have mapStays := map_live again
        refine .inl ⟨rfl, kept_trans (kept_trans early kept) ends, ?_, table, ?_, ?_, ?_, ?_, ?_, ?_⟩
        · exact confined_trans confined
            (confined_mono finish (Set.empty_subset _) Set.Subset.rfl)
        · exact sound_frame again settled ends.toCalm rfl rfl (finish.inode _ mapStays)
            (finish.data _ mapStays (Set.notMem_empty _))
        · dsimp only
          rw [inode]
          rfl
        · exact formatted_contents small nonneg fits apart
        · dsimp only
          rw [cells, marks]
          ext cell
          constructor
          · rintro (was | inside)
            · exact .inl was
            · exact .inr (Set.mem_insert_of_mem _ inside)
          · rintro (was | rfl | inside)
            · exact .inl was
            · exact .inl used
            · exact .inr inside
        · intro cell inside
          dsimp only at inside
          rw [inode, extent, new_inode_start (by omega)] at inside
          intro was
          have here : bitmapTest fs.freeMap cell = true := was
          rw [clear cell inside.1 inside.2] at here
          cases here
        · dsimp only
          rw [finish.data _ mapStays (Set.notMem_empty _)]
          exact recorded

end UtSystems.Filesys.Creation

import Mathlib.Algebra.Group.Int.Defs
import UtSystems.Filesys.Volume

/-!
# Reading and writing the data of an inode

`inode_read_at` and `inode_write_at` move at most a sector a round and stop at the
end of the file, or when the bounce buffer they need for a partial sector cannot
be allocated. A file's data is one contiguous extent, so what they move is one
contiguous range of the device: `inode_read_at_returns` and
`inode_write_at_returns` say which.

The bytes delivered by a read are returned as a list, whose length is the value
of the source's function. The buffer of a write is a function of the index.
-/

namespace UtSystems.Filesys.InodeData

open Lib.Bytes Lib.Effects Filesys.Volume

set_option autoImplicit false

def inodeLength (data : InodeDisk) : Int := data.length.toInt

def byteToSector (data : InodeDisk) (pos : Nat) : Nat :=
  if (pos : Int) < inodeLength data then (data.start.toNat + pos / blockSectorSize) % 2 ^ 32
  else 2 ^ 32 - 1

/-- The number of bytes to copy out of or into the current sector. -/
def chunkSize (data : InodeDisk) (size : Int) (offset : Nat) : Int :=
  let inodeLeft := inodeLength data - offset
  let sectorLeft : Int := (blockSectorSize : Int) - (offset % blockSectorSize : Nat)
  let minLeft := if inodeLeft < sectorLeft then inodeLeft else sectorLeft
  if size < minLeft then size else minLeft

/-- `if (bounce == NULL) bounce = malloc (BLOCK_SECTOR_SIZE)`. -/
def takeBounce (bounce : Bool) : FsM Bool := do
  if bounce then return true
  else return (← malloc).isSome

/-- The loop of `inode_read_at`. Each round lowers `size`, so `size` rounds are enough. -/
def inodeReadLoop (data : InodeDisk) : Nat → Bool → Int → Nat → FsM (List Byte)
  | 0, _, _, _ => return []
  | rounds + 1, bounce, size, offset =>
      if size ≤ 0 then return []
      else
        let sectorIdx := byteToSector data offset
        let sectorOfs := offset % blockSectorSize
        let chunk := chunkSize data size offset
        if chunk ≤ 0 then return []
        else if sectorOfs = 0 ∧ chunk = blockSectorSize then do
          let sector ← blockRead sectorIdx
          let rest ← inodeReadLoop data rounds bounce (size - chunk) (offset + chunk.toNat)
          return sector ++ rest
        else do
          if ← takeBounce bounce then
            let sector ← blockRead sectorIdx
            let rest ← inodeReadLoop data rounds true (size - chunk) (offset + chunk.toNat)
            return (sector.drop sectorOfs).take chunk.toNat ++ rest
          else return []

def inodeReadAt (inode : Ptr) (size : Int) (offset : Nat) : FsM (List Byte) := do
  inodeReadLoop (← inodeAt inode).data size.toNat false size offset

/-- The loop of `inode_write_at`, from the byte `written` of the buffer on. -/
def inodeWriteLoop (data : InodeDisk) (buffer : Nat → Byte) :
    Nat → Bool → Int → Nat → Nat → FsM Nat
  | 0, _, _, _, written => return written
  | rounds + 1, bounce, size, offset, written =>
      if size ≤ 0 then return written
      else
        let sectorIdx := byteToSector data offset
        let sectorOfs := offset % blockSectorSize
        let chunk := chunkSize data size offset
        if chunk ≤ 0 then return written
        else if sectorOfs = 0 ∧ chunk = blockSectorSize then do
          blockWrite sectorIdx (slice buffer written blockSectorSize)
          inodeWriteLoop data buffer rounds bounce (size - chunk) (offset + chunk.toNat)
            (written + chunk.toNat)
        else do
          if ← takeBounce bounce then
            let sector ←
              if 0 < sectorOfs ∨ chunk < (blockSectorSize : Int) - sectorOfs then blockRead sectorIdx
              else pure (List.replicate blockSectorSize 0)
            blockWrite sectorIdx (splice sector sectorOfs (slice buffer written chunk.toNat))
            inodeWriteLoop data buffer rounds true (size - chunk) (offset + chunk.toNat)
              (written + chunk.toNat)
          else return written

def inodeWriteAt (inode : Ptr) (buffer : Nat → Byte) (size : Int) (offset : Nat) : FsM Nat := do
  let target ← inodeAt inode
  if target.denyWriteCnt ≠ 0 then return 0
  else inodeWriteLoop target.data buffer size.toNat false size offset 0

/-- The data sectors of a file, as `bytes_to_sectors` counts them. The sum is a signed
32-bit one and the quotient is converted to `size_t`. -/
def bytesToSectors (size : Int) : Nat :=
  (((size + 511).bmod (2 ^ 32)).tdiv blockSectorSize % 2 ^ 32).toNat

/-- The extent lies on a device of `size` sectors. -/
structure OnDevice (size : Nat) (data : InodeDisk) : Prop where
  small : size < 2 ^ 21
  length_nonneg : 0 ≤ inodeLength data
  inside : data.start.toNat + bytesToSectors (inodeLength data) ≤ size

/-- The bytes a transfer of `size` bytes at `offset` has before the end of the file. -/
def available (data : InodeDisk) (size : Int) (offset : Nat) : Nat :=
  (min size (inodeLength data - offset)).toNat

/-- How many of `total` bytes at `offset` are moved. Without a bounce buffer only whole
sectors are, up to the first partial one. -/
def transferred (bounce : Bool) (offset total : Nat) : Nat :=
  if bounce then total
  else if offset % blockSectorSize = 0 then total / blockSectorSize * blockSectorSize
  else 0

section Arithmetic

variable {data : InodeDisk} {size : Int} {offset : Nat}

theorem bytes_to_sectors_eq {length : Int} (nonneg : 0 ≤ length) (fits : length + 511 < 2 ^ 31) :
    (bytesToSectors length : Int) = (length + 511) / 512 := by
  unfold bytesToSectors blockSectorSize
  have exact_ : (length + 511).bmod (2 ^ 32) = length + 511 := by
    rw [Int.bmod_def]
    omega
  rw [exact_, Int.tdiv_eq_ediv_of_nonneg (by omega)]
  omega

/-- A length for which the sum in `bytes_to_sectors` overflows has more sectors than any
device. -/
theorem on_device_fits {sectors : Nat} (valid : OnDevice sectors data) :
    inodeLength data + 511 < 2 ^ 31 := by
  by_contra overflow
  have upper : inodeLength data < 2 ^ 31 := by
    have := BitVec.toInt_lt (x := data.length)
    simpa [inodeLength] using this
  have wrapped : (inodeLength data + 511).bmod (2 ^ 32) = inodeLength data + 511 - 2 ^ 32 := by
    rw [Int.bmod_def]
    omega
  have inside := valid.inside
  have small := valid.small
  have negative : inodeLength data + 511 - 2 ^ 32 = -(2 ^ 32 - 511 - inodeLength data) := by
    omega
  unfold bytesToSectors blockSectorSize at inside
  rw [wrapped, negative, Int.neg_tdiv, Int.tdiv_eq_ediv_of_nonneg (by omega)] at inside
  omega

theorem on_device_sectors {sectors : Nat} (valid : OnDevice sectors data) :
    (bytesToSectors (inodeLength data) : Int) = (inodeLength data + 511) / 512 :=
  bytes_to_sectors_eq valid.length_nonneg (on_device_fits valid)

theorem byte_to_sector_inside {sectors : Nat} (valid : OnDevice sectors data)
    (within : (offset : Int) < inodeLength data) :
    byteToSector data offset = data.start.toNat + offset / blockSectorSize ∧
      data.start.toNat + offset / blockSectorSize < sectors := by
  have count := on_device_sectors valid
  have inside := valid.inside
  have small := valid.small
  have below : data.start.toNat + offset / blockSectorSize < sectors := by
    unfold blockSectorSize
    omega
  refine ⟨?_, below⟩
  unfold byteToSector
  rw [if_pos within, Nat.mod_eq_of_lt (by omega)]

theorem chunk_size_past_end (past : inodeLength data ≤ offset) :
    chunkSize data size offset ≤ 0 := by
  simp only [chunkSize, blockSectorSize]
  omega

theorem available_pos (positive : 0 < size) (within : (offset : Int) < inodeLength data) :
    0 < available data size offset := by
  unfold available
  omega

theorem available_eq_zero (none_ : size ≤ 0 ∨ inodeLength data ≤ offset) :
    available data size offset = 0 := by
  unfold available
  omega

theorem available_after (chunk : Nat) (within : chunk ≤ available data size offset) :
    available data (size - chunk) (offset + chunk) = available data size offset - chunk := by
  unfold available at *
  omega

/-- A round that moves something moves as much as the sector and the transfer have left. -/
theorem chunk_of_round (positive : 0 < size) (within : (offset : Int) < inodeLength data) :
    ∃ chunk : Nat, chunkSize data size offset = chunk ∧ 0 < chunk ∧
      chunk = min (available data size offset) (blockSectorSize - offset % blockSectorSize) ∧
      available data (size - chunk) (offset + chunk) = available data size offset - chunk := by
  have left := available_pos positive within
  have room : offset % blockSectorSize < blockSectorSize := Nat.mod_lt _ (by decide)
  refine ⟨min (available data size offset) (blockSectorSize - offset % blockSectorSize), ?_, ?_,
    rfl, ?_⟩
  · simp only [chunkSize, available, blockSectorSize]
    omega
  · omega
  · apply available_after
    omega

@[simp] theorem transferred_zero (bounce : Bool) : transferred bounce offset 0 = 0 := by
  cases bounce <;> simp [transferred]

theorem transferred_sector (bounce : Bool) {total : Nat} (aligned : offset % blockSectorSize = 0)
    (whole : blockSectorSize ≤ total) :
    transferred bounce offset total =
      blockSectorSize + transferred bounce (offset + blockSectorSize) (total - blockSectorSize) := by
  cases bounce with
  | true =>
      simp only [transferred, if_true]
      omega
  | false =>
      have next : (offset + blockSectorSize) % blockSectorSize = 0 := by
        unfold blockSectorSize at *
        omega
      simp only [transferred, Bool.false_eq_true, if_false, aligned, next, if_true]
      unfold blockSectorSize at *
      omega

/-- Without a bounce buffer a round that is not a whole sector moves nothing. -/
theorem transferred_short {total chunk : Nat}
    (most : chunk = min total (blockSectorSize - offset % blockSectorSize))
    (short : ¬(offset % blockSectorSize = 0 ∧ chunk = blockSectorSize)) :
    transferred false offset total = 0 := by
  unfold transferred
  rw [if_neg (by simp)]
  split
  · next aligned =>
    have few : ¬chunk = blockSectorSize := fun full => short ⟨aligned, full⟩
    unfold blockSectorSize at *
    omega
  · rfl

theorem transferred_le (bounce : Bool) (total : Nat) : transferred bounce offset total ≤ total := by
  unfold transferred
  split
  · exact Nat.le_refl _
  · split
    · exact Nat.div_mul_le_self _ _
    · exact Nat.zero_le _

end Arithmetic

theorem take_bounce_returns (fs : FileSys) (bounce : Bool) :
    Returns (takeBounce bounce) fs fun taken next =>
      Requested fs next ∧ taken = (bounce || fs.memory fs.requests) := by
  cases bounce with
  | true => exact returns_pure ⟨requested_refl fs, rfl⟩
  | false =>
      apply returns_bind (malloc_returns fs)
      rintro pointer next ⟨rfl, rfl⟩
      apply returns_pure
      refine ⟨⟨fs.requests + 1, by omega, rfl⟩, ?_⟩
      cases fs.memory fs.requests <;> rfl

/-- Where the first byte of a file is on the device. -/
def dataBase (data : InodeDisk) : Nat := data.start.toNat * blockSectorSize

section Transfers

variable {data : InodeDisk}

/-- The place on the device of the byte at `offset`, seen from its sector. -/
theorem data_base_add (data : InodeDisk) (offset : Nat) :
    (data.start.toNat + offset / blockSectorSize) * blockSectorSize + offset % blockSectorSize =
      dataBase data + offset := by
  unfold dataBase blockSectorSize
  omega

theorem read_loop_returns (rounds : Nat) (fs : FileSys) (bounce : Bool) (size : Int) (offset : Nat)
    (valid : OnDevice fs.size data) (enough : size ≤ rounds) :
    Returns (inodeReadLoop data rounds bounce size offset) fs fun bytes next =>
      Requested fs next ∧
        bytes = slice fs.disk (dataBase data + offset)
          (transferred (bounce || fs.memory fs.requests) offset (available data size offset)) := by
  induction rounds generalizing fs bounce size offset with
  | zero =>
      rw [available_eq_zero (.inl (by omega)), transferred_zero]
      exact returns_pure ⟨requested_refl fs, rfl⟩
  | succ rounds induction =>
      unfold inodeReadLoop
      by_cases finished : size ≤ 0
      · rw [if_pos finished, available_eq_zero (.inl finished), transferred_zero]
        exact returns_pure ⟨requested_refl fs, rfl⟩
      rw [if_neg finished]
      by_cases past : inodeLength data ≤ offset
      · rw [available_eq_zero (.inr past), transferred_zero]
        dsimp only
        rw [if_pos (chunk_size_past_end past)]
        exact returns_pure ⟨requested_refl fs, rfl⟩
      have within : (offset : Int) < inodeLength data := by omega
      obtain ⟨place, below⟩ := byte_to_sector_inside valid within
      obtain ⟨chunk, chunkEq, chunkPos, most, after⟩ := chunk_of_round (by omega : 0 < size) within
      dsimp only
      rw [chunkEq, place, if_neg (by omega), Int.toNat_natCast]
      by_cases whole : offset % blockSectorSize = 0 ∧ chunk = blockSectorSize
      · obtain ⟨aligned, rfl⟩ := whole
        rw [if_pos ⟨aligned, rfl⟩]
        apply returns_bind (block_read_returns below)
        rintro sector _ ⟨rfl, read⟩
        apply returns_bind (induction _ bounce _ _ valid (by omega))
        rintro rest next ⟨requested, delivered⟩
        apply returns_pure
        refine ⟨requested, ?_⟩
        have here := data_base_add data offset
        rw [aligned, Nat.add_zero] at here
        rw [read, delivered, after, transferred_sector _ aligned (by omega), slice_append, here,
          Nat.add_assoc]
      · rw [if_neg (fun full => whole ⟨full.1, Int.natCast_inj.mp full.2⟩)]
        apply returns_bind (take_bounce_returns fs bounce)
        rintro taken middle ⟨⟨requests, grown, rfl⟩, rfl⟩
        cases bounce || fs.memory fs.requests with
        | false =>
            rw [if_neg (by simp)]
            apply returns_pure
            refine ⟨⟨requests, grown, rfl⟩, ?_⟩
            rw [transferred_short most whole, slice_zero]
        | true =>
            rw [if_pos rfl]
            apply returns_bind (@block_read_returns { fs with requests := requests } _ below)
            rintro sector _ ⟨rfl, read⟩
            apply returns_bind (induction { fs with requests := requests } true _ _ valid (by omega))
            rintro rest next ⟨requested, delivered⟩
            apply returns_pure
            refine ⟨requested_trans ⟨requests, grown, rfl⟩ requested, ?_⟩
            have total : transferred true offset (available data size offset) =
                chunk + transferred true (offset + chunk) (available data size offset - chunk) := by
              simp only [transferred, if_true]
              omega
            rw [read, delivered, after, total, slice_append, Bool.true_or, slice_drop_take (by omega), data_base_add,
              Nat.add_assoc]

/-- Requests for memory have been made and `cells` have been written at `base`. -/
def Wrote (fs next : FileSys) (base : Nat) (cells : List Byte) : Prop :=
  ∃ requests, fs.requests ≤ requests ∧
    next = { fs with disk := overwrite fs.disk base cells, requests := requests }

theorem wrote_nil {fs next : FileSys} (requested : Requested fs next) (base : Nat) :
    Wrote fs next base [] := by
  obtain ⟨requests, grown, rfl⟩ := requested
  exact ⟨requests, grown, by rw [overwrite_nil]⟩

/-- A chunk followed by what the remaining rounds write. -/
theorem wrote_append {fs next : FileSys} {base requests : Nat} {first second : List Byte}
    (grown : fs.requests ≤ requests)
    (rest : Wrote { fs with disk := overwrite fs.disk base first, requests := requests } next
      (base + first.length) second) :
    Wrote fs next base (first ++ second) := by
  obtain ⟨last, more, rfl⟩ := rest
  exact ⟨last, Nat.le_trans grown more, by rw [overwrite_append]⟩

theorem write_loop_returns (buffer : Nat → Byte) (rounds : Nat) (fs : FileSys) (bounce : Bool)
    (size : Int) (offset written : Nat) (valid : OnDevice fs.size data) (enough : size ≤ rounds) :
    Returns (inodeWriteLoop data buffer rounds bounce size offset written) fs fun total next =>
      ∃ count, count = transferred (bounce || fs.memory fs.requests) offset
          (available data size offset) ∧
        total = written + count ∧
        Wrote fs next (dataBase data + offset) (slice buffer written count) := by
  induction rounds generalizing fs bounce size offset written with
  | zero =>
      rw [available_eq_zero (.inl (by omega)), transferred_zero]
      exact returns_pure ⟨0, rfl, rfl, wrote_nil (requested_refl fs) _⟩
  | succ rounds induction =>
      unfold inodeWriteLoop
      by_cases finished : size ≤ 0
      · rw [if_pos finished, available_eq_zero (.inl finished), transferred_zero]
        exact returns_pure ⟨0, rfl, rfl, wrote_nil (requested_refl fs) _⟩
      rw [if_neg finished]
      by_cases past : inodeLength data ≤ offset
      · rw [available_eq_zero (.inr past), transferred_zero]
        dsimp only
        rw [if_pos (chunk_size_past_end past)]
        exact returns_pure ⟨0, rfl, rfl, wrote_nil (requested_refl fs) _⟩
      have within : (offset : Int) < inodeLength data := by omega
      obtain ⟨place, below⟩ := byte_to_sector_inside valid within
      obtain ⟨chunk, chunkEq, chunkPos, most, after⟩ := chunk_of_round (by omega : 0 < size) within
      have here := data_base_add data offset
      dsimp only
      rw [chunkEq, place, if_neg (by omega), Int.toNat_natCast]
      by_cases whole : offset % blockSectorSize = 0 ∧ chunk = blockSectorSize
      · obtain ⟨aligned, rfl⟩ := whole
        rw [if_pos ⟨aligned, rfl⟩]
        rw [aligned, Nat.add_zero] at here
        apply returns_bind (block_write_returns _ below)
        rintro _ _ rfl
        refine returns_mono (induction _ bounce _ _ _ valid (by omega)) ?_
        rintro total next ⟨count, counted, rfl, wrote⟩
        refine ⟨blockSectorSize + count, ?_, by omega, ?_⟩
        · rw [counted, after, transferred_sector _ aligned (by omega)]
        · rw [slice_append]
          apply wrote_append (Nat.le_refl _)
          rw [here] at wrote
          rw [slice_length, Nat.add_assoc]
          exact wrote
      · rw [if_neg (fun full => whole ⟨full.1, Int.natCast_inj.mp full.2⟩)]
        apply returns_bind (take_bounce_returns fs bounce)
        rintro taken middle ⟨⟨requests, grown, rfl⟩, rfl⟩
        cases bounce || fs.memory fs.requests with
        | false =>
            rw [if_neg (by simp)]
            apply returns_pure
            refine ⟨0, (transferred_short most whole).symm, rfl, ?_⟩
            exact wrote_nil ⟨requests, grown, rfl⟩ _
        | true =>
            have part : 0 < offset % blockSectorSize ∨
                (chunk : Int) < (blockSectorSize : Int) - (offset % blockSectorSize : Nat) := by
              by_cases aligned : offset % blockSectorSize = 0
              · have few : ¬chunk = blockSectorSize := fun full => whole ⟨aligned, full⟩
                omega
              · omega
            rw [if_pos rfl, if_pos part]
            apply returns_bind (@block_read_returns { fs with requests := requests } _ below)
            rintro sector _ ⟨rfl, read⟩
            apply returns_bind (@block_write_returns { fs with requests := requests } _ _ below)
            rintro _ _ rfl
            refine returns_mono (induction _ true _ _ _ valid (by omega)) ?_
            rintro total next ⟨count, counted, rfl, wrote⟩
            refine ⟨chunk + count, ?_, by omega, ?_⟩
            · rw [counted, after]
              simp only [transferred, Bool.true_or, if_true]
              omega
            · rw [slice_append]
              apply wrote_append grown
              rw [read, overwrite_splice (by rw [slice_length]; omega), here] at wrote
              rw [slice_length, Nat.add_assoc]
              exact wrote

/-- `inode_read_at` delivers one range of the file and changes nothing. -/
theorem inode_read_at_returns {fs : FileSys} {inode : Ptr} {target : Inode} (size : Int)
    (offset : Nat) (present : fs.inodes inode = some target)
    (valid : OnDevice fs.size target.data) :
    Returns (inodeReadAt inode size offset) fs fun bytes next =>
      Requested fs next ∧
        bytes = slice fs.disk (dataBase target.data + offset)
          (transferred (fs.memory fs.requests) offset (available target.data size offset)) := by
  apply returns_bind (inode_at_returns present)
  rintro _ _ ⟨rfl, rfl⟩
  exact read_loop_returns _ _ false size offset valid (by omega)

/-- `inode_write_at` writes one range of the file, unless writes are denied. -/
theorem inode_write_at_returns {fs : FileSys} {inode : Ptr} {target : Inode} (buffer : Nat → Byte)
    (size : Int) (offset : Nat) (present : fs.inodes inode = some target)
    (valid : OnDevice fs.size target.data) :
    Returns (inodeWriteAt inode buffer size offset) fs fun total next =>
      total = (if target.denyWriteCnt ≠ 0 then 0
        else transferred (fs.memory fs.requests) offset (available target.data size offset)) ∧
        Wrote fs next (dataBase target.data + offset) (slice buffer 0 total) := by
  apply returns_bind (inode_at_returns present)
  rintro target _ ⟨rfl, rfl⟩
  by_cases denied : target.denyWriteCnt ≠ 0
  · rw [if_pos denied, if_pos denied]
    exact returns_pure ⟨rfl, wrote_nil (requested_refl _) _⟩
  · rw [if_neg denied, if_neg denied]
    apply returns_mono (write_loop_returns buffer _ _ false size offset 0 valid (by omega))
    rintro total next ⟨count, counted, rfl, wrote⟩
    rw [Nat.zero_add]
    exact ⟨counted, wrote⟩

end Transfers

end UtSystems.Filesys.InodeData

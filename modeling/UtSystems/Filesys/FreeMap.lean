import UtSystems.Filesys.InodeData

/-!
# The free map

A bitmap is a list of bits; on the device it is an array of 32-bit elements, bit `i`
being bit `i % 8` of byte `i / 8`. `free_map_allocate` marks the first run of free
sectors, writes the whole bitmap to the free map file, and takes the marks back when
that write falls short.
-/

namespace UtSystems.Filesys.FreeMap

open Lib.Bytes Lib.Effects Filesys.Volume Filesys.InodeData

set_option autoImplicit false

/-- `FREE_MAP_SECTOR` and `ROOT_DIR_SECTOR` of filesys.h. -/
def freeMapSector : Nat := 0
def rootDirSector : Nat := 1

abbrev Bitmap := List Bool

def bitmapTest (b : Bitmap) (idx : Nat) : Bool := b.getD idx false

def bitmapContains (b : Bitmap) (start cnt : Nat) (value : Bool) : Bool :=
  (List.range cnt).any fun index => bitmapTest b (start + index) == value

def bitmapSetMultiple (b : Bitmap) (start cnt : Nat) (value : Bool) : Bitmap :=
  splice b start (List.replicate cnt value)

/-- `none` is `BITMAP_ERROR`. -/
def bitmapScan (b : Bitmap) (start cnt : Nat) (value : Bool) : Option Nat :=
  if cnt ≤ b.length then
    (List.range' start (b.length - cnt + 1 - start)).find? fun index =>
      !bitmapContains b index cnt (!value)
  else none

/-- The bytes of the elements that hold `bitCnt` bits. -/
def byteCnt (bitCnt : Nat) : Nat := 4 * ((bitCnt + 31) / 32)

def bitmapBytes (b : Bitmap) : Nat → Byte :=
  fun index => packBits fun bit => bitmapTest b (8 * index + bit)

def bitmapOfBytes (bitCnt : Nat) (bytes : List Byte) : Bitmap :=
  (List.range bitCnt).map fun index => (bytes.getD (index / 8) 0).getLsbD (index % 8)

def fileReadAt (file : Ptr) (size : Int) (fileOfs : Nat) : FsM (List Byte) := do
  inodeReadAt (← fileAt file).inode size fileOfs

def fileWriteAt (file : Ptr) (buffer : Nat → Byte) (size : Int) (fileOfs : Nat) : FsM Nat := do
  inodeWriteAt (← fileAt file).inode buffer size fileOfs

def bitmapWrite (b : Bitmap) (file : Ptr) : FsM Bool := do
  return (← fileWriteAt file (bitmapBytes b) (byteCnt b.length) 0) = byteCnt b.length

def setFreeMap (b : Bitmap) : FsM Unit := modify fun fs => { fs with freeMap := b }

/-- The first of `cnt` consecutive sectors, which are now marked as used. -/
def freeMapAllocate (cnt : Nat) : FsM (Option Nat) := do
  let fs ← get
  match bitmapScan fs.freeMap 0 cnt false with
  | none => return none
  | some sector =>
      let flipped := bitmapSetMultiple fs.freeMap sector cnt true
      setFreeMap flipped
      match fs.freeMapFile with
      | none => return some sector
      | some file =>
          if ← bitmapWrite flipped file then return some sector
          else
            setFreeMap (bitmapSetMultiple flipped sector cnt false)
            return none

def freeMapRelease (sector cnt : Nat) : FsM Unit := do
  let fs ← get
  if fs.freeMap.length < sector + cnt then throw .bitmapRange
  else if bitmapContains fs.freeMap sector cnt false then throw .notAllocated
  else
    let cleared := bitmapSetMultiple fs.freeMap sector cnt false
    setFreeMap cleared
    match fs.freeMapFile with
    | none => throw .dangling
    | some file =>
        let _ ← bitmapWrite cleared file
        return ()

section Bitmaps

variable {b : Bitmap} {start cnt : Nat} {value : Bool}

theorem bitmap_contains_iff :
    bitmapContains b start cnt value = true ↔
      ∃ index < cnt, bitmapTest b (start + index) = value := by
  simp [bitmapContains]

theorem bitmap_contains_false :
    bitmapContains b start cnt value = false ↔
      ∀ index < cnt, bitmapTest b (start + index) = !value := by
  rw [← Bool.not_eq_true, bitmap_contains_iff]
  constructor
  · intro absent index inside
    apply Bool.eq_not_of_ne
    intro found
    exact absent ⟨index, inside, found⟩
  · rintro all ⟨index, inside, found⟩
    have other := all index inside
    rw [found] at other
    simp at other

theorem bitmap_set_multiple_length (fits : start + cnt ≤ b.length) :
    (bitmapSetMultiple b start cnt value).length = b.length := by
  simp [bitmapSetMultiple, splice]
  omega

theorem bitmap_set_multiple_test (fits : start + cnt ≤ b.length) (idx : Nat) :
    bitmapTest (bitmapSetMultiple b start cnt value) idx =
      if start ≤ idx ∧ idx < start + cnt then value else bitmapTest b idx := by
  have head : (b.take start).length = start := by
    rw [List.length_take]
    omega
  simp only [bitmapTest, bitmapSetMultiple, splice, List.length_replicate, List.getD_eq_getElem?_getD]
  by_cases before : idx < start
  · rw [if_neg (by omega), List.append_assoc, List.getElem?_append_left (by omega),
      List.getElem?_take_of_lt before]
  · by_cases inside : idx < start + cnt
    · rw [if_pos (by omega),
        List.getElem?_append_left (by rw [List.length_append, head, List.length_replicate]; omega),
        List.getElem?_append_right (by omega), head, List.getElem?_replicate_of_lt (by omega)]
      rfl
    · rw [if_neg (by omega),
        List.getElem?_append_right (by rw [List.length_append, head, List.length_replicate]; omega),
        List.length_append, head, List.length_replicate, List.getElem?_drop]
      congr 2
      omega

theorem bitmap_ext {first second : Bitmap} (size : first.length = second.length)
    (same : ∀ idx, bitmapTest first idx = bitmapTest second idx) : first = second := by
  apply List.ext_getElem size
  intro idx inFirst inSecond
  have here := same idx
  simpa [bitmapTest, List.getD_eq_getElem?_getD, inFirst, inSecond] using here

/-- Taking back marks on sectors that were free restores the map. -/
theorem bitmap_set_multiple_undo (fits : start + cnt ≤ b.length)
    (free : ∀ index < cnt, bitmapTest b (start + index) = false) :
    bitmapSetMultiple (bitmapSetMultiple b start cnt true) start cnt false = b := by
  have size := @bitmap_set_multiple_length b start cnt true fits
  apply bitmap_ext
  · rw [bitmap_set_multiple_length (by omega), size]
  · intro idx
    rw [bitmap_set_multiple_test (by omega), bitmap_set_multiple_test fits]
    split
    · next inside =>
      have was := free (idx - start) (by omega)
      rw [show start + (idx - start) = idx by omega] at was
      exact was.symm
    · rfl

theorem bitmap_scan_some {sector : Nat} (found : bitmapScan b 0 cnt false = some sector) :
    sector + cnt ≤ b.length ∧ ∀ index < cnt, bitmapTest b (sector + index) = false := by
  unfold bitmapScan at found
  split at found
  · next enough =>
    have member := List.mem_of_find?_eq_some found
    have free := List.find?_some found
    rw [List.mem_range'_1] at member
    simp only [Bool.not_false, Bool.not_eq_true'] at free
    exact ⟨by omega, bitmap_contains_false.mp free⟩
  · cases found

theorem bitmap_scan_none :
    bitmapScan b 0 cnt false = none ↔
      ∀ start, start + cnt ≤ b.length → ∃ index < cnt, bitmapTest b (start + index) = true := by
  unfold bitmapScan
  split
  · next enough =>
    rw [List.find?_eq_none]
    simp only [List.mem_range'_1, Bool.not_false, Bool.not_eq_true, Bool.not_eq_false',
      bitmap_contains_iff]
    constructor
    · intro all start fits
      exact all start ⟨Nat.zero_le _, by omega⟩
    · intro all start bounds
      exact all start (by omega)
  · next short =>
    simp only [true_iff]
    intro start fits
    omega

theorem bitmap_of_bytes_bytes {count : Nat} (enough : byteCnt b.length ≤ count) :
    bitmapOfBytes b.length (slice (bitmapBytes b) 0 count) = b := by
  apply bitmap_ext
  · simp [bitmapOfBytes]
  · intro idx
    by_cases inside : idx < b.length
    · have place : idx / 8 < count := by
        unfold byteCnt at enough
        omega
      have bit := pack_bits_get (fun bit => bitmapTest b (8 * (idx / 8) + bit))
        (Nat.mod_lt idx (by decide : 8 > 0))
      have here : bitmapTest (bitmapOfBytes b.length (slice (bitmapBytes b) 0 count)) idx =
          (bitmapBytes b (idx / 8)).getLsbD (idx % 8) := by
        simp only [bitmapTest, bitmapOfBytes, List.getD_eq_getElem?_getD, List.getElem?_map,
          List.getElem?_range inside, Option.map_some, Option.getD_some]
        rw [slice_get place, Nat.zero_add]
        rfl
      rw [here]
      unfold bitmapBytes
      rw [bit, Nat.div_add_mod]
    · have past : b.length ≤ idx := by omega
      simp [bitmapTest, bitmapOfBytes, List.getD_eq_getElem?_getD, past]

end Bitmaps

/-- The free map file is open and its data lies on the device. -/
structure MapOpen (fs : FileSys) (file : Ptr) (target : Inode) : Prop where
  named : fs.freeMapFile = some file
  reached : ∃ handle, fs.files file = some handle ∧ fs.inodes handle.inode = some target
  valid : OnDevice fs.size target.data

/-- A write of the whole map to its file cannot fall short. -/
structure MapWritable (fs : FileSys) (target : Inode) : Prop where
  plenty : Plenty fs
  allowed : target.denyWriteCnt = 0
  room : byteCnt fs.freeMap.length ≤ (inodeLength target.data).toNat

/-- The free map has become `map`; on the device at most the data of `target` has changed,
and where `whole` is true it now begins with the bytes of `map`. -/
def MapChanged (fs next : FileSys) (target : Inode) (map : Bitmap) (whole : Prop) : Prop :=
  ∃ cells : List Byte, cells.length ≤ (inodeLength target.data).toNat ∧
    (whole → cells = slice (bitmapBytes map) 0 (byteCnt map.length)) ∧
    ∃ requests, fs.requests ≤ requests ∧
      next = { fs with
        freeMap := map
        disk := overwrite fs.disk (dataBase target.data) cells
        requests := requests }

section Effects

variable {fs : FileSys} {file : Ptr} {target : Inode}

theorem file_read_at_returns (size : Int) (fileOfs : Nat) {handle : File}
    (present : fs.files file = some handle) (reached : fs.inodes handle.inode = some target)
    (valid : OnDevice fs.size target.data) :
    Returns (fileReadAt file size fileOfs) fs fun bytes next =>
      Requested fs next ∧
        bytes = slice fs.disk (dataBase target.data + fileOfs)
          (transferred (fs.memory fs.requests) fileOfs
            (available target.data size fileOfs)) := by
  apply returns_bind (file_at_returns present)
  rintro handle _ ⟨rfl, rfl⟩
  exact inode_read_at_returns size fileOfs reached valid

theorem file_write_at_returns (buffer : Nat → Byte) (size : Int) (fileOfs : Nat) {handle : File}
    (present : fs.files file = some handle) (reached : fs.inodes handle.inode = some target)
    (valid : OnDevice fs.size target.data) :
    Returns (fileWriteAt file buffer size fileOfs) fs fun total next =>
      total = (if target.denyWriteCnt ≠ 0 then 0
        else transferred (fs.memory fs.requests) fileOfs (available target.data size fileOfs)) ∧
        Wrote fs next (dataBase target.data + fileOfs) (slice buffer 0 total) := by
  apply returns_bind (file_at_returns present)
  rintro handle _ ⟨rfl, rfl⟩
  exact inode_write_at_returns buffer size fileOfs reached valid

/-- What is written never passes the end of the file. -/
theorem written_bounded (denied : Bool) (bounce : Bool) (size : Int) (data : InodeDisk) :
    (if denied then 0 else transferred bounce 0 (available data size 0)) ≤
      (inodeLength data).toNat := by
  cases denied with
  | true => exact Nat.zero_le _
  | false =>
      have most := @transferred_le 0 bounce (available data size 0)
      have bound : available data size 0 ≤ (inodeLength data).toNat := by
        unfold available
        omega
      exact Nat.le_trans most bound

theorem bitmap_write_returns (b : Bitmap) {handle : File} (present : fs.files file = some handle)
    (reached : fs.inodes handle.inode = some target) (valid : OnDevice fs.size target.data) :
    Returns (bitmapWrite b file) fs fun written next =>
      ∃ total, (written = true ↔ total = byteCnt b.length) ∧
        total ≤ (inodeLength target.data).toNat ∧
        (target.denyWriteCnt = 0 → Plenty fs →
          byteCnt b.length ≤ (inodeLength target.data).toNat → total = byteCnt b.length) ∧
        Wrote fs next (dataBase target.data) (slice (bitmapBytes b) 0 total) := by
  apply returns_bind (file_write_at_returns (bitmapBytes b) (byteCnt b.length) 0 present reached
    valid)
  rintro total next ⟨counted, wrote⟩
  rw [Nat.add_zero] at wrote
  apply returns_pure
  refine ⟨total, by simp, ?_, ?_, wrote⟩
  · rw [counted]
    have bound := written_bounded (decide (target.denyWriteCnt ≠ 0)) (fs.memory fs.requests)
      (byteCnt b.length) target.data
    simpa using bound
  · intro allowed plenty room
    rw [counted, if_neg (by simpa using allowed), plenty fs.requests]
    simp only [transferred, available, if_true]
    omega

theorem map_changed_weaken {next : FileSys} {map : Bitmap} {whole part : Prop}
    (changed : MapChanged fs next target map whole) (weaker : part → whole) :
    MapChanged fs next target map part := by
  obtain ⟨cells, bounded, exact_, rest⟩ := changed
  exact ⟨cells, bounded, fun holds => exact_ (weaker holds), rest⟩

theorem map_changed_refl (fs : FileSys) (target : Inode) :
    MapChanged fs fs target fs.freeMap False :=
  ⟨[], Nat.zero_le _, False.elim, fs.requests, Nat.le_refl _, by rw [overwrite_nil]⟩

theorem map_open_changed {next : FileSys} {map : Bitmap} {written : Inode} {whole : Prop}
    (ready : MapOpen fs file target) (changed : MapChanged fs next written map whole) :
    MapOpen next file target := by
  obtain ⟨_, _, _, _, _, rfl⟩ := changed
  exact ⟨ready.named, ready.reached, ready.valid⟩

/-- Writing the changed map out to its file. -/
theorem map_write_returns {map : Bitmap} (sized : map.length = fs.freeMap.length)
    (ready : MapOpen fs file target) :
    Returns (bitmapWrite map file) { fs with freeMap := map } fun written next =>
      MapChanged fs next target map (written = true) ∧
        (MapWritable fs target → written = true) := by
  obtain ⟨handle, present, reached⟩ := ready.reached
  apply returns_mono (@bitmap_write_returns { fs with freeMap := map } file target map handle
    present reached ready.valid)
  rintro written next ⟨total, complete, bounded, enough, requests, grown, rfl⟩
  refine ⟨⟨slice (bitmapBytes map) 0 total, by rw [slice_length]; exact bounded, ?_, requests,
    grown, rfl⟩, ?_⟩
  · intro holds
    rw [complete.mp holds]
  · rintro ⟨plenty, allowed, room⟩
    apply complete.mpr
    apply enough allowed plenty
    rw [sized]
    exact room

/-- `free_map_allocate` marks a free run, or leaves the map as it was. -/
theorem free_map_allocate_returns (cnt : Nat) (ready : MapOpen fs file target) :
    Returns (freeMapAllocate cnt) fs fun result next =>
      match result with
      | none => MapChanged fs next target fs.freeMap False ∧
          (MapWritable fs target → next = fs ∧ bitmapScan fs.freeMap 0 cnt false = none)
      | some sector =>
          sector + cnt ≤ fs.freeMap.length ∧
            (∀ index < cnt, bitmapTest fs.freeMap (sector + index) = false) ∧
            MapChanged fs next target (bitmapSetMultiple fs.freeMap sector cnt true) True := by
  unfold freeMapAllocate
  apply returns_get
  cases scanned : bitmapScan fs.freeMap 0 cnt false with
  | none => exact returns_pure ⟨map_changed_refl fs target, fun _ => ⟨rfl, rfl⟩⟩
  | some sector =>
      obtain ⟨fits, free⟩ := bitmap_scan_some scanned
      simp only [ready.named]
      apply returns_modify
      apply returns_bind (map_write_returns (bitmap_set_multiple_length fits) ready)
      rintro written next ⟨changed, enough⟩
      cases written with
      | true =>
          apply returns_pure
          exact ⟨fits, free, map_changed_weaken changed fun _ => rfl⟩
      | false =>
          obtain ⟨cells, bounded, _, requests, grown, rfl⟩ := changed
          apply returns_modify
          apply returns_pure
          rw [bitmap_set_multiple_undo fits free]
          refine ⟨⟨cells, bounded, False.elim, requests, grown, rfl⟩, ?_⟩
          intro writable
          cases enough writable

/-- `free_map_release` of sectors that are all marked clears the marks. -/
theorem free_map_release_returns {sector cnt : Nat} (ready : MapOpen fs file target)
    (fits : sector + cnt ≤ fs.freeMap.length)
    (used : ∀ index < cnt, bitmapTest fs.freeMap (sector + index) = true) :
    Returns (freeMapRelease sector cnt) fs fun _ next =>
      MapChanged fs next target (bitmapSetMultiple fs.freeMap sector cnt false)
        (MapWritable fs target) := by
  have marked : bitmapContains fs.freeMap sector cnt false = false :=
    bitmap_contains_false.mpr used
  unfold freeMapRelease
  apply returns_get
  rw [if_neg (by omega), marked, if_neg (by simp)]
  simp only [ready.named]
  apply returns_modify
  apply returns_bind (map_write_returns (bitmap_set_multiple_length fits) ready)
  rintro written next ⟨changed, enough⟩
  exact returns_pure (map_changed_weaken changed enough)

/-- A written map is read back from its file. -/
theorem bitmap_of_written {map : Bitmap} {disk : Nat → Byte} {base length : Nat}
    (room : byteCnt map.length ≤ length) :
    bitmapOfBytes map.length (slice (overwrite disk base (slice (bitmapBytes map) 0
      (byteCnt map.length))) base length) = map := by
  have bytes : ∀ index < byteCnt map.length,
      (slice (overwrite disk base (slice (bitmapBytes map) 0 (byteCnt map.length))) base
        length).getD index 0 = (slice (bitmapBytes map) 0 (byteCnt map.length)).getD index 0 := by
    intro index inside
    have written : overwrite disk base (slice (bitmapBytes map) 0 (byteCnt map.length))
        (base + index) = bitmapBytes map index := by
      rw [overwrite_inside (by rw [slice_length]; exact inside)]
      apply Option.some.inj
      rw [← List.getElem?_eq_getElem, slice_get inside, Nat.zero_add]
    rw [List.getD_eq_getElem?_getD, List.getD_eq_getElem?_getD, slice_get (by omega),
      slice_get inside, written, Nat.zero_add]
  have whole := @bitmap_of_bytes_bytes map (byteCnt map.length) (Nat.le_refl _)
  refine Eq.trans ?_ whole
  apply List.map_congr_left
  intro index member
  rw [List.mem_range] at member
  have place : index / 8 < byteCnt map.length := by
    unfold byteCnt
    omega
  rw [bytes _ place]

end Effects

end UtSystems.Filesys.FreeMap

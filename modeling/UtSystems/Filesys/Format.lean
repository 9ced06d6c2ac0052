import UtSystems.Filesys.NamedFiles

/-!
# Formatting and starting the file system

`filesys_init` makes an empty free map, formats the device if it is told to, and reads the
free map from its file. A run that gets past it without a `PANIC` starts with a file system
that is in order. `free_map_close` leaves the pointer to the closed file in place; nothing
uses it before `free_map_open` stores the next one.
-/

namespace UtSystems.Filesys.Format

open Lib.Bytes Lib.Effects Filesys.Volume Filesys.InodeData Filesys.FreeMap Filesys.Inode
open Filesys.Directory Filesys.Ownership Filesys.Consistency Filesys.OpenInodes Filesys.OpenFiles
open Filesys.Creation Filesys.Entries Filesys.NamedInodes Filesys.NamedFiles

set_option autoImplicit false

/-- `malloc (0)` is null, so a bitmap without bits has no second object. -/
def bitmapCreate (bitCnt : Nat) : FsM (Option Bitmap) := do
  match ← malloc with
  | none => return none
  | some _ =>
      match ← malloc with
      | none => return if bitCnt = 0 then some [] else none
      | some _ => return some (List.replicate bitCnt false)

def bitmapMark (b : Bitmap) (idx : Nat) : Bitmap := b.set idx true

/-- The bytes read go over the elements in memory, and bits past the last one are masked. -/
def bitmapRead (file : Ptr) : FsM Bool := do
  let b := (← get).freeMap
  if b.length = 0 then return true
  else
    let bytes ← fileReadAt file (byteCnt b.length) 0
    setFreeMap (bitmapOfBytes b.length (splice (slice (bitmapBytes b) 0 (byteCnt b.length)) 0 bytes))
    return bytes.length = byteCnt b.length

def inodeInit : FsM Unit := modify fun fs => { fs with openInodes := [] }

def freeMapInit : FsM Unit := do
  match ← bitmapCreate (← get).size with
  | none => throw (.message "bitmap creation failed--file system device is too large")
  | some b => setFreeMap (bitmapMark (bitmapMark b freeMapSector) rootDirSector)

def setFreeMapFile (file : Option Ptr) : FsM Unit :=
  modify fun fs => { fs with freeMapFile := file }

def freeMapOpen : FsM Unit := do
  let file ← fileOpen (← inodeOpen freeMapSector)
  setFreeMapFile file
  match file with
  | none => throw (.message "can't open free map")
  | some file =>
      if ← bitmapRead file then return ()
      else throw (.message "can't read free map")

def freeMapClose : FsM Unit := do
  fileClose (← get).freeMapFile

def freeMapCreate : FsM Unit := do
  if ← inodeCreate freeMapSector (BitVec.ofNat 32 (byteCnt (← get).freeMap.length)) then
    let file ← fileOpen (← inodeOpen freeMapSector)
    setFreeMapFile file
    match file with
    | none => throw (.message "can't open free map")
    | some file =>
        if ← bitmapWrite (← get).freeMap file then return ()
        else throw (.message "can't write free map")
  else throw (.message "free map creation failed")

def doFormat : FsM Unit := do
  freeMapCreate
  if ← dirCreate rootDirSector 16 then freeMapClose
  else throw (.message "root directory creation failed")

def filesysInit (format : Bool) : FsM Unit := do
  inodeInit
  freeMapInit
  if format then doFormat
  freeMapOpen

def filesysDone : FsM Unit := freeMapClose

/-- The kernel at power-up, with a device of `size` sectors. -/
def powerUp (size : Nat) (disk : Disk) (memory : Nat → Bool) : FileSys where
  size := size
  disk := disk
  freeMap := []
  freeMapFile := none
  openInodes := []
  inodes := fun _ => none
  files := fun _ => none
  memory := memory
  requests := 0

/-- Nothing is open. -/
structure Bare (fs : FileSys) : Prop where
  openInodes : fs.openInodes = []
  inodes : fs.inodes = fun _ => none
  files : fs.files = fun _ => none

section Starting

variable {fs : FileSys} {inodes : Set Nat}

/-- A table with nothing in it. -/
theorem table_bare (bare : Bare fs) (stored : Stored fs.size fs.disk fs.freeMap inodes) :
    Table inodes fs Set.univ (fun _ => 0) where
  stored := stored
  nodup := by
    rw [bare.openInodes]
    exact List.nodup_nil
  listed := by
    intro inode
    rw [bare.openInodes, bare.inodes]
    simp
  inodeOld := by
    intro inode target present
    rw [bare.inodes] at present
    cases present
  fileOld := by
    intro file handle present
    rw [bare.files] at present
    cases present
  refersOld := by
    intro file handle present
    rw [bare.files] at present
    cases present
  sectorApart := by
    intro first second one two present
    rw [bare.inodes] at present
    cases present
  live := by
    intro inode target present
    rw [bare.inodes] at present
    cases present
  loaded := by
    intro inode target present
    rw [bare.inodes] at present
    cases present
  counted := by
    intro inode target present
    rw [bare.inodes] at present
    cases present
  reached := by
    intro file handle _ present
    rw [bare.files] at present
    cases present
  spare := by
    intro inode positive
    exact absurd positive (Nat.lt_irrefl _)

/-- The free map is read back and its file is the only open one. -/
structure Started (fs next : FileSys) : Prop where
  device : next.disk = fs.disk
  size : next.size = fs.size
  memory : next.memory = fs.memory
  freeMap : next.freeMap = bitmapOfBytes fs.freeMap.length (contents fs.disk freeMapSector)
  sound : ∀ inodes, freeMapSector ∈ inodes → Stored fs.size fs.disk next.freeMap inodes →
    Sound inodes next Set.univ (fun _ => 0)
  removed : removedSet next = ∅
  onlyMap : ∀ file handle target, next.files file = some handle →
    next.inodes handle.inode = some target → target.sector = freeMapSector

theorem bitmap_of_bytes_length (bitCnt : Nat) (bytes : List Byte) :
    (bitmapOfBytes bitCnt bytes).length = bitCnt := by
  simp [bitmapOfBytes]

/-- Bytes past the last element are not looked at. -/
theorem bitmap_of_bytes_longer {bitCnt first second : Nat} (disk : Disk) (base : Nat)
    (enough : byteCnt bitCnt ≤ first) (also : byteCnt bitCnt ≤ second) :
    bitmapOfBytes bitCnt (slice disk base first) = bitmapOfBytes bitCnt (slice disk base second) := by
  apply List.map_congr_left
  intro index member
  rw [List.mem_range] at member
  have place : index / 8 < byteCnt bitCnt := by
    unfold byteCnt
    omega
  rw [List.getD_eq_getElem?_getD, List.getD_eq_getElem?_getD, slice_get (by omega),
    slice_get (by omega)]

theorem bitmap_read_returns {file : Ptr} {handle : File} {target : Volume.Inode}
    (present : fs.files file = some handle) (reached : fs.inodes handle.inode = some target)
    (valid : OnDevice fs.size target.data)
    (room : byteCnt fs.freeMap.length ≤ (inodeLength target.data).toNat) :
    Returns (bitmapRead file) fs fun whole next =>
      (whole = true → ∃ requests, fs.requests ≤ requests ∧ next = { fs with
        freeMap := bitmapOfBytes fs.freeMap.length
          (slice fs.disk (dataBase target.data) (inodeLength target.data).toNat)
        requests := requests }) ∧
      (Plenty fs → whole = true) := by
  unfold bitmapRead
  apply returns_get
  dsimp only
  by_cases empty : fs.freeMap.length = 0
  · rw [if_pos empty]
    apply returns_pure
    refine ⟨fun _ => ⟨fs.requests, Nat.le_refl _, ?_⟩, fun _ => rfl⟩
    have nothing : fs.freeMap = bitmapOfBytes 0
        (slice fs.disk (dataBase target.data) (inodeLength target.data).toNat) :=
      List.length_eq_zero_iff.mp empty
    rw [empty, ← nothing]
  rw [if_neg empty]
  apply returns_bind (file_read_at_returns _ 0 present reached valid)
  rintro bytes _ ⟨⟨requests, grown, rfl⟩, delivered⟩
  have total : available target.data (byteCnt fs.freeMap.length) 0 =
      byteCnt fs.freeMap.length := by
    unfold available
    omega
  rw [total, Nat.add_zero] at delivered
  apply returns_modify
  apply returns_pure
  constructor
  · intro whole
    rw [decide_eq_true_eq] at whole
    have exact_ : bytes = slice fs.disk (dataBase target.data) (byteCnt fs.freeMap.length) := by
      rw [delivered, slice_length] at whole
      rw [delivered, whole]
    have filled : splice (slice (bitmapBytes fs.freeMap) 0 (byteCnt fs.freeMap.length)) 0 bytes =
        bytes := by
      unfold splice
      rw [whole, List.take_zero, List.nil_append, Nat.zero_add,
        List.drop_eq_nil_of_le (by rw [slice_length]), List.append_nil]
    refine ⟨requests, grown, ?_⟩
    rw [filled, exact_, bitmap_of_bytes_longer fs.disk _ (Nat.le_refl _) room]
  · intro plenty
    rw [decide_eq_true_eq, delivered, slice_length, plenty fs.requests]
    rfl

theorem table_map_file {held : Set Ptr} {extra : Ptr → Nat} (table : Table inodes fs held extra)
    (file : Option Ptr) : Table inodes { fs with freeMapFile := file } held extra where
  stored := table.stored
  nodup := table.nodup
  listed := table.listed
  inodeOld := table.inodeOld
  fileOld := table.fileOld
  refersOld := table.refersOld
  sectorApart := table.sectorApart
  live := table.live
  loaded := table.loaded
  counted := fun inode target present => counted_congr (table.counted inode target present) rfl
  reached := table.reached
  spare := table.spare

theorem inode_open_bare (bare : Bare fs) {sector : Nat} (inside : sector < fs.size) :
    Returns (inodeOpen sector) fs fun result next =>
      match result with
      | none => ¬Plenty fs
      | some inode => inode = fs.requests ∧ next = withInode fs sector := by
  have missing : findOpen fs sector = none := by
    unfold findOpen
    rw [bare.openInodes]
    rfl
  apply returns_mono (inode_open_absent missing inside)
  intro result next after
  cases result with
  | none =>
      intro plenty
      have refused := after.1
      rw [plenty fs.requests] at refused
      cases refused
  | some inode => exact after

/-- `file_open` of an inode, whatever becomes of the inode when memory runs short. -/
theorem file_open_ensures (fs : FileSys) (inode : Option Ptr) :
    Ensures (fileOpen inode) fs fun result next =>
      match result with
      | none => inode = none ∨ ¬Plenty fs
      | some file => ∃ opened, inode = some opened ∧ file = fs.requests ∧
          next = withFile fs opened := by
  unfold fileOpen
  refine ensures_bind (ensures_returns (malloc_returns fs)) ?_
  rintro pointer _ ⟨rfl, rfl⟩
  cases inode with
  | none =>
      refine ensures_bind (fun _ _ _ => trivial : Ensures _ _ fun _ _ => True) ?_
      intro _ _ _
      exact ensures_pure (.inl rfl)
  | some opened =>
      cases granted : fs.memory fs.requests with
      | false =>
          refine ensures_bind (fun _ _ _ => trivial : Ensures _ _ fun _ _ => True) ?_
          intro _ _ _
          apply ensures_pure
          refine .inr fun plenty => ?_
          rw [plenty fs.requests] at granted
          cases granted
      | true =>
          apply ensures_modify
          exact ensures_pure ⟨opened, rfl, rfl, rfl⟩

/-- The state after `free_map_open`. -/
def mapOpened (fs : FileSys) (map : Bitmap) (requests : Nat) : FileSys :=
  { withFile (withInode { fs with freeMap := map } freeMapSector) fs.requests with
    freeMapFile := some (fs.requests + 1)
    requests := requests }

theorem started_map_opened (bare : Bare fs) {requests : Nat} (grown : fs.requests + 2 ≤ requests)
    (sized : fs.freeMap.length = fs.size)
    (room : byteCnt fs.size ≤ (inodeLength (diskInode fs.disk freeMapSector)).toNat) :
    Started fs (mapOpened fs
      (bitmapOfBytes fs.freeMap.length (contents fs.disk freeMapSector)) requests) := by
  obtain ⟨map, isMap⟩ : ∃ map, map = bitmapOfBytes fs.freeMap.length
    (contents fs.disk freeMapSector) := ⟨_, rfl⟩
  rw [← isMap]
  have files : ∀ {file handle}, (mapOpened fs map requests).files file = some handle →
      file = fs.requests + 1 ∧ handle.inode = fs.requests ∧ handle.denyWrite = false := by
    intro file handle here
    change Function.update fs.files (fs.requests + 1) _ file = some handle at here
    by_cases same : file = fs.requests + 1
    · subst same
      rw [Function.update_self] at here
      cases here
      exact ⟨rfl, rfl, rfl⟩
    · rw [Function.update_of_ne same, bare.files] at here
      cases here
  have itsInodes : (mapOpened fs map requests).inodes fs.requests =
      some (loadedInode fs.disk freeMapSector) := by
    change Function.update fs.inodes fs.requests _ fs.requests = _
    rw [Function.update_self]
  have only : ∀ {inode target}, (mapOpened fs map requests).inodes inode = some target →
      target = loadedInode fs.disk freeMapSector := by
    intro inode target here
    change Function.update fs.inodes fs.requests _ inode = some target at here
    by_cases same : inode = fs.requests
    · subst same
      rw [Function.update_self] at here
      cases here
      rfl
    · rw [Function.update_of_ne same, bare.inodes] at here
      cases here
  refine ⟨rfl, rfl, rfl, isMap, ?_, ?_, ?_⟩
  · intro inodes here stored
    have bareAgain : Bare { fs with freeMap := map } := ⟨bare.openInodes, bare.inodes, bare.files⟩
    have missing : findOpen { fs with freeMap := map } freeMapSector = none := by
      unfold findOpen
      rw [bareAgain.openInodes]
      rfl
    have table := table_new_file (table_new_inode (table_bare bareAgain stored) here missing)
    have table := table_map_file (table_requested table ⟨requests, grown, rfl⟩)
      (some (fs.requests + 1))
    refine ⟨table, ?_, ?_, ?_, ?_⟩
    · refine ⟨fs.requests + 1, _, _, rfl, trivial, Function.update_self .., rfl, itsInodes, rfl⟩
    · intro file handle target there _ _
      rw [(files there).1]
      rfl
    · change byteCnt map.length ≤ _
      rw [isMap, bitmap_of_bytes_length, sized]
      exact room
    · intro _
      change bitmapOfBytes map.length (contents fs.disk freeMapSector) = map
      rw [isMap, bitmap_of_bytes_length]
  · ext sector
    simp only [Set.mem_empty_iff_false, iff_false]
    rintro ⟨inode, target, here, gone, _⟩
    rw [only here] at gone
    cases gone
  · intro file handle target _ there
    rw [only there]
    rfl

/-- What is read back when `bitmap_read` succeeds in the state that `free_map_open` builds. -/
theorem map_read_returns
    (valid : OnDevice fs.size (diskInode fs.disk freeMapSector))
    (sized : fs.freeMap.length = fs.size)
    (room : byteCnt fs.size ≤ (inodeLength (diskInode fs.disk freeMapSector)).toNat) :
    Returns (bitmapRead (fs.requests + 1))
      { withFile (withInode fs freeMapSector) fs.requests with
        freeMapFile := some (fs.requests + 1) } fun whole next =>
      (whole = true → ∃ requests, fs.requests + 2 ≤ requests ∧ next = mapOpened fs
        (bitmapOfBytes fs.freeMap.length (contents fs.disk freeMapSector)) requests) ∧
      (Plenty fs → whole = true) := by
  have handle : (withFile (withInode fs freeMapSector) fs.requests).files (fs.requests + 1) =
      some { inode := fs.requests, pos := 0, denyWrite := false } := Function.update_self ..
  have reached : (withFile (withInode fs freeMapSector) fs.requests).inodes fs.requests =
      some (loadedInode fs.disk freeMapSector) := Function.update_self ..
  refine returns_mono (@bitmap_read_returns
    { withFile (withInode fs freeMapSector) fs.requests with
      freeMapFile := some (fs.requests + 1) } _ _ _ handle reached valid
      (by rw [← sized] at room; exact room)) ?_
  rintro whole next ⟨read, enough⟩
  refine ⟨?_, enough⟩
  intro complete
  obtain ⟨requests, grown, rfl⟩ := read complete
  exact ⟨requests, grown, rfl⟩

theorem free_map_open_ensures (bare : Bare fs) (inside : freeMapSector < fs.size)
    (valid : OnDevice fs.size (diskInode fs.disk freeMapSector))
    (sized : fs.freeMap.length = fs.size)
    (room : byteCnt fs.size ≤ (inodeLength (diskInode fs.disk freeMapSector)).toNat) :
    Ensures freeMapOpen fs fun _ next => Started fs next := by
  unfold freeMapOpen
  refine ensures_bind (ensures_returns (inode_open_bare bare inside)) ?_
  rintro opened first result
  refine ensures_bind (file_open_ensures first opened) ?_
  rintro (_ | file) second created
  · apply ensures_modify
    exact ensures_throw
  obtain ⟨inode, rfl, rfl, rfl⟩ := created
  obtain ⟨rfl, rfl⟩ := result
  apply ensures_modify
  refine ensures_bind (ensures_returns (map_read_returns valid sized room)) ?_
  rintro whole third ⟨read, _⟩
  cases whole with
  | false => exact ensures_throw
  | true =>
      obtain ⟨requests, grown, rfl⟩ := read rfl
      exact ensures_pure (started_map_opened bare grown sized room)

end Starting

section Formatting

variable {fs : FileSys}

/-- The map `free_map_init` makes. -/
def firstMap (size : Nat) : Bitmap :=
  bitmapMark (bitmapMark (List.replicate size false) freeMapSector) rootDirSector

theorem first_map_length (size : Nat) : (firstMap size).length = size := by
  simp [firstMap, bitmapMark]

theorem first_map_marks {size cell : Nat} (inside : cell < size)
    (reserved : cell = freeMapSector ∨ cell = rootDirSector) : cell ∈ marked (firstMap size) := by
  change bitmapTest (firstMap size) cell = true
  unfold firstMap bitmapMark bitmapTest
  rw [List.getD_eq_getElem?_getD, List.getElem?_set]
  split
  · simp [*]
  · next notRoot =>
    rcases reserved with rfl | rfl
    · rw [List.getElem?_set_self (by simpa using inside)]
      rfl
    · exact absurd rfl notRoot

theorem bitmap_create_returns (fs : FileSys) (bitCnt : Nat) :
    Returns (bitmapCreate bitCnt) fs fun result next =>
      Requested fs next ∧
        (result = some (List.replicate bitCnt false) ∨ (result = none ∧ ¬Plenty fs)) := by
  unfold bitmapCreate
  apply returns_bind (malloc_returns fs)
  rintro first _ ⟨rfl, rfl⟩
  cases granted : fs.memory fs.requests with
  | false =>
      apply returns_pure
      refine ⟨⟨fs.requests + 1, Nat.le_succ _, rfl⟩, .inr ⟨rfl, fun plenty => ?_⟩⟩
      rw [plenty fs.requests] at granted
      cases granted
  | true =>
      apply returns_bind (malloc_returns _)
      rintro second _ ⟨rfl, rfl⟩
      dsimp only
      cases again : fs.memory (fs.requests + 1) with
      | false =>
          apply returns_pure
          refine ⟨⟨fs.requests + 2, by omega, rfl⟩, ?_⟩
          by_cases empty : bitCnt = 0
          · rw [if_pos empty, empty]
            exact .inl rfl
          · rw [if_neg empty]
            refine .inr ⟨rfl, fun plenty => ?_⟩
            rw [plenty (fs.requests + 1)] at again
            cases again
      | true =>
          apply returns_pure
          exact ⟨⟨fs.requests + 2, by omega, rfl⟩, .inl rfl⟩

/-- `free_map_init` changes nothing but the map. -/
theorem free_map_init_ensures (fs : FileSys) :
    Ensures freeMapInit fs fun _ next => ∃ requests, fs.requests ≤ requests ∧
      next = { fs with freeMap := firstMap fs.size, requests := requests } := by
  unfold freeMapInit
  apply ensures_get
  refine ensures_bind (ensures_returns (bitmap_create_returns fs fs.size)) ?_
  rintro result _ ⟨⟨requests, grown, rfl⟩, rfl | ⟨rfl, _⟩⟩
  · exact ensures_returns (returns_modify_last ⟨requests, grown, rfl⟩)
  · exact ensures_throw

/-- `free_map_allocate` while there is no free map file yet. -/
theorem free_map_allocate_bare (cnt : Nat) (unnamed : fs.freeMapFile = none) :
    Returns (freeMapAllocate cnt) fs fun result next =>
      match result with
      | none => next = fs
      | some start => start + cnt ≤ fs.freeMap.length ∧
          (∀ index < cnt, bitmapTest fs.freeMap (start + index) = false) ∧
          next = { fs with freeMap := bitmapSetMultiple fs.freeMap start cnt true } := by
  unfold freeMapAllocate
  apply returns_get
  cases scanned : bitmapScan fs.freeMap 0 cnt false with
  | none => exact returns_pure rfl
  | some start =>
      obtain ⟨fits, free⟩ := bitmap_scan_some scanned
      dsimp only
      rw [unnamed]
      apply returns_modify
      exact returns_pure ⟨fits, free, by rw [unnamed]⟩

theorem block_write_past {sector : Nat} {buffer : List Byte} {Result : Type}
    {rest : Unit → FsM Result} {post : Result → FileSys → Prop} (past : fs.size ≤ sector) :
    Ensures (blockWrite sector buffer >>= rest) fs post := by
  have fails : Ensures (blockWrite sector buffer) fs fun _ _ => False := by
    unfold blockWrite
    apply ensures_get
    rw [if_pos past]
    exact ensures_throw
  exact ensures_bind fails (fun _ _ impossible => impossible.elim)

/-- The length of the free map file. -/
def mapBytes (size : Nat) : Word := BitVec.ofNat 32 (byteCnt size)

theorem map_bytes_length {size : Nat} (small : size < 2 ^ 21) :
    (mapBytes size).toInt = byteCnt size := by
  have bound : byteCnt size < 2 ^ 31 := by
    unfold byteCnt
    omega
  unfold mapBytes
  rw [BitVec.toInt_ofNat', Int.bmod_def]
  omega

/-- The free map file has been created where the first map has free sectors. -/
structure MapMade (fs next : FileSys) : Prop where
  bare : Bare next
  size : next.size = fs.size
  memory : next.memory = fs.memory
  table : Table {freeMapSector} next Set.univ (fun _ => 0)
  length : inodeLength (diskInode next.disk freeMapSector) = byteCnt fs.size
  room : rootDirSector < fs.size
  rootFree : Unowned {freeMapSector} next.disk rootDirSector
  rootMarked : rootDirSector ∈ marked next.freeMap

theorem map_inode_ensures (bare : Bare fs) (unnamed : fs.freeMapFile = none)
    (small : fs.size < 2 ^ 21) (first : fs.freeMap = firstMap fs.size) :
    Ensures (inodeCreate freeMapSector (mapBytes fs.size)) fs fun result next =>
      result = true → MapMade fs next := by
  have length := map_bytes_length small
  have sized : fs.freeMap.length = fs.size := by
    rw [first]
    exact first_map_length _
  unfold inodeCreate
  rw [if_neg (by omega)]
  refine ensures_bind (ensures_returns (malloc_returns fs)) ?_
  rintro pointer _ ⟨rfl, rfl⟩
  cases fs.memory fs.requests with
  | false => exact ensures_pure (fun impossible => by cases impossible)
  | true =>
      refine ensures_bind (ensures_returns (@free_map_allocate_bare
        { fs with requests := fs.requests + 1 } _ unnamed)) ?_
      rintro (_ | start) middle result
      · exact ensures_pure (fun impossible => by cases impossible)
      obtain ⟨fits, free, rfl⟩ := result
      dsimp only at fits free
      by_cases empty : fs.size ≤ freeMapSector
      · exact block_write_past empty
      have zeroMarked : freeMapSector ∈ marked fs.freeMap := by
        rw [first]
        exact first_map_marks (by omega) (.inl rfl)
      have clear : ∀ cell, start ≤ cell → cell < start + bytesToSectors (mapBytes fs.size).toInt →
          cell ∉ marked fs.freeMap := by
        intro cell lower upper used
        have here := free (cell - start) (by omega)
        rw [show start + (cell - start) = cell by omega] at here
        have set_ : bitmapTest fs.freeMap cell = true := used
        rw [here] at set_
        cases set_
      have apart : ¬(start ≤ freeMapSector ∧
          freeMapSector < start + bytesToSectors (mapBytes fs.size).toInt) :=
        fun inside => clear _ inside.1 inside.2 zeroMarked
      have some_ : 0 < bytesToSectors (mapBytes fs.size).toInt := by
        have count := @bytes_to_sectors_eq (mapBytes fs.size).toInt (by omega) (by
          rw [length]
          unfold byteCnt
          omega)
        rw [length] at count ⊢
        unfold byteCnt freeMapSector at *
        omega
      have beyond : rootDirSector < fs.size := by
        have notZero : start ≠ 0 := by
          rintro rfl
          exact apart ⟨Nat.le_refl _, by unfold freeMapSector; omega⟩
        unfold rootDirSector
        omega
      have rootMarked : rootDirSector ∈ marked fs.freeMap := by
        rw [first]
        exact first_map_marks beyond (.inr rfl)
      have marks := @marked_allocated start fs.freeMap _ fits
      have stored : Stored fs.size fs.disk (bitmapSetMultiple fs.freeMap start
          (bytesToSectors (mapBytes fs.size).toInt) true) ∅ := by
        refine ⟨?_, fun _ none_ => none_.elim, fun _ none_ => none_.elim,
          fun _ none_ => none_.elim, fun _ none_ => none_.elim⟩
        rw [bitmap_set_multiple_length fits, sized]
      have bareMiddle : Bare { fs with
          freeMap := bitmapSetMultiple fs.freeMap start
            (bytesToSectors (mapBytes fs.size).toInt) true
          requests := fs.requests + 1 } := ⟨bare.openInodes, bare.inodes, bare.files⟩
      refine ensures_returns (returns_mono (create_finish_returns (table_bare bareMiddle stored)
        small (by omega) (by dsimp only; omega) apart (fun _ _ _ none_ => none_.elim) ?_) ?_)
      · dsimp only
        rw [marks]
        rintro cell (rfl | inside)
        · exact .inl zeroMarked
        · exact .inr inside
      · rintro result last ⟨rfl, rfl, _, table⟩ _
        have inode := @formatted_inode freeMapSector start (mapBytes fs.size) fs.disk apart
        have cells := @new_inode_footprint freeMapSector start (mapBytes fs.size) fs.disk
          (by omega) apart
        rw [insert_empty_eq] at table
        refine ⟨⟨bare.openInodes, bare.inodes, bare.files⟩, rfl, rfl, table, ?_, beyond, ?_, ?_⟩
        · dsimp only
          rw [inode]
          exact length
        · rintro owner rfl inside
          dsimp only at inside
          rw [cells] at inside
          rcases inside with same | ⟨lower, upper⟩
          · cases same
          · exact clear _ lower upper rootMarked
        · dsimp only
          rw [marks]
          exact .inl rootMarked

/-- The free map file is open, and there is no other. -/
structure MapReadyOnly (fs next : FileSys) : Prop where
  size : next.size = fs.size
  memory : next.memory = fs.memory
  sound : Sound {freeMapSector} next Set.univ (fun _ => 0)
  onlyFile : ∀ file handle, next.files file = some handle → next.freeMapFile = some file
  unremoved : removedSet next = ∅
  room : rootDirSector < fs.size
  rootFree : Unowned {freeMapSector} next.disk rootDirSector
  rootMarked : rootDirSector ∈ marked next.freeMap

theorem free_map_create_ensures (bare : Bare fs) (unnamed : fs.freeMapFile = none)
    (small : fs.size < 2 ^ 21) (first : fs.freeMap = firstMap fs.size) :
    Ensures freeMapCreate fs fun _ next => MapReadyOnly fs next := by
  unfold freeMapCreate
  apply ensures_get
  have same : BitVec.ofNat 32 (byteCnt fs.freeMap.length) = mapBytes fs.size := by
    rw [first, first_map_length]
    rfl
  rw [same]
  refine ensures_bind (map_inode_ensures bare unnamed small first) ?_
  rintro (_ | _) made holds
  · exact ensures_throw
  rw [if_pos rfl]
  obtain ⟨madeBare, madeSize, madeMemory, table, length, room, rootFree, rootMarked⟩ := holds rfl
  have inside : freeMapSector < made.size := by
    rw [madeSize]
    unfold freeMapSector
    omega
  have missing : findOpen made freeMapSector = none := by
    unfold findOpen
    rw [madeBare.openInodes]
    rfl
  refine ensures_bind (ensures_returns (inode_open_bare madeBare inside)) ?_
  rintro opened second result
  refine ensures_bind (file_open_ensures second opened) ?_
  rintro (_ | file) third created
  · apply ensures_modify
    exact ensures_throw
  obtain ⟨inode, rfl, rfl, rfl⟩ := created
  obtain ⟨rfl, rfl⟩ := result
  apply ensures_modify
  apply ensures_get
  have member : freeMapSector ∈ ({freeMapSector} : Set Nat) := rfl
  have sized : made.freeMap.length = made.size := table.stored.mapLength
  have valid := table.stored.valid _ member
  have ready := table_map_file (table_new_file (table_new_inode table member missing))
    (some (made.requests + 1))
  have handle : (withFile (withInode made freeMapSector) made.requests).files
      (made.requests + 1) = some { inode := made.requests, pos := 0, denyWrite := false } :=
    Function.update_self ..
  have reached : (withFile (withInode made freeMapSector) made.requests).inodes made.requests =
      some (loadedInode made.disk freeMapSector) := Function.update_self ..
  refine ensures_bind (ensures_returns (@bitmap_write_returns
    { withFile (withInode made freeMapSector) made.requests with
      freeMapFile := some (made.requests + 1) } _ _ made.freeMap _ handle reached valid)) ?_
  rintro written last ⟨total, complete, bounded, _, requests, grown, rfl⟩
  cases written with
  | false => exact ensures_throw
  | true =>
      apply ensures_pure
      have whole := complete.mp rfl
      have fits : 0 + (slice (bitmapBytes made.freeMap) 0 total).length ≤
          (inodeLength (diskInode made.disk freeMapSector)).toNat := by
        rw [slice_length, Nat.zero_add]
        exact bounded
      have confined := confined_write table.stored member fits
      rw [Nat.add_zero] at confined
      have sameInode := confined.inode _ member
      have files : ∀ {file handle}, (withFile (withInode made freeMapSector) made.requests).files
          file = some handle → file = made.requests + 1 := by
        intro file found here
        change Function.update made.files (made.requests + 1) _ file = some found at here
        by_contra different
        rw [Function.update_of_ne different, madeBare.files] at here
        cases here
      have enough : byteCnt made.freeMap.length ≤
          (inodeLength (diskInode made.disk freeMapSector)).toNat := by
        rw [length, sized, madeSize]
        omega
      refine ⟨madeSize, madeMemory, ⟨?_, ?_, ?_, ?_, ?_⟩, ?_, ?_, room, ?_, rootMarked⟩
      · exact table_device ready grown (stored_disk table.stored confined.inode) confined.inode
      · exact ⟨made.requests + 1, _, _, rfl, trivial, handle, rfl, reached, rfl⟩
      · intro file found target here _ _
        rw [files here]
      · dsimp only
        change byteCnt made.freeMap.length ≤ (inodeLength (diskInode (overwrite made.disk
          (dataBase (diskInode made.disk freeMapSector))
          (slice (bitmapBytes made.freeMap) 0 total)) freeMapSector)).toNat
        rw [sameInode]
        exact enough
      · intro _
        change bitmapOfBytes made.freeMap.length (contents (overwrite made.disk
          (dataBase (diskInode made.disk freeMapSector))
          (slice (bitmapBytes made.freeMap) 0 total)) freeMapSector) = made.freeMap
        unfold contents
        rw [sameInode, whole]
        exact bitmap_of_written enough
      · intro file found here
        rw [files here]
      · ext sector
        simp only [Set.mem_empty_iff_false, iff_false]
        rintro ⟨other, target, here, gone, _⟩
        rcases with_inode_some here with ⟨_, rfl⟩ | ⟨_, was⟩
        · cases gone
        · rw [madeBare.inodes] at was
          cases was
      · exact unowned_confined rootFree confined

/-- `file_allow_write` of a file that does not deny writes. -/
theorem file_allow_idle {file : Ptr} {handle : File} (present : fs.files file = some handle)
    (allows : handle.denyWrite = false) :
    Returns (fileAllowWrite file) fs fun _ next => next = fs := by
  unfold fileAllowWrite
  apply returns_bind (file_at_returns present)
  rintro _ _ ⟨rfl, rfl⟩
  rw [allows, if_neg (by simp)]
  exact returns_pure rfl

/-- `free_map_close` writes nothing. -/
theorem free_map_close_returns {inodes : Set Nat} (sound : Sound inodes fs Set.univ (fun _ => 0))
    (kept : freeMapSector ∉ removedSet fs) :
    Returns freeMapClose fs fun _ next =>
      next.disk = fs.disk ∧ next.freeMap = fs.freeMap ∧ next.size = fs.size ∧
        next.memory = fs.memory ∧ Table inodes next Set.univ (fun _ => 0) ∧
        ∃ file, fs.freeMapFile = some file ∧ next.files = Function.update fs.files file none := by
  obtain ⟨file, handle, target, named, _, present, allows, reached, place⟩ := sound.mapFile
  have stays : ¬Vanishes target :=
    fun vanishes => kept ⟨handle.inode, target, reached, vanishes.2, place⟩
  unfold freeMapClose
  apply returns_get
  rw [named]
  unfold fileClose
  apply returns_bind (file_allow_idle present allows)
  rintro _ _ rfl
  apply returns_bind (file_at_returns present)
  rintro _ _ ⟨rfl, rfl⟩
  apply returns_bind (inode_close_kept (table_leave sound.toTable present allows) reached stays)
  rintro _ closed ⟨keeps, disk, freeMap, _, table⟩
  apply returns_modify_last
  refine ⟨disk, freeMap, keeps.size, keeps.memory, table_free table, file, rfl, ?_⟩
  dsimp only
  rw [keeps.files]

/-- Closing the last file leaves nothing open. -/
theorem bare_of_no_file {inodes : Set Nat} (table : Table inodes fs Set.univ (fun _ => 0))
    (files : fs.files = fun _ => none) : Bare fs := by
  have none_ : ∀ inode, fs.inodes inode = none := by
    intro inode
    cases here : fs.inodes inode with
    | none => rfl
    | some target =>
        have counted := table.counted inode target here
        have noHolder : holders fs Set.univ inode = ∅ := by
          ext file
          simp only [Set.mem_empty_iff_false, iff_false]
          rintro ⟨_, handle, there, _⟩
          rw [files] at there
          cases there
        have opened := counted.opened
        have positive := counted.positive
        rw [noHolder, Set.ncard_empty] at opened
        omega
  refine ⟨?_, funext none_, files⟩
  apply List.eq_nil_iff_forall_not_mem.mpr
  intro inode member
  obtain ⟨target, here⟩ := (table.listed inode).mp member
  rw [none_ inode] at here
  cases here

/-- What `do_format` leaves on the device. -/
structure Formatted (fs next : FileSys) : Prop where
  bare : Bare next
  size : next.size = fs.size
  memory : next.memory = fs.memory
  stored : Stored next.size next.disk next.freeMap {rootDirSector, freeMapSector}
  mapRoom : byteCnt next.size ≤ (inodeLength (diskInode next.disk freeMapSector)).toNat
  recorded : bitmapOfBytes next.freeMap.length (contents next.disk freeMapSector) = next.freeMap
  rootLength : Sized rootPlace next.disk
  rootEmpty : contents next.disk rootDirSector = List.replicate 320 0

theorem do_format_ensures (bare : Bare fs) (unnamed : fs.freeMapFile = none)
    (small : fs.size < 2 ^ 21) (first : fs.freeMap = firstMap fs.size) :
    Ensures doFormat fs fun _ next => Formatted fs next := by
  unfold doFormat
  refine ensures_bind (free_map_create_ensures bare unnamed small first) ?_
  rintro _ mapped made
  have length : (BitVec.ofNat 32 (16 * entrySize) : Word).toInt = 320 := rfl
  refine ensures_bind (ensures_returns (inode_create_returns made.sound (by rw [length]; decide)
    made.rootFree made.rootMarked)) ?_
  rintro result created (⟨rfl, its⟩ | ⟨rfl, _⟩)
  · rw [if_pos rfl]
    have unremoved : freeMapSector ∉ removedSet created := by
      intro gone
      have was := its.kept.removed gone
      rw [made.unremoved] at was
      exact was
    refine ensures_returns (returns_mono (free_map_close_returns its.sound unremoved) ?_)
    rintro _ closed ⟨disk, freeMap, size, memory, table, file, named, files⟩
    have noFile : closed.files = fun _ => none := by
      funext other
      rw [files]
      by_cases same : other = file
      · rw [same, Function.update_self]
      · rw [Function.update_of_ne same, its.kept.files]
        cases here : mapped.files other with
        | none => rfl
        | some handle =>
            have isMap := made.onlyFile other handle here
            rw [its.kept.freeMapFile, isMap] at named
            cases named
            exact absurd rfl same
    have mapLength := its.sound.stored.mapLength
    have mapRoom := its.sound.mapRoom
    refine ⟨bare_of_no_file table noFile, ?_, ?_, table.stored, ?_, ?_, ?_, ?_⟩
    · rw [size, its.kept.size, made.size]
    · rw [memory, its.kept.memory, made.memory]
    · rw [size, disk, ← mapLength]
      exact mapRoom
    · rw [freeMap, disk]
      exact its.recorded
    · unfold Sized
      rw [disk]
      change inodeLength (diskInode created.disk rootDirSector) = _
      unfold inodeLength
      rw [its.size]
      rfl
    · rw [disk, its.zero, length]
      rfl
  · exact ensures_throw

theorem slice_replicate {Cell : Type} {memory : Nat → Cell} {base count : Nat} {value : Cell}
    (same : slice memory base count = List.replicate count value) {index : Nat}
    (inside : index < count) : memory (base + index) = value := by
  have here := @slice_get _ memory base count index inside
  rw [same, List.getElem?_replicate_of_lt inside] at here
  exact (Option.some.inj here).symm

/-- A directory full of zeros has no entry in use. -/
theorem no_entry_in_use {disk : Disk} {place : Place} (sized : Sized place disk)
    (zero : contents disk place.sector =
      List.replicate (inodeLength (diskInode disk place.sector)).toNat 0)
    {index : Nat} (bound : index < place.entries) : (entryAt place disk index).inUse = 0 := by
  have inside : entrySize * index + 19 < (inodeLength (diskInode disk place.sector)).toNat := by
    unfold Sized at sized
    rw [sized]
    unfold entrySize
    omega
  have byte := slice_replicate zero inside
  unfold entryAt decodeEntry
  dsimp only
  rw [List.getD_eq_getElem?_getD, slice_get (by decide), Nat.add_assoc, byte]
  rfl

theorem catalog_formatted {next : FileSys} (formatted_ : Formatted fs next) {last : FileSys}
    (started : Started next last) : Catalog rootPlace {rootDirSector, freeMapSector} last := by
  have sized : Sized rootPlace last.disk := by
    rw [started.device]
    exact formatted_.rootLength
  have noName : ∀ index sector, ¬Names rootPlace last.disk index sector := by
    rintro index sector ⟨bound, inUse, _⟩
    apply inUse
    apply no_entry_in_use sized _ bound
    rw [started.device]
    have length := formatted_.rootLength
    unfold Sized at length
    rw [length]
    exact formatted_.rootEmpty
  constructor
  case dirIn => exact Set.mem_insert _ _
  case dirApart => exact Nat.one_ne_zero
  case sized => exact sized
  case named => exact fun index sector names => absurd names (noName index sector)
  case entriesApart => exact fun first _ sector names => absurd names (noName first sector)
  case fixed =>
    rw [started.removed]
    exact ⟨Set.notMem_empty _, Set.notMem_empty _⟩
  case noFile =>
    intro file handle target here reached
    rw [started.onlyMap file handle target here reached]
    exact Nat.zero_ne_one

/-- A formatted device starts in order, whether or not memory was short on the way. -/
theorem filesys_init_format_ensures (size : Nat) (disk : Disk) (memory : Nat → Bool)
    (small : size < 2 ^ 21) :
    Ensures (filesysInit true) (powerUp size disk memory) fun _ next =>
      InOrder rootPlace next (fun _ => 0) ∧ next.memory = memory ∧ next.size = size ∧
        ∀ file handle, next.files file = some handle → next.freeMapFile = some file := by
  unfold filesysInit inodeInit
  apply ensures_modify
  refine ensures_bind (free_map_init_ensures _) ?_
  rintro _ _ ⟨requests, grown, rfl⟩
  rw [if_pos rfl]
  refine ensures_bind (do_format_ensures ⟨rfl, rfl, rfl⟩ rfl small rfl) ?_
  intro _ made formatted_
  have sized := formatted_.stored.mapLength
  have valid := formatted_.stored.valid freeMapSector (Set.mem_insert_of_mem _ rfl)
  have inside := inode_lt formatted_.stored (Set.mem_insert_of_mem rootDirSector
    (Set.mem_singleton freeMapSector))
  intro _ next result
  have started := free_map_open_ensures formatted_.bare inside valid sized formatted_.mapRoom _ _
    result
  have freeMap : next.freeMap = made.freeMap := by
    rw [started.freeMap]
    exact formatted_.recorded
  have sound := started.sound {rootDirSector, freeMapSector} (Set.mem_insert_of_mem _ rfl)
    (by rw [freeMap]; exact formatted_.stored)
  refine ⟨⟨_, sound, catalog_formatted formatted_ started⟩, ?_, ?_, ?_⟩
  · rw [started.memory, formatted_.memory]
    rfl
  · rw [started.size, formatted_.size]
    rfl
  · intro file handle here
    obtain ⟨target, reached⟩ := sound.reached file handle trivial here
    exact sound.mapOnly file handle target here reached
      (started.onlyMap file handle target here reached)

end Formatting

end UtSystems.Filesys.Format

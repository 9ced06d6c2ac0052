import UtSystems.Filesys.SectorOwners

/-!
# A free map without gaps

As long as nothing has been released, the sectors in use are the first ones of the device.
`free_map_allocate` then takes the next ones, and it finds them as long as enough are left.
-/

namespace UtSystems.Filesys.PackedMap

open Lib.Bytes Lib.Effects Filesys.Volume Filesys.InodeData Filesys.FreeMap Filesys.Inode
open Filesys.Directory Filesys.Ownership Filesys.Consistency Filesys.Creation Filesys.Entries
open Filesys.Format

set_option autoImplicit false

/-- The first `used` sectors are in use, and no others. -/
def Packed (map : Bitmap) (used : Nat) : Prop :=
  ∀ cell < map.length, bitmapTest map cell = decide (cell < used)

section Maps

variable {map : Bitmap} {used cnt start : Nat}

/-- The first run of free sectors begins behind the sectors in use. -/
theorem packed_scan (packed : Packed map used) (some_ : 0 < cnt)
    (found : bitmapScan map 0 cnt false = some start) : start = used ∧ used + cnt ≤ map.length := by
  obtain ⟨fits, free⟩ := bitmap_scan_some found
  have above : used ≤ start := by
    have first := free 0 some_
    rw [packed _ (by omega), decide_eq_false_iff_not] at first
    omega
  unfold bitmapScan at found
  rw [if_pos (by omega), List.find?_range'_eq_some] at found
  obtain ⟨_, _, first⟩ := found
  have below : start ≤ used := by
    by_contra later
    have taken := first used (Nat.zero_le _) (by omega)
    rw [Bool.not_not, Bool.not_false, bitmap_contains_iff] at taken
    obtain ⟨index, inside, marked_⟩ := taken
    rw [packed _ (by omega), decide_eq_true_eq] at marked_
    omega
  omega

theorem packed_scan_finds (packed : Packed map used) (room : used + cnt ≤ map.length) :
    bitmapScan map 0 cnt false ≠ none := by
  intro none_
  obtain ⟨index, inside, marked_⟩ := bitmap_scan_none.mp none_ used room
  rw [packed _ (by omega), decide_eq_true_eq] at marked_
  omega

theorem packed_allocated (packed : Packed map used)
    (found : bitmapScan map 0 cnt false = some start) :
    Packed (bitmapSetMultiple map start cnt true) (used + cnt) := by
  obtain ⟨fits, _⟩ := bitmap_scan_some found
  intro cell inside
  rw [bitmap_set_multiple_length fits] at inside
  rw [bitmap_set_multiple_test fits]
  cases Nat.eq_zero_or_pos cnt with
  | inl zero =>
      rw [if_neg (by omega), packed cell inside, zero, Nat.add_zero]
  | inr some_ =>
      obtain ⟨same, _⟩ := packed_scan packed some_ found
      rw [same]
      by_cases new : used ≤ cell ∧ cell < used + cnt
      · rw [if_pos new]
        exact (decide_eq_true new.2).symm
      · rw [if_neg new, packed cell inside]
        apply decide_eq_decide.mpr
        omega

theorem packed_first (size : Nat) : Packed (firstMap size) 2 := by
  intro cell inside
  rw [first_map_length] at inside
  by_cases reserved : cell < 2
  · rw [decide_eq_true reserved]
    apply first_map_marks inside
    unfold freeMapSector rootDirSector
    omega
  · rw [decide_eq_false reserved]
    unfold firstMap bitmapMark bitmapTest freeMapSector rootDirSector
    rw [List.getD_eq_getElem?_getD, List.getElem?_set_ne (by omega), List.getElem?_set_ne (by omega),
      List.getElem?_replicate_of_lt inside]
    rfl

end Maps

/-! ## Operations that leave the map alone -/

section Keeping

/-- The program does not change the free map in memory. -/
def KeepsMap {Value : Type} (program : FsM Value) : Prop :=
  ∀ fs, Ensures program fs fun _ next => next.freeMap = fs.freeMap

variable {Value Result : Type}

theorem keeps_pure (value : Value) : KeepsMap (pure value) := fun _ => ensures_pure rfl

theorem keeps_throw (panic : Panic) : KeepsMap (throw panic : FsM Value) := fun _ => ensures_throw

theorem keeps_bind {program : FsM Value} {rest : Value → FsM Result} (first : KeepsMap program)
    (second : ∀ value, KeepsMap (rest value)) : KeepsMap (program >>= rest) := by
  intro fs
  refine ensures_bind (first fs) ?_
  intro value middle same
  rw [← same]
  exact second value middle

theorem keeps_get {rest : FileSys → FsM Result} (second : ∀ fs, KeepsMap (rest fs)) :
    KeepsMap (get >>= rest) := fun fs => ensures_get (second fs fs)

theorem keeps_modify (change : FileSys → FileSys)
    (same : ∀ fs, (change fs).freeMap = fs.freeMap) : KeepsMap (modify change) :=
  fun fs => ensures_returns (returns_modify_last (same fs))

theorem malloc_keeps : KeepsMap malloc := by
  intro fs
  apply ensures_returns
  apply returns_mono (malloc_returns fs)
  intro _ _ after
  rw [after.1]

theorem block_read_keeps (sector : Nat) : KeepsMap (blockRead sector) := by
  apply keeps_get
  intro fs
  split
  · exact keeps_throw _
  · exact keeps_pure _

theorem block_write_keeps (sector : Nat) (buffer : List Byte) :
    KeepsMap (blockWrite sector buffer) := by
  intro fs
  unfold blockWrite
  apply ensures_get
  by_cases past : fs.size ≤ sector
  · rw [if_pos past]
    exact ensures_throw
  · rw [if_neg past]
    exact ensures_returns ⟨_, _, rfl, rfl⟩

theorem zero_sectors_keeps (start count : Nat) : KeepsMap (zeroSectors start count) := by
  induction count generalizing start with
  | zero => exact keeps_pure _
  | succ count induction =>
      exact keeps_bind (block_write_keeps _ _) fun _ => induction (start + 1)

theorem inode_at_keeps (inode : Ptr) : KeepsMap (inodeAt inode) := by
  apply keeps_get
  intro fs
  cases fs.inodes inode with
  | none => exact keeps_throw _
  | some target => exact keeps_pure _

theorem file_at_keeps (file : Ptr) : KeepsMap (fileAt file) := by
  apply keeps_get
  intro fs
  cases fs.files file with
  | none => exact keeps_throw _
  | some handle => exact keeps_pure _

theorem take_bounce_keeps (bounce : Bool) : KeepsMap (takeBounce bounce) := by
  unfold takeBounce
  split
  · exact keeps_pure _
  · exact keeps_bind malloc_keeps fun _ => keeps_pure _

theorem write_loop_keeps (data : InodeDisk) (buffer : Nat → Byte) (rounds : Nat) (bounce : Bool)
    (size : Int) (offset written : Nat) :
    KeepsMap (inodeWriteLoop data buffer rounds bounce size offset written) := by
  induction rounds generalizing bounce size offset written with
  | zero => exact keeps_pure _
  | succ rounds induction =>
      unfold inodeWriteLoop
      dsimp only
      split
      · exact keeps_pure _
      split
      · exact keeps_pure _
      split
      · exact keeps_bind (block_write_keeps _ _) fun _ => induction _ _ _ _
      · apply keeps_bind (take_bounce_keeps bounce)
        intro taken
        cases taken with
        | false => exact keeps_pure _
        | true =>
            rw [if_pos rfl]
            split
            · refine keeps_bind (block_read_keeps _) fun sector => ?_
              exact keeps_bind (block_write_keeps _ _) fun _ => induction _ _ _ _
            · refine keeps_bind (keeps_pure _) fun sector => ?_
              exact keeps_bind (block_write_keeps _ _) fun _ => induction _ _ _ _

theorem bitmap_write_keeps (b : Bitmap) (file : Ptr) : KeepsMap (bitmapWrite b file) := by
  refine keeps_bind (keeps_bind (file_at_keeps file) fun handle =>
    keeps_bind (inode_at_keeps handle.inode) fun target => ?_) fun _ => keeps_pure _
  split
  · exact keeps_pure _
  · exact write_loop_keeps _ _ _ _ _ _ _

theorem inode_open_keeps (sector : Nat) : KeepsMap (inodeOpen sector) := by
  apply keeps_get
  intro fs
  cases findOpen fs sector with
  | some inode =>
      refine keeps_bind (keeps_bind (inode_at_keeps inode) fun _ => ?_) fun _ => keeps_pure _
      exact keeps_modify _ fun _ => rfl
  | none =>
      apply keeps_bind malloc_keeps
      intro pointer
      cases pointer with
      | none => exact keeps_pure _
      | some inode =>
          refine keeps_bind (keeps_modify _ fun _ => rfl) fun _ => ?_
          refine keeps_bind (block_read_keeps _) fun _ => ?_
          exact keeps_bind (keeps_modify _ fun _ => rfl) fun _ => keeps_pure _

end Keeping

section Allocating

variable {fs : FileSys} {inodes : Set Nat} {held : Set Ptr} {extra : Ptr → Nat} {cnt used : Nat}

/-- `free_map_allocate` takes the run that the scan finds. -/
theorem allocate_scans (fs : FileSys) (cnt : Nat) :
    Ensures (freeMapAllocate cnt) fs fun result _ =>
      ∀ start, result = some start → bitmapScan fs.freeMap 0 cnt false = some start := by
  unfold freeMapAllocate
  apply ensures_get
  cases scanned : bitmapScan fs.freeMap 0 cnt false with
  | none => exact ensures_pure fun start impossible => nomatch impossible
  | some start =>
      have same : ∀ other, some start = some other → some start = some other := fun _ eq => eq
      apply ensures_modify
      cases fs.freeMapFile with
      | none => exact ensures_pure same
      | some file =>
          refine ensures_bind (fun _ _ _ => trivial : Ensures _ _ fun _ _ => True) ?_
          intro written next _
          cases written with
          | true => exact ensures_pure same
          | false =>
              apply ensures_modify
              exact ensures_pure fun other impossible => nomatch impossible

/-- How `free_map_allocate` changes the map. -/
def Allocates (cnt : Nat) (fs : FileSys) : Prop :=
  Ensures (freeMapAllocate cnt) fs fun result next => ∀ start, result = some start →
    next.freeMap = bitmapSetMultiple fs.freeMap start cnt true

theorem allocates_sound (sound : Sound inodes fs held extra) : Allocates cnt fs := by
  apply ensures_returns
  apply returns_mono (allocate_returns sound cnt)
  intro result next after start isStart
  obtain ⟨_, _, _, _, rest⟩ := after
  rw [isStart] at rest
  exact rest.2.2.1

theorem allocates_bare (unnamed : fs.freeMapFile = none) : Allocates cnt fs := by
  apply ensures_returns
  apply returns_mono (free_map_allocate_bare cnt unnamed)
  intro result next after start isStart
  rw [isStart] at after
  rw [after.2.2]

theorem allocate_packed (allocates : Allocates cnt fs) (packed : Packed fs.freeMap used) :
    Ensures (freeMapAllocate cnt) fs fun result next =>
      ∀ start, result = some start → Packed next.freeMap (used + cnt) := by
  intro result next ran start isStart
  have found := allocate_scans fs cnt result next ran start isStart
  rw [allocates result next ran start isStart]
  exact packed_allocated packed found

/-- `inode_create` takes the data sectors behind those in use. -/
theorem inode_create_packed {sector : Nat} {length : Word}
    (allocates : Allocates (bytesToSectors length.toInt) { fs with requests := fs.requests + 1 })
    (packed : Packed fs.freeMap used) :
    Ensures (inodeCreate sector length) fs fun result next => result = true →
      Packed next.freeMap (used + bytesToSectors length.toInt) := by
  unfold inodeCreate
  split
  · exact ensures_throw
  refine ensures_bind (ensures_returns (malloc_returns fs)) ?_
  intro pointer middle after
  obtain ⟨isMiddle, isPointer⟩ := after
  rw [isMiddle, isPointer]
  cases fs.memory fs.requests with
  | false => exact ensures_pure fun impossible => nomatch impossible
  | true =>
      refine ensures_bind (allocate_packed allocates packed) ?_
      intro found allocated marks
      cases found with
      | none => exact ensures_pure fun impossible => nomatch impossible
      | some start =>
          refine ensures_bind (block_write_keeps _ _ _) ?_
          intro _ written same
          refine ensures_bind (zero_sectors_keeps _ _ _) ?_
          intro _ zeroed again
          apply ensures_pure
          intro _
          rw [again, same]
          exact marks start rfl

/-- With memory and sectors to spare, `free_map_allocate` does not fail. -/
theorem allocate_succeeds (sound : Sound inodes fs held extra) (plenty : Plenty fs)
    (packed : Packed fs.freeMap used) (room : used + cnt ≤ fs.size) :
    Ensures (freeMapAllocate cnt) fs fun result _ => result ≠ none := by
  apply ensures_returns
  apply returns_mono (allocate_returns sound cnt)
  intro result next after failed
  obtain ⟨_, _, _, _, rest⟩ := after
  rw [failed] at rest
  apply packed_scan_finds packed _ (rest.2 plenty).2
  rw [sound.stored.mapLength]
  exact room

theorem inode_create_succeeds {sector : Nat} {length : Word}
    (sound : Sound inodes fs held extra) (plenty : Plenty fs) (packed : Packed fs.freeMap used)
    (room : used + bytesToSectors length.toInt ≤ fs.size) :
    Ensures (inodeCreate sector length) fs fun result _ => result = true := by
  unfold inodeCreate
  split
  · exact ensures_throw
  refine ensures_bind (ensures_returns (malloc_returns fs)) ?_
  intro pointer middle after
  obtain ⟨isMiddle, isPointer⟩ := after
  have requested : Requested fs { fs with requests := fs.requests + 1 } :=
    ⟨fs.requests + 1, Nat.le_succ _, rfl⟩
  rw [isMiddle, isPointer, plenty fs.requests]
  refine ensures_bind (@allocate_succeeds { fs with requests := fs.requests + 1 } inodes held extra _
    used (sound_requested sound requested) plenty packed room) ?_
  intro found allocated some_
  cases found with
  | none => exact absurd rfl some_
  | some start =>
      refine ensures_bind (fun _ _ _ => trivial : Ensures _ _ fun _ _ => True) ?_
      intro _ _ _
      refine ensures_bind (fun _ _ _ => trivial : Ensures _ _ fun _ _ => True) ?_
      intro _ _ _
      exact ensures_pure rfl

end Allocating

/-! ## Formatting -/

section Formatting

variable {fs : FileSys}

/-- The sectors in use after `do_format`: two inodes, the free map and the root directory. -/
def formatSectors (size : Nat) : Nat := 2 + bytesToSectors (mapBytes size).toInt + 1

theorem free_map_create_packed (unnamed : fs.freeMapFile = none)
    (first : fs.freeMap = firstMap fs.size) :
    Ensures freeMapCreate fs fun _ next =>
      Packed next.freeMap (2 + bytesToSectors (mapBytes fs.size).toInt) := by
  have packed : Packed fs.freeMap 2 := by
    rw [first]
    exact packed_first fs.size
  have same : BitVec.ofNat 32 (byteCnt fs.freeMap.length) = mapBytes fs.size := by
    rw [first, first_map_length]
    rfl
  unfold freeMapCreate
  apply ensures_get
  rw [same]
  refine ensures_bind (inode_create_packed (allocates_bare unnamed) packed) ?_
  intro result made marks
  cases result with
  | false => exact ensures_throw
  | true =>
      refine ensures_bind (inode_open_keeps _ _) ?_
      intro opened second openedMap
      refine ensures_bind (file_open_ensures second opened) ?_
      intro file third created
      cases file with
      | none =>
          apply ensures_modify
          exact ensures_throw
      | some file =>
          obtain ⟨inode, _, _, isThird⟩ := created
          apply ensures_modify
          apply ensures_get
          refine ensures_bind (bitmap_write_keeps _ _ _) ?_
          intro written last lastMap
          cases written with
          | false => exact ensures_throw
          | true =>
              apply ensures_pure
              have thirdMap : third.freeMap = second.freeMap := by
                rw [isThird]
                rfl
              have whole : last.freeMap = made.freeMap :=
                lastMap.trans (thirdMap.trans openedMap)
              rw [whole]
              exact marks rfl

theorem do_format_packed (bare : Bare fs) (unnamed : fs.freeMapFile = none)
    (small : fs.size < 2 ^ 21) (first : fs.freeMap = firstMap fs.size) :
    Ensures doFormat fs fun _ next => Packed next.freeMap (formatSectors fs.size) := by
  have length : (BitVec.ofNat 32 (16 * entrySize) : Word).toInt = 320 := rfl
  unfold doFormat
  refine ensures_bind (ensures_and (free_map_create_ensures bare unnamed small first)
    (free_map_create_packed unnamed first)) ?_
  intro _ mapped made
  obtain ⟨ready, packed⟩ := made
  refine ensures_bind (ensures_and (ensures_returns (inode_create_returns ready.sound
    (by rw [length]; decide) ready.rootFree ready.rootMarked))
    (inode_create_packed (allocates_sound (sound_requested ready.sound
      ⟨mapped.requests + 1, Nat.le_succ _, rfl⟩)) packed)) ?_
  intro result created after
  obtain ⟨outcome, marks⟩ := after
  cases outcome with
  | inl success =>
      obtain ⟨isTrue, its⟩ := success
      rw [isTrue]
      have unremoved : freeMapSector ∉ removedSet created := by
        intro gone
        have was := its.kept.removed gone
        rw [ready.unremoved] at was
        exact was
      apply ensures_returns
      apply returns_mono (free_map_close_returns its.sound unremoved)
      intro _ closed closes
      rw [closes.2.1]
      have whole := marks isTrue
      rw [length] at whole
      exact whole
  | inr failure =>
      rw [failure.1]
      exact ensures_throw

/-- A device that has just been formatted has an empty root directory and no gaps. -/
theorem format_fresh (size : Nat) (disk : Disk) (memory : Nat → Bool) (small : size < 2 ^ 21) :
    Ensures (filesysInit true) (powerUp size disk memory) fun _ next =>
      Packed next.freeMap (formatSectors size) ∧
        ∀ index < rootPlace.entries, (entryAt rootPlace next.disk index).inUse = 0 := by
  unfold filesysInit inodeInit
  apply ensures_modify
  refine ensures_bind (free_map_init_ensures _) ?_
  intro _ mapped isMapped
  obtain ⟨requests, _, eq⟩ := isMapped
  rw [eq, if_pos rfl]
  refine ensures_bind (ensures_and (do_format_ensures ⟨rfl, rfl, rfl⟩ rfl small rfl)
    (do_format_packed ⟨rfl, rfl, rfl⟩ rfl small rfl)) ?_
  intro _ made after
  obtain ⟨formatted_, packed⟩ := after
  have valid := formatted_.stored.valid freeMapSector (Set.mem_insert_of_mem _ rfl)
  have inside := inode_lt formatted_.stored (Set.mem_insert_of_mem rootDirSector
    (Set.mem_singleton freeMapSector))
  intro _ next result
  have started := free_map_open_ensures formatted_.bare inside valid formatted_.stored.mapLength
    formatted_.mapRoom _ _ result
  have freeMap : next.freeMap = made.freeMap := by
    rw [started.freeMap]
    exact formatted_.recorded
  constructor
  · rw [freeMap]
    exact packed
  · intro index bound
    rw [started.device]
    apply no_entry_in_use formatted_.rootLength _ bound
    have length := formatted_.rootLength
    unfold Sized at length
    rw [length]
    exact formatted_.rootEmpty

end Formatting

end UtSystems.Filesys.PackedMap

import UtSystems.Filesys.SectorOwners

/-!
# The contents of a file as an array of bytes

With memory for the bounce buffer, `inode_read_at` and `inode_write_at` move all the bytes
there are up to the end of the file. Accesses to files whose extents do not overlap, at
given offsets or at the positions of open files, behave as accesses to one array a file.
-/

namespace UtSystems.Filesys.ByteArrays

open Lib.Bytes Lib.Effects Filesys.Volume Filesys.InodeData Filesys.Inode Filesys.Ownership
open Filesys.Consistency Filesys.Format Filesys.SectorOwners

set_option autoImplicit false

section Arrays

def arrayRead (bytes : List Byte) (size : Int) (offset : Nat) : List Byte :=
  (bytes.drop offset).take size.toNat

def arrayRoom (bytes : List Byte) (size : Int) (offset : Nat) : Nat :=
  min size.toNat (bytes.length - offset)

def arrayWrite (bytes : List Byte) (buffer : Nat → Byte) (size : Int) (offset : Nat) : List Byte :=
  splice bytes offset (slice buffer 0 (arrayRoom bytes size offset))

/-- Files by the address of their inode, and open files by their own. -/
structure Arrays where
  data : Ptr → List Byte
  denied : Ptr → Bool
  files : Ptr → Option File

inductive Access where
  | readAt (inode : Ptr) (size : Int) (offset : Nat)
  | writeAt (inode : Ptr) (buffer : Nat → Byte) (size : Int) (offset : Nat)
  | read (file : Ptr) (size : Int)
  | write (file : Ptr) (buffer : Nat → Byte) (size : Int)
  | seek (file : Ptr) (newPos : Nat)

inductive Answer where
  | bytes (delivered : List Byte)
  | count (written : Nat)
  | moved

def Arrays.store (arrays : Arrays) (inode : Ptr) (bytes : List Byte) : Arrays :=
  { arrays with data := Function.update arrays.data inode bytes }

/-- The bytes written and the arrays after it. -/
def Arrays.writeAt (arrays : Arrays) (inode : Ptr) (buffer : Nat → Byte) (size : Int)
    (offset : Nat) : Nat × Arrays :=
  if arrays.denied inode then (0, arrays)
  else (arrayRoom (arrays.data inode) size offset,
    arrays.store inode (arrayWrite (arrays.data inode) buffer size offset))

def Arrays.place (arrays : Arrays) (file : Ptr) (handle : File) (pos : Nat) : Arrays :=
  { arrays with files := Function.update arrays.files file (some { handle with pos := pos }) }

def Arrays.perform (arrays : Arrays) : Access → Option (Answer × Arrays)
  | .readAt inode size offset => some (.bytes (arrayRead (arrays.data inode) size offset), arrays)
  | .writeAt inode buffer size offset =>
      let (written, next) := arrays.writeAt inode buffer size offset
      some (.count written, next)
  | .read file size => do
      let handle ← arrays.files file
      let delivered := arrayRead (arrays.data handle.inode) size handle.pos
      return (.bytes delivered, arrays.place file handle (handle.pos + delivered.length))
  | .write file buffer size => do
      let handle ← arrays.files file
      let (written, next) := arrays.writeAt handle.inode buffer size handle.pos
      return (.count written, next.place file handle (handle.pos + written))
  | .seek file newPos => do
      let handle ← arrays.files file
      return (.moved, arrays.place file handle newPos)

def Arrays.performAll (arrays : Arrays) : List Access → Option (List Answer × Arrays)
  | [] => some ([], arrays)
  | access :: rest => do
      let (answer, next) ← arrays.perform access
      let (answers, last) ← next.performAll rest
      return (answer :: answers, last)

end Arrays

def Access.perform : Access → FsM Answer
  | .readAt inode size offset => return .bytes (← inodeReadAt inode size offset)
  | .writeAt inode buffer size offset => return .count (← inodeWriteAt inode buffer size offset)
  | .read file size => return .bytes (← fileRead file size)
  | .write file buffer size => return .count (← fileWrite file buffer size)
  | .seek file newPos => do
      fileSeek file newPos
      return .moved

def performAll : List Access → FsM (List Answer)
  | [] => return []
  | access :: rest => do
      let answer ← access.perform
      return answer :: (← performAll rest)

/-- The data of an inode on the device. -/
def dataOf (disk : Disk) (data : InodeDisk) : List Byte :=
  slice disk (dataBase data) (inodeLength data).toNat

section Calls

variable {fs : FileSys} {inode : Ptr} {target : Volume.Inode}

theorem transferred_plenty (plenty : Plenty fs) (offset total : Nat) :
    transferred (fs.memory fs.requests) offset total = total := by
  rw [plenty fs.requests]
  rfl

theorem available_room (disk : Disk) (data : InodeDisk) (size : Int) (offset : Nat) :
    available data size offset = arrayRoom (dataOf disk data) size offset := by
  unfold available arrayRoom dataOf
  rw [slice_length]
  omega

theorem slice_array_read (disk : Disk) (data : InodeDisk) (size : Int) (offset : Nat) :
    slice disk (dataBase data + offset) (available data size offset) =
      arrayRead (dataOf disk data) size offset := by
  unfold arrayRead dataOf
  by_cases inside : offset ≤ (inodeLength data).toNat
  · have split : ((slice disk (dataBase data) (inodeLength data).toNat).drop offset) =
        slice disk (dataBase data + offset) ((inodeLength data).toNat - offset) := by
      have whole := @slice_drop_take _ disk (dataBase data) (inodeLength data).toNat offset
        ((inodeLength data).toNat - offset) (by omega)
      rw [← whole, List.take_of_length_le]
      rw [List.length_drop, slice_length]
    rw [split]
    have total : available data size offset = min size.toNat ((inodeLength data).toNat - offset) := by
      unfold available
      omega
    have prefix_ := @slice_drop_take _ disk (dataBase data + offset)
      ((inodeLength data).toNat - offset) 0 (available data size offset) (by omega)
    rw [List.drop_zero, Nat.add_zero] at prefix_
    rw [← prefix_, total]
    apply List.ext_getElem?
    intro index
    rw [List.getElem?_take, List.getElem?_take]
    by_cases beyond : index < (inodeLength data).toNat - offset
    · by_cases within : index < size.toNat
      · rw [if_pos (by omega), if_pos within]
      · rw [if_neg (by omega), if_neg within]
    · rw [slice_get_of_ge (by omega)]
      split <;> split <;> rfl
  · have past : available data size offset = 0 := by
      unfold available
      omega
    rw [past, List.drop_eq_nil_of_le (by rw [slice_length]; omega), List.take_nil]
    rfl

theorem read_at_delivers (plenty : Plenty fs) (present : fs.inodes inode = some target)
    (valid : OnDevice fs.size target.data) (size : Int) (offset : Nat) :
    Returns (inodeReadAt inode size offset) fs fun bytes next =>
      Requested fs next ∧ bytes = arrayRead (dataOf fs.disk target.data) size offset := by
  apply returns_mono (inode_read_at_returns size offset present valid)
  rintro bytes next ⟨requested, delivered⟩
  rw [transferred_plenty plenty, slice_array_read] at delivered
  exact ⟨requested, delivered⟩

theorem write_at_denied (present : fs.inodes inode = some target)
    (valid : OnDevice fs.size target.data) (denied : target.denyWriteCnt ≠ 0)
    (buffer : Nat → Byte) (size : Int) (offset : Nat) :
    Returns (inodeWriteAt inode buffer size offset) fs fun total next =>
      total = 0 ∧ Requested fs next := by
  apply returns_mono (inode_write_at_returns buffer size offset present valid)
  rintro total next ⟨count, requests, grown, changed⟩
  rw [if_pos denied] at count
  subst count
  refine ⟨rfl, requests, grown, ?_⟩
  rw [changed, slice_zero, overwrite_nil]

theorem write_at_stores (plenty : Plenty fs) (present : fs.inodes inode = some target)
    (valid : OnDevice fs.size target.data) (allowed : target.denyWriteCnt = 0)
    (buffer : Nat → Byte) (size : Int) (offset : Nat) :
    Returns (inodeWriteAt inode buffer size offset) fs fun total next =>
      total = arrayRoom (dataOf fs.disk target.data) size offset ∧
        Wrote fs next (dataBase target.data + offset) (slice buffer 0 total) := by
  apply returns_mono (inode_write_at_returns buffer size offset present valid)
  rintro total next ⟨count, wrote⟩
  rw [if_neg (by rw [allowed]; exact fun absurd_ => absurd_ rfl), transferred_plenty plenty,
    available_room fs.disk] at count
  exact ⟨count, wrote⟩

end Calls

/-- The arrays show the data of the inodes of a group and the open files. The extents of two
inodes of the group do not overlap. -/
structure Shows (group : Set Ptr) (fs : FileSys) (arrays : Arrays) : Prop where
  plenty : Plenty fs
  present : ∀ inode ∈ group, ∃ target, fs.inodes inode = some target ∧
    OnDevice fs.size target.data ∧ arrays.data inode = dataOf fs.disk target.data ∧
    arrays.denied inode = decide (target.denyWriteCnt ≠ 0)
  apart : ∀ first ∈ group, ∀ second ∈ group, first ≠ second → ∀ one two,
    fs.inodes first = some one → fs.inodes second = some two →
    ∀ cell ∈ extent one.data, cell ∉ extent two.data
  files : arrays.files = fs.files

/-- An access to an inode of the group, or to an open file on one. -/
def Access.Within (group : Set Ptr) (files : Ptr → Option File) : Access → Prop
  | .readAt inode .. | .writeAt inode .. => inode ∈ group
  | .read file _ | .write file .. | .seek file _ =>
      ∃ handle, files file = some handle ∧ handle.inode ∈ group

/-- Bytes outside of the extents of the group stay as they are. -/
def Spared (group : Set Ptr) (fs next : FileSys) : Prop :=
  ∀ address, (∀ inode ∈ group, ∀ target, fs.inodes inode = some target →
    address / blockSectorSize ∉ extent target.data) → next.disk address = fs.disk address

section Steps

variable {group : Set Ptr} {fs next : FileSys} {arrays : Arrays} {inode : Ptr}
  {target : Volume.Inode}

theorem shows_requested (shows_ : Shows group fs arrays) (requested : Requested fs next) :
    Shows group next arrays := by
  obtain ⟨requests, _, rfl⟩ := requested
  exact ⟨shows_.plenty, shows_.present, shows_.apart, shows_.files⟩

theorem shows_place (shows_ : Shows group fs arrays) (file : Ptr) (handle : File) (pos : Nat) :
    Shows group { fs with
      files := Function.update fs.files file (some { handle with pos := pos }) }
      (arrays.place file handle pos) := by
  refine ⟨shows_.plenty, shows_.present, shows_.apart, ?_⟩
  unfold Arrays.place
  rw [shows_.files]

/-- The data of an inode whose extent is not written to. -/
theorem data_of_elsewhere {disk other : Disk} {data : InodeDisk} (valid : OnDevice fs.size data)
    (same : ∀ address, address / blockSectorSize ∈ extent data → other address = disk address) :
    dataOf other data = dataOf disk data := by
  apply slice_congr
  intro index inside
  exact same _ (data_in_extent valid inside)

theorem array_room_fits (disk : Disk) (data : InodeDisk) (size : Int) (offset : Nat)
    (some_ : 0 < arrayRoom (dataOf disk data) size offset) :
    offset + arrayRoom (dataOf disk data) size offset ≤ (inodeLength data).toNat := by
  unfold arrayRoom dataOf at *
  rw [slice_length] at *
  omega

/-- A write that writes nothing leaves the array as it is. -/
theorem array_write_none {bytes : List Byte} {buffer : Nat → Byte} {size : Int} {offset : Nat}
    (none_ : arrayRoom bytes size offset = 0) : arrayWrite bytes buffer size offset = bytes := by
  unfold arrayWrite splice
  rw [none_, slice_zero, List.append_nil, List.length_nil, Nat.add_zero, List.take_append_drop]

theorem shows_wrote (shows_ : Shows group fs arrays) (member : inode ∈ group)
    (present : fs.inodes inode = some target) (buffer : Nat → Byte) (size : Int) (offset : Nat)
    (wrote : Wrote fs next (dataBase target.data + offset)
      (slice buffer 0 (arrayRoom (dataOf fs.disk target.data) size offset))) :
    Shows group next (arrays.store inode (arrayWrite (arrays.data inode) buffer size offset)) ∧
      Spared group fs next := by
  unfold Arrays.store
  obtain ⟨found, here, valid, data, _⟩ := shows_.present inode member
  rw [present] at here
  obtain rfl := Option.some.inj here
  by_cases none_ : arrayRoom (dataOf fs.disk target.data) size offset = 0
  · obtain ⟨requests, grown, rfl⟩ := wrote
    rw [none_, slice_zero, overwrite_nil]
    rw [data, array_write_none none_, ← data, Function.update_eq_self]
    exact ⟨⟨shows_.plenty, shows_.present, shows_.apart, shows_.files⟩, fun _ _ => rfl⟩
  have fits := array_room_fits fs.disk target.data size offset (by omega)
  obtain ⟨requests, grown, rfl⟩ := wrote
  have elsewhere := @overwrite_in_extent fs.size fs.disk target.data offset
    (slice buffer 0 (arrayRoom (dataOf fs.disk target.data) size offset)) valid
    (by rw [slice_length]; exact fits)
  refine ⟨⟨shows_.plenty, ?_, shows_.apart, shows_.files⟩, ?_⟩
  · intro other there
    obtain ⟨its, itsHere, itsValid, itsData, itsDenied⟩ := shows_.present other there
    refine ⟨its, itsHere, itsValid, ?_, itsDenied⟩
    dsimp only
    by_cases same : other = inode
    · subst same
      rw [present] at itsHere
      obtain rfl := Option.some.inj itsHere
      rw [Function.update_self, data]
      unfold arrayWrite
      exact (slice_overwrite_part (by rw [slice_length]; exact fits)).symm
    · rw [Function.update_of_ne same, itsData]
      symm
      apply data_of_elsewhere itsValid
      intro address inside
      apply elsewhere
      exact shows_.apart other there inode member same its target itsHere present _ inside
  · intro address outside
    exact elsewhere address (outside inode member target present)

/-- What an access keeps beside the bytes of the group. -/
structure Limited (group : Set Ptr) (fs next : FileSys) : Prop where
  spared : Spared group fs next
  inodes : next.inodes = fs.inodes
  handles : ∀ file handle, fs.files file = some handle →
    ∃ moved, next.files file = some moved ∧ moved.inode = handle.inode

theorem limited_requested (group : Set Ptr) (requested : Requested fs next) : Limited group fs next := by
  obtain ⟨requests, _, rfl⟩ := requested
  exact ⟨fun _ _ => rfl, rfl, fun _ handle here => ⟨handle, here, rfl⟩⟩

theorem limited_trans {last : FileSys} (early : Limited group fs next) (late : Limited group next last) :
    Limited group fs last := by
  constructor
  · intro address outside
    rw [late.spared address (by rw [early.inodes]; exact outside), early.spared address outside]
  · rw [late.inodes, early.inodes]
  · intro file handle here
    obtain ⟨moved, there, same⟩ := early.handles file handle here
    obtain ⟨again, last, sameToo⟩ := late.handles file moved there
    exact ⟨again, last, sameToo.trans same⟩

theorem limited_place {file : Ptr} {handle : File} (here : fs.files file = some handle) (pos : Nat) :
    Limited group fs { fs with
      files := Function.update fs.files file (some { handle with pos := pos }) } := by
  refine ⟨fun _ _ => rfl, rfl, ?_⟩
  intro other found there
  by_cases same : other = file
  · subst same
    rw [here] at there
    obtain rfl := Option.some.inj there
    exact ⟨_, Function.update_self .., rfl⟩
  · exact ⟨found, (Function.update_of_ne same _ _).trans there, rfl⟩

theorem within_limited {access : Access} (kept : Limited group fs next)
    (within : access.Within group fs.files) : access.Within group next.files := by
  have open_ : ∀ file, (∃ handle, fs.files file = some handle ∧ handle.inode ∈ group) →
      ∃ handle, next.files file = some handle ∧ handle.inode ∈ group := by
    rintro file ⟨handle, here, member⟩
    obtain ⟨moved, there, same⟩ := kept.handles file handle here
    exact ⟨moved, there, by rw [same]; exact member⟩
  cases access with
  | readAt inode size offset => exact within
  | writeAt inode buffer size offset => exact within
  | read file size => exact open_ file within
  | write file buffer size => exact open_ file within
  | seek file newPos => exact open_ file within

theorem read_at_refines (shows_ : Shows group fs arrays) (member : inode ∈ group) (size : Int)
    (offset : Nat) :
    Returns (inodeReadAt inode size offset) fs fun bytes next =>
      bytes = arrayRead (arrays.data inode) size offset ∧ Requested fs next := by
  obtain ⟨target, present, valid, data, _⟩ := shows_.present inode member
  apply returns_mono (read_at_delivers shows_.plenty present valid size offset)
  rintro bytes next ⟨requested, delivered⟩
  rw [data]
  exact ⟨delivered, requested⟩

theorem write_at_refines (shows_ : Shows group fs arrays) (member : inode ∈ group)
    (buffer : Nat → Byte) (size : Int) (offset : Nat) :
    Returns (inodeWriteAt inode buffer size offset) fs fun written next =>
      ∃ last, arrays.writeAt inode buffer size offset = (written, last) ∧
        Shows group next last ∧ Limited group fs next ∧ next.files = fs.files := by
  obtain ⟨target, present, valid, data, flag⟩ := shows_.present inode member
  unfold Arrays.writeAt
  by_cases denied : target.denyWriteCnt ≠ 0
  · rw [decide_eq_true denied] at flag
    rw [flag, if_pos rfl]
    apply returns_mono (write_at_denied present valid denied buffer size offset)
    rintro _ next ⟨rfl, requested⟩
    refine ⟨arrays, rfl, shows_requested shows_ requested, limited_requested group requested, ?_⟩
    obtain ⟨requests, _, rfl⟩ := requested
    rfl
  · rw [decide_eq_false denied] at flag
    rw [flag, if_neg Bool.false_ne_true]
    apply returns_mono (write_at_stores shows_.plenty present valid (not_not.mp denied) buffer size
      offset)
    rintro written next ⟨rfl, wrote⟩
    obtain ⟨after, spared⟩ := shows_wrote shows_ member present buffer size offset wrote
    obtain ⟨requests, _, rfl⟩ := wrote
    refine ⟨_, by rw [data], by rw [data] at after; exact after, ?_, rfl⟩
    exact ⟨spared, rfl, fun _ handle here => ⟨handle, here, rfl⟩⟩

theorem file_read_refines {file : Ptr} {handle : File} (shows_ : Shows group fs arrays)
    (here : fs.files file = some handle) (member : handle.inode ∈ group) (size : Int) :
    Returns (fileRead file size) fs fun bytes next =>
      bytes = arrayRead (arrays.data handle.inode) size handle.pos ∧
        Shows group next (arrays.place file handle (handle.pos + bytes.length)) ∧
        Limited group fs next := by
  unfold fileRead
  apply returns_bind (file_at_returns here)
  rintro handle fs ⟨rfl, rfl⟩
  apply returns_bind (read_at_refines shows_ member size handle.pos)
  rintro bytes next ⟨delivered, requested⟩
  have unmoved : next.files file = some handle := by
    obtain ⟨requests, _, rfl⟩ := requested
    exact here
  apply returns_modify
  apply returns_pure
  exact ⟨delivered, shows_place (shows_requested shows_ requested) file handle _,
    limited_trans (limited_requested group requested) (limited_place unmoved _)⟩

theorem file_write_refines {file : Ptr} {handle : File} (shows_ : Shows group fs arrays)
    (here : fs.files file = some handle) (member : handle.inode ∈ group) (buffer : Nat → Byte)
    (size : Int) :
    Returns (fileWrite file buffer size) fs fun written next =>
      ∃ last, arrays.writeAt handle.inode buffer size handle.pos = (written, last) ∧
        Shows group next (last.place file handle (handle.pos + written)) ∧ Limited group fs next := by
  unfold fileWrite
  apply returns_bind (file_at_returns here)
  rintro handle fs ⟨rfl, rfl⟩
  apply returns_bind (write_at_refines shows_ member buffer size handle.pos)
  rintro written next ⟨last, same, after, kept, files⟩
  have unmoved : next.files file = some handle := by rw [files, here]
  apply returns_modify
  apply returns_pure
  exact ⟨last, same, shows_place after file handle _, limited_trans kept (limited_place unmoved _)⟩

theorem file_seek_refines {file : Ptr} {handle : File} (shows_ : Shows group fs arrays)
    (here : fs.files file = some handle) (newPos : Nat) :
    Returns (fileSeek file newPos) fs fun _ next =>
      Shows group next (arrays.place file handle newPos) ∧ Limited group fs next := by
  unfold fileSeek
  rw [if_neg (by omega)]
  apply returns_bind (file_at_returns here)
  rintro handle fs ⟨rfl, rfl⟩
  apply returns_modify_last
  exact ⟨shows_place shows_ file handle _, limited_place here _⟩

theorem perform_refines (shows_ : Shows group fs arrays) {access : Access}
    (within : access.Within group fs.files) :
    Returns access.perform fs fun answer next =>
      ∃ last, arrays.perform access = some (answer, last) ∧ Shows group next last ∧
        Limited group fs next := by
  cases access with
  | readAt inode size offset =>
      apply returns_bind (read_at_refines shows_ within size offset)
      rintro bytes next ⟨rfl, requested⟩
      exact returns_pure ⟨arrays, rfl, shows_requested shows_ requested,
        limited_requested group requested⟩
  | writeAt inode buffer size offset =>
      apply returns_bind (write_at_refines shows_ within buffer size offset)
      rintro written next ⟨last, same, after, kept, _⟩
      apply returns_pure
      refine ⟨last, ?_, after, kept⟩
      simp only [Arrays.perform, same]
  | read file size =>
      obtain ⟨handle, here, member⟩ := within
      apply returns_bind (file_read_refines shows_ here member size)
      rintro bytes next ⟨rfl, after, kept⟩
      apply returns_pure
      refine ⟨_, ?_, after, kept⟩
      simp only [Arrays.perform, shows_.files, here]
      rfl
  | write file buffer size =>
      obtain ⟨handle, here, member⟩ := within
      apply returns_bind (file_write_refines shows_ here member buffer size)
      rintro written next ⟨last, same, after, kept⟩
      apply returns_pure
      refine ⟨_, ?_, after, kept⟩
      simp only [Arrays.perform, shows_.files, here, Option.bind_eq_bind, Option.bind_some, same]
      rfl
  | seek file newPos =>
      obtain ⟨handle, here, member⟩ := within
      apply returns_bind (file_seek_refines shows_ here newPos)
      rintro _ next ⟨after, kept⟩
      apply returns_pure
      refine ⟨_, ?_, after, kept⟩
      simp only [Arrays.perform, shows_.files, here]
      rfl

/-- Any sequence of accesses gives the answers of the arrays. -/
theorem perform_all_refines (shows_ : Shows group fs arrays) {accesses : List Access}
    (within : ∀ access ∈ accesses, access.Within group fs.files) :
    Returns (performAll accesses) fs fun answers next =>
      ∃ last, arrays.performAll accesses = some (answers, last) ∧ Shows group next last ∧
        Limited group fs next := by
  induction accesses generalizing fs arrays with
  | nil =>
      exact returns_pure ⟨arrays, rfl, shows_, limited_requested group (requested_refl fs)⟩
  | cons access rest induction =>
      unfold performAll
      apply returns_bind (perform_refines shows_ (within access List.mem_cons_self))
      rintro answer middle ⟨between, same, after, kept⟩
      have still : ∀ other ∈ rest, other.Within group middle.files :=
        fun other member => within_limited kept (within other (List.mem_cons_of_mem _ member))
      apply returns_bind (induction after still)
      rintro answers next ⟨last, sameToo, finally_, keptToo⟩
      apply returns_pure
      refine ⟨last, ?_, finally_, limited_trans kept keptToo⟩
      unfold Arrays.performAll
      rw [same]
      change (between.performAll rest).bind _ = _
      rw [sameToo]
      rfl

end Steps

/-- The arrays that a file system shows. -/
def arraysOf (fs : FileSys) : Arrays where
  data inode := ((fs.inodes inode).map fun target => dataOf fs.disk target.data).getD []
  denied inode := (fs.inodes inode).any fun target => decide (target.denyWriteCnt ≠ 0)
  files := fs.files

/-- After any run with memory to spare, all open inodes together are such a group. -/
theorem reachable_shows {client : Client} (reachable : Reachable client)
    (plenty : Plenty client.fs) :
    Shows { inode | ∃ target, client.fs.inodes inode = some target } client.fs
      (arraysOf client.fs) := by
  obtain ⟨⟨inodes, sound, _⟩, _⟩ := reachable_fine reachable
  refine ⟨plenty, ?_, ?_, rfl⟩
  · rintro inode ⟨target, present⟩
    refine ⟨target, present, table_valid sound.toTable present, ?_, ?_⟩
    · simp only [arraysOf, present, Option.map_some, Option.getD_some]
    · simp only [arraysOf, present, Option.any_some]
  · intro first _ second _ different one two oneHere twoHere cell inOne inTwo
    apply different
    have inFirst : cell ∈ footprint client.fs.disk one.sector := by
      rw [sound.loaded first one oneHere] at inOne
      exact Set.mem_insert_of_mem _ inOne
    have inSecond : cell ∈ footprint client.fs.disk two.sector := by
      rw [sound.loaded second two twoHere] at inTwo
      exact Set.mem_insert_of_mem _ inTwo
    have same := sound.stored.tiling.apart one.sector (sound.live first one oneHere) two.sector
      (sound.live second two twoHere) cell inFirst inSecond
    exact sound.sectorApart first second one two oneHere twoHere same

/-- The number of bytes that an access of `size` bytes at `offset` moves. -/
def moved (data : InodeDisk) (size : Int) (offset : Nat) : Int :=
  max 0 (min size (inodeLength data - offset))

theorem room_moved (disk : Disk) (data : InodeDisk) (size : Int) (offset : Nat) :
    (arrayRoom (dataOf disk data) size offset : Int) = moved data size offset := by
  rw [← available_room]
  unfold available moved
  omega

theorem array_read_length (bytes : List Byte) (size : Int) (offset : Nat) :
    (arrayRead bytes size offset).length = arrayRoom bytes size offset := by
  unfold arrayRead arrayRoom
  rw [List.length_take, List.length_drop]

/-- Reads and writes of an inode whose extent lies on the device move exactly the bytes of
the file that the access covers, and any sequence of accesses behaves as on arrays. -/
theorem contents_refine_array {fs : FileSys} {inode : Ptr} {target : Volume.Inode}
    (plenty : Plenty fs) (present : fs.inodes inode = some target)
    (valid : OnDevice fs.size target.data) (counted : 0 ≤ target.denyWriteCnt) :
    (∀ (size : Int) (offset : Nat),
      Returns (inodeReadAt inode size offset) fs fun bytes next =>
        Requested fs next ∧ (bytes.length : Int) = moved target.data size offset ∧
        ∀ index < bytes.length,
          bytes[index]? = some (fs.disk (dataBase target.data + offset + index))) ∧
    (∀ (buffer : Nat → Byte) (size : Int) (offset : Nat),
      Returns (inodeWriteAt inode buffer size offset) fs fun total next =>
        if 0 < target.denyWriteCnt then total = 0 ∧ Requested fs next
        else (total : Int) = moved target.data size offset ∧
          (∃ requests, next = { fs with disk := next.disk, requests := requests }) ∧
          (∀ index < total,
            next.disk (dataBase target.data + offset + index) = buffer index ∧
            (dataBase target.data + offset + index) / blockSectorSize ∈ extent target.data) ∧
          ∀ address, address < dataBase target.data + offset ∨
            dataBase target.data + offset + total ≤ address →
            next.disk address = fs.disk address) ∧
    ∀ (group : Set Ptr) (arrays : Arrays) (accesses : List Access), Shows group fs arrays →
      (∀ access ∈ accesses, access.Within group fs.files) →
      Returns (performAll accesses) fs fun answers next =>
        ∃ last, arrays.performAll accesses = some (answers, last) ∧ Shows group next last ∧
          Limited group fs next := by
  refine ⟨?_, ?_, fun group arrays accesses shows_ within => perform_all_refines shows_ within⟩
  · intro size offset
    apply returns_mono (read_at_delivers plenty present valid size offset)
    rintro bytes next ⟨requested, rfl⟩
    refine ⟨requested, ?_, ?_⟩
    · rw [array_read_length, room_moved]
    · intro index inside
      rw [array_read_length, ← available_room] at inside
      rw [← slice_array_read, slice_get inside]
  · intro buffer size offset
    by_cases denied : 0 < target.denyWriteCnt
    · apply returns_mono (write_at_denied present valid (by omega) buffer size offset)
      intro total next nothing
      rw [if_pos denied]
      exact nothing
    · apply returns_mono (write_at_stores plenty present valid (by omega) buffer size offset)
      rintro total next ⟨rfl, requests, grown, rfl⟩
      rw [if_neg denied]
      refine ⟨room_moved _ _ _ _, ⟨requests, rfl⟩, ?_, ?_⟩
      · intro index inside
        constructor
        · have fits : index < (slice buffer 0
              (arrayRoom (dataOf fs.disk target.data) size offset)).length := by
            rw [slice_length]
            exact inside
          dsimp only
          rw [overwrite_inside fits]
          apply Option.some.inj
          rw [← List.getElem?_eq_getElem, slice_get inside, Nat.zero_add]
        · have fits := array_room_fits fs.disk target.data size offset (by omega)
          rw [Nat.add_assoc]
          exact data_in_extent valid (by omega)
      · intro address outside
        apply overwrite_outside
        rw [slice_length]
        exact outside

/-- One file of 700 bytes in the sectors 2 and 3 of a device of four. -/
def oneFile : FileSys :=
  { powerUp 4 (fun _ => 0) (fun _ => true) with
    inodes := fun _ => some
      { sector := 1, openCnt := 1, removed := false, denyWriteCnt := 0,
        data := { start := 2, length := 700, magic := inodeMagic } } }

theorem contents_refine_array_one_file :
    Plenty oneFile ∧ Returns (inodeReadAt 0 5 510) oneFile fun bytes _ => bytes.length = 5 := by
  have valid : OnDevice oneFile.size { start := 2, length := 700, magic := inodeMagic } :=
    ⟨by decide, by decide, by decide⟩
  have plenty : Plenty oneFile := fun _ => rfl
  refine ⟨plenty, returns_mono ((contents_refine_array plenty rfl valid (Int.le_refl 0)).1 5 510) ?_⟩
  rintro bytes _ ⟨_, length, _⟩
  have five : moved { start := 2, length := 700, magic := inodeMagic } 5 510 = 5 := by decide
  rw [five] at length
  exact_mod_cast length

end UtSystems.Filesys.ByteArrays

import UtSystems.Filesys.Ownership
import Mathlib.Data.Set.Card

/-!
# The invariant of the file system

`Table` ties the objects in memory to the device: every open inode carries the data stored
in its sector, its `open_cnt` counts the files that refer to it, and its
`deny_write_cnt` those of them that deny writes. Inside an operation there are openers
that are not files yet or any more; `extra` counts these, and `held` leaves out a file
that is being closed. `inodes` is the set of inodes on the device. `Sound` adds that the
free map file is open and, unless memory ran short, holds the free map.
-/

namespace UtSystems.Filesys.Consistency

open Lib.Bytes Filesys.Volume Filesys.InodeData Filesys.FreeMap Filesys.Ownership

set_option autoImplicit false

/-- The sectors of inodes that are removed and still open. -/
def removedSet (fs : FileSys) : Set Nat :=
  { sector | ∃ inode target, fs.inodes inode = some target ∧ target.removed = true ∧
    target.sector = sector }

/-- The files in `held` that refer to an inode and pass a test. -/
def referring (counts : File → Bool) (files : Ptr → Option File) (held : Set Ptr) (inode : Ptr) :
    Set Ptr :=
  { file | file ∈ held ∧ ∃ handle, files file = some handle ∧ handle.inode = inode ∧
    counts handle = true }

def holders (fs : FileSys) (held : Set Ptr) (inode : Ptr) : Set Ptr :=
  referring (fun _ => true) fs.files held inode

/-- Those that deny writes to it. -/
def deniers (fs : FileSys) (held : Set Ptr) (inode : Ptr) : Set Ptr :=
  referring File.denyWrite fs.files held inode

section Referring

variable {counts : File → Bool} {files : Ptr → Option File} {held : Set Ptr} {file inode : Ptr}

theorem referring_update_in {handle : File} (inside : file ∈ held) (refers : handle.inode = inode)
    (counted : counts handle = true) :
    referring counts (Function.update files file (some handle)) held inode =
      insert file (referring counts files held inode) := by
  ext candidate
  by_cases same : candidate = file
  · subst same
    refine ⟨fun _ => Set.mem_insert _ _, fun _ => ?_⟩
    exact ⟨inside, handle, Function.update_self .., refers, counted⟩
  · simp only [referring, Function.update_of_ne same, Set.mem_ofPred_eq, Set.mem_insert_iff, same,
      false_or]

theorem referring_update_out {change : Option File}
    (uncounted : ∀ handle, change = some handle → handle.inode = inode → counts handle = false) :
    referring counts (Function.update files file change) held inode =
      referring counts files held inode \ {file} := by
  ext candidate
  by_cases same : candidate = file
  · subst same
    constructor
    · rintro ⟨_, handle, here, refers, counted⟩
      rw [Function.update_self] at here
      rw [uncounted handle here refers] at counted
      cases counted
    · rintro ⟨_, different⟩
      exact absurd rfl different
  · simp only [referring, Function.update_of_ne same, Set.mem_ofPred_eq, Set.mem_sdiff,
      Set.mem_singleton_iff, same, not_false_eq_true, and_true]

/-- Replacing a file by one that refers to the same inode and counts the same. -/
theorem referring_update_same {was : File} (handle : File) (present : files file = some was)
    (refers : handle.inode = was.inode) (counted : counts handle = counts was) :
    referring counts (Function.update files file (some handle)) held inode =
      referring counts files held inode := by
  ext candidate
  by_cases same : candidate = file
  · subst same
    simp only [referring, Function.update_self, present, Set.mem_ofPred_eq, Option.some.injEq,
      exists_eq_left', refers, counted]
  · simp only [referring, Function.update_of_ne same, Set.mem_ofPred_eq]

theorem referring_left_out :
    referring counts files (held \ {file}) inode = referring counts files held inode \ {file} := by
  ext candidate
  constructor
  · rintro ⟨⟨inside, different⟩, rest⟩
    exact ⟨⟨inside, rest⟩, different⟩
  · rintro ⟨⟨inside, rest⟩, different⟩
    exact ⟨⟨inside, different⟩, rest⟩

end Referring

structure Counted (fs : FileSys) (held : Set Ptr) (extra : Nat) (inode : Ptr)
    (target : Volume.Inode) : Prop where
  opened : target.openCnt = (holders fs held inode).ncard + extra
  positive : 0 < target.openCnt
  denied : target.denyWriteCnt = (deniers fs held inode).ncard

structure Table (inodes : Set Nat) (fs : FileSys) (held : Set Ptr) (extra : Ptr → Nat) :
    Prop where
  stored : Stored fs.size fs.disk fs.freeMap inodes
  nodup : fs.openInodes.Nodup
  listed : ∀ inode, inode ∈ fs.openInodes ↔ ∃ target, fs.inodes inode = some target
  inodeOld : ∀ inode target, fs.inodes inode = some target → inode < fs.requests
  fileOld : ∀ file handle, fs.files file = some handle → file < fs.requests
  refersOld : ∀ file handle, fs.files file = some handle → handle.inode < fs.requests
  sectorApart : ∀ first second one two, fs.inodes first = some one → fs.inodes second = some two →
    one.sector = two.sector → first = second
  live : ∀ inode target, fs.inodes inode = some target → target.sector ∈ inodes
  loaded : ∀ inode target, fs.inodes inode = some target →
    target.data = diskInode fs.disk target.sector
  counted : ∀ inode target, fs.inodes inode = some target →
    Counted fs held (extra inode) inode target
  reached : ∀ file handle, file ∈ held → fs.files file = some handle →
    ∃ target, fs.inodes handle.inode = some target
  spare : ∀ inode, 0 < extra inode → ∃ target, fs.inodes inode = some target

/-- The free map file is the only file on the free map's inode, and writes to it are allowed. -/
structure MapReady (fs : FileSys) (held : Set Ptr) : Prop where
  mapFile : ∃ file handle target, fs.freeMapFile = some file ∧ file ∈ held ∧
    fs.files file = some handle ∧ handle.denyWrite = false ∧
    fs.inodes handle.inode = some target ∧ target.sector = freeMapSector
  mapOnly : ∀ file handle target, fs.files file = some handle →
    fs.inodes handle.inode = some target → target.sector = freeMapSector →
    fs.freeMapFile = some file
  mapRoom : byteCnt fs.freeMap.length ≤ (inodeLength (diskInode fs.disk freeMapSector)).toNat
  recorded : Plenty fs →
    bitmapOfBytes fs.freeMap.length (contents fs.disk freeMapSector) = fs.freeMap

structure Sound (inodes : Set Nat) (fs : FileSys) (held : Set Ptr) (extra : Ptr → Nat) : Prop
    extends Table inodes fs held extra, MapReady fs held

/-- What operations on files and directories never change. An address in memory is not used
again for another inode. -/
structure Calm (fs next : FileSys) : Prop where
  freeMapFile : next.freeMapFile = fs.freeMapFile
  memory : next.memory = fs.memory
  size : next.size = fs.size
  requests : fs.requests ≤ next.requests
  older : ∀ inode found, next.inodes inode = some found → inode < fs.requests →
    ∃ was, fs.inodes inode = some was ∧ found.sector = was.sector

/-- No more inodes are removed. -/
structure Steady (fs next : FileSys) : Prop extends Calm fs next where
  removed : removedSet next ⊆ removedSet fs

/-- What operations on inodes and directories keep. -/
structure Kept (fs next : FileSys) : Prop extends Steady fs next where
  files : next.files = fs.files

theorem calm_trans {first second third : FileSys} (early : Calm first second)
    (late : Calm second third) : Calm first third where
  freeMapFile := late.freeMapFile.trans early.freeMapFile
  memory := late.memory.trans early.memory
  size := late.size.trans early.size
  requests := Nat.le_trans early.requests late.requests
  older := by
    intro inode found here old
    obtain ⟨between, there, sector⟩ :=
      late.older inode found here (Nat.lt_of_lt_of_le old early.requests)
    obtain ⟨was, before, same⟩ := early.older inode between there old
    exact ⟨was, before, sector.trans same⟩

theorem steady_trans {first second third : FileSys} (early : Steady first second)
    (late : Steady second third) : Steady first third :=
  ⟨calm_trans early.toCalm late.toCalm, late.removed.trans early.removed⟩

theorem kept_trans {first second third : FileSys} (early : Kept first second)
    (late : Kept second third) : Kept first third :=
  ⟨steady_trans early.toSteady late.toSteady, late.files.trans early.files⟩

/-- The inodes in memory are the same. -/
theorem steady_inodes {fs next : FileSys} (freeMapFile : next.freeMapFile = fs.freeMapFile)
    (memory : next.memory = fs.memory) (size : next.size = fs.size)
    (requests : fs.requests ≤ next.requests) (inodes : next.inodes = fs.inodes) :
    Steady fs next where
  freeMapFile := freeMapFile
  memory := memory
  size := size
  requests := requests
  older := fun inode found here _ => ⟨found, by rw [← inodes]; exact here, rfl⟩
  removed := by
    unfold removedSet
    rw [inodes]

/-- Nothing but the device, the free map and the count of requests has changed. -/
theorem kept_device {fs : FileSys} {disk : Disk} {map : Bitmap} {requests : Nat}
    (grown : fs.requests ≤ requests) :
    Kept fs { fs with disk := disk, freeMap := map, requests := requests } :=
  ⟨steady_inodes rfl rfl rfl grown rfl, rfl⟩

theorem kept_refl (fs : FileSys) : Kept fs fs := kept_device (Nat.le_refl _)

theorem plenty_calm {fs next : FileSys} (calm : Calm fs next) : Plenty next ↔ Plenty fs := by
  unfold Plenty
  rw [calm.memory]

/-- One more opener of `inode`. -/
def bump (extra : Ptr → Nat) (inode : Ptr) : Ptr → Nat :=
  Function.update extra inode (extra inode + 1)

@[simp] theorem bump_self (extra : Ptr → Nat) (inode : Ptr) :
    bump extra inode inode = extra inode + 1 := by
  simp [bump]

theorem bump_of_ne {extra : Ptr → Nat} {inode other : Ptr} (different : other ≠ inode) :
    bump extra inode other = extra other := by
  simp [bump, different]

section Facts

variable {inodes : Set Nat} {fs : FileSys} {held : Set Ptr} {extra : Ptr → Nat}

theorem table_valid (table : Table inodes fs held extra) {inode : Ptr} {target : Volume.Inode}
    (present : fs.inodes inode = some target) : OnDevice fs.size target.data := by
  rw [table.loaded inode target present]
  exact table.stored.valid _ (table.live inode target present)

theorem files_finite (table : Table inodes fs held extra) :
    { file | ∃ handle, fs.files file = some handle }.Finite := by
  apply (Set.finite_lt_nat fs.requests).subset
  rintro file ⟨handle, present⟩
  exact table.fileOld file handle present

theorem holders_finite (table : Table inodes fs held extra) (inode : Ptr) :
    (holders fs held inode).Finite := by
  apply (files_finite table).subset
  rintro file ⟨_, handle, present, _⟩
  exact ⟨handle, present⟩

theorem mem_holders {file : Ptr} {handle : File} (inside : file ∈ held)
    (present : fs.files file = some handle) : file ∈ holders fs held handle.inode :=
  ⟨inside, handle, present, rfl, rfl⟩

theorem deniers_subset (inode : Ptr) : deniers fs held inode ⊆ holders fs held inode := by
  rintro file ⟨inside, handle, present, refers, _⟩
  exact ⟨inside, handle, present, refers, rfl⟩

theorem deny_le_open (table : Table inodes fs held extra) {inode : Ptr} {target : Volume.Inode}
    (present : fs.inodes inode = some target) : target.denyWriteCnt ≤ target.openCnt := by
  have counted := table.counted inode target present
  have fewer : (deniers fs held inode).ncard ≤ (holders fs held inode).ncard :=
    Set.ncard_le_ncard (deniers_subset inode) (holders_finite table inode)
  rw [counted.opened, counted.denied]
  omega

/-- No file denies writes to the free map. -/
theorem map_allowed (sound : Sound inodes fs held extra) {inode : Ptr} {target : Volume.Inode}
    (present : fs.inodes inode = some target) (place : target.sector = freeMapSector) :
    target.denyWriteCnt = 0 := by
  have noDenier : deniers fs held inode = ∅ := by
    ext file
    simp only [Set.mem_empty_iff_false, iff_false]
    rintro ⟨_, handle, here, refers, denies⟩
    subst refers
    obtain ⟨map, mapHandle, _, named, _, mapHere, allows, _⟩ := sound.mapFile
    have isMap := sound.mapOnly file handle target here present place
    rw [named] at isMap
    cases isMap
    rw [here] at mapHere
    cases mapHere
    rw [allows] at denies
    cases denies
  rw [(sound.counted inode target present).denied, noDenier, Set.ncard_empty]
  rfl

theorem map_live (sound : Sound inodes fs held extra) : freeMapSector ∈ inodes := by
  obtain ⟨_, handle, target, _, _, _, _, reached, place⟩ := sound.mapFile
  rw [← place]
  exact sound.live _ _ reached

theorem sound_map_open (sound : Sound inodes fs held extra) :
    ∃ file target, MapOpen fs file target ∧ target.data = diskInode fs.disk freeMapSector ∧
      (Plenty fs → MapWritable fs target) := by
  obtain ⟨file, handle, target, named, _, present, _, reached, place⟩ := sound.mapFile
  have data : target.data = diskInode fs.disk freeMapSector := by
    rw [← place]
    exact sound.loaded _ _ reached
  refine ⟨file, target, ⟨named, ⟨handle, present, reached⟩, table_valid sound.toTable reached⟩,
    data, ?_⟩
  intro plenty
  refine ⟨plenty, map_allowed sound reached place, ?_⟩
  rw [data]
  exact sound.mapRoom

end Facts

section Frames

variable {inodes : Set Nat} {fs next : FileSys} {held left : Set Ptr} {extra more : Ptr → Nat}

theorem counted_congr {amount : Nat} {inode : Ptr} {target : Volume.Inode}
    (counted : Counted fs held amount inode target) (files : next.files = fs.files) :
    Counted next held amount inode target := by
  have holdersSame : holders next held inode = holders fs held inode := by
    unfold holders
    rw [files]
  have deniersSame : deniers next held inode = deniers fs held inode := by
    unfold deniers
    rw [files]
  exact ⟨by rw [holdersSame]; exact counted.opened, counted.positive,
    by rw [deniersSame]; exact counted.denied⟩

/-- Writes to the device that leave the inodes alone, with a free map that still covers them. -/
theorem table_device {disk : Disk} {map : Bitmap} {requests : Nat}
    (table : Table inodes fs held extra) (grown : fs.requests ≤ requests)
    (stored : Stored fs.size disk map inodes)
    (same : ∀ sector ∈ inodes, diskInode disk sector = diskInode fs.disk sector) :
    Table inodes { fs with disk := disk, freeMap := map, requests := requests } held extra where
  stored := stored
  nodup := table.nodup
  listed := table.listed
  inodeOld := fun inode target present =>
    Nat.lt_of_lt_of_le (table.inodeOld inode target present) grown
  fileOld := fun file handle present =>
    Nat.lt_of_lt_of_le (table.fileOld file handle present) grown
  refersOld := fun file handle present =>
    Nat.lt_of_lt_of_le (table.refersOld file handle present) grown
  sectorApart := table.sectorApart
  live := table.live
  loaded := by
    intro inode target present
    rw [table.loaded inode target present]
    exact (same _ (table.live inode target present)).symm
  counted := fun inode target present =>
    counted_congr (table.counted inode target present) rfl
  reached := table.reached
  spare := table.spare

/-- The free map file stays ready when the free map and its file are left alone. -/
theorem sound_frame {fewer : Set Nat} (sound : Sound inodes fs held extra)
    (table : Table fewer next held more) (calm : Calm fs next)
    (files : next.files = fs.files) (freeMap : next.freeMap = fs.freeMap)
    (inode : diskInode next.disk freeMapSector = diskInode fs.disk freeMapSector)
    (data : contents next.disk freeMapSector = contents fs.disk freeMapSector) :
    Sound fewer next held more where
  toTable := table
  mapFile := by
    obtain ⟨file, handle, target, named, inside, here, allows, present, place⟩ := sound.mapFile
    have stays : next.files file = some handle := by
      rw [files]
      exact here
    obtain ⟨found, foundHere⟩ := table.reached file handle inside stays
    obtain ⟨was, wasHere, sector⟩ := calm.older _ found foundHere (sound.refersOld file handle here)
    rw [present] at wasHere
    cases wasHere
    exact ⟨file, handle, found, calm.freeMapFile.trans named, inside, stays, allows, foundHere,
      sector.trans place⟩
  mapOnly := by
    intro file handle target here present place
    rw [files] at here
    obtain ⟨was, wasHere, sector⟩ := calm.older _ target present (sound.refersOld file handle here)
    rw [calm.freeMapFile]
    exact sound.mapOnly file handle was here wasHere (sector.symm.trans place)
  mapRoom := by
    rw [freeMap, inode]
    exact sound.mapRoom
  recorded := by
    intro plenty
    rw [freeMap, data]
    exact sound.recorded ((plenty_calm calm).mp plenty)

theorem table_requested (table : Table inodes fs held extra) (requested : Requested fs next) :
    Table inodes next held extra := by
  obtain ⟨requests, grown, rfl⟩ := requested
  exact table_device table grown table.stored (fun _ _ => rfl)

theorem kept_requested (requested : Requested fs next) : Kept fs next := by
  obtain ⟨requests, grown, rfl⟩ := requested
  exact kept_device grown

theorem sound_requested (sound : Sound inodes fs held extra) (requested : Requested fs next) :
    Sound inodes next held extra := by
  have table := table_requested sound.toTable requested
  have kept := kept_requested requested
  obtain ⟨requests, grown, rfl⟩ := requested
  exact sound_frame sound table kept.toCalm rfl rfl rfl rfl

/-- Writing the data of a file other than the free map. -/
theorem sound_wrote (sound : Sound inodes fs held extra) {sector offset : Nat} {cells : List Byte}
    (here : sector ∈ inodes) (notMap : sector ≠ freeMapSector)
    (fits : offset + cells.length ≤ (inodeLength (diskInode fs.disk sector)).toNat)
    (wrote : Wrote fs next (dataBase (diskInode fs.disk sector) + offset) cells) :
    Kept fs next ∧ Confined {sector} inodes fs.disk next.disk ∧ Sound inodes next held extra := by
  obtain ⟨requests, grown, rfl⟩ := wrote
  have confined := confined_write sound.stored here fits
  have table := table_device sound.toTable grown (stored_disk sound.stored confined.inode)
    confined.inode
  have kept := @kept_device fs (overwrite fs.disk (dataBase (diskInode fs.disk sector) + offset)
    cells) fs.freeMap requests grown
  refine ⟨kept, confined, ?_⟩
  apply sound_frame sound table kept.toCalm rfl rfl
  · exact confined.inode _ (map_live sound)
  · exact confined.data _ (map_live sound) (fun same => notMap same.symm)

/-- Writing the free map to its own file. -/
theorem map_confined {target : Volume.Inode} {map : Bitmap} {whole : Prop}
    (stored : Stored fs.size fs.disk fs.freeMap inodes) (here : freeMapSector ∈ inodes)
    (data : target.data = diskInode fs.disk freeMapSector)
    (changed : MapChanged fs next target map whole) :
    Kept fs next ∧ Confined {freeMapSector} inodes fs.disk next.disk ∧
      (whole → byteCnt map.length ≤ (inodeLength target.data).toNat →
        bitmapOfBytes map.length (contents next.disk freeMapSector) = map) := by
  obtain ⟨cells, fits, exact_, requests, grown, rfl⟩ := changed
  rw [data] at fits ⊢
  have confined := @confined_write _ _ _ _ freeMapSector stored 0 cells here (by omega)
  rw [Nat.add_zero] at confined
  refine ⟨kept_device grown, confined, ?_⟩
  intro holds room
  unfold contents
  rw [confined.inode _ here, exact_ holds]
  exact bitmap_of_written room

theorem sound_map_changed {target : Volume.Inode} {map : Bitmap} {whole : Prop}
    (sound : Sound inodes fs held extra) (data : target.data = diskInode fs.disk freeMapSector)
    (sized : map.length = fs.freeMap.length)
    (marks : ∀ sector ∈ inodes, footprint fs.disk sector ⊆ marked map)
    (complete : Plenty fs → whole ∨ next = fs)
    (changed : MapChanged fs next target map whole) :
    Kept fs next ∧ Confined {freeMapSector} inodes fs.disk next.disk ∧
      Sound inodes next held extra := by
  obtain ⟨kept, confined, recorded⟩ := map_confined sound.stored (map_live sound) data changed
  refine ⟨kept, confined, ?_⟩
  have sameInode := confined.inode _ (map_live sound)
  have room : byteCnt map.length ≤ (inodeLength target.data).toNat := by
    rw [data, sized]
    exact sound.mapRoom
  obtain ⟨cells, fits, _, requests, grown, rfl⟩ := changed
  refine ⟨?_, sound.mapFile, sound.mapOnly, ?_, ?_⟩
  · apply table_device sound.toTable grown _ confined.inode
    exact stored_disk (stored_map sound.stored sized marks) confined.inode
  · rw [sameInode, ← data]
    exact room
  · intro plenty
    rcases complete plenty with holds | unchanged
    · exact recorded holds room
    · rw [unchanged]
      exact sound.recorded plenty

/-- The tables of files and inodes change, and with them who is counted as an opener. Open
inodes stay open and keep their sector and data. -/
theorem table_update {files : Ptr → Option File} {changed : Ptr → Option Volume.Inode}
    {requests : Nat} (table : Table inodes fs held extra) (grown : fs.requests ≤ requests)
    (old : ∀ file handle, files file = some handle → file < requests ∧ handle.inode < requests)
    (before : ∀ inode found, changed inode = some found → ∃ was, fs.inodes inode = some was ∧
      found.sector = was.sector ∧ found.data = was.data)
    (after : ∀ inode was, fs.inodes inode = some was → ∃ found, changed inode = some found)
    (counted : ∀ inode target, changed inode = some target →
      Counted { fs with files := files, inodes := changed, requests := requests } left
        (more inode) inode target)
    (reached : ∀ file handle, file ∈ left → files file = some handle →
      ∃ target, fs.inodes handle.inode = some target)
    (spare : ∀ inode, 0 < more inode → ∃ target, fs.inodes inode = some target) :
    Table inodes { fs with files := files, inodes := changed, requests := requests } left
      more where
  stored := table.stored
  nodup := table.nodup
  listed := by
    intro other
    rw [table.listed other]
    constructor
    · rintro ⟨was, here⟩
      exact after other was here
    · rintro ⟨found, here⟩
      obtain ⟨was, wasHere, _⟩ := before other found here
      exact ⟨was, wasHere⟩
  inodeOld := by
    intro other found here
    obtain ⟨was, wasHere, _⟩ := before other found here
    exact Nat.lt_of_lt_of_le (table.inodeOld other was wasHere) grown
  fileOld := fun file handle present => (old file handle present).1
  refersOld := fun file handle present => (old file handle present).2
  sectorApart := by
    intro first second one two firstHere secondHere same
    obtain ⟨wasOne, oneHere, oneSector, _⟩ := before first one firstHere
    obtain ⟨wasTwo, twoHere, twoSector, _⟩ := before second two secondHere
    exact table.sectorApart first second wasOne wasTwo oneHere twoHere
      (by rw [← oneSector, ← twoSector]; exact same)
  live := by
    intro other found here
    obtain ⟨was, wasHere, wasSector, _⟩ := before other found here
    rw [wasSector]
    exact table.live other was wasHere
  loaded := by
    intro other found here
    obtain ⟨was, wasHere, wasSector, wasData⟩ := before other found here
    rw [wasData, wasSector]
    exact table.loaded other was wasHere
  counted := counted
  reached := by
    intro file handle inside here
    obtain ⟨was, wasHere⟩ := reached file handle inside here
    exact after _ was wasHere
  spare := by
    intro other some_
    obtain ⟨was, wasHere⟩ := spare other some_
    exact after _ was wasHere

theorem table_files {files : Ptr → Option File} {requests : Nat}
    (table : Table inodes fs held extra) (grown : fs.requests ≤ requests)
    (old : ∀ file handle, files file = some handle → file < requests ∧ handle.inode < requests)
    (counted : ∀ inode target, fs.inodes inode = some target →
      Counted { fs with files := files, requests := requests } left (more inode) inode target)
    (reached : ∀ file handle, file ∈ left → files file = some handle →
      ∃ target, fs.inodes handle.inode = some target)
    (spare : ∀ inode, 0 < more inode → ∃ target, fs.inodes inode = some target) :
    Table inodes { fs with files := files, requests := requests } left more :=
  table_update table grown old (fun _ found here => ⟨found, here, rfl, rfl⟩)
    (fun _ was here => ⟨was, here⟩) counted reached spare

theorem ready_files {files : Ptr → Option File} {requests : Nat} (ready : MapReady fs held)
    (map : ∀ file handle, fs.freeMapFile = some file → file ∈ held →
      fs.files file = some handle → file ∈ left ∧
        ∃ found, files file = some found ∧ found.inode = handle.inode ∧
          found.denyWrite = handle.denyWrite)
    (others : ∀ file handle target, files file = some handle →
      fs.inodes handle.inode = some target → target.sector = freeMapSector →
      ∃ was, fs.files file = some was ∧ was.inode = handle.inode) :
    MapReady { fs with files := files, requests := requests } left where
  mapFile := by
    obtain ⟨file, handle, target, named, inside, here, allows, present, place⟩ := ready.mapFile
    obtain ⟨stays, found, foundHere, same, denies⟩ := map file handle named inside here
    exact ⟨file, found, target, named, stays, foundHere, denies.trans allows,
      by rw [same]; exact present, place⟩
  mapOnly := by
    intro file handle target here present place
    obtain ⟨was, wasHere, same⟩ := others file handle target here present place
    exact ready.mapOnly file was target wasHere (by rw [same]; exact present) place
  mapRoom := ready.mapRoom
  recorded := ready.recorded

/-- What opening an inode and changing its counters leave alone. No inode goes away or
moves to another sector. -/
structure Opened (fs next : FileSys) : Prop where
  kept : Kept fs next
  disk : next.disk = fs.disk
  freeMap : next.freeMap = fs.freeMap
  persists : ∀ inode target, fs.inodes inode = some target →
    ∃ found, next.inodes inode = some found ∧ found.sector = target.sector

theorem opened_requested (requested : Requested fs next) : Opened fs next := by
  have kept := kept_requested requested
  obtain ⟨requests, grown, rfl⟩ := requested
  exact ⟨kept, rfl, rfl, fun _ target here => ⟨target, here, rfl⟩⟩

theorem sound_opened (sound : Sound inodes fs held extra) (opened : Opened fs next)
    (table : Table inodes next held more) : Sound inodes next held more := by
  apply sound_frame sound table opened.kept.toCalm opened.kept.files opened.freeMap
  · rw [opened.disk]
  · rw [opened.disk]

section Recount

variable {inode : Ptr} {target changed : Volume.Inode}

theorem recount_before (present : fs.inodes inode = some target)
    (sector : changed.sector = target.sector) (data : changed.data = target.data) {other : Ptr}
    {found : Volume.Inode}
    (here : Function.update fs.inodes inode (some changed) other = some found) :
    ∃ was, fs.inodes other = some was ∧ found.sector = was.sector ∧ found.data = was.data := by
  by_cases same : other = inode
  · subst same
    rw [Function.update_self] at here
    cases here
    exact ⟨target, present, sector, data⟩
  · rw [Function.update_of_ne same] at here
    exact ⟨found, here, rfl, rfl⟩

theorem recount_after (present : fs.inodes inode = some target)
    (sector : changed.sector = target.sector)
    {other : Ptr} {was : Volume.Inode} (here : fs.inodes other = some was) :
    ∃ found, Function.update fs.inodes inode (some changed) other = some found ∧
      found.sector = was.sector := by
  by_cases same : other = inode
  · subst same
    rw [present] at here
    cases here
    exact ⟨changed, Function.update_self .., sector⟩
  · exact ⟨was, by rw [Function.update_of_ne same, here], rfl⟩

theorem recount_removed (present : fs.inodes inode = some target)
    (sector : changed.sector = target.sector) (removed : changed.removed = target.removed) :
    { place | ∃ other found, Function.update fs.inodes inode (some changed) other = some found ∧
      found.removed = true ∧ found.sector = place } ⊆ removedSet fs := by
  rintro _ ⟨other, found, here, gone, rfl⟩
  by_cases same : other = inode
  · subst same
    rw [Function.update_self] at here
    cases here
    exact ⟨other, target, present, by rw [← removed]; exact gone, sector.symm⟩
  · rw [Function.update_of_ne same] at here
    exact ⟨other, found, here, gone, rfl⟩

/-- Only the counters of one open inode change. -/
theorem opened_recount (present : fs.inodes inode = some target)
    (sector : changed.sector = target.sector) (data : changed.data = target.data)
    (removed : changed.removed = target.removed) :
    Opened fs { fs with inodes := Function.update fs.inodes inode (some changed) } := by
  refine ⟨⟨⟨⟨rfl, rfl, rfl, Nat.le_refl _, ?_⟩, recount_removed present sector removed⟩, rfl⟩, rfl,
    rfl, ?_⟩
  · intro other found here _
    obtain ⟨was, wasHere, wasSector, _⟩ := recount_before present sector data here
    exact ⟨was, wasHere, wasSector⟩
  · intro other was here
    exact recount_after present sector here

/-- One open inode changes, but neither its sector nor its data. -/
theorem table_recount (more : Ptr → Nat) (table : Table inodes fs held extra)
    (counted : Counted fs held (more inode) inode changed)
    (present : fs.inodes inode = some target)
    (sector : changed.sector = target.sector) (data : changed.data = target.data)
    (others : ∀ other, other ≠ inode → more other = extra other) :
    Table inodes { fs with inodes := Function.update fs.inodes inode (some changed) } held more := by
  apply @table_update inodes fs held held extra more fs.files _ fs.requests table (Nat.le_refl _)
  · intro file handle here
    exact ⟨table.fileOld file handle here, table.refersOld file handle here⟩
  · intro other found here
    exact recount_before present sector data here
  · intro other was here
    obtain ⟨found, foundHere, _⟩ := recount_after present sector here
    exact ⟨found, foundHere⟩
  · intro other found here
    by_cases same : other = inode
    · subst same
      rw [Function.update_self] at here
      cases here
      exact counted_congr counted rfl
    · rw [Function.update_of_ne same] at here
      rw [others other same]
      exact counted_congr (table.counted other found here) rfl
  · exact table.reached
  · intro other some_
    by_cases same : other = inode
    · subst same
      exact ⟨target, present⟩
    · rw [others other same] at some_
      exact table.spare other some_

end Recount

end Frames

end UtSystems.Filesys.Consistency

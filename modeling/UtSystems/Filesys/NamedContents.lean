import UtSystems.Filesys.Restart
import UtSystems.Filesys.PackedMap
import UtSystems.Filesys.DirectoryMap

/-!
# The contents of named files

With memory to spare and nobody else at work, opening a file by its name, reading it and
closing it leave the device as it is, a write changes the contents of one file, and creating a
file adds one name with zeros behind it.
-/

namespace UtSystems.Filesys.NamedContents

open Lib.Bytes Lib.Effects Filesys.Volume Filesys.InodeData Filesys.FreeMap Filesys.Inode
open Filesys.Directory Filesys.Ownership Filesys.Consistency Filesys.OpenInodes Filesys.OpenFiles
open Filesys.Creation Filesys.Entries Filesys.NamedInodes Filesys.NamedFiles Filesys.Format
open Filesys.ByteArrays Filesys.Restart Filesys.PackedMap Filesys.DirectoryMap

set_option autoImplicit false

/-- A file system in order, with memory to spare. -/
structure Ready (inodes : Set Nat) (fs : FileSys) : Prop where
  plenty : Plenty fs
  sound : Sound inodes fs Set.univ (fun _ => 0)
  catalog : Catalog rootPlace inodes fs

/-- The device and the free map are as before. -/
structure Same (fs next : FileSys) : Prop where
  steady : Steady fs next
  disk : next.disk = fs.disk
  freeMap : next.freeMap = fs.freeMap

theorem same_trans {first second third : FileSys} (early : Same first second)
    (late : Same second third) : Same first third :=
  ⟨steady_trans early.steady late.steady, late.disk.trans early.disk,
    late.freeMap.trans early.freeMap⟩

theorem same_opened {fs next : FileSys} (opened : Opened fs next) : Same fs next :=
  ⟨opened.kept.toSteady, opened.disk, opened.freeMap⟩

/-- `file` stands at `pos` of the file whose inode is in `sector`. -/
structure At (fs : FileSys) (file : Ptr) (sector pos : Nat) : Prop where
  notMap : fs.freeMapFile ≠ some file
  here : ∃ inode target, fs.files file = some { inode := inode, pos := pos, denyWrite := false } ∧
    fs.inodes inode = some target ∧ target.sector = sector ∧ target.removed = false

/-- The root directory has `name` for the inode in `sector` and for no other. -/
def Named (fs : FileSys) (name : Name) (sector : Nat) : Prop :=
  Lists fs name sector ∧ ∀ other, Lists fs name other → other = sector

section Opening

variable {inodes : Set Nat} {fs : FileSys} {name : Name} {sector : Nat}

/-- An inode that is not in the removed set. -/
theorem kept_inode {inode : Ptr} {target : Volume.Inode} (present : fs.inodes inode = some target)
    (kept : target.sector ∉ removedSet fs) : target.removed = false := by
  cases gone : target.removed with
  | false => rfl
  | true => exact absurd ⟨inode, target, present, gone, rfl⟩ kept

theorem dir_close_same {extra : Ptr → Nat} {dir : Dir}
    (opened : DirOpened rootPlace inodes fs extra dir) :
    Returns (dirClose (some dir)) fs fun _ next => Same fs next ∧ Kept fs next ∧
      Sound inodes next Set.univ extra ∧ Catalog rootPlace inodes next := by
  obtain ⟨target, present, isDir⟩ := opened.reached
  have stays : ¬Vanishes target := by
    intro vanishes
    have kept : target.sector ∉ removedSet fs := by
      rw [isDir]
      exact opened.catalog.fixed.2
    have gone := vanishes.2
    rw [kept_inode present kept] at gone
    cases gone
  apply returns_mono (inode_close_kept opened.sound.toTable present stays)
  intro _ next after
  obtain ⟨kept, disk, freeMap, _, table⟩ := after
  have same : ∀ sector, diskInode next.disk sector = diskInode fs.disk sector := by
    intro sector
    rw [disk]
  have data : ∀ sector, contents next.disk sector = contents fs.disk sector := by
    intro sector
    rw [disk]
  refine ⟨⟨kept.toSteady, disk, freeMap⟩, kept, ?_, ?_⟩
  · exact sound_frame opened.sound table kept.toCalm kept.files freeMap (same _) (data _)
  · exact catalog_frame opened.catalog (same _) (data _) kept.removed Set.sdiff_subset
      (no_file_calm opened.catalog.noFile opened.sound.toTable kept.toCalm kept.files)

/-- Opening a file by its name. -/
theorem filesys_open_named (ready : Ready inodes fs) (named : Named fs name sector) :
    Returns (filesysOpen (some name)) fs fun result next =>
      ∃ file, result = some file ∧ Same fs next ∧ Ready inodes next ∧ At next file sector 0 ∧
        ∃ handle, next.files = Function.update fs.files file (some handle) := by
  obtain ⟨plenty, sound, catalog⟩ := ready
  unfold filesysOpen
  apply returns_bind (dir_open_root_returns sound catalog)
  intro result first after
  cases result with
  | none => exact absurd plenty after.2
  | some dir =>
      obtain ⟨begun, opened⟩ := after
      have plentyFirst := (plenty_calm begun.kept.toCalm).mpr plenty
      apply returns_bind (dir_lookup_returns opened name)
      intro found second after
      obtain ⟨looked, result⟩ := after
      cases found with
      | none =>
          obtain ⟨index, ⟨bound, inUse, _⟩, string⟩ := named.1
          refine absurd ⟨?_, ?_⟩ (result.2 plentyFirst index bound)
          · rw [begun.disk]
            exact inUse
          · rw [begun.disk]
            exact string
      | some inode =>
          obtain ⟨again, target, present, index, bound, matches_, isNamed⟩ := result
          rw [begun.disk] at matches_ isNamed
          have isSector : target.sector = sector := by
            rw [isNamed]
            exact named.2 _ ⟨index, ⟨bound, matches_.1, rfl⟩, matches_.2⟩
          obtain ⟨_, notMap, notDir, kept⟩ :=
            catalog.named index sector ⟨bound, matches_.1, by rw [← isNamed, isSector]⟩
          rw [bump_comm] at again
          have catalogSecond := catalog_opened opened.catalog opened.sound.toTable looked
          have dirHere : DirOpened rootPlace inodes second (bump (fun _ => 0) inode) dir := by
            obtain ⟨was, wasHere, isDir⟩ := opened.reached
            obtain ⟨found, here, sameSector⟩ := looked.persists _ was wasHere
            exact ⟨again, catalogSecond, found, here, sameSector.trans isDir⟩
          apply returns_bind (dir_close_same dirHere)
          intro _ third after
          obtain ⟨same, keeps, settled, catalogThird⟩ := after
          obtain ⟨found, here⟩ := settled.spare inode (by rw [bump_self]; omega)
          obtain ⟨was, wasHere, sameSector⟩ :=
            keeps.older _ found here (again.inodeOld _ _ present)
          rw [present] at wasHere
          cases wasHere
          have foundSector : found.sector = sector := sameSector.trans isSector
          have early := kept_trans (kept_trans begun.kept looked.kept) keeps
          have all := same_trans (same_trans (same_opened begun) (same_opened looked)) same
          have plentyThird := (plenty_calm early.toCalm).mpr plenty
          refine returns_mono (file_open_returns settled here (by rw [foundSector]; exact notMap)) ?_
          intro result last after
          cases result with
          | none => exact absurd plentyThird after.2
          | some file =>
              obtain ⟨isFile, isLast, final⟩ := after
              have steady := @steady_new_file third inode
              have foundKept : found.removed = false := by
                apply kept_inode here
                rw [foundSector]
                exact fun gone => kept (early.removed gone)
              have noFile : NoFile rootPlace.sector last := by
                intro other handle its otherHere reached
                rw [isLast] at otherHere reached
                cases file_update_some otherHere with
                | inl new =>
                    cases new.2
                    change third.inodes inode = some its at reached
                    rw [here] at reached
                    cases reached
                    rw [foundSector]
                    exact notDir
                | inr old => exact catalogThird.noFile other handle its old.2 reached
              have catalogLast : Catalog rootPlace inodes last := by
                refine catalog_frame catalogThird ?_ ?_ ?_ Set.sdiff_subset noFile
                · rw [isLast]
                  rfl
                · rw [isLast]
                  rfl
                · rw [isLast]
                  exact steady.removed
              have notMapFile : last.freeMapFile ≠ some file := by
                obtain ⟨map, mapHandle, _, mapNamed, _, mapHere, _⟩ := settled.mapFile
                rw [isLast, isFile]
                change third.freeMapFile ≠ some third.requests
                rw [mapNamed]
                intro same
                have old := settled.fileOld map mapHandle mapHere
                rw [Option.some.inj same] at old
                exact Nat.lt_irrefl _ old
              refine ⟨file, rfl, ?_, ⟨?_, final, catalogLast⟩, ⟨notMapFile, inode, found, ?_, ?_,
                foundSector, foundKept⟩, { inode := inode, pos := 0, denyWrite := false }, ?_⟩
              · refine same_trans all ?_
                rw [isLast]
                exact ⟨steady, rfl, rfl⟩
              · rw [isLast]
                exact plentyThird
              · rw [isLast, isFile]
                exact Function.update_self ..
              · rw [isLast]
                exact here
              · rw [isLast, isFile]
                change Function.update third.files third.requests _ = _
                rw [early.files]

end Opening

section Using

variable {inodes : Set Nat} {fs : FileSys} {file : Ptr} {sector pos : Nat}

theorem at_places (ready : Ready inodes fs) (at_ : At fs file sector pos) :
    sector ∈ inodes ∧ sector ≠ freeMapSector ∧ sector ≠ rootDirSector := by
  obtain ⟨notMap, inode, target, here, reached, isSector, _⟩ := at_
  rw [← isSector]
  exact ⟨ready.sound.live _ _ reached, map_handle ready.sound notMap here reached,
    ready.catalog.noFile file _ target here reached⟩

/-- The data in memory are those on the device. -/
theorem at_contents (ready : Ready inodes fs) {inode : Ptr} {target : Volume.Inode}
    (reached : fs.inodes inode = some target) (isSector : target.sector = sector) :
    dataOf fs.disk target.data = contents fs.disk sector := by
  rw [ready.sound.loaded _ _ reached, isSector]
  rfl

theorem contents_length (ready : Ready inodes fs) (inside : sector ∈ inodes) :
    ((contents fs.disk sector).length : Int) = inodeLength (diskInode fs.disk sector) := by
  have nonneg := (ready.sound.stored.valid sector inside).length_nonneg
  rw [contents, slice_length]
  omega

theorem file_length_at (ready : Ready inodes fs) (at_ : At fs file sector pos) :
    Returns (fileLength file) fs fun length next =>
      next = fs ∧ length = ((contents fs.disk sector).length : Int) := by
  obtain ⟨inside, _, _⟩ := at_places ready at_
  obtain ⟨_, inode, target, here, reached, isSector, _⟩ := at_
  unfold fileLength
  apply returns_bind (file_at_returns here)
  intro handle _ after
  rw [after.1, after.2]
  apply returns_bind (inode_at_returns reached)
  intro found _ after
  rw [after.1, after.2]
  apply returns_pure
  refine ⟨rfl, ?_⟩
  rw [contents_length ready inside, ready.sound.loaded _ _ reached, isSector]

/-- Replacing the handle of a file by one at another position. -/
theorem at_moved {next : FileSys} {moved : Nat} (at_ : At fs file sector pos)
    (freeMapFile : next.freeMapFile = fs.freeMapFile) (table : next.inodes = fs.inodes)
    {handle : File} (here : fs.files file = some handle)
    (files : next.files = Function.update fs.files file (some { handle with pos := moved })) :
    At next file sector moved := by
  obtain ⟨notMap, inode, target, was, reached, isSector, kept⟩ := at_
  rw [here] at was
  cases was
  refine ⟨by rw [freeMapFile]; exact notMap, inode, target, ?_, by rw [table]; exact reached,
    isSector, kept⟩
  rw [files, Function.update_self]

theorem file_read_at (ready : Ready inodes fs) (at_ : At fs file sector pos) (size : Int) :
    Returns (fileRead file size) fs fun bytes next =>
      bytes = arrayRead (contents fs.disk sector) size pos ∧ Same fs next ∧ Ready inodes next ∧
        At next file sector (pos + bytes.length) ∧
        ∃ handle, next.files = Function.update fs.files file (some handle) := by
  have begun := at_
  obtain ⟨_, inode, target, here, reached, isSector, _⟩ := at_
  apply returns_mono (file_read_returns ready.sound here reached size)
  intro bytes next after
  obtain ⟨delivered, settled, requests, grown, isNext⟩ := after
  have steady : Steady fs next := by
    rw [isNext]
    exact steady_inodes rfl rfl rfl grown rfl
  have files : next.files = Function.update fs.files file
      (some { inode := inode, pos := pos + bytes.length, denyWrite := false }) := by rw [isNext]
  have disk : next.disk = fs.disk := by rw [isNext]
  have catalog := catalog_handle ready.catalog ready.sound.toTable steady here files rfl
    (by rw [disk]; exact confined_refl ∅ inodes fs.disk) (Set.notMem_empty _) Set.sdiff_subset
  refine ⟨?_, ⟨steady, disk, by rw [isNext]⟩,
    ⟨(plenty_calm steady.toCalm).mpr ready.plenty, settled, catalog⟩,
    at_moved begun steady.freeMapFile (by rw [isNext]) here files, _, files⟩
  rw [delivered, transferred_plenty ready.plenty, slice_array_read, at_contents ready reached isSector]

theorem file_close_at (ready : Ready inodes fs) (at_ : At fs file sector pos) :
    Returns (fileClose (some file)) fs fun _ next =>
      Same fs next ∧ Ready inodes next ∧ next.files = Function.update fs.files file none := by
  obtain ⟨notMap, inode, target, here, reached, isSector, kept⟩ := at_
  have left := sound_leave ready.sound here rfl notMap
  have stays : ¬Vanishes target := by
    intro vanishes
    have gone := vanishes.2
    rw [kept] at gone
    cases gone
  unfold fileClose
  apply returns_bind (file_allow_idle here rfl)
  intro _ _ isSame
  rw [isSame]
  apply returns_bind (file_at_returns here)
  intro handle _ after
  rw [after.1, after.2]
  apply returns_bind (inode_close_kept left.toTable reached stays)
  intro _ closed after
  obtain ⟨keeps, disk, freeMap, _, table⟩ := after
  have settled : Sound inodes closed (Set.univ \ {file}) (fun _ => 0) := by
    refine sound_frame left table keeps.toCalm keeps.files freeMap ?_ ?_
    · rw [disk]
    · rw [disk]
  have freed : Steady closed { closed with files := Function.update closed.files file none } :=
    steady_inodes rfl rfl rfl (Nat.le_refl _) rfl
  have steady := steady_trans keeps.toSteady freed
  apply returns_modify_last
  refine ⟨⟨steady, disk, freeMap⟩, ⟨(plenty_calm steady.toCalm).mpr ready.plenty,
    sound_free settled, ?_⟩, by rw [keeps.files]⟩
  refine catalog_frame ready.catalog ?_ ?_ steady.removed Set.sdiff_subset ?_
  · dsimp only
    rw [disk]
  · dsimp only
    rw [disk]
  · apply no_file_steady ready.catalog.noFile ready.sound.toTable steady.toCalm
    intro other found there
    dsimp only at there
    rw [keeps.files] at there
    cases file_update_some there with
    | inl impossible => cases impossible.2
    | inr old => exact ⟨other, found, old.2, rfl⟩

/-- No open file denies writes. -/
def Undenied (fs : FileSys) : Prop :=
  ∀ file handle, fs.files file = some handle → handle.denyWrite = false

theorem undenied_count (ready : Ready inodes fs) (undenied : Undenied fs) {inode : Ptr}
    {target : Volume.Inode} (reached : fs.inodes inode = some target) : target.denyWriteCnt = 0 := by
  have noDenier : deniers fs Set.univ inode = ∅ := by
    apply Set.eq_empty_iff_forall_notMem.mpr
    intro other denier
    obtain ⟨_, handle, here, _, denies⟩ := denier
    rw [undenied other handle here] at denies
    cases denies
  rw [(ready.sound.counted inode target reached).denied, noDenier, Set.ncard_empty]
  rfl

theorem undenied_update (undenied : Undenied fs) {next : FileSys} {change : Option File}
    (files : next.files = Function.update fs.files file change)
    (allows : ∀ handle, change = some handle → handle.denyWrite = false) : Undenied next := by
  intro other handle here
  rw [files] at here
  cases file_update_some here with
  | inl new => exact allows handle new.2
  | inr old => exact undenied other handle old.2

theorem file_write_keeps (file : Ptr) (buffer : Nat → Byte) (size : Int) :
    KeepsMap (fileWrite file buffer size) := by
  refine keeps_bind (file_at_keeps file) fun handle => ?_
  refine keeps_bind (keeps_bind (inode_at_keeps handle.inode) fun target => ?_) fun written => ?_
  · split
    · exact keeps_pure _
    · exact write_loop_keeps _ _ _ _ _ _ _
  · exact keeps_bind (keeps_modify _ fun _ => rfl) fun _ => keeps_pure _

/-- What a write to the file in `sector` has done. -/
structure Written (inodes : Set Nat) (fs next : FileSys) (sector : Nat) (bytes : List Byte) :
    Prop where
  steady : Steady fs next
  ready : Ready inodes next
  freeMap : next.freeMap = fs.freeMap
  confined : Confined {sector} inodes fs.disk next.disk
  contents : contents next.disk sector = bytes

theorem file_write_at (ready : Ready inodes fs) (undenied : Undenied fs)
    (at_ : At fs file sector pos) (buffer : Nat → Byte) (size : Int) :
    Returns (fileWrite file buffer size) fs fun written next =>
      written = arrayRoom (contents fs.disk sector) size pos ∧
        Written inodes fs next sector (arrayWrite (contents fs.disk sector) buffer size pos) ∧
        At next file sector (pos + written) ∧ Undenied next ∧
        ∃ handle, next.files = Function.update fs.files file (some handle) := by
  have begun := at_
  obtain ⟨inside, notMap, notRoot⟩ := at_places ready at_
  obtain ⟨_, inode, target, here, reached, isSector, _⟩ := at_
  have data := at_contents ready reached isSector
  have allowed := undenied_count ready undenied reached
  refine returns_mono (returns_ensures (file_write_returns ready.sound here reached
    (by rw [isSector]; exact notMap) buffer size) (file_write_keeps file buffer size fs)) ?_
  intro written next after
  obtain ⟨⟨counted, steady, settled, confined, table, disk, files⟩, freeMap⟩ := after
  rw [allowed, if_neg (not_not.mpr rfl), transferred_plenty ready.plenty, available_room fs.disk,
    data] at counted
  have catalog := catalog_handle ready.catalog ready.sound.toTable steady here files rfl confined
    (by rw [isSector]; exact notRoot.symm) Set.sdiff_subset
  dsimp only at counted disk
  rw [isSector] at confined
  have whole : contents next.disk sector = arrayWrite (contents fs.disk sector) buffer size pos := by
    have sameInode := confined.inode sector inside
    have loaded := ready.sound.loaded _ _ reached
    rw [isSector] at loaded
    have room := @array_room_fits fs.disk target.data size pos
    rw [data, ← counted] at room
    unfold arrayWrite
    rw [← counted]
    unfold contents
    rw [sameInode, disk, loaded]
    cases Nat.eq_zero_or_pos written with
    | inl zero =>
        rw [zero, slice_zero, overwrite_nil]
        unfold splice
        rw [List.append_nil, List.length_nil, Nat.add_zero, List.take_append_drop]
    | inr some_ =>
        have fits := room some_
        rw [loaded] at fits
        exact slice_overwrite_part (by rw [slice_length]; exact fits)
  refine ⟨counted, ⟨steady, ⟨(plenty_calm steady.toCalm).mpr ready.plenty, settled, catalog⟩, freeMap,
    confined, whole⟩, at_moved begun steady.freeMapFile table here files, ?_, _, files⟩
  apply undenied_update undenied files
  intro handle isHandle
  rw [← Option.some.inj isHandle]

end Using

section Creating

variable {inodes : Set Nat} {fs : FileSys} {map : NameMap} {name : Name} {length : Word}
  {sector : Nat}

/-- A new name for an inode in a new sector, with `taken` sectors more in use. -/
structure Grew (inodes : Set Nat) (fs next : FileSys) (map : NameMap) (name : Name) (length : Word)
    (sector taken : Nat) : Prop where
  kept : Kept fs next
  new : sector ∉ inodes
  absent : map name = none
  valid : ValidName name
  represents : Represents rootPlace next.disk (Function.update map name (some sector))
  zero : contents next.disk sector = List.replicate length.toInt.toNat 0
  confined : Confined ({freeMapSector} ∪ {rootDirSector}) inodes fs.disk next.disk
  packed : ∀ used, Packed fs.freeMap used → Packed next.freeMap (used + taken)

/-- There is room for a name and `taken` sectors. -/
structure Fits (fs : FileSys) (map : NameMap) (name : Name) (taken : Nat) : Prop where
  valid : ValidName name
  absent : map name = none
  notFull : (domain map).ncard < rootPlace.entries
  room : ∃ used, Packed fs.freeMap used ∧ used + taken ≤ fs.size

theorem represents_confined (represents : Represents rootPlace fs.disk map)
    (catalog : Catalog rootPlace inodes fs) {next : FileSys}
    (confined : Confined {freeMapSector} inodes fs.disk next.disk) :
    Represents rootPlace next.disk map :=
  represents_congr represents fun _ inside => entry_at_congr catalog.sized
    (confined.inode _ catalog.dirIn) (confined.data _ catalog.dirIn (map_spared catalog)) inside

theorem create_in_grows {dir : Dir} {extra : Ptr → Nat} (plenty : Plenty fs)
    (opened : DirOpened rootPlace inodes fs extra dir) (represents : Represents rootPlace fs.disk map)
    (nonneg : 0 ≤ length.toInt) (unowned : Unowned inodes fs.disk sector)
    (used : sector ∈ marked fs.freeMap) (noNul : (0 : Byte) ∉ name) :
    Ensures (createIn dir name length sector) fs fun result next =>
      (result = true →
        Grew inodes fs next map name length sector (bytesToSectors length.toInt) ∧
          DirOpened rootPlace (insert sector inodes) next extra dir) ∧
      (Fits fs map name (bytesToSectors length.toInt) → result = true) := by
  have notStored := unowned_not_stored unowned
  have marks : Ensures (inodeCreate sector length) fs fun result next => ∀ count,
      Packed fs.freeMap count → result = true →
        Packed next.freeMap (count + bytesToSectors length.toInt) := by
    intro result next ran count packed
    exact inode_create_packed (allocates_sound (sound_requested opened.sound
      ⟨fs.requests + 1, Nat.le_succ _, rfl⟩)) packed result next ran
  have succeeds : Ensures (inodeCreate sector length) fs fun result _ =>
      Fits fs map name (bytesToSectors length.toInt) → result = true := by
    intro result next ran fits
    obtain ⟨count, packed, room⟩ := fits.room
    exact inode_create_succeeds opened.sound plenty packed room result next ran
  unfold createIn
  refine ensures_bind (ensures_and (ensures_returns
    (inode_create_returns opened.sound nonneg unowned used)) (ensures_and marks succeeds)) ?_
  intro result middle after
  obtain ⟨outcome, marked_, made⟩ := after
  cases outcome with
  | inr failure =>
      rw [failure.1, if_neg (by simp)]
      apply ensures_pure
      refine ⟨(fun impossible => nomatch impossible), fun fits => ?_⟩
      have success := made fits
      rw [failure.1] at success
      exact success
  | inl success =>
      obtain ⟨isTrue, created⟩ := success
      rw [isTrue, if_pos rfl]
      obtain ⟨here, nameable⟩ := dir_opened_created opened notStored created
      have plentyMiddle := (plenty_calm created.kept.toCalm).mpr plenty
      have showing := represents_confined represents opened.catalog created.confined
      have small := (here.sound.stored.valid _ (map_live here.sound)).small
      have below := inode_lt here.sound.stored nameable.stored
      obtain ⟨target, present, isDir⟩ := here.reached
      apply ensures_returns
      apply returns_mono (dir_add_returns here.sound here.catalog present isDir nameable name)
      intro added next after
      cases after with
      | inl entered_ =>
          obtain ⟨isAdded, valid, index, inside, found, entered, linked, when_⟩ := entered_
          obtain ⟨absent, free⟩ := when_ plentyMiddle
          have none_ := (mapped_none showing name).mpr absent
          have itsSector : (newEntry found name sector).inodeSector.toNat = sector := by
            simp only [newEntry, BitVec.toNat_ofNat]
            omega
          refine ⟨fun _ => ⟨⟨kept_trans created.kept entered.kept, notStored, none_, valid, ?_, ?_,
            ?_, ?_⟩, dir_opened_kept here entered.sound linked entered.kept.toCalm⟩, fun _ => isAdded⟩
          · apply represents_add showing inside free none_ _ _ _ valid entered.others
            · rw [entered.written]
              exact (by decide : (1 : Byte) ≠ 0)
            · rw [entered.written]
              exact new_entry_string valid noNul
            · rw [entered.written]
              exact itsSector
          · rw [entered.confined.data sector nameable.stored nameable.notDir, created.zero]
          · exact confined_either created.confined
              (confined_mono entered.confined Set.Subset.rfl (Set.subset_insert _ _))
          · intro count packed
            rw [entered.freeMap]
            exact marked_ count packed isTrue
      | inr refused =>
          obtain ⟨isRefused, _, why⟩ := refused
          refine ⟨fun isAdded => absurd (isRefused.symm.trans isAdded) (by decide), ?_⟩
          intro fits
          exfalso
          cases why plentyMiddle with
          | inl invalid => exact invalid fits.valid
          | inr rest =>
              cases rest with
              | inl taken =>
                  obtain ⟨j, within, there⟩ := taken
                  exact (mapped_none showing name).mp fits.absent j within there
              | inr full =>
                  obtain ⟨j, within, free⟩ := (not_full_iff showing).mp fits.notFull
                  exact full j within free

theorem allocated_packed {inodes : Set Nat} {held : Set Ptr} {extra : Ptr → Nat}
    (sound : Sound inodes fs held extra) (cnt : Nat) :
    Ensures (freeMapAllocate cnt) fs fun result next => ∀ start, result = some start →
      ∀ used, Packed fs.freeMap used → Packed next.freeMap (used + cnt) := by
  intro result next ran start isStart used packed
  exact allocate_packed (allocates_sound sound) packed result next ran start isStart

/-- Creating a file by its name. -/
theorem filesys_create_grows (ready : Ready inodes fs) (represents : Represents rootPlace fs.disk map)
    (nonneg : 0 ≤ length.toInt) (noNul : (0 : Byte) ∉ name) :
    Ensures (filesysCreate name length) fs fun result next =>
      (result = true → ∃ sector, Ready (insert sector inodes) next ∧
        Grew inodes fs next map name length sector (1 + bytesToSectors length.toInt)) ∧
      (Fits fs map name (1 + bytesToSectors length.toInt) → result = true) := by
  obtain ⟨plenty, sound, catalog⟩ := ready
  unfold filesysCreate
  refine ensures_bind (ensures_returns (dir_open_root_returns sound catalog)) ?_
  intro result first after
  cases result with
  | none => exact absurd plenty after.2
  | some dir =>
      obtain ⟨begun, opened⟩ := after
      have plentyFirst := (plenty_calm begun.kept.toCalm).mpr plenty
      have showing : Represents rootPlace first.disk map := by
        rw [begun.disk]
        exact represents
      have finds : Ensures (freeMapAllocate 1) first fun result _ =>
          Fits fs map name (1 + bytesToSectors length.toInt) → result ≠ none := by
        intro result next ran fits
        obtain ⟨count, packed, room⟩ := fits.room
        rw [← begun.freeMap] at packed
        refine allocate_succeeds opened.sound plentyFirst packed ?_ result next ran
        rw [begun.kept.size]
        omega
      refine ensures_bind (ensures_and (ensures_returns (allocate_returns opened.sound 1))
        (ensures_and (allocated_packed opened.sound 1) finds)) ?_
      intro found second after
      obtain ⟨⟨kept, confined, again, table, rest⟩, marks, some_⟩ := after
      cases found with
      | none =>
          refine ensures_bind (fun _ _ _ => trivial : Ensures _ _ fun _ _ => True) ?_
          intro _ _ _
          apply ensures_pure
          exact ⟨(fun impossible => nomatch impossible), fun fits => absurd rfl (some_ fits)⟩
      | some sector =>
          obtain ⟨inside, free, map_, _⟩ := rest
          have clear := free 0 (by omega)
          rw [Nat.add_zero] at clear
          have unowned : Unowned inodes second.disk sector :=
            unowned_confined (unowned_of_free opened.sound.stored clear) confined
          have used : sector ∈ marked second.freeMap := by
            rw [map_, marked_allocated (by rw [opened.sound.stored.mapLength]; exact inside)]
            exact .inr ⟨Nat.le_refl _, Nat.lt_succ_self _⟩
          have settled := catalog_confined opened.catalog opened.sound.toTable kept confined
            (map_spared opened.catalog) Set.sdiff_subset
          have here := dir_opened_kept opened again settled kept.toCalm
          have early := kept_trans begun.kept kept
          have plentySecond := (plenty_calm early.toCalm).mpr plenty
          have fitting : Fits fs map name (1 + bytesToSectors length.toInt) →
              Fits second map name (bytesToSectors length.toInt) := by
            intro fits
            obtain ⟨count, packed, room⟩ := fits.room
            rw [← begun.freeMap] at packed
            refine ⟨fits.valid, fits.absent, fits.notFull, count + 1, marks _ rfl count packed, ?_⟩
            rw [early.size]
            omega
          refine ensures_bind (create_in_grows plentySecond here
            (represents_confined showing opened.catalog confined) nonneg unowned used noNul) ?_
          intro success third after
          obtain ⟨grown, made⟩ := after
          cases success with
          | false =>
              have failed : ∀ program : FsM Unit, Ensures
                  (do program; dirClose (some dir); return false) third fun result next =>
                  (result = true → ∃ sector, Ready (insert sector inodes) next ∧
                    Grew inodes fs next map name length sector (1 + bytesToSectors length.toInt)) ∧
                  (Fits fs map name (1 + bytesToSectors length.toInt) → result = true) := by
                intro program
                refine ensures_bind (fun _ _ _ => trivial : Ensures _ _ fun _ _ => True) ?_
                intro _ _ _
                refine ensures_bind (fun _ _ _ => trivial : Ensures _ _ fun _ _ => True) ?_
                intro _ _ _
                apply ensures_pure
                exact ⟨(fun impossible => nomatch impossible), fun fits => made (fitting fits)⟩
              split
              · exact failed _
              · exact failed (pure ())
          | true =>
              rw [if_neg (by simp)]
              obtain ⟨grew, linked⟩ := grown rfl
              refine ensures_bind (ensures_returns (dir_close_same linked)) ?_
              intro _ last after
              obtain ⟨same, keeps, final, ends⟩ := after
              have whole := kept_trans (kept_trans early grew.kept) keeps
              apply ensures_pure
              refine ⟨fun _ => ⟨sector, ⟨(plenty_calm whole.toCalm).mpr plenty, final, ends⟩, whole,
                grew.new, grew.absent, grew.valid, ?_, ?_, ?_, ?_⟩, fun _ => rfl⟩
              · rw [same.disk]
                exact grew.represents
              · rw [same.disk]
                exact grew.zero
              · rw [same.disk, ← begun.disk]
                exact confined_trans (confined_mono confined Set.subset_union_left Set.Subset.rfl)
                  grew.confined
              · intro count packed
                rw [same.freeMap]
                rw [← begun.freeMap] at packed
                have most := grew.packed _ (marks _ rfl count packed)
                rw [Nat.add_assoc] at most
                exact most

end Creating

end UtSystems.Filesys.NamedContents

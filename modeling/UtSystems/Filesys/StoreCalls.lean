import UtSystems.Filesys.FailedCreates

/-!
# What the calls on files leave alone

With memory to spare, a call on names and open files changes the names and the contents of no more
than it is about: `filesys_create` adds a name or nothing, `filesys_remove` takes one away, opening
and closing leave all names and contents, and a write changes the contents of one file.
-/

namespace UtSystems.Filesys.StoreCalls

open Lib.Bytes Lib.Effects Filesys.Volume Filesys.InodeData Filesys.FreeMap Filesys.Inode
open Filesys.Directory Filesys.Ownership Filesys.Consistency Filesys.OpenFiles Filesys.Creation
open Filesys.Entries Filesys.NamedInodes Filesys.NamedFiles Filesys.ByteArrays Filesys.PackedMap
open Filesys.Requests Filesys.DirectoryMap Filesys.NamedContents

set_option autoImplicit false

/-- The file system is in order again, and the contents of the files are the same but for those
in `touched`. -/
structure Went (inodes touched : Set Nat) (fs next : FileSys) : Prop where
  calm : Calm fs next
  ready : ∃ rest, Ready rest next
  confined : Confined touched inodes fs.disk next.disk

section Creating

variable {inodes : Set Nat} {fs : FileSys} {map : NameMap} {name : Name} {length : Word}
  {sector : Nat}

theorem granted_plenty (plenty : Plenty fs) (count : Nat) : Granted fs count :=
  fun _ _ => plenty _

theorem in_order_ready {next : FileSys} (plenty : Plenty fs) (calm : Calm fs next)
    (order : InOrder rootPlace next fun _ => 0) : ∃ rest, Ready rest next := by
  obtain ⟨rest, sound, catalog⟩ := order
  exact ⟨rest, (plenty_calm calm).mpr plenty, sound, catalog⟩

/-- The name can be added to the directory. -/
structure Free (map : NameMap) (name : Name) : Prop where
  valid : ValidName name
  absent : map name = none
  notFull : (domain map).ncard < rootPlace.entries

theorem add_not_refused {disk : Disk} (represents : Represents rootPlace disk map)
    (why : ¬ValidName name ∨ (∃ j < rootPlace.entries, Matches rootPlace disk name j) ∨
      ∀ j < rootPlace.entries, (entryAt rootPlace disk j).inUse ≠ 0) : ¬Free map name := by
  intro free
  cases why with
  | inl invalid => exact invalid free.valid
  | inr rest =>
      cases rest with
      | inl taken =>
          obtain ⟨j, inside, there⟩ := taken
          exact (mapped_none represents name).mp free.absent j inside there
      | inr full =>
          obtain ⟨j, inside, unused⟩ := (not_full_iff represents).mp free.notFull
          exact full j inside unused

theorem create_in_refuses {dir : Dir} {extra : Ptr → Nat} (plenty : Plenty fs)
    (opened : DirOpened rootPlace inodes fs extra dir) (represents : Represents rootPlace fs.disk map)
    (nonneg : 0 ≤ length.toInt) (unowned : Unowned inodes fs.disk sector)
    (used : sector ∈ marked fs.freeMap) :
    Ensures (createIn dir name length sector) fs fun result next => result = false →
      Confined {freeMapSector} inodes fs.disk next.disk ∧
        ¬(Free map name ∧ Makes fs (bytesToSectors length.toInt)) := by
  have notStored := unowned_not_stored unowned
  unfold createIn
  refine ensures_bind (ensures_and (ensures_returns
    (inode_create_returns opened.sound nonneg unowned used))
    (inode_create_makes opened.sound nonneg sector)) ?_
  intro result middle after
  obtain ⟨outcome, makes⟩ := after
  cases outcome with
  | inr failure =>
      obtain ⟨isFalse, failed⟩ := failure
      rw [isFalse, if_neg Bool.false_ne_true]
      apply ensures_pure
      intro _
      refine ⟨failed.confined, ?_⟩
      intro possible
      have success := makes.mpr possible.2
      rw [isFalse] at success
      cases success
  | inl success =>
      obtain ⟨isTrue, created⟩ := success
      rw [isTrue, if_pos rfl]
      obtain ⟨here, nameable⟩ := dir_opened_created opened notStored created
      have showing := represents_confined represents opened.catalog created.confined
      obtain ⟨target, present, isDir⟩ := here.reached
      refine ensures_returns (returns_mono
        (dir_add_returns here.sound here.catalog present isDir nameable name) ?_)
      intro added last outcome fails
      cases outcome with
      | inl entered => exact absurd (entered.1.symm.trans fails) (by decide)
      | inr refused =>
          obtain ⟨_, ⟨requests, _, isLast⟩, why⟩ := refused
          have sameDisk : last.disk = middle.disk := by rw [isLast]
          rw [sameDisk]
          refine ⟨created.confined, ?_⟩
          intro possible
          have plentyMiddle := (plenty_calm created.kept.toCalm).mpr plenty
          exact add_not_refused showing (why plentyMiddle) possible.1

/-- There is a sector for the inode and a run of sectors for the data. -/
def Roomy (fs : FileSys) (sectors : Nat) : Prop :=
  ∃ sector start, bitmapScan fs.freeMap 0 1 false = some sector ∧
    bitmapScan (bitmapSetMultiple fs.freeMap sector 1 true) 0 sectors false = some start

/-- The directory is closed on the way out. -/
theorem dir_close_confined {touched : Set Nat} {middle : FileSys} {dir : Dir} {extra : Ptr → Nat}
    {rest : Set Nat} (confined : Confined touched inodes fs.disk middle.disk)
    (opened : DirOpened rootPlace rest middle extra dir) :
    Ensures (do
        dirClose (some dir)
        return false : FsM Bool) middle fun _ next =>
      Confined touched inodes fs.disk next.disk := by
  refine ensures_bind (ensures_returns (dir_close_same opened)) ?_
  intro _ last after
  apply ensures_pure
  rw [after.1.disk]
  exact confined

/-- `filesys_create` that fails leaves all files alone, and has a reason. -/
theorem filesys_create_refuses (ready : Ready inodes fs)
    (represents : Represents rootPlace fs.disk map) (nonneg : 0 ≤ length.toInt) :
    Ensures (filesysCreate name length) fs fun result next => result = false →
      Confined {freeMapSector} inodes fs.disk next.disk ∧
        ¬(Free map name ∧ Roomy fs (bytesToSectors length.toInt)) := by
  obtain ⟨plenty, sound, catalog⟩ := ready
  unfold filesysCreate
  refine ensures_bind (ensures_returns (dir_open_root_returns sound catalog)) ?_
  intro result first after
  cases result with
  | none => exact absurd plenty after.2
  | some dir =>
      obtain ⟨begun, opened⟩ := after
      have plentyFirst := (plenty_calm begun.kept.toCalm).mpr plenty
      have showing : Represents rootPlace first.disk map := by
        rw [begun.disk]
        exact represents
      have spared := map_spared opened.catalog
      refine ensures_bind (ensures_and (ensures_returns (allocate_returns opened.sound 1))
        (allocate_scans first 1)) ?_
      intro found second after
      obtain ⟨⟨kept, confined, again, _, rest⟩, scans⟩ := after
      have settled := catalog_confined opened.catalog opened.sound.toTable kept confined spared
        Set.sdiff_subset
      have here := dir_opened_kept opened again settled kept.toCalm
      have early := confined
      rw [begun.disk] at early
      cases found with
      | none =>
          intro result last ran _
          refine ⟨dir_close_confined early here result last ran, ?_⟩
          intro possible
          obtain ⟨sector, _, scanned, _⟩ := possible.2
          rw [← begun.freeMap, (rest.2 plentyFirst).2] at scanned
          cases scanned
      | some sector =>
          obtain ⟨inside, free, isMap, _⟩ := rest
          have clear := free 0 (by omega)
          rw [Nat.add_zero] at clear
          have unowned : Unowned inodes second.disk sector :=
            unowned_confined (unowned_of_free opened.sound.stored clear) confined
          have used : sector ∈ marked second.freeMap := by
            rw [isMap, marked_allocated (by rw [opened.sound.stored.mapLength]; exact inside)]
            exact .inr ⟨Nat.le_refl _, Nat.lt_succ_self _⟩
          have plentySecond := (plenty_calm kept.toCalm).mpr plentyFirst
          have makes : Roomy fs (bytesToSectors length.toInt) →
              Makes second (bytesToSectors length.toInt) := by
            intro roomy
            obtain ⟨other, start, scanned, run⟩ := roomy
            rw [← begun.freeMap, scans sector rfl] at scanned
            cases scanned
            refine ⟨⟨start, ?_⟩, granted_plenty plentySecond _⟩
            rw [isMap, begun.freeMap]
            exact run
          refine ensures_bind (ensures_and
            (ensures_returns (create_in_returns here nonneg unowned used name))
            (create_in_refuses plentySecond here
              (represents_confined showing opened.catalog confined) nonneg unowned used)) ?_
          intro success third after
          obtain ⟨⟨_, outcome⟩, refuses⟩ := after
          cases outcome with
          | inl created =>
              obtain ⟨isTrue, _⟩ := created
              rw [isTrue, if_neg (by simp)]
              refine ensures_bind (fun _ _ _ => trivial : Ensures _ _ fun _ _ => True) ?_
              intro _ _ _
              apply ensures_pure
              intro impossible
              cases impossible
          | inr failed =>
              obtain ⟨isFalse, still, stillUnowned, stillUsed⟩ := failed
              obtain ⟨late, why⟩ := refuses isFalse
              have nonzero : sector ≠ 0 := by
                intro zero
                rw [zero] at unowned
                exact unowned_not_stored unowned (map_live again)
              rw [isFalse, if_pos ⟨rfl, nonzero⟩]
              have both := confined_trans early late
              refine ensures_bind (ensures_returns
                (release_unowned_returns still.sound stillUnowned stillUsed)) ?_
              intro _ fourth after
              obtain ⟨keeps, released, soundFourth, _⟩ := after
              have directory := catalog_confined still.catalog still.sound.toTable keeps released
                (map_spared still.catalog) Set.sdiff_subset
              intro result last ran _
              refine ⟨dir_close_confined (confined_trans both released)
                (dir_opened_kept still soundFourth directory keeps.toCalm) result last ran, ?_⟩
              intro possible
              exact why ⟨possible.1, makes possible.2⟩

/-- What `filesys_create` does to names and contents. -/
structure Adds (inodes : Set Nat) (fs next : FileSys) (map : NameMap) (name : Name)
    (length : Word) (sector : Nat) : Prop where
  new : sector ∉ inodes
  absent : map name = none
  represents : Represents rootPlace next.disk (Function.update map name (some sector))
  zero : contents next.disk sector = List.replicate length.toInt.toNat 0
  went : Went inodes {freeMapSector, rootDirSector} fs next

theorem filesys_create_went (ready : Ready inodes fs) (represents : Represents rootPlace fs.disk map)
    (nonneg : 0 ≤ length.toInt) (noNul : (0 : Byte) ∉ name) :
    Returns (filesysCreate name length) fs fun result next => next.files = fs.files ∧
      match result with
      | true => ∃ sector, Adds inodes fs next map name length sector
      | false => Represents rootPlace next.disk map ∧
          Went inodes {freeMapSector, rootDirSector} fs next ∧
          ¬(Free map name ∧ Roomy fs (bytesToSectors length.toInt)) := by
  refine returns_mono (returns_ensures
    (filesys_create_returns ⟨inodes, ready.sound, ready.catalog⟩ nonneg name)
    (ensures_and (filesys_create_grows ready represents nonneg noNul)
      (filesys_create_refuses ready represents nonneg))) ?_
  intro result next after
  obtain ⟨⟨quiet, order⟩, ⟨grows, _⟩, refuses⟩ := after
  refine ⟨quiet.files, ?_⟩
  cases result with
  | true =>
      obtain ⟨sector, final, grew⟩ := grows rfl
      exact ⟨sector, grew.new, grew.absent, grew.represents, grew.zero, quiet.toCalm, ⟨_, final⟩,
        grew.confined⟩
  | false =>
      obtain ⟨confined, why⟩ := refuses rfl
      refine ⟨represents_confined represents ready.catalog confined,
        ⟨quiet.toCalm, in_order_ready ready.plenty quiet.toCalm order, ?_⟩, why⟩
      exact confined_mono confined (Set.singleton_subset_iff.mpr (Set.mem_insert _ _)) Set.Subset.rfl

end Creating

section Naming

variable {inodes : Set Nat} {fs : FileSys} {map : NameMap} {name : Name}

theorem went_after {first last : FileSys} (begun : Opened fs first)
    (went : Went inodes {freeMapSector, rootDirSector} first last) :
    Went inodes {freeMapSector, rootDirSector} fs last := by
  refine ⟨calm_trans begun.kept.toCalm went.calm, went.ready, ?_⟩
  rw [← begun.disk]
  exact went.confined

theorem filesys_remove_went (ready : Ready inodes fs) (represents : Represents rootPlace fs.disk map) :
    Returns (filesysRemove name) fs fun result next => next.files = fs.files ∧
      Went inodes {freeMapSector, rootDirSector} fs next ∧
      match result with
      | true => map name ≠ none ∧
          Represents rootPlace next.disk (Function.update map name none)
      | false => map name = none ∧ Represents rootPlace next.disk map := by
  obtain ⟨plenty, sound, catalog⟩ := ready
  unfold filesysRemove
  apply returns_bind (dir_open_root_returns sound catalog)
  intro result first after
  cases result with
  | none => exact absurd plenty after.2
  | some dir =>
      obtain ⟨begun, opened⟩ := after
      have plentyFirst := (plenty_calm begun.kept.toCalm).mpr plenty
      have showing : Represents rootPlace first.disk map := by
        rw [begun.disk]
        exact represents
      obtain ⟨target, present, isDir⟩ := opened.reached
      apply returns_bind (dir_remove_returns opened.sound opened.catalog present isDir name)
      intro success second after
      cases after with
      | inl removed =>
          obtain ⟨isTrue, index, inside, matches_, unlinked⟩ := removed
          obtain ⟨rest, _, _, settled, directory⟩ := unlinked.rest
          rw [isTrue]
          apply returns_bind (dir_close_same (dir_opened_kept opened settled directory unlinked.calm))
          intro _ last after
          obtain ⟨same, keeps, final, ends⟩ := after
          have calm := calm_trans unlinked.calm same.steady.toCalm
          apply returns_pure
          refine ⟨?_, went_after begun ⟨calm, ⟨rest, (plenty_calm calm).mpr plentyFirst, final, ends⟩,
            ?_⟩, ?_, ?_⟩
          · rw [keeps.files, unlinked.files, begun.kept.files]
          · rw [same.disk]
            exact unlinked.confined
          · rw [mapped_some showing inside matches_]
            simp
          · rw [same.disk]
            exact represents_remove showing inside matches_ unlinked.cleared unlinked.others
      | inr missing =>
          obtain ⟨isFalse, closes, absent⟩ := missing
          obtain ⟨rest, _, _, settled, directory⟩ :=
            catalog_closes opened.catalog opened.sound.toTable closes
          rw [isFalse]
          apply returns_bind (dir_close_same
            (dir_opened_kept opened settled directory closes.kept.toCalm))
          intro _ last after
          obtain ⟨same, keeps, final, ends⟩ := after
          have calm := calm_trans closes.kept.toCalm same.steady.toCalm
          apply returns_pure
          refine ⟨?_, went_after begun ⟨calm, ⟨rest, (plenty_calm calm).mpr plentyFirst, final, ends⟩,
            ?_⟩, (mapped_none showing name).mpr (absent plentyFirst), ?_⟩
          · rw [keeps.files, closes.kept.files, begun.kept.files]
          · rw [same.disk]
            exact confined_mono closes.confined
              (Set.singleton_subset_iff.mpr (Set.mem_insert _ _)) Set.Subset.rfl
          · rw [same.disk]
            exact represents_confined showing opened.catalog closes.confined

/-- No file of that name is opened. -/
theorem filesys_open_missing (ready : Ready inodes fs)
    (absent : ∀ index < rootPlace.entries, ¬Matches rootPlace fs.disk name index) :
    Returns (filesysOpen (some name)) fs fun result next =>
      result = none ∧ Same fs next ∧ Ready inodes next ∧ next.files = fs.files := by
  obtain ⟨plenty, sound, catalog⟩ := ready
  unfold filesysOpen
  apply returns_bind (dir_open_root_returns sound catalog)
  intro result first after
  cases result with
  | none => exact absurd plenty after.2
  | some dir =>
      obtain ⟨begun, opened⟩ := after
      apply returns_bind (dir_lookup_returns opened name)
      intro found second after
      obtain ⟨looked, result⟩ := after
      cases found with
      | some inode =>
          obtain ⟨_, _, _, index, bound, matches_, _⟩ := result
          rw [begun.disk] at matches_
          exact absurd matches_ (absent index bound)
      | none =>
          have directory := catalog_opened opened.catalog opened.sound.toTable looked
          apply returns_bind (dir_close_same
            (dir_opened_kept opened result.1 directory looked.kept.toCalm))
          intro _ third after
          obtain ⟨same, keeps, final, ends⟩ := after
          refine returns_mono (file_open_null third) ?_
          intro opened_ last after
          obtain ⟨isNone, requested⟩ := after
          have kept := kept_requested requested
          have all := same_trans (same_trans (same_opened begun) (same_opened looked)) same
          have calm := calm_trans all.steady.toCalm kept.toCalm
          have settled := sound_requested final requested
          have directory := catalog_requested ends final.toTable requested
          obtain ⟨_, _, isLast⟩ := requested
          refine ⟨isNone, same_trans all ⟨kept.toSteady, by rw [isLast], by rw [isLast]⟩,
            ⟨(plenty_calm calm).mpr plenty, settled, directory⟩, ?_⟩
          rw [kept.files, keeps.files, looked.kept.files, begun.kept.files]

/-- What `filesys_open` does to the open files. -/
structure Adding (fs next : FileSys) (file : Ptr) (sector : Nat) : Prop where
  free : fs.files file = none
  notMap : next.freeMapFile ≠ some file
  opened : ∃ inode target,
    next.files = Function.update fs.files file
      (some { inode := inode, pos := 0, denyWrite := false }) ∧
    next.inodes inode = some target ∧ target.sector = sector

theorem filesys_open_went (ready : Ready inodes fs) (represents : Represents rootPlace fs.disk map) :
    Returns (filesysOpen (some name)) fs fun result next => Same fs next ∧ Ready inodes next ∧
      match result with
      | none => map name = none ∧ next.files = fs.files
      | some file => ∃ sector, map name = some sector ∧ Adding fs next file sector := by
  cases isNamed : map name with
  | none =>
      refine returns_mono (filesys_open_missing ready ((mapped_none represents name).mp isNamed)) ?_
      intro result next after
      obtain ⟨isNone, same, again, files⟩ := after
      rw [isNone]
      exact ⟨same, again, rfl, files⟩
  | some sector =>
      have named : NamedContents.Named fs name sector := by
        refine ⟨(represents.mapped name sector).mp isNamed, ?_⟩
        intro other listed
        have there := (represents.mapped name other).mpr listed
        rw [isNamed] at there
        exact (Option.some.inj there).symm
      refine returns_mono (returns_and (filesys_open_named ready named)
        (filesys_open_returns ⟨inodes, ready.sound, ready.catalog⟩ name)) ?_
      intro result next after
      obtain ⟨⟨file, isFile, same, again, at_, handle, files⟩, _, _, result_⟩ := after
      rw [isFile] at result_ ⊢
      refine ⟨same, again, sector, rfl, ?_, at_.notMap, ?_⟩
      · cases was : fs.files file with
        | none => rfl
        | some old =>
            have earlier := ready.sound.fileOld file old was
            exact absurd earlier (Nat.not_lt.mpr result_.fresh)
      · obtain ⟨inode, target, here, reached, isSector, _⟩ := at_.here
        refine ⟨inode, target, ?_, reached, isSector⟩
        rw [files, Function.update_self] at here
        rw [files, Option.some.inj here]

end Naming

section Handles

variable {inodes : Set Nat} {fs : FileSys} {file : Ptr} {handle : File} {target : Volume.Inode}

theorem went_same {next : FileSys} (ready : Ready inodes fs) (calm : Calm fs next)
    (order : InOrder rootPlace next fun _ => 0) (disk : next.disk = fs.disk) :
    Went inodes ∅ fs next := by
  refine ⟨calm, in_order_ready ready.plenty calm order, ?_⟩
  rw [disk]
  exact confined_refl _ _ _

theorem file_read_went (ready : Ready inodes fs) (here : fs.files file = some handle)
    (notMap : fs.freeMapFile ≠ some file) (reached : fs.inodes handle.inode = some target)
    (size : Int) :
    Returns (fileRead file size) fs fun bytes next =>
      bytes = arrayRead (contents fs.disk target.sector) size handle.pos ∧ Went inodes ∅ fs next ∧
        next.disk = fs.disk ∧ next.inodes = fs.inodes ∧ next.files = Function.update fs.files file
          (some { handle with pos := handle.pos + bytes.length }) := by
  refine returns_mono (returns_and (file_read_returns ready.sound here reached size)
    (file_read_in_order ⟨inodes, ready.sound, ready.catalog⟩ here notMap size)) ?_
  intro bytes next after
  obtain ⟨⟨delivered, _⟩, order, requests, grown, isNext⟩ := after
  have steady : Steady fs next := by
    rw [isNext]
    exact steady_inodes rfl rfl rfl grown rfl
  have disk : next.disk = fs.disk := by rw [isNext]
  refine ⟨?_, went_same ready steady.toCalm order disk, disk, by rw [isNext], by rw [isNext]⟩
  rw [delivered, transferred_plenty ready.plenty, slice_array_read, at_contents ready reached rfl]

theorem file_seek_went (ready : Ready inodes fs) (here : fs.files file = some handle)
    (notMap : fs.freeMapFile ≠ some file) {newPos : Int} (nonneg : 0 ≤ newPos) :
    Returns (fileSeek file newPos) fs fun _ next => Went inodes ∅ fs next ∧
      next.disk = fs.disk ∧ next.inodes = fs.inodes ∧
      next.files = Function.update fs.files file (some { handle with pos := newPos.toNat }) := by
  refine returns_mono
    (file_seek_in_order ⟨inodes, ready.sound, ready.catalog⟩ here notMap nonneg) ?_
  intro _ next after
  obtain ⟨order, isNext⟩ := after
  have steady : Steady fs next := by
    rw [isNext]
    exact steady_inodes rfl rfl rfl (Nat.le_refl _) rfl
  have disk : next.disk = fs.disk := by rw [isNext]
  exact ⟨went_same ready steady.toCalm order disk, disk, by rw [isNext], by rw [isNext]⟩

/-- The bytes of a file after a write to it. -/
theorem written_contents {next : FileSys} (ready : Ready inodes fs)
    (reached : fs.inodes handle.inode = some target) {buffer : Nat → Byte} {size : Int} {total : Nat}
    (counted : total = arrayRoom (contents fs.disk target.sector) size handle.pos)
    (sameInode : diskInode next.disk target.sector = diskInode fs.disk target.sector)
    (disk : next.disk =
      overwrite fs.disk (dataBase target.data + handle.pos) (slice buffer 0 total)) :
    contents next.disk target.sector =
      arrayWrite (contents fs.disk target.sector) buffer size handle.pos := by
  have data := at_contents ready reached rfl
  have loaded := ready.sound.loaded _ _ reached
  have room := @array_room_fits fs.disk target.data size handle.pos
  rw [data, ← counted] at room
  unfold arrayWrite
  rw [← counted]
  unfold contents
  rw [sameInode, disk, loaded]
  cases Nat.eq_zero_or_pos total with
  | inl zero =>
      rw [zero, slice_zero, overwrite_nil]
      unfold splice
      rw [List.append_nil, List.length_nil, Nat.add_zero, List.take_append_drop]
  | inr some_ =>
      have fits := room some_
      rw [loaded] at fits
      exact slice_overwrite_part (by rw [slice_length]; exact fits)

theorem file_write_went (ready : Ready inodes fs) (here : fs.files file = some handle)
    (notMap : fs.freeMapFile ≠ some file) (reached : fs.inodes handle.inode = some target)
    (buffer : Nat → Byte) (size : Int) :
    Returns (fileWrite file buffer size) fs fun total next =>
      total = (if target.denyWriteCnt ≠ 0 then 0
        else arrayRoom (contents fs.disk target.sector) size handle.pos) ∧
      Went inodes {target.sector} fs next ∧
      contents next.disk target.sector = (if target.denyWriteCnt ≠ 0 then
        contents fs.disk target.sector
        else arrayWrite (contents fs.disk target.sector) buffer size handle.pos) ∧
      next.inodes = fs.inodes ∧ next.files = Function.update fs.files file
        (some { handle with pos := handle.pos + total }) := by
  have apart := map_handle ready.sound notMap here reached
  refine returns_mono (returns_and
    (file_write_returns ready.sound here reached apart buffer size)
    (file_write_in_order ⟨inodes, ready.sound, ready.catalog⟩ here notMap buffer size)) ?_
  intro total next after
  obtain ⟨⟨counted, steady, _, confined, table, disk, files⟩, calm, order, _⟩ := after
  rw [transferred_plenty ready.plenty, available_room fs.disk, at_contents ready reached rfl]
    at counted
  refine ⟨counted, ⟨calm, in_order_ready ready.plenty calm order, confined⟩, ?_, table, files⟩
  by_cases denied : target.denyWriteCnt ≠ 0
  · rw [if_pos denied] at counted ⊢
    rw [counted, slice_zero, overwrite_nil] at disk
    rw [disk]
  · rw [if_neg denied] at counted ⊢
    exact written_contents ready reached counted
      (confined.inode _ (ready.sound.live _ _ reached)) disk

theorem file_close_went (ready : Ready inodes fs) (here : fs.files file = some handle)
    (notMap : fs.freeMapFile ≠ some file) :
    Returns (fileClose (some file)) fs fun _ next =>
      Went inodes {freeMapSector, rootDirSector} fs next ∧
        Confined {freeMapSector} inodes fs.disk next.disk ∧
        next.files = Function.update fs.files file none := by
  refine returns_mono (returns_and (file_close_returns ready.sound here notMap)
    (file_close_in_order ⟨inodes, ready.sound, ready.catalog⟩ here notMap)) ?_
  intro _ next after
  obtain ⟨⟨steady, files, confined, _⟩, _, order, _⟩ := after
  refine ⟨⟨steady.toCalm, in_order_ready ready.plenty steady.toCalm order, ?_⟩, confined, files⟩
  exact confined_mono confined (Set.singleton_subset_iff.mpr (Set.mem_insert _ _)) Set.Subset.rfl

/-- `file_deny_write` and `file_allow_write`. -/
theorem file_flag_went (ready : Ready inodes fs) (here : fs.files file = some handle)
    (notMap : fs.freeMapFile ≠ some file) (flag : Bool) :
    Returns (if flag then fileDenyWrite (some file) else fileAllowWrite file) fs fun _ next =>
      Went inodes ∅ fs next ∧ next.disk = fs.disk ∧
        next.files = Function.update fs.files file (some { handle with denyWrite := flag }) := by
  have order : InOrder rootPlace fs fun _ => 0 := ⟨inodes, ready.sound, ready.catalog⟩
  cases flag with
  | true =>
      refine returns_mono (file_deny_in_order order here notMap) ?_
      intro _ next after
      obtain ⟨calm, again, disk, files⟩ := after
      exact ⟨went_same ready calm again disk, disk, files⟩
  | false =>
      refine returns_mono (file_allow_in_order order here notMap) ?_
      intro _ next after
      obtain ⟨calm, again, disk, files⟩ := after
      exact ⟨went_same ready calm again disk, disk, files⟩

end Handles

end UtSystems.Filesys.StoreCalls

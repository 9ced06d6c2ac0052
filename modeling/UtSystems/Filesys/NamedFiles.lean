import UtSystems.Filesys.NamedInodes

/-!
# Creating, opening and removing files by name

The operations of filesys.c open the root directory, work on it and close it again. Each
of them takes a file system that is `InOrder` to one that is, whether it succeeds or not.
-/

namespace UtSystems.Filesys.NamedFiles

open Lib.Bytes Lib.Effects Filesys.Volume Filesys.FreeMap Filesys.Inode Filesys.Directory
open Filesys.Ownership Filesys.Consistency Filesys.OpenInodes Filesys.OpenFiles Filesys.Creation
open Filesys.Entries Filesys.NamedInodes

set_option autoImplicit false

/-- The invariant of the file system, for some set of inodes on the device. -/
def InOrder (place : Place) (fs : FileSys) (extra : Ptr → Nat) : Prop :=
  ∃ inodes, Sound inodes fs Set.univ extra ∧ Catalog place inodes fs

/-- The files are as before. -/
structure Quiet (fs next : FileSys) : Prop extends Calm fs next where
  files : next.files = fs.files

variable {place : Place} {inodes : Set Nat} {fs next : FileSys} {extra : Ptr → Nat} {sector : Nat}

theorem quiet_trans {first second third : FileSys} (early : Quiet first second)
    (late : Quiet second third) : Quiet first third :=
  ⟨calm_trans early.toCalm late.toCalm, late.files.trans early.files⟩

theorem quiet_kept (kept : Kept fs next) : Quiet fs next := ⟨kept.toCalm, kept.files⟩

theorem in_order_closes (catalog : Catalog place inodes fs) {held : Set Ptr} {more : Ptr → Nat}
    (table : Table inodes fs held more) (closes : Closes inodes fs next extra) :
    Quiet fs next ∧ InOrder place next extra := by
  obtain ⟨rest, _, _, sound, settled⟩ := catalog_closes catalog table closes
  exact ⟨quiet_kept closes.kept, rest, sound, settled⟩

section Directories

theorem dir_open_returns {inode : Ptr} (sound : Sound inodes fs Set.univ (bump extra inode)) :
    Returns (dirOpen (some inode)) fs fun result next =>
      match result with
      | none => Closes inodes fs next extra ∧ ¬Plenty fs
      | some dir => dir = { inode := inode, pos := 0 } ∧ Requested fs next := by
  unfold dirOpen
  apply returns_bind (malloc_returns fs)
  rintro pointer _ ⟨rfl, rfl⟩
  have requested : Requested fs { fs with requests := fs.requests + 1 } :=
    ⟨fs.requests + 1, Nat.le_succ _, rfl⟩
  cases granted : fs.memory fs.requests with
  | false =>
      apply returns_bind (inode_close_closes (sound_requested sound requested))
      intro _ last closes
      apply returns_pure
      refine ⟨closes_after_opened (opened_requested requested) closes, ?_⟩
      intro plenty
      rw [plenty fs.requests] at granted
      cases granted
  | true =>
      apply returns_pure
      exact ⟨rfl, requested⟩

/-- The directory is open. -/
structure DirOpened (place : Place) (inodes : Set Nat) (fs : FileSys) (extra : Ptr → Nat)
    (dir : Dir) : Prop where
  sound : Sound inodes fs Set.univ (bump extra dir.inode)
  catalog : Catalog place inodes fs
  reached : ∃ target, fs.inodes dir.inode = some target ∧ target.sector = place.sector

theorem dir_open_root_returns (sound : Sound inodes fs Set.univ extra)
    (catalog : Catalog rootPlace inodes fs) :
    Returns dirOpenRoot fs fun result next =>
      match result with
      | none => Closes inodes fs next extra ∧ ¬Plenty fs
      | some dir => Opened fs next ∧ DirOpened rootPlace inodes next extra dir := by
  unfold dirOpenRoot
  apply returns_bind (inode_open_sound sound catalog.dirIn)
  rintro (_ | inode) middle ⟨opened, rest⟩
  · obtain ⟨again, short⟩ := rest
    unfold dirOpen
    apply returns_bind (malloc_returns middle)
    rintro pointer _ ⟨rfl, _⟩
    apply returns_pure
    refine ⟨closes_after_opened opened (closes_requested again ?_), short⟩
    exact ⟨middle.requests + 1, Nat.le_succ _, rfl⟩
  · obtain ⟨again, target, present, isDir⟩ := rest
    have ready := catalog_opened catalog sound.toTable opened
    refine returns_mono (dir_open_returns again) ?_
    rintro (_ | dir) last result
    · obtain ⟨closes, short⟩ := result
      refine ⟨closes_after_opened opened closes, ?_⟩
      intro plenty
      exact short ((plenty_calm opened.kept.toCalm).mpr plenty)
    · obtain ⟨rfl, requested⟩ := result
      have settled := catalog_requested ready again.toTable requested
      have last_ := sound_requested again requested
      obtain ⟨requests, grown, rfl⟩ := requested
      refine ⟨⟨kept_trans opened.kept (kept_device grown), opened.disk, opened.freeMap,
        opened.persists⟩, last_, settled, target, present, isDir⟩

theorem dir_close_returns {dir : Dir} (opened : DirOpened place inodes fs extra dir) :
    Returns (dirClose (some dir)) fs fun _ next => Quiet fs next ∧ InOrder place next extra := by
  apply returns_mono (inode_close_closes opened.sound)
  intro _ next closes
  exact in_order_closes opened.catalog opened.sound.toTable closes

theorem dir_opened_kept {dir : Dir} {rest : Set Nat}
    (opened : DirOpened place inodes fs extra dir)
    (sound : Sound rest next Set.univ (bump extra dir.inode)) (catalog : Catalog place rest next)
    (calm : Calm fs next) : DirOpened place rest next extra dir := by
  refine ⟨sound, catalog, ?_⟩
  obtain ⟨target, present, isDir⟩ := opened.reached
  obtain ⟨found, here⟩ := sound.spare dir.inode (by rw [bump_self]; omega)
  obtain ⟨was, wasHere, same⟩ :=
    calm.older _ found here (opened.sound.inodeOld _ _ present)
  rw [present] at wasHere
  cases wasHere
  exact ⟨found, here, same.trans isDir⟩

end Directories

section Releasing

theorem stored_fewer {size : Nat} {disk : Disk} {freeMap : Bitmap} {fewer : Set Nat}
    (stored : Stored size disk freeMap inodes) (less : fewer ⊆ inodes) :
    Stored size disk freeMap fewer where
  mapLength := stored.mapLength
  valid := fun sector here => stored.valid sector (less here)
  own := fun sector here => stored.own sector (less here)
  tiling := UtSystems.Lib.Allocation.tiling_mono stored.tiling less (fun _ _ => rfl) Set.Subset.rfl

/-- An inode that is not open may be forgotten. -/
theorem sound_forget {held : Set Ptr} {fewer : Set Nat} (sound : Sound inodes fs held extra)
    (less : fewer ⊆ inodes)
    (live : ∀ inode target, fs.inodes inode = some target → target.sector ∈ fewer) :
    Sound fewer fs held extra where
  stored := stored_fewer sound.stored less
  nodup := sound.nodup
  listed := sound.listed
  inodeOld := sound.inodeOld
  fileOld := sound.fileOld
  refersOld := sound.refersOld
  sectorApart := sound.sectorApart
  live := live
  loaded := sound.loaded
  counted := sound.counted
  reached := sound.reached
  spare := sound.spare
  mapFile := sound.mapFile
  mapOnly := sound.mapOnly
  mapRoom := sound.mapRoom
  recorded := sound.recorded

/-- Giving back a sector that no file owns. -/
theorem release_unowned_returns {held : Set Ptr} (sound : Sound inodes fs held extra)
    (unowned : Unowned inodes fs.disk sector) (used : sector ∈ marked fs.freeMap) :
    Returns (freeMapRelease sector 1) fs fun _ next =>
      Kept fs next ∧ Confined {freeMapSector} inodes fs.disk next.disk ∧
        Sound inodes next held extra ∧ next.inodes = fs.inodes ∧
        marked next.freeMap = marked fs.freeMap \ {sector} := by
  obtain ⟨file, target, ready, data, writable⟩ := sound_map_open sound
  have inside : sector < fs.freeMap.length := by
    have := marked_lt rfl used
    omega
  have fits : sector + 1 ≤ fs.freeMap.length := inside
  have marks : marked (bitmapSetMultiple fs.freeMap sector 1 false) =
      marked fs.freeMap \ {sector} := by
    ext cell
    change bitmapTest _ cell = true ↔ bitmapTest fs.freeMap cell = true ∧ cell ≠ sector
    rw [bitmap_set_multiple_test fits]
    by_cases same : cell = sector
    · rw [if_pos (by omega)]
      simp [same]
    · rw [if_neg (by omega)]
      simp [same]
  apply returns_mono (free_map_release_returns ready fits ?_)
  · intro _ last changed
    have freeMap : last.inodes = fs.inodes ∧ marked last.freeMap = marked fs.freeMap \ {sector} := by
      obtain ⟨_, _, _, _, _, rfl⟩ := id changed
      exact ⟨rfl, marks⟩
    suffices settled : Kept fs last ∧ Confined {freeMapSector} inodes fs.disk last.disk ∧
        Sound inodes last held extra by
      exact ⟨settled.1, settled.2.1, settled.2.2, freeMap⟩
    apply sound_map_changed sound data (bitmap_set_multiple_length fits) _
      (fun plenty => .inl (writable plenty)) changed
    intro owner here cell inFootprint
    change bitmapTest _ cell = true
    have different : cell ≠ sector := by
      rintro rfl
      exact unowned owner here inFootprint
    rw [bitmap_set_multiple_test fits, if_neg (by omega)]
    exact sound.stored.tiling.covered owner here inFootprint
  · intro index zero
    obtain rfl : index = 0 := by omega
    exact used

end Releasing

section Creating

/-- A sector fresh from the free map may hold a new inode. -/
theorem created_nameable {held : Set Ptr} (sound : Sound inodes fs held extra)
    (catalog : Catalog place inodes fs) (notStored : sector ∉ inodes)
    (confined : Confined {freeMapSector} inodes fs.disk next.disk)
    (removed : removedSet next ⊆ removedSet fs) :
    Nameable place (insert sector inodes) next sector where
  stored := Set.mem_insert _ _
  notMap := by
    rintro rfl
    exact notStored (map_live sound)
  notDir := by
    rintro rfl
    exact notStored catalog.dirIn
  kept := fun gone => notStored (removed_stored sound.toTable (removed gone))
  unnamed := by
    intro index names
    rw [names_congr fun index bound => entry_at_congr catalog.sized
      (confined.inode _ catalog.dirIn) (confined.data _ catalog.dirIn (map_spared catalog)) bound]
      at names
    exact notStored (catalog.named index sector names).1

theorem unowned_not_stored {disk : Disk} (unowned : Unowned inodes disk sector) : sector ∉ inodes :=
  fun here => unowned sector here (Set.mem_insert _ _)

/-- After `inode_create` the directory is as it was, and the new inode can have a name. -/
theorem dir_opened_created {dir : Dir} {length : Word}
    (opened : DirOpened place inodes fs extra dir) (notStored : sector ∉ inodes)
    (created : Created inodes fs next Set.univ (bump extra dir.inode) sector length) :
    DirOpened place (insert sector inodes) next extra dir ∧
      Nameable place (insert sector inodes) next sector := by
  have catalog : Catalog place (insert sector inodes) next :=
    catalog_confined opened.catalog opened.sound.toTable created.kept created.confined
      (map_spared opened.catalog) (fun owner here => Set.mem_insert_of_mem _ here.1)
  exact ⟨dir_opened_kept opened created.sound catalog created.kept.toCalm,
    created_nameable opened.sound opened.catalog notStored created.confined created.kept.removed⟩

/-- `inode_create` and `dir_add` of `filesys_create`. On failure the sector of the inode is
still marked and belongs to no file. -/
theorem create_in_returns {dir : Dir} (opened : DirOpened place inodes fs extra dir)
    {initialSize : Word} (nonneg : 0 ≤ initialSize.toInt)
    (unowned : Unowned inodes fs.disk sector) (used : sector ∈ marked fs.freeMap) (name : Name) :
    Returns (createIn dir name initialSize sector) fs fun result next =>
      Quiet fs next ∧
        ((result = true ∧ ∃ more, DirOpened place more next extra dir) ∨
        (result = false ∧ DirOpened place inodes next extra dir ∧
          Unowned inodes next.disk sector ∧ sector ∈ marked next.freeMap)) := by
  have notStored := unowned_not_stored unowned
  unfold createIn
  apply returns_bind (inode_create_returns opened.sound nonneg unowned used)
  rintro result middle (⟨rfl, created⟩ | ⟨rfl, failed⟩)
  · rw [if_pos rfl]
    have spared : Confined {freeMapSector} inodes fs.disk middle.disk := created.confined
    obtain ⟨here, nameable⟩ := dir_opened_created opened notStored created
    obtain ⟨target, present, isDir⟩ := here.reached
    refine returns_mono (dir_add_returns here.sound here.catalog present isDir nameable name) ?_
    rintro result last (⟨rfl, _, _, _, _, entered, linked, _⟩ | ⟨rfl, requested, _⟩)
    · refine ⟨quiet_trans (quiet_kept created.kept) (quiet_kept entered.kept), .inl ⟨rfl,
        insert sector inodes, ?_⟩⟩
      exact dir_opened_kept here entered.sound linked entered.kept.toCalm
    · have kept := kept_trans created.kept (kept_requested requested)
      refine ⟨quiet_kept kept, .inr ⟨rfl, ?_, ?_, ?_⟩⟩
      · have again := sound_requested here.sound requested
        have sound : Sound inodes last Set.univ (bump extra dir.inode) := by
          apply sound_forget again (Set.subset_insert _ _)
          intro inode found its
          obtain ⟨_, _, rfl⟩ := requested
          rw [created.table] at its
          exact opened.sound.live inode found its
        apply dir_opened_kept opened sound _ kept.toCalm
        obtain ⟨_, _, rfl⟩ := requested
        exact catalog_confined opened.catalog opened.sound.toTable kept spared
          (map_spared opened.catalog) Set.sdiff_subset
      · obtain ⟨_, _, rfl⟩ := requested
        exact unowned_confined unowned spared
      · obtain ⟨_, _, rfl⟩ := requested
        rw [created.marks]
        exact .inl used
  · rw [if_neg (by simp)]
    apply returns_pure
    have catalog := catalog_confined opened.catalog opened.sound.toTable failed.kept
      failed.confined (map_spared opened.catalog) Set.sdiff_subset
    refine ⟨quiet_kept failed.kept, .inr ⟨rfl, ?_, unowned_confined unowned failed.confined, ?_⟩⟩
    · exact dir_opened_kept opened failed.sound catalog failed.kept.toCalm
    · rw [failed.freeMap]
      exact used

/-- `filesys_create` gets to the end unless `inode_create` is reached with a negative length. -/
theorem filesys_create_ends (order : InOrder rootPlace fs extra) (name : Name)
    (initialSize : Word) :
    Ends (filesysCreate name initialSize) fs
      (fun _ next => Quiet fs next ∧ InOrder rootPlace next extra)
      (fun error => error = .negativeLength ∧ initialSize.toInt < 0) := by
  obtain ⟨inodes, sound, catalog⟩ := order
  unfold filesysCreate
  apply ends_bind (ends_returns (dir_open_root_returns sound catalog))
  rintro (_ | dir) first result
  · exact ends_returns (returns_pure (in_order_closes catalog sound.toTable result.1))
  obtain ⟨begun, opened⟩ := result
  apply ends_bind (ends_returns (allocate_returns opened.sound 1))
  rintro (_ | inodeSector) second ⟨kept, confined, again, table, result⟩
  · have settled := catalog_confined opened.catalog opened.sound.toTable kept confined
      (map_spared opened.catalog) Set.sdiff_subset
    apply ends_returns
    apply returns_bind (dir_close_returns (dir_opened_kept opened again settled kept.toCalm))
    rintro _ last ⟨quiet, order⟩
    apply returns_pure
    exact ⟨quiet_trans (quiet_kept (kept_trans begun.kept kept)) quiet, order⟩
  obtain ⟨fits, free, map, _⟩ := result
  by_cases nonneg : 0 ≤ initialSize.toInt
  · have clear := free 0 (by omega)
    rw [Nat.add_zero] at clear
    have unowned : Unowned inodes second.disk inodeSector :=
      unowned_confined (unowned_of_free opened.sound.stored clear) confined
    have used : inodeSector ∈ marked second.freeMap := by
      rw [map, marked_allocated (by rw [opened.sound.stored.mapLength]; exact fits)]
      exact .inr ⟨Nat.le_refl _, Nat.lt_succ_self _⟩
    have settled := catalog_confined opened.catalog opened.sound.toTable kept confined
      (map_spared opened.catalog) Set.sdiff_subset
    have here := dir_opened_kept opened again settled kept.toCalm
    have early := quiet_kept (kept_trans begun.kept kept)
    apply ends_returns
    apply returns_bind (create_in_returns here nonneg unowned used name)
    rintro success third ⟨quiet, ⟨rfl, more, linked⟩ | ⟨rfl, failed, stillUnowned, stillUsed⟩⟩
    · rw [if_neg (by simp)]
      apply returns_bind (dir_close_returns linked)
      rintro _ last ⟨final, order⟩
      apply returns_pure
      exact ⟨quiet_trans (quiet_trans early quiet) final, order⟩
    · have nonzero : inodeSector ≠ 0 := by
        rintro rfl
        exact unowned_not_stored unowned (map_live again)
      rw [if_pos ⟨rfl, nonzero⟩]
      apply returns_bind (release_unowned_returns failed.sound stillUnowned stillUsed)
      rintro _ fourth ⟨keeps, apart, released, _⟩
      have ready := catalog_confined failed.catalog failed.sound.toTable keeps apart
        (map_spared failed.catalog) Set.sdiff_subset
      apply returns_bind (dir_close_returns (dir_opened_kept failed released ready keeps.toCalm))
      rintro _ last ⟨final, order⟩
      apply returns_pure
      exact ⟨quiet_trans (quiet_trans (quiet_trans early quiet) (quiet_kept keeps)) final, order⟩
  · have fails : Ends (createIn dir name initialSize inodeSector) second (fun _ _ => False)
        (fun error => error = .negativeLength ∧ initialSize.toInt < 0) := by
      unfold createIn inodeCreate
      rw [if_pos (by omega)]
      exact .inr ⟨_, _, rfl, rfl, by omega⟩
    exact ends_bind fails (fun _ _ impossible => impossible.elim)

theorem filesys_create_returns (order : InOrder rootPlace fs extra) {initialSize : Word}
    (nonneg : 0 ≤ initialSize.toInt) (name : Name) :
    Returns (filesysCreate name initialSize) fs fun _ next =>
      Quiet fs next ∧ InOrder rootPlace next extra := by
  apply returns_of_ends (filesys_create_ends order name initialSize)
  rintro error ⟨_, negative⟩
  omega

end Creating

section Opening

theorem bump_comm (extra : Ptr → Nat) (first second : Ptr) :
    bump (bump extra first) second = bump (bump extra second) first := by
  funext inode
  by_cases isFirst : inode = first
  · by_cases isSecond : inode = second
    · rw [← isFirst, ← isSecond]
    · subst isFirst
      rw [bump_of_ne isSecond, bump_self, bump_self, bump_of_ne isSecond]
  · by_cases isSecond : inode = second
    · subst isSecond
      rw [bump_self, bump_of_ne isFirst, bump_of_ne isFirst, bump_self]
    · rw [bump_of_ne isSecond, bump_of_ne isFirst, bump_of_ne isFirst, bump_of_ne isSecond]

/-- `dir_lookup` opens the inode that the name stands for. -/
theorem dir_lookup_returns {dir : Dir} (opened : DirOpened place inodes fs extra dir)
    (name : Name) :
    Returns (dirLookup dir (some name)) fs fun result next =>
      Opened fs next ∧
        match result with
        | none => Sound inodes next Set.univ (bump extra dir.inode) ∧
            (Plenty fs → ∀ j < place.entries, ¬Matches place fs.disk name j)
        | some inode => Sound inodes next Set.univ (bump (bump extra dir.inode) inode) ∧
            ∃ target, next.inodes inode = some target ∧ ∃ index < place.entries,
              Matches place fs.disk name index ∧
              target.sector = (entryAt place fs.disk index).inodeSector.toNat := by
  obtain ⟨target, present, isDir⟩ := opened.reached
  obtain ⟨its, _⟩ := dir_inode opened.sound opened.catalog present isDir
  unfold dirLookup
  apply returns_bind (lookup_returns dir its name)
  rintro (_ | ⟨entry, ofs⟩) middle ⟨requested, found⟩
  · apply returns_pure
    exact ⟨opened_requested requested, sound_requested opened.sound requested, found⟩
  obtain ⟨index, bound, rfl, rfl, matches_⟩ := found
  have stored := (opened.catalog.named index _ ⟨bound, matches_.1, rfl⟩).1
  have early := opened_requested requested
  refine returns_mono (inode_open_sound (sound_requested opened.sound requested) stored) ?_
  rintro (_ | inode) last ⟨late, rest⟩
  · obtain ⟨again, short⟩ := rest
    refine ⟨⟨kept_trans early.kept late.kept, late.disk.trans early.disk,
      late.freeMap.trans early.freeMap, ?_⟩, again, ?_⟩
    · intro other was here
      obtain ⟨between, there, same⟩ := early.persists other was here
      obtain ⟨final, finalHere, sameAgain⟩ := late.persists other between there
      exact ⟨final, finalHere, sameAgain.trans same⟩
    · intro plenty
      exact absurd ((plenty_calm early.kept.toCalm).mpr plenty) short
  · obtain ⟨again, its_, here, place_⟩ := rest
    refine ⟨⟨kept_trans early.kept late.kept, late.disk.trans early.disk,
      late.freeMap.trans early.freeMap, ?_⟩, again, its_, here, index, bound, matches_, place_⟩
    intro other was there
    obtain ⟨between, betweenHere, same⟩ := early.persists other was there
    obtain ⟨final, finalHere, sameAgain⟩ := late.persists other between betweenHere
    exact ⟨final, finalHere, sameAgain.trans same⟩

/-- Every file refers to an inode that some file referred to before. -/
theorem no_file_steady {held : Set Ptr} (noFile : NoFile sector fs)
    (table : Table inodes fs held extra) (calm : Calm fs next)
    (files : ∀ file handle, next.files file = some handle →
      ∃ other was, fs.files other = some was ∧ was.inode = handle.inode) : NoFile sector next := by
  intro file handle target here reached
  obtain ⟨other, was, wasHere, same⟩ := files file handle here
  rw [← same] at reached
  obtain ⟨before, beforeHere, sameSector⟩ :=
    calm.older _ target reached (table.refersOld other was wasHere)
  rw [sameSector]
  exact noFile other was before wasHere beforeHere

/-- A new file, opened by its name. -/
structure NewFile (fs next : FileSys) (name : Name) (file : Ptr) : Prop where
  fresh : fs.requests ≤ file
  opened : ∃ inode target index, next.files = Function.update fs.files file
      (some { inode := inode, pos := 0, denyWrite := false }) ∧
    next.inodes inode = some target ∧ index < rootPlace.entries ∧
    Matches rootPlace fs.disk name index ∧
    target.sector = (entryAt rootPlace fs.disk index).inodeSector.toNat

theorem filesys_open_returns (order : InOrder rootPlace fs extra) (name : Name) :
    Returns (filesysOpen (some name)) fs fun result next =>
      Calm fs next ∧ InOrder rootPlace next extra ∧
        match result with
        | none => next.files = fs.files ∧
            (Plenty fs → ∀ j < rootPlace.entries, ¬Matches rootPlace fs.disk name j)
        | some file => NewFile fs next name file := by
  obtain ⟨inodes, sound, catalog⟩ := order
  unfold filesysOpen
  apply returns_bind (dir_open_root_returns sound catalog)
  rintro (_ | dir) first result
  · obtain ⟨closes, short⟩ := result
    obtain ⟨rest, _, _, settled, ready⟩ := catalog_closes catalog sound.toTable closes
    apply returns_mono (file_open_null first)
    rintro _ last ⟨rfl, requested⟩
    refine ⟨calm_trans closes.kept.toCalm (kept_requested requested).toCalm,
      ⟨rest, sound_requested settled requested, catalog_requested ready settled.toTable requested⟩,
      ?_, fun plenty => absurd plenty short⟩
    rw [(kept_requested requested).files, closes.kept.files]
  obtain ⟨begun, opened⟩ := result
  have plentyFirst := plenty_calm begun.kept.toCalm
  apply returns_bind (dir_lookup_returns opened name)
  rintro (_ | inode) second ⟨looked, result⟩
  · obtain ⟨again, absent⟩ := result
    have ready := catalog_opened opened.catalog opened.sound.toTable looked
    apply returns_bind (dir_close_returns
      (dir_opened_kept opened again ready looked.kept.toCalm))
    rintro _ third ⟨quiet, rest, settled, readyAgain⟩
    apply returns_mono (file_open_null third)
    rintro _ last ⟨rfl, requested⟩
    have calm := calm_trans (kept_trans begun.kept looked.kept).toCalm quiet.toCalm
    refine ⟨calm_trans calm (kept_requested requested).toCalm,
      ⟨rest, sound_requested settled requested,
        catalog_requested readyAgain settled.toTable requested⟩, ?_, ?_⟩
    · rw [(kept_requested requested).files, quiet.files, looked.kept.files, begun.kept.files]
    · intro plenty
      rw [begun.disk] at absent
      exact absent (plentyFirst.mpr plenty)
  · obtain ⟨again, target, present, index, bound, matches_, isNamed⟩ := result
    have ready := catalog_opened opened.catalog opened.sound.toTable looked
    rw [bump_comm] at again
    rw [begun.disk] at matches_ isNamed
    obtain ⟨_, notMap, notDir, _⟩ := catalog.named index _ ⟨bound, matches_.1, rfl⟩
    apply returns_bind (inode_close_closes again)
    intro _ third closes
    obtain ⟨rest, _, _, settled, readyAgain⟩ := catalog_closes ready again.toTable closes
    obtain ⟨found, here⟩ := settled.spare inode (by rw [bump_self]; omega)
    obtain ⟨was, wasHere, same⟩ :=
      closes.kept.older _ found here (again.inodeOld _ _ present)
    rw [present] at wasHere
    cases wasHere
    have early := kept_trans (kept_trans begun.kept looked.kept) closes.kept
    have sector_ : found.sector = (entryAt rootPlace fs.disk index).inodeSector.toNat :=
      same.trans isNamed
    refine returns_mono (file_open_returns settled here (by rw [sector_]; exact notMap)) ?_
    rintro (_ | file) last result
    · obtain ⟨ends, short⟩ := result
      obtain ⟨quiet, order⟩ := in_order_closes readyAgain settled.toTable ends
      refine ⟨calm_trans early.toCalm quiet.toCalm, order, quiet.files.trans early.files, ?_⟩
      intro plenty
      exact absurd ((plenty_calm early.toCalm).mpr plenty) short
    · obtain ⟨rfl, rfl, final⟩ := result
      have calm := (@steady_new_file third inode).toCalm
      refine ⟨calm_trans early.toCalm calm, ⟨rest, final, ?_⟩, early.requests, inode, found, index,
        ?_, here, bound, matches_, sector_⟩
      · apply @catalog_frame rootPlace rest rest third (withFile third inode) readyAgain rfl rfl
          Set.Subset.rfl Set.sdiff_subset
        intro other handle its otherHere reached
        rcases file_update_some otherHere with ⟨_, created⟩ | ⟨_, older⟩
        · cases created
          change third.inodes inode = some its at reached
          rw [here] at reached
          cases reached
          rw [sector_]
          exact notDir
        · exact readyAgain.noFile other handle its older reached
      · change Function.update third.files third.requests _ = _
        rw [early.files]

theorem filesys_remove_returns (order : InOrder rootPlace fs extra) (name : Name) :
    Returns (filesysRemove name) fs fun _ next =>
      Quiet fs next ∧ InOrder rootPlace next extra := by
  obtain ⟨inodes, sound, catalog⟩ := order
  unfold filesysRemove
  apply returns_bind (dir_open_root_returns sound catalog)
  rintro (_ | dir) first result
  · apply returns_pure
    exact in_order_closes catalog sound.toTable result.1
  obtain ⟨begun, opened⟩ := result
  obtain ⟨target, present, isDir⟩ := opened.reached
  apply returns_bind (dir_remove_returns opened.sound opened.catalog present isDir name)
  rintro success second (⟨rfl, index, _, _, unlinked⟩ | ⟨rfl, closes, _⟩)
  · obtain ⟨rest, _, _, settled, ready⟩ := unlinked.rest
    apply returns_bind (dir_close_returns (dir_opened_kept opened settled ready unlinked.calm))
    rintro _ last ⟨quiet, order⟩
    apply returns_pure
    exact ⟨quiet_trans (quiet_trans (quiet_kept begun.kept) ⟨unlinked.calm, unlinked.files⟩) quiet,
      order⟩
  · obtain ⟨rest, _, _, settled, ready⟩ :=
      catalog_closes opened.catalog opened.sound.toTable closes
    apply returns_bind (dir_close_returns
      (dir_opened_kept opened settled ready closes.kept.toCalm))
    rintro _ last ⟨quiet, order⟩
    apply returns_pure
    exact ⟨quiet_trans (quiet_kept (kept_trans begun.kept closes.kept)) quiet, order⟩

end Opening

section Files

variable {file : Ptr} {handle : File}

theorem user_handle (order : InOrder place fs extra) (present : fs.files file = some handle)
    (notMap : fs.freeMapFile ≠ some file) :
    ∃ inodes, Sound inodes fs Set.univ extra ∧ Catalog place inodes fs ∧
      ∃ target, fs.inodes handle.inode = some target ∧ target.sector ≠ freeMapSector ∧
        target.sector ≠ place.sector := by
  obtain ⟨inodes, sound, catalog⟩ := order
  obtain ⟨target, reached⟩ := sound.reached file handle trivial present
  exact ⟨inodes, sound, catalog, target, reached, map_handle sound notMap present reached,
    catalog.noFile file handle target present reached⟩

theorem file_close_in_order (order : InOrder place fs extra)
    (present : fs.files file = some handle) (notMap : fs.freeMapFile ≠ some file) :
    Returns (fileClose (some file)) fs fun _ next =>
      Calm fs next ∧ InOrder place next extra ∧
        next.files = Function.update fs.files file none := by
  obtain ⟨inodes, sound, catalog⟩ := order
  apply returns_mono (file_close_returns sound present notMap)
  rintro _ last ⟨steady, files, confined, rest, most, _, settled⟩
  refine ⟨steady.toCalm, ⟨rest, settled, ?_⟩, files⟩
  apply catalog_frame catalog (confined.inode _ catalog.dirIn)
    (confined.data _ catalog.dirIn (map_spared catalog)) steady.removed most
  apply no_file_steady catalog.noFile sound.toTable steady.toCalm
  intro other found here
  rw [files] at here
  rcases file_update_some here with ⟨_, impossible⟩ | ⟨_, was⟩
  · cases impossible
  · exact ⟨other, found, was, rfl⟩

/-- Replacing a file by one on the same inode. -/
theorem catalog_handle {held : Set Ptr} {rest touched : Set Nat} {change : File}
    (catalog : Catalog place inodes fs) (table : Table inodes fs held extra)
    (steady : Steady fs next) (present : fs.files file = some handle)
    (files : next.files = Function.update fs.files file (some change))
    (refers : change.inode = handle.inode)
    (confined : Confined touched inodes fs.disk next.disk) (spared : place.sector ∉ touched)
    (most : inodes \ removedSet fs ⊆ rest) : Catalog place rest next := by
  apply catalog_frame catalog (confined.inode _ catalog.dirIn)
    (confined.data _ catalog.dirIn spared) steady.removed most
  apply no_file_steady catalog.noFile table steady.toCalm
  intro other found here
  rw [files] at here
  rcases file_update_some here with ⟨rfl, changed⟩ | ⟨_, was⟩
  · cases changed
    exact ⟨other, handle, present, refers.symm⟩
  · exact ⟨other, found, was, rfl⟩

theorem file_read_in_order (order : InOrder place fs extra)
    (present : fs.files file = some handle) (notMap : fs.freeMapFile ≠ some file) (size : Int) :
    Returns (fileRead file size) fs fun bytes next =>
      InOrder place next extra ∧ ∃ requests, fs.requests ≤ requests ∧ next = { fs with
        files := Function.update fs.files file
          (some { handle with pos := handle.pos + bytes.length })
        requests := requests } := by
  obtain ⟨inodes, sound, catalog, target, reached, _, _⟩ := user_handle order present notMap
  apply returns_mono (file_read_returns sound present reached size)
  rintro bytes _ ⟨_, settled, requests, grown, rfl⟩
  refine ⟨⟨inodes, settled, ?_⟩, requests, grown, rfl⟩
  have steady : Steady fs { fs with
      files := Function.update fs.files file
        (some { handle with pos := handle.pos + bytes.length })
      requests := requests } := steady_inodes rfl rfl rfl grown rfl
  exact catalog_handle catalog sound.toTable steady present rfl rfl (confined_refl ∅ _ _)
    (Set.notMem_empty _) Set.sdiff_subset

theorem file_write_in_order (order : InOrder place fs extra)
    (present : fs.files file = some handle) (notMap : fs.freeMapFile ≠ some file)
    (buffer : Nat → Byte) (size : Int) :
    Returns (fileWrite file buffer size) fs fun total next =>
      Calm fs next ∧ InOrder place next extra ∧ next.inodes = fs.inodes ∧
        next.files = Function.update fs.files file
          (some { handle with pos := handle.pos + total }) := by
  obtain ⟨inodes, sound, catalog, target, reached, apart, notDir⟩ :=
    user_handle order present notMap
  apply returns_mono (file_write_returns sound present reached apart buffer size)
  rintro total last ⟨_, steady, settled, confined, table, _, files⟩
  refine ⟨steady.toCalm, ⟨inodes, settled, ?_⟩, table, files⟩
  exact catalog_handle catalog sound.toTable steady present files rfl confined
    (fun same => notDir same.symm) Set.sdiff_subset

theorem file_seek_in_order (order : InOrder place fs extra)
    (present : fs.files file = some handle) (notMap : fs.freeMapFile ≠ some file) {newPos : Int}
    (nonneg : 0 ≤ newPos) :
    Returns (fileSeek file newPos) fs fun _ next =>
      InOrder place next extra ∧ next = { fs with
        files := Function.update fs.files file (some { handle with pos := newPos.toNat }) } := by
  obtain ⟨inodes, sound, catalog, _⟩ := user_handle order present notMap
  apply returns_mono (file_seek_returns sound present nonneg)
  rintro _ _ ⟨settled, rfl⟩
  have steady : Steady fs { fs with
      files := Function.update fs.files file (some { handle with pos := newPos.toNat }) } :=
    steady_inodes rfl rfl rfl (Nat.le_refl _) rfl
  exact ⟨⟨inodes, settled, catalog_handle catalog sound.toTable steady present rfl rfl
    (confined_refl ∅ _ _) (Set.notMem_empty _) Set.sdiff_subset⟩, rfl⟩

theorem file_deny_in_order (order : InOrder place fs extra)
    (present : fs.files file = some handle) (notMap : fs.freeMapFile ≠ some file) :
    Returns (fileDenyWrite (some file)) fs fun _ next =>
      Calm fs next ∧ InOrder place next extra ∧ next.disk = fs.disk ∧
        next.files = Function.update fs.files file (some { handle with denyWrite := true }) := by
  have again := order
  obtain ⟨inodes, sound, catalog, target, reached, apart, _⟩ := user_handle order present notMap
  cases denies : handle.denyWrite with
  | false =>
      apply returns_mono (file_deny_write_returns sound trivial present reached apart denies)
      rintro _ _ ⟨settled, rfl⟩
      have steady := @steady_flag fs file handle target true (target.denyWriteCnt + 1) reached
      exact ⟨steady.toCalm, ⟨inodes, settled, catalog_handle catalog sound.toTable steady present
        rfl rfl (confined_refl ∅ _ _) (Set.notMem_empty _) Set.sdiff_subset⟩, rfl, rfl⟩
  | true =>
      unfold fileDenyWrite
      apply returns_bind (file_at_returns present)
      rintro handle fs ⟨rfl, rfl⟩
      rw [if_pos denies]
      apply returns_pure
      refine ⟨(kept_refl _).toCalm, again, rfl, ?_⟩
      rw [← denies]
      exact (Function.update_eq_self_iff.mpr present.symm).symm

theorem file_allow_in_order (order : InOrder place fs extra)
    (present : fs.files file = some handle) (notMap : fs.freeMapFile ≠ some file) :
    Returns (fileAllowWrite file) fs fun _ next =>
      Calm fs next ∧ InOrder place next extra ∧ next.disk = fs.disk ∧
        next.files = Function.update fs.files file (some { handle with denyWrite := false }) := by
  obtain ⟨inodes, sound, catalog, target, reached, apart, _⟩ := user_handle order present notMap
  apply returns_mono (file_allow_write_returns sound trivial present reached apart)
  rintro _ last ⟨steady, settled, disk, files⟩
  have confined : Confined ∅ inodes fs.disk last.disk := by
    rw [disk]
    exact confined_refl _ _ _
  exact ⟨steady.toCalm, ⟨inodes, settled, catalog_handle catalog sound.toTable steady present files
    rfl confined (Set.notMem_empty _) Set.sdiff_subset⟩, disk, files⟩

end Files

end UtSystems.Filesys.NamedFiles

import UtSystems.Filesys.OpenCounts

/-!
# What a failed `filesys_create` leaves behind

On failure `filesys_create` gives back the sector of the inode. `inode_create` has taken the
data sectors as well when `dir_add` fails, and nothing gives those back.
-/

namespace UtSystems.Filesys.FailedCreates

open Lib.Bytes Lib.Effects Filesys.Volume Filesys.InodeData Filesys.FreeMap Filesys.Directory
open Filesys.Ownership Filesys.Consistency Filesys.Creation Filesys.Entries Filesys.NamedInodes
open Filesys.NamedFiles Filesys.NamedContents Filesys.Format Filesys.SectorOwners Filesys.Requests
open Filesys.OpenCounts

set_option autoImplicit false

/-- The sectors in use and the directory are as before. -/
structure Unchanged (fs next : FileSys) : Prop where
  marks : marked next.freeMap = marked fs.freeMap
  directory : contents next.disk rootDirSector = contents fs.disk rootDirSector

/-- There is memory and there are sectors for `filesys_create` to get past `inode_create`. -/
def InodeMade (fs : FileSys) (sectors : Nat) : Prop :=
  ∃ sector start, bitmapScan fs.freeMap 0 1 false = some sector ∧
    bitmapScan (bitmapSetMultiple fs.freeMap sector 1 true) 0 sectors false = some start ∧
    Granted fs (rootRequests fs + (mapRequests fs + (1 + mapRequests fs)))

section Sizes

variable {length : Word}

theorem sectors_positive (nonneg : 0 ≤ length.toInt) :
    0 < bytesToSectors length.toInt ↔ 0 < length.toInt := by
  have below : length.toInt < 2 ^ 31 := by
    have := BitVec.toInt_lt (x := length)
    simpa using this
  by_cases fits : length.toInt + 511 < 2 ^ 31
  · have count := bytes_to_sectors_eq nonneg fits
    omega
  · have wrapped : (length.toInt + 511).bmod (2 ^ 32) =
        -(2 ^ 32 - 511 - length.toInt) := by
      rw [Int.bmod_def]
      omega
    unfold bytesToSectors blockSectorSize
    rw [wrapped, Int.neg_tdiv, Int.tdiv_eq_ediv_of_nonneg (by omega)]
    omega

theorem extent_empty_iff {data : InodeDisk} :
    extent data = ∅ ↔ bytesToSectors (inodeLength data) = 0 := by
  constructor
  · intro empty
    by_contra some_
    have inside : data.start.toNat ∈ extent data :=
      ⟨Nat.le_refl _, Nat.lt_add_of_pos_right (Nat.pos_of_ne_zero some_)⟩
    rw [empty] at inside
    exact inside
  · intro none_
    ext cell
    constructor
    · rintro ⟨lower, upper⟩
      omega
    · intro impossible
      exact absurd impossible (Set.notMem_empty _)

end Sizes

variable {inodes : Set Nat} {fs next : FileSys} {extra : Ptr → Nat} {length : Word}
  {sector : Nat}

/-- `inode_create` is reached with the memory and the sectors that are left. -/
theorem makes_iff_made {first second : FileSys} {sectors : Nat}
    (rootSpent : Spent fs first (rootRequests fs)) (rootGranted : Granted fs (rootRequests fs))
    (spent : Spent first second (mapRequests fs)) (written : Granted first (mapRequests fs))
    (scanned : bitmapScan fs.freeMap 0 1 false = some sector)
    (map : second.freeMap = bitmapSetMultiple fs.freeMap sector 1 true) :
    Makes second sectors ↔ InodeMade fs sectors := by
  have sameRequests : mapRequests second = mapRequests fs := by
    unfold mapRequests
    rw [map, bitmap_set_multiple_length (bitmap_scan_some scanned).1]
  unfold Makes InodeMade
  rw [map, sameRequests]
  constructor
  · rintro ⟨⟨start, found⟩, granted⟩
    exact ⟨sector, start, scanned, found, (granted_add rootSpent).mpr
      ⟨rootGranted, (granted_add spent).mpr ⟨written, granted⟩⟩⟩
  · rintro ⟨other, start, isSector, found, granted⟩
    rw [scanned] at isSector
    cases isSector
    exact ⟨⟨start, found⟩, ((granted_add spent).mp ((granted_add rootSpent).mp granted).2).2⟩

/-- A failed `dir_add` comes after a successful `inode_create`, which has marked the extent. -/
theorem create_in_fails {dir : Dir} (opened : DirOpened rootPlace inodes fs extra dir)
    (nonneg : 0 ≤ length.toInt) (unowned : Unowned inodes fs.disk sector)
    (used : sector ∈ marked fs.freeMap) (name : Name) :
    Ensures (createIn dir name length sector) fs fun result next => result = false →
      marked fs.freeMap ⊆ marked next.freeMap ∧
        contents next.disk rootDirSector = contents fs.disk rootDirSector ∧
        (marked next.freeMap = marked fs.freeMap ↔
          ¬(0 < length.toInt ∧ Makes fs (bytesToSectors length.toInt))) := by
  have notStored := unowned_not_stored unowned
  have dirIn := opened.catalog.dirIn
  have spared := map_spared opened.catalog
  unfold createIn
  refine ensures_bind (ensures_and (ensures_returns
    (inode_create_returns opened.sound nonneg unowned used))
    (inode_create_makes opened.sound nonneg sector)) ?_
  intro result middle after
  obtain ⟨outcome, makes⟩ := after
  cases outcome with
  | inr failure =>
      obtain ⟨isFalse, failed⟩ := failure
      rw [isFalse, if_neg Bool.false_ne_true]
      apply ensures_pure
      intro _
      rw [failed.freeMap]
      refine ⟨Set.Subset.rfl, failed.confined.data _ dirIn spared, fun _ made => ?_, fun _ => rfl⟩
      have success := makes.mpr made.2
      rw [isFalse] at success
      cases success
  | inl success =>
      obtain ⟨isTrue, created⟩ := success
      rw [isTrue, if_pos rfl]
      obtain ⟨here, nameable⟩ := dir_opened_created opened notStored created
      obtain ⟨target, present, isDir⟩ := here.reached
      refine ensures_returns (returns_mono
        (dir_add_returns here.sound here.catalog present isDir nameable name) ?_)
      intro added last outcome fails
      cases outcome with
      | inl entered => exact absurd (entered.1.symm.trans fails) (by decide)
      | inr refused =>
          obtain ⟨_, ⟨requests, grown, isLast⟩, _⟩ := refused
          have sameMap : last.freeMap = middle.freeMap := by rw [isLast]
          have sameDisk : last.disk = middle.disk := by rw [isLast]
          rw [sameMap, sameDisk, created.marks]
          refine ⟨Set.subset_union_left, created.confined.data _ dirIn spared, ?_⟩
          have size : inodeLength (diskInode middle.disk sector) = length.toInt := by
            unfold inodeLength
            rw [created.size]
          have none_ : extent (diskInode middle.disk sector) = ∅ ↔ ¬0 < length.toInt := by
            rw [extent_empty_iff, size, ← sectors_positive nonneg]
            omega
          constructor
          · intro same made
            apply none_.mp _ made.1
            ext cell
            simp only [Set.mem_empty_iff_false, iff_false]
            intro inside
            apply created.fresh cell inside
            rw [← same]
            exact .inr (Set.mem_insert_of_mem _ inside)
          · intro small
            have empty := none_.mpr (fun positive => small ⟨positive, makes.mp isTrue⟩)
            unfold footprint
            rw [empty]
            ext cell
            constructor
            · rintro (was | rfl | impossible)
              · exact was
              · exact used
              · exact absurd impossible (Set.notMem_empty _)
            · exact .inl

/-- What the failure of a later step leaves, with the sector of the inode given back. -/
theorem unchanged_after_release {used last : Set Nat} (fresh : sector ∉ used)
    (most : used ∪ {sector} ⊆ last) : last \ {sector} = used ↔ last = used ∪ {sector} := by
  constructor
  · intro same
    rw [← same, Set.sdiff_union_of_subset]
    exact Set.subset_union_right.trans most
  · intro same
    rw [same, Set.union_sdiff_right]
    exact Set.sdiff_singleton_eq_self fresh

/-- The end of a `filesys_create` that has failed with the sector of the inode in hand. -/
theorem give_back_sector {dir : Dir} (opened : DirOpened rootPlace inodes fs extra dir)
    (unowned : Unowned inodes fs.disk sector) (used : sector ∈ marked fs.freeMap) :
    Ensures (do
        freeMapRelease sector 1
        dirClose (some dir)
        return false : FsM Bool) fs fun _ next =>
      marked next.freeMap = marked fs.freeMap \ {sector} ∧
        contents next.disk rootDirSector = contents fs.disk rootDirSector := by
  refine ensures_bind (ensures_returns (release_unowned_returns opened.sound unowned used)) ?_
  rintro _ middle ⟨kept, confined, released, _, marks⟩
  have ready := catalog_confined opened.catalog opened.sound.toTable kept confined
    (map_spared opened.catalog) Set.sdiff_subset
  have still := dir_opened_kept opened released ready kept.toCalm
  refine ensures_bind (ensures_returns (dir_close_same still)) ?_
  rintro _ last ⟨same, _⟩
  apply ensures_pure
  rw [same.freeMap, same.disk]
  exact ⟨marks, confined.data _ opened.catalog.dirIn (map_spared opened.catalog)⟩

theorem filesys_create_fails (sound : Sound inodes fs Set.univ extra)
    (catalog : Catalog rootPlace inodes fs) (nonneg : 0 ≤ length.toInt) (name : Name) :
    Ensures (filesysCreate name length) fs fun result next => result = false →
      (Unchanged fs next ↔
        ¬(0 < length.toInt ∧ InodeMade fs (bytesToSectors length.toInt))) := by
  unfold filesysCreate
  refine ensures_bind (ensures_and (ensures_returns (dir_open_root_returns sound catalog))
    (ensures_and (dir_open_root_spends fs) (dir_open_root_reopens sound.toTable))) ?_
  intro result first after
  obtain ⟨opens, rootSpends, reopens⟩ := after
  cases result with
  | none =>
      apply ensures_pure
      intro _
      obtain ⟨requests, grown, isFirst⟩ := reopens
      rw [isFirst]
      refine ⟨fun _ made => ?_, fun _ => ⟨rfl, rfl⟩⟩
      obtain ⟨_, _, _, _, granted⟩ := made.2
      exact Bool.false_ne_true (rootSpends.granted.mpr (granted_fewer granted))
  | some dir =>
      obtain ⟨begun, opened⟩ := opens
      have rootSpent := rootSpends.spent rfl
      have rootGranted := rootSpends.granted.mp rfl
      have sameRequests : mapRequests first = mapRequests fs := by
        unfold mapRequests
        rw [begun.freeMap]
      have dirIn := opened.catalog.dirIn
      have spared := map_spared opened.catalog
      refine ensures_bind (ensures_and (ensures_returns (allocate_returns opened.sound 1))
        (allocate_outcome opened.sound 1)) ?_
      rintro found second ⟨⟨kept, confined, again, _, rest⟩, outcome⟩
      have settled := catalog_confined opened.catalog opened.sound.toTable kept confined spared
        Set.sdiff_subset
      have here := dir_opened_kept opened again settled kept.toCalm
      have sameDirectory : contents second.disk rootDirSector = contents fs.disk rootDirSector := by
        rw [← begun.disk]
        exact confined.data _ dirIn spared
      cases found with
      | none =>
          refine ensures_bind (ensures_returns (dir_close_same here)) ?_
          rintro _ last ⟨same, _⟩
          apply ensures_pure
          intro _
          refine ⟨fun _ made => ?_, fun _ => ⟨?_, ?_⟩⟩
          · obtain ⟨sector, _, scanned, _, granted⟩ := made.2
            have late := ((granted_add rootSpent).mp granted).2
            rw [← begun.freeMap] at scanned
            rw [← sameRequests] at late
            exact outcome ⟨⟨sector, scanned⟩, granted_fewer late⟩
          · rw [same.freeMap, rest.1, begun.freeMap]
          · rw [same.disk]
            exact sameDirectory
      | some sector =>
          obtain ⟨inside, free, map, _⟩ := rest
          obtain ⟨scanned, written, spent⟩ := outcome
          have clear := free 0 (by omega)
          rw [Nat.add_zero] at clear
          have unowned : Unowned inodes second.disk sector :=
            unowned_confined (unowned_of_free opened.sound.stored clear) confined
          have marks : marked second.freeMap = marked fs.freeMap ∪ {sector} := by
            rw [map, marked_allocated (by rw [opened.sound.stored.mapLength]; exact inside),
              begun.freeMap]
            congr 1
            ext cell
            simp only [Set.mem_singleton_iff]
            constructor
            · rintro ⟨lower, upper⟩
              omega
            · rintro rfl
              exact ⟨Nat.le_refl _, Nat.lt_succ_self _⟩
          have used : sector ∈ marked second.freeMap := by
            rw [marks]
            exact .inr rfl
          have fresh : sector ∉ marked fs.freeMap := by
            intro was
            have marked_ : bitmapTest fs.freeMap sector = true := was
            rw [← begun.freeMap, clear] at marked_
            cases marked_
          have made : Makes second (bytesToSectors length.toInt) ↔
              InodeMade fs (bytesToSectors length.toInt) := by
            rw [sameRequests] at written spent
            rw [begun.freeMap] at scanned map
            exact makes_iff_made rootSpent rootGranted spent written scanned map
          refine ensures_bind (ensures_and
            (ensures_returns (create_in_returns here nonneg unowned used name))
            (create_in_fails here nonneg unowned used name)) ?_
          rintro success third ⟨⟨_, outcome⟩, fails⟩
          cases outcome with
          | inl created =>
              obtain ⟨isTrue, _⟩ := created
              rw [isTrue, if_neg (by simp)]
              refine ensures_bind (fun _ _ _ => trivial : Ensures _ _ fun _ _ => True) ?_
              intro _ _ _
              apply ensures_pure
              intro impossible
              cases impossible
          | inr failed =>
              obtain ⟨isFalse, still, stillUnowned, stillUsed⟩ := failed
              obtain ⟨more, directory, leaks⟩ := fails isFalse
              have nonzero : sector ≠ 0 := by
                rintro rfl
                exact unowned_not_stored unowned (map_live again)
              rw [isFalse, if_pos ⟨rfl, nonzero⟩]
              intro result last ran _
              obtain ⟨left, same⟩ := give_back_sector still stillUnowned stillUsed result last ran
              rw [← made, ← leaks, marks, ← unchanged_after_release fresh (marks ▸ more), ← left]
              refine ⟨fun unchanged => unchanged.marks, fun marks => ⟨marks, ?_⟩⟩
              rw [same, directory]
              exact sameDirectory

/-- A failed create is a no-op on space unless data sectors were taken before it failed. -/
theorem failed_create_keeps_space_iff {client : Client} (reachable : Reachable client)
    (nonneg : 0 ≤ length.toInt) (name : Name)
    (failed : filesysCreate name length client.fs = .ok false next) :
    Unchanged client.fs next ↔
      ¬(0 < length.toInt ∧ InodeMade client.fs (bytesToSectors length.toInt)) := by
  obtain ⟨⟨inodes, sound, catalog⟩, _⟩ := reachable_fine reachable
  exact filesys_create_fails sound catalog nonneg name false next failed rfl

/-- Formats a device and creates the empty file `a`, then creates `a` again. -/
def createAgain (initialSize : Word) : FsM (Bool × Bool × Bool) := do
  filesysInit true
  let _ ← (Call.create [0x61] 0).perform
  let before ← get
  let success ← filesysCreate [0x61] initialSize
  let after ← get
  return (success, bitmapTest before.freeMap 6, bitmapTest after.freeMap 6)

theorem create_again_fails {initialSize : Word} {before after : Bool}
    (runs : (createAgain initialSize).run' (powerUp 8 (fun _ => 0) fun _ => true) =
      some (false, before, after)) :
    ∃ client next, Reachable client ∧ filesysCreate [0x61] initialSize client.fs = .ok false next ∧
      bitmapTest client.fs.freeMap 6 = before ∧ bitmapTest next.freeMap 6 = after := by
  have accepted : IdeAccepts 8 := by
    unfold IdeAccepts blockSectorSize
    omega
  obtain ⟨last, ran⟩ := ok_of_run runs
  obtain ⟨_, formatted, formats, ran⟩ := bind_ok ran
  obtain ⟨change, fs, creates, ran⟩ := bind_ok ran
  obtain ⟨_, _, ⟨⟩, ran⟩ := bind_ok ran
  obtain ⟨success, next, again, ran⟩ := bind_ok ran
  cases ran
  have reachable : Reachable ⟨fs, change []⟩ :=
    @Reachable.step ⟨formatted, []⟩ (.create [0x61] 0) change fs (.format accepted formats) trivial
      creates
  exact ⟨_, _, reachable, again, rfl, rfl⟩

/-- Creating an existing file without data. -/
theorem failed_create_keeps_space_empty_file :
    ∃ client next, Reachable client ∧ filesysCreate [0x61] 0 client.fs = .ok false next ∧
      Unchanged client.fs next := by
  have runs : (createAgain 0).run' (powerUp 8 (fun _ => 0) fun _ => true) =
      some (false, false, false) := by decide +kernel
  obtain ⟨client, next, reachable, failed, _⟩ := create_again_fails runs
  refine ⟨client, next, reachable, failed, ?_⟩
  exact (failed_create_keeps_space_iff reachable (by decide) [0x61] failed).mpr
    (fun positive => absurd positive.1 (by decide))

/-- Creating an existing file with one byte of data. -/
theorem failed_create_loses_a_sector :
    ∃ client next, Reachable client ∧ filesysCreate [0x61] 1 client.fs = .ok false next ∧
      ¬Unchanged client.fs next := by
  have runs : (createAgain 1).run' (powerUp 8 (fun _ => 0) fun _ => true) =
      some (false, false, true) := by decide +kernel
  obtain ⟨client, next, reachable, failed, before, after⟩ := create_again_fails runs
  refine ⟨client, next, reachable, failed, fun unchanged => ?_⟩
  have lost : 6 ∈ marked next.freeMap := after
  rw [unchanged.marks] at lost
  have found : bitmapTest client.fs.freeMap 6 = true := lost
  rw [before] at found
  cases found

end UtSystems.Filesys.FailedCreates

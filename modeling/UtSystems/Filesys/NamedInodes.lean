import UtSystems.Filesys.Entries

/-!
# A directory and the inodes it names

`Catalog` ties the entries of a directory to the inodes on the device: an entry in use names
an inode that no other entry names, that is not removed, and that is neither the free map's
nor the directory's own. Users have no file on the directory, so only `dir_add` and
`dir_remove` write to it.
-/

namespace UtSystems.Filesys.NamedInodes

open Lib.Bytes Lib.Effects Filesys.Volume Filesys.InodeData Filesys.FreeMap Filesys.Inode
open Filesys.Directory Filesys.Ownership Filesys.Consistency Filesys.OpenInodes Filesys.OpenFiles
open Filesys.Entries

set_option autoImplicit false

/-- No file is open on the inode in `sector`. -/
def NoFile (sector : Nat) (fs : FileSys) : Prop :=
  ∀ file handle target, fs.files file = some handle → fs.inodes handle.inode = some target →
    target.sector ≠ sector

structure Catalog (place : Place) (inodes : Set Nat) (fs : FileSys) : Prop where
  dirIn : place.sector ∈ inodes
  dirApart : place.sector ≠ freeMapSector
  sized : Sized place fs.disk
  named : ∀ index sector, Names place fs.disk index sector → sector ∈ inodes ∧
    sector ≠ freeMapSector ∧ sector ≠ place.sector ∧ sector ∉ removedSet fs
  entriesApart : ∀ first second sector, Names place fs.disk first sector →
    Names place fs.disk second sector → first = second
  fixed : freeMapSector ∉ removedSet fs ∧ place.sector ∉ removedSet fs
  noFile : NoFile place.sector fs

section Frames

variable {place : Place} {inodes rest : Set Nat} {fs next : FileSys} {held : Set Ptr}
  {extra : Ptr → Nat}

theorem no_file_calm {sector : Nat} (noFile : NoFile sector fs) (table : Table inodes fs held extra)
    (calm : Calm fs next) (files : next.files = fs.files) : NoFile sector next := by
  intro file handle target here reached
  rw [files] at here
  obtain ⟨was, wasHere, same⟩ := calm.older _ target reached (table.refersOld file handle here)
  rw [same]
  exact noFile file handle was here wasHere

/-- The directory is left alone, and only removed inodes leave the device. -/
theorem catalog_frame (catalog : Catalog place inodes fs)
    (inode : diskInode next.disk place.sector = diskInode fs.disk place.sector)
    (data : contents next.disk place.sector = contents fs.disk place.sector)
    (removed : removedSet next ⊆ removedSet fs) (most : inodes \ removedSet fs ⊆ rest)
    (noFile : NoFile place.sector next) : Catalog place rest next := by
  have same : ∀ {index sector}, Names place next.disk index sector ↔
      Names place fs.disk index sector :=
    names_congr fun index bound => entry_at_congr catalog.sized inode data bound
  constructor
  case dirIn => exact most ⟨catalog.dirIn, catalog.fixed.2⟩
  case dirApart => exact catalog.dirApart
  case sized => exact sized_congr inode catalog.sized
  case named =>
    intro index sector names
    obtain ⟨here, notMap, notDir, kept⟩ := catalog.named index sector (same.mp names)
    exact ⟨most ⟨here, kept⟩, notMap, notDir, fun gone => kept (removed gone)⟩
  case entriesApart =>
    intro first second sector namesFirst namesSecond
    exact catalog.entriesApart first second sector (same.mp namesFirst) (same.mp namesSecond)
  case fixed =>
    exact ⟨fun gone => catalog.fixed.1 (removed gone), fun gone => catalog.fixed.2 (removed gone)⟩
  case noFile => exact noFile

theorem catalog_confined {touched : Set Nat} (catalog : Catalog place inodes fs)
    (table : Table inodes fs held extra) (kept : Kept fs next)
    (confined : Confined touched inodes fs.disk next.disk) (spared : place.sector ∉ touched)
    (most : inodes \ removedSet fs ⊆ rest) : Catalog place rest next := by
  apply catalog_frame catalog
  · exact confined.inode _ catalog.dirIn
  · exact confined.data _ catalog.dirIn spared
  · exact kept.removed
  · exact most
  · exact no_file_calm catalog.noFile table kept.toCalm kept.files

theorem catalog_opened (catalog : Catalog place inodes fs) (table : Table inodes fs held extra)
    (opened : Opened fs next) : Catalog place inodes next := by
  apply catalog_confined catalog table opened.kept _ (Set.notMem_empty _) Set.sdiff_subset
  rw [opened.disk]
  exact confined_refl _ _ _

theorem catalog_requested (catalog : Catalog place inodes fs) (table : Table inodes fs held extra)
    (requested : Requested fs next) : Catalog place inodes next :=
  catalog_opened catalog table (opened_requested requested)

theorem map_spared (catalog : Catalog place inodes fs) :
    place.sector ∉ ({freeMapSector} : Set Nat) := catalog.dirApart

/-- A directory stays in order when inodes are closed. -/
theorem catalog_closes (catalog : Catalog place inodes fs) (table : Table inodes fs held extra)
    {more : Ptr → Nat} (closes : Closes inodes fs next more) :
    ∃ rest, inodes \ removedSet fs ⊆ rest ∧ rest ⊆ inodes ∧ Sound rest next Set.univ more ∧
      Catalog place rest next := by
  obtain ⟨kept, confined, rest, most, less, sound⟩ := closes
  exact ⟨rest, most, less, sound,
    catalog_confined catalog table kept confined (map_spared catalog) most⟩

theorem removed_stored (table : Table inodes fs held extra) : removedSet fs ⊆ inodes := by
  rintro _ ⟨inode, target, present, _, rfl⟩
  exact table.live inode target present

theorem dir_inode (sound : Sound inodes fs held extra) (catalog : Catalog place inodes fs)
    {inode : Ptr} {target : Volume.Inode} (present : fs.inodes inode = some target)
    (isDir : target.sector = place.sector) :
    DirInode place fs inode target ∧ target.denyWriteCnt = 0 := by
  refine ⟨⟨present, table_valid sound.toTable present, ?_, catalog.sized⟩, ?_⟩
  · rw [sound.loaded inode target present, isDir]
  · have noDenier : deniers fs held inode = ∅ := by
      ext file
      simp only [Set.mem_empty_iff_false, iff_false]
      rintro ⟨_, handle, here, refers, _⟩
      subst refers
      exact catalog.noFile file handle target here present isDir
    rw [(sound.counted inode target present).denied, noDenier, Set.ncard_empty]
    rfl

end Frames

section Linking

variable {place : Place} {inodes : Set Nat} {fs next : FileSys} {held : Set Ptr}
  {extra : Ptr → Nat} {index sector : Nat} {entry : DirEntry}

/-- An inode that an entry may come to name. -/
structure Nameable (place : Place) (inodes : Set Nat) (fs : FileSys) (sector : Nat) : Prop where
  stored : sector ∈ inodes
  notMap : sector ≠ freeMapSector
  notDir : sector ≠ place.sector
  kept : sector ∉ removedSet fs
  unnamed : ∀ index, ¬Names place fs.disk index sector

/-- What writing an entry changes. -/
structure Entered (place : Place) (inodes : Set Nat) (fs next : FileSys) (extra : Ptr → Nat)
    (index : Nat) (entry : DirEntry) : Prop where
  kept : Kept fs next
  table : next.inodes = fs.inodes
  freeMap : next.freeMap = fs.freeMap
  confined : Confined {place.sector} inodes fs.disk next.disk
  sound : Sound inodes next Set.univ extra
  written : entryAt place next.disk index = entry
  others : ∀ j ≠ index, entryAt place next.disk j = entryAt place fs.disk j

theorem entered_of_wrote (sound : Sound inodes fs Set.univ extra)
    (catalog : Catalog place inodes fs) (bound : index < place.entries)
    (whole : entry.name.length = nameMax + 1)
    (wrote : Wrote fs next (dataBase (diskInode fs.disk place.sector) + entrySize * index)
      (encodeEntry entry)) : Entered place inodes fs next extra index entry := by
  have fits : entrySize * index + (encodeEntry entry).length ≤
      (inodeLength (diskInode fs.disk place.sector)).toNat := by
    have sized := catalog.sized
    unfold Sized at sized
    rw [encode_entry_length whole, sized]
    unfold entrySize
    omega
  obtain ⟨kept, confined, again⟩ := sound_wrote sound catalog.dirIn catalog.dirApart fits wrote
  obtain ⟨requests, grown, rfl⟩ := wrote
  obtain ⟨written, others⟩ := @entry_written place fs.disk _ index entry whole rfl
    (confined.inode _ catalog.dirIn)
  exact ⟨kept, rfl, rfl, confined, again, written, others⟩

theorem catalog_link (catalog : Catalog place inodes fs) (table : Table inodes fs Set.univ extra)
    (entered : Entered place inodes fs next extra index entry)
    (nameable : Nameable place inodes fs entry.inodeSector.toNat) : Catalog place inodes next := by
  have removedSame : removedSet next = removedSet fs := by
    unfold removedSet
    rw [entered.table]
  have cases_ : ∀ {j owner}, Names place next.disk j owner →
      (j = index ∧ owner = entry.inodeSector.toNat) ∨
        (j ≠ index ∧ Names place fs.disk j owner) := by
    rintro j owner ⟨bound, inUse, named⟩
    by_cases here : j = index
    · subst here
      rw [entered.written] at named
      exact .inl ⟨rfl, named.symm⟩
    · rw [entered.others j here] at inUse named
      exact .inr ⟨here, bound, inUse, named⟩
  constructor
  case dirIn => exact catalog.dirIn
  case dirApart => exact catalog.dirApart
  case sized => exact sized_congr (entered.confined.inode _ catalog.dirIn) catalog.sized
  case named =>
    intro j owner names
    rw [removedSame]
    rcases cases_ names with ⟨_, rfl⟩ | ⟨_, was⟩
    · exact ⟨nameable.stored, nameable.notMap, nameable.notDir, nameable.kept⟩
    · exact catalog.named j owner was
  case entriesApart =>
    intro first second owner namesFirst namesSecond
    rcases cases_ namesFirst with ⟨rfl, rfl⟩ | ⟨_, wasFirst⟩
    · rcases cases_ namesSecond with ⟨rfl, _⟩ | ⟨_, wasSecond⟩
      · rfl
      · exact absurd wasSecond (nameable.unnamed second)
    · rcases cases_ namesSecond with ⟨rfl, rfl⟩ | ⟨_, wasSecond⟩
      · exact absurd wasFirst (nameable.unnamed first)
      · exact catalog.entriesApart first second owner wasFirst wasSecond
  case fixed =>
    rw [removedSame]
    exact catalog.fixed
  case noFile => exact no_file_calm catalog.noFile table entered.kept.toCalm entered.kept.files

theorem catalog_unlink (catalog : Catalog place inodes fs) (table : Table inodes fs Set.univ extra)
    (entered : Entered place inodes fs next extra index entry) (cleared : entry.inUse = 0) :
    Catalog place inodes next ∧
      ∀ sector, Names place fs.disk index sector → ∀ j, ¬Names place next.disk j sector := by
  have removedSame : removedSet next = removedSet fs := by
    unfold removedSet
    rw [entered.table]
  have before : ∀ {j owner}, Names place next.disk j owner →
      Names place fs.disk j owner ∧ j ≠ index := by
    rintro j owner ⟨bound, inUse, named⟩
    have different : j ≠ index := by
      rintro rfl
      rw [entered.written] at inUse
      exact inUse cleared
    rw [entered.others j different] at inUse named
    exact ⟨⟨bound, inUse, named⟩, different⟩
  refine ⟨?_, ?_⟩
  · constructor
    case dirIn => exact catalog.dirIn
    case dirApart => exact catalog.dirApart
    case sized => exact sized_congr (entered.confined.inode _ catalog.dirIn) catalog.sized
    case named =>
      intro j owner names
      rw [removedSame]
      exact catalog.named j owner (before names).1
    case entriesApart =>
      intro first second owner namesFirst namesSecond
      exact catalog.entriesApart first second owner (before namesFirst).1 (before namesSecond).1
    case fixed =>
      rw [removedSame]
      exact catalog.fixed
    case noFile => exact no_file_calm catalog.noFile table entered.kept.toCalm entered.kept.files
  · intro owner names j again
    obtain ⟨was, different⟩ := before again
    exact different (catalog.entriesApart j index owner was names)

end Linking

section Adding

variable {place : Place} {inodes : Set Nat} {fs : FileSys} {extra : Ptr → Nat} {sector : Nat}

theorem copy_name_length {target : List Byte} {name : Name}
    (whole : target.length = nameMax + 1) : (copyName target name).length = nameMax + 1 := by
  unfold copyName splice
  simp only [List.length_append, List.length_take, List.length_drop, List.length_singleton,
    Nat.zero_min, whole]
  omega

/-- The string in the copy is the name. -/
theorem copy_name_string {target : List Byte} {name : Name} (short : name.length ≤ nameMax)
    (noNul : (0 : Byte) ∉ name) : (copyName target name).takeWhile (· ≠ 0) = name := by
  have all : ∀ byte ∈ name, decide (byte ≠ (0 : Byte)) = true := by
    intro byte member
    rw [decide_eq_true_eq]
    rintro rfl
    exact noNul member
  unfold copyName splice
  rw [List.take_zero, List.nil_append, List.take_of_length_le short, List.append_assoc,
    List.takeWhile_append_of_pos all]
  simp

/-- A name that `dir_add` accepts. -/
def ValidName (name : Name) : Prop := name ≠ [] ∧ name.length ≤ nameMax

/-- The entry `dir_add` writes over the bytes it found in the slot. -/
def newEntry (found : List Byte) (name : Name) (sector : Nat) : DirEntry :=
  { inodeSector := BitVec.ofNat 32 sector
    name := copyName (decodeEntry found).name name
    inUse := 1 }

theorem dir_add_returns (sound : Sound inodes fs Set.univ extra)
    (catalog : Catalog place inodes fs) {dir : Dir} {target : Volume.Inode}
    (present : fs.inodes dir.inode = some target) (isDir : target.sector = place.sector)
    (nameable : Nameable place inodes fs sector) (name : Name) :
    Returns (dirAdd dir name sector) fs fun result next =>
      (result = true ∧ ValidName name ∧ ∃ index < place.entries, ∃ found,
        Entered place inodes fs next extra index (newEntry found name sector) ∧
          Catalog place inodes next ∧
          (Plenty fs → (∀ j < place.entries, ¬Matches place fs.disk name j) ∧
            (entryAt place fs.disk index).inUse = 0)) ∨
      (result = false ∧ Requested fs next ∧
        (Plenty fs → ¬ValidName name ∨ (∃ j < place.entries, Matches place fs.disk name j) ∨
          ∀ j < place.entries, (entryAt place fs.disk j).inUse ≠ 0)) := by
  obtain ⟨its, allowed⟩ := dir_inode sound catalog present isDir
  have bounded := entries_bounded its
  unfold dirAdd
  by_cases invalid : name = [] ∨ nameMax < name.length
  · rw [if_pos invalid]
    apply returns_pure
    refine .inr ⟨rfl, requested_refl fs, fun _ => .inl ?_⟩
    rintro ⟨nonempty, short⟩
    rcases invalid with empty | long
    · exact nonempty empty
    · omega
  rw [if_neg invalid]
  have valid : ValidName name := by
    refine ⟨fun empty => invalid (.inl empty), ?_⟩
    by_contra long
    exact invalid (.inr (by omega))
  apply returns_bind (lookup_returns dir its name)
  rintro (_ | ⟨entry, ofs⟩) middle ⟨requested, absent⟩
  · have begun := sound_requested sound requested
    have ready := catalog_requested catalog sound.toTable requested
    have again := dir_inode_requested its requested
    apply returns_bind (free_slot_returns (2 ^ 27) middle 0 (List.replicate entrySize 0) again
      List.length_replicate (Nat.zero_le _) (by omega))
    rintro ⟨found, ofs⟩ second ⟨more, wide, index, bound, slot, free⟩
    dsimp only at wide slot
    subst slot
    have start := sound_requested begun more
    have readyAgain := catalog_requested ready begun.toTable more
    have last := dir_inode_requested again more
    have whole : (newEntry found name sector).name.length = nameMax + 1 :=
      copy_name_length (decode_entry_name wide)
    have all := requested_trans requested more
    refine returns_mono (write_entry_returns last allowed bound whole) ?_
    rintro result next (⟨rfl, inside, wrote⟩ | ⟨rfl, none_, full⟩)
    · have entered := entered_of_wrote start readyAgain inside whole wrote
      have small := (sound.stored.valid _ (map_live sound)).small
      have below := inode_lt sound.stored nameable.stored
      have same : (newEntry found name sector).inodeSector.toNat = sector := by
        simp only [newEntry, BitVec.toNat_ofNat]
        omega
      obtain ⟨requests, grown, rfl⟩ := requested
      obtain ⟨requests', grown', rfl⟩ := more
      have opens : Nameable place inodes { fs with requests := requests' }
          (newEntry found name sector).inodeSector.toNat := by
        rw [same]
        exact ⟨nameable.stored, nameable.notMap, nameable.notDir, nameable.kept, nameable.unnamed⟩
      have linked := catalog_link readyAgain start.toTable entered opens
      refine .inl ⟨rfl, valid, index, inside, found, ?_, linked, ?_⟩
      · exact ⟨kept_trans (kept_requested all) entered.kept, entered.table, entered.freeMap,
          entered.confined, entered.sound, entered.written, entered.others⟩
      · intro plenty
        exact ⟨absent plenty, (free plenty).2 inside⟩
    · refine .inr ⟨rfl, requested_trans all none_, fun plenty => .inr (.inr ?_)⟩
      obtain ⟨requests, grown, rfl⟩ := requested
      obtain ⟨requests', grown', rfl⟩ := more
      intro j inside
      exact (free plenty).1 j (Nat.zero_le _) (by rw [full plenty]; exact inside)
  · apply returns_pure
    obtain ⟨j, inside, _, _, found⟩ := absent
    exact .inr ⟨rfl, requested, fun _ => .inr (.inl ⟨j, inside, found⟩)⟩

end Adding

section Removing

variable {place : Place} {inodes : Set Nat} {fs : FileSys} {extra : Ptr → Nat}

/-- The state after `inode_remove`. -/
def withRemoved (fs : FileSys) (inode : Ptr) (target : Volume.Inode) : FileSys :=
  { fs with inodes := Function.update fs.inodes inode (some { target with removed := true }) }

theorem removed_set_removed {inode : Ptr} {target : Volume.Inode}
    (present : fs.inodes inode = some target) :
    removedSet (withRemoved fs inode target) = insert target.sector (removedSet fs) := by
  ext sector
  constructor
  · rintro ⟨other, found, here, gone, rfl⟩
    change Function.update fs.inodes inode _ other = some found at here
    by_cases same : other = inode
    · subst same
      rw [Function.update_self] at here
      cases here
      exact Set.mem_insert _ _
    · rw [Function.update_of_ne same] at here
      exact Set.mem_insert_of_mem _ ⟨other, found, here, gone, rfl⟩
  · rintro (rfl | ⟨other, found, here, gone, rfl⟩)
    · exact ⟨inode, _, Function.update_self .., rfl, rfl⟩
    · by_cases same : other = inode
      · subst same
        rw [present] at here
        cases here
        exact ⟨other, _, Function.update_self .., rfl, rfl⟩
      · exact ⟨other, found, (Function.update_of_ne same ..).trans here, gone, rfl⟩

theorem calm_removed {inode : Ptr} {target : Volume.Inode}
    (present : fs.inodes inode = some target) : Calm fs (withRemoved fs inode target) := by
  refine ⟨rfl, rfl, rfl, Nat.le_refl _, ?_⟩
  intro other found here _
  obtain ⟨was, wasHere, sector, _⟩ := @recount_before fs _ _ { target with removed := true } present
    rfl rfl other found here
  exact ⟨was, wasHere, sector⟩

theorem inode_remove_returns {held : Set Ptr} (sound : Sound inodes fs held extra) {inode : Ptr}
    {target : Volume.Inode} (present : fs.inodes inode = some target) :
    Returns (inodeRemove inode) fs fun _ next =>
      next = withRemoved fs inode target ∧ Sound inodes next held extra := by
  have counted := sound.counted inode target present
  have table := @table_recount inodes fs held extra inode target { target with removed := true }
    extra sound.toTable ⟨counted.opened, counted.positive, counted.denied⟩ present rfl rfl
    (fun _ _ => rfl)
  have again := sound_frame sound table (calm_removed present) rfl rfl rfl rfl
  unfold inodeRemove
  apply returns_bind (inode_at_returns present)
  rintro target _ ⟨rfl, rfl⟩
  apply returns_modify_last
  exact ⟨rfl, again⟩

theorem catalog_removed (catalog : Catalog place inodes fs)
    {held : Set Ptr} (table : Table inodes fs held extra) {inode : Ptr} {target : Volume.Inode}
    (present : fs.inodes inode = some target) (notMap : target.sector ≠ freeMapSector)
    (notDir : target.sector ≠ place.sector)
    (unnamed : ∀ index, ¬Names place fs.disk index target.sector) :
    Catalog place inodes (withRemoved fs inode target) := by
  have removedNow := removed_set_removed present
  constructor
  case dirIn => exact catalog.dirIn
  case dirApart => exact catalog.dirApart
  case sized => exact catalog.sized
  case named =>
    intro index sector names
    obtain ⟨here, apart, other, kept⟩ := catalog.named index sector names
    refine ⟨here, apart, other, ?_⟩
    rw [removedNow]
    rintro (rfl | gone)
    · exact unnamed index names
    · exact kept gone
  case entriesApart => exact catalog.entriesApart
  case fixed =>
    rw [removedNow]
    constructor
    · rintro (same | gone)
      · exact notMap same.symm
      · exact catalog.fixed.1 gone
    · rintro (same | gone)
      · exact notDir same.symm
      · exact catalog.fixed.2 gone
  case noFile => exact no_file_calm catalog.noFile table (calm_removed present) rfl

/-- What a successful `dir_remove` changes: one entry is cleared, and its inode is removed. -/
structure Unlinked (place : Place) (inodes : Set Nat) (fs next : FileSys) (extra : Ptr → Nat)
    (index : Nat) : Prop where
  calm : Calm fs next
  files : next.files = fs.files
  confined : Confined {freeMapSector, place.sector} inodes fs.disk next.disk
  cleared : (entryAt place next.disk index).inUse = 0
  others : ∀ j < place.entries, j ≠ index → entryAt place next.disk j = entryAt place fs.disk j
  removed : removedSet next ⊆
    insert (entryAt place fs.disk index).inodeSector.toNat (removedSet fs)
  rest : ∃ rest, inodes \ insert (entryAt place fs.disk index).inodeSector.toNat (removedSet fs) ⊆
    rest ∧ rest ⊆ inodes ∧ Sound rest next Set.univ extra ∧ Catalog place rest next

theorem confined_either {first second : Set Nat} {disk other last : Disk}
    (early : Confined first inodes disk other) (late : Confined second inodes other last) :
    Confined (first ∪ second) inodes disk last :=
  confined_trans (confined_mono early Set.subset_union_left Set.Subset.rfl)
    (confined_mono late Set.subset_union_right Set.Subset.rfl)

theorem dir_remove_returns (sound : Sound inodes fs Set.univ extra)
    (catalog : Catalog place inodes fs) {dir : Dir} {target : Volume.Inode}
    (present : fs.inodes dir.inode = some target) (isDir : target.sector = place.sector)
    (name : Name) :
    Returns (dirRemove dir name) fs fun result next =>
      (result = true ∧ ∃ index < place.entries, Matches place fs.disk name index ∧
        Unlinked place inodes fs next extra index) ∨
      (result = false ∧ Closes inodes fs next extra ∧
        (Plenty fs → ∀ j < place.entries, ¬Matches place fs.disk name j)) := by
  obtain ⟨its, allowed⟩ := dir_inode sound catalog present isDir
  unfold dirRemove
  apply returns_bind (lookup_returns dir its name)
  rintro (_ | ⟨entry, ofs⟩) middle ⟨requested, found⟩
  · apply returns_pure
    exact .inr ⟨rfl, closes_requested sound requested, found⟩
  obtain ⟨index, bound, rfl, rfl, matches_⟩ := found
  have begun := sound_requested sound requested
  have ready := catalog_requested catalog sound.toTable requested
  have names : Names place fs.disk index (entryAt place fs.disk index).inodeSector.toNat :=
    ⟨bound, matches_.1, rfl⟩
  obtain ⟨stored, notMap, notDir, _⟩ := catalog.named index _ names
  have sameDisk : middle.disk = fs.disk := by
    obtain ⟨_, _, rfl⟩ := requested
    rfl
  have dirHere : middle.inodes dir.inode = some target := by
    obtain ⟨_, _, rfl⟩ := requested
    exact present
  have plentyMiddle := plenty_calm (kept_requested requested).toCalm
  apply returns_bind (inode_open_sound begun stored)
  rintro (_ | inode) second ⟨opened, rest⟩
  · apply returns_pure
    obtain ⟨again, short⟩ := rest
    refine .inr ⟨rfl, ?_, fun plenty => absurd (plentyMiddle.mpr plenty) short⟩
    apply closes_after_opened (opened_requested requested)
    apply closes_after_opened opened
    exact closes_requested again (requested_refl _)
  obtain ⟨again, its_, here, place_⟩ := rest
  have readyAgain := catalog_opened ready begun.toTable opened
  obtain ⟨dirTarget, dirThere, dirSector⟩ := opened.persists _ _ dirHere
  obtain ⟨dirInode, dirAllowed⟩ := dir_inode again readyAgain dirThere (dirSector.trans isDir)
  have whole : { entryAt place fs.disk index with inUse := 0 }.name.length = nameMax + 1 :=
    entry_at_name place fs.disk index
  have secondDisk : second.disk = fs.disk := opened.disk.trans sameDisk
  apply returns_bind (write_entry_returns dirInode dirAllowed (Nat.le_of_lt bound) whole)
  rintro result third (⟨rfl, _, wrote⟩ | ⟨rfl, none_, full⟩)
  · rw [if_pos rfl]
    have entered := entered_of_wrote again readyAgain bound whole wrote
    obtain ⟨unlinked, unnamed⟩ := catalog_unlink readyAgain again.toTable entered rfl
    have inodeHere : third.inodes inode = some its_ := by
      rw [entered.table]
      exact here
    have gone : ∀ j, ¬Names place third.disk j its_.sector := by
      apply unnamed
      rw [place_, secondDisk]
      exact names
    apply returns_bind (inode_remove_returns entered.sound inodeHere)
    rintro _ _ ⟨rfl, marked_⟩
    have lost := catalog_removed unlinked entered.sound.toTable inodeHere
      (by rw [place_]; exact notMap) (by rw [place_]; exact notDir) gone
    apply returns_bind (inode_close_closes marked_)
    intro _ last closes
    apply returns_pure
    obtain ⟨left, most, less, finish, settled⟩ := catalog_closes lost marked_.toTable closes
    have early := (kept_trans (kept_requested requested) opened.kept)
    have early := kept_trans early entered.kept
    have removedThird : removedSet third ⊆ removedSet fs := early.removed
    have removedNow := @removed_set_removed third inode its_ inodeHere
    have confinedThird : Confined {place.sector} inodes fs.disk third.disk := by
      rw [← secondDisk]
      exact entered.confined
    have confinedLast := closes.confined
    have both : Confined {freeMapSector, place.sector} inodes fs.disk last.disk := by
      rw [Set.pair_comm]
      exact confined_either confinedThird confinedLast
    have sameEntries : ∀ j < place.entries, entryAt place last.disk j = entryAt place third.disk j :=
      fun j inside => entry_at_congr lost.sized (confinedLast.inode _ lost.dirIn)
        (confinedLast.data _ lost.dirIn (map_spared lost)) inside
    refine .inl ⟨rfl, index, bound, matches_, ?_⟩
    constructor
    case calm =>
      exact calm_trans (calm_trans early.toCalm (calm_removed inodeHere)) closes.kept.toCalm
    case files =>
      rw [closes.kept.files]
      exact early.files
    case confined => exact both
    case cleared => rw [sameEntries index bound, entered.written]
    case others =>
      intro j inside different
      rw [sameEntries j inside, entered.others j different, secondDisk]
    case removed =>
      refine closes.kept.removed.trans ?_
      rw [removedNow, place_]
      exact Set.insert_subset_insert removedThird
    case rest =>
      refine ⟨left, ?_, less, finish, settled⟩
      refine Set.Subset.trans ?_ most
      rw [removedNow, place_]
      exact Set.sdiff_subset_sdiff_right (Set.insert_subset_insert removedThird)
  · rw [if_neg (by simp)]
    have unchanged := sound_requested again none_
    apply returns_bind (inode_close_closes unchanged)
    intro _ last closes
    apply returns_pure
    refine .inr ⟨rfl, ?_, ?_⟩
    · apply closes_after_opened (opened_requested requested)
      apply closes_after_opened opened
      exact closes_after_opened (opened_requested none_) closes
    · intro plenty
      have calm := (kept_trans (kept_requested requested) opened.kept).toCalm
      have atEnd := full ((plenty_calm calm).mpr plenty)
      omega

end Removing

end UtSystems.Filesys.NamedInodes

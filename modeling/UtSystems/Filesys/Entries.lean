import UtSystems.Filesys.Directory
import UtSystems.Filesys.Creation

/-!
# Reading and writing directory entries

`lookup` and the search for a free slot see the entries one after another. A read falls
short at the end of the directory, or when the bounce buffer cannot be allocated; then
they stop early. An entry is written as a whole or not at all, because the bounce buffer is
needed for its first byte.
-/

namespace UtSystems.Filesys.Entries

open Lib.Bytes Lib.Effects Filesys.Volume Filesys.InodeData Filesys.FreeMap Filesys.Directory
open Filesys.Ownership

set_option autoImplicit false

/-- A directory: the sector of its inode and the number of its entries. -/
structure Place where
  sector : Nat
  entries : Nat

/-- `do_format` makes the root directory with room for 16 entries. -/
def rootPlace : Place := { sector := rootDirSector, entries := 16 }

def entryAt (place : Place) (disk : Disk) (index : Nat) : DirEntry :=
  decodeEntry (slice disk (dataBase (diskInode disk place.sector) + entrySize * index) entrySize)

/-- Entry `index` of the directory is in use and names the inode in `sector`. -/
def Names (place : Place) (disk : Disk) (index sector : Nat) : Prop :=
  index < place.entries ∧ (entryAt place disk index).inUse ≠ 0 ∧
    (entryAt place disk index).inodeSector.toNat = sector

/-- The directory has exactly its entries as data. -/
def Sized (place : Place) (disk : Disk) : Prop :=
  inodeLength (diskInode disk place.sector) = place.entries * entrySize

section Codec

theorem decode_encode_entry {entry : DirEntry} (whole : entry.name.length = nameMax + 1) :
    decodeEntry (encodeEntry entry) = entry := by
  have skip : (encodeEntry entry).drop 4 = entry.name ++ [entry.inUse] := rfl
  have name : (entry.name ++ [entry.inUse]).take (nameMax + 1) = entry.name := by
    rw [← whole, List.take_left]
  have last : (encodeEntry entry).getD 19 0 = entry.inUse := by
    have place : (encodeEntry entry)[19]? = (entry.name ++ [entry.inUse])[15]? := rfl
    have found : (entry.name ++ [entry.inUse])[15]? = some entry.inUse := by
      rw [List.getElem?_append_right (by rw [whole]; decide), whole]
      rfl
    rw [List.getD_eq_getElem?_getD, place, found]
    rfl
  unfold decodeEntry
  rw [skip, name, last]
  unfold encodeEntry
  rw [read_word_bytes]

theorem encode_entry_length {entry : DirEntry} (whole : entry.name.length = nameMax + 1) :
    (encodeEntry entry).length = entrySize := by
  simp only [encodeEntry, List.length_append, word_bytes_length, whole, List.length_singleton]
  rfl

theorem decode_entry_name {bytes : List Byte} (whole : bytes.length = entrySize) :
    (decodeEntry bytes).name.length = nameMax + 1 := by
  simp only [decodeEntry, List.length_take, List.length_drop, whole]
  rfl

theorem entry_at_name (place : Place) (disk : Disk) (index : Nat) :
    (entryAt place disk index).name.length = nameMax + 1 := by
  apply decode_entry_name
  rw [slice_length]

end Codec

section Frames

variable {place : Place} {disk other : Disk}

theorem names_congr {index sector : Nat}
    (entries : ∀ index < place.entries, entryAt place other index = entryAt place disk index) :
    Names place other index sector ↔ Names place disk index sector := by
  unfold Names
  constructor
  · rintro ⟨bound, rest⟩
    rw [entries index bound] at rest
    exact ⟨bound, rest⟩
  · rintro ⟨bound, rest⟩
    rw [← entries index bound] at rest
    exact ⟨bound, rest⟩

/-- An entry is a part of the data of the directory. -/
theorem entry_at_contents {index : Nat} (sized : Sized place disk) (bound : index < place.entries) :
    entryAt place disk index =
      decodeEntry (((contents disk place.sector).drop (entrySize * index)).take entrySize) := by
  unfold entryAt contents
  rw [slice_drop_take]
  unfold Sized at sized
  rw [sized]
  unfold entrySize
  omega

theorem sized_congr (inode : diskInode other place.sector = diskInode disk place.sector)
    (sized : Sized place disk) : Sized place other := by
  unfold Sized
  rw [inode]
  exact sized

theorem entry_at_congr (sized : Sized place disk)
    (inode : diskInode other place.sector = diskInode disk place.sector)
    (data : contents other place.sector = contents disk place.sector) {index : Nat}
    (bound : index < place.entries) : entryAt place other index = entryAt place disk index := by
  rw [entry_at_contents (sized_congr inode sized) bound, entry_at_contents sized bound, data]

/-- Writing one directory entry changes that entry only. -/
theorem entry_written {index : Nat} {entry : DirEntry}
    (whole : entry.name.length = nameMax + 1)
    (written : other = overwrite disk (dataBase (diskInode disk place.sector) + entrySize * index)
      (encodeEntry entry))
    (inode : diskInode other place.sector = diskInode disk place.sector) :
    entryAt place other index = entry ∧
      ∀ j ≠ index, entryAt place other j = entryAt place disk j := by
  have width := encode_entry_length whole
  constructor
  · have bytes : slice other (dataBase (diskInode disk place.sector) + entrySize * index)
        entrySize = encodeEntry entry := by
      apply List.ext_getElem?
      intro offset
      by_cases inside : offset < entrySize
      · rw [slice_get inside, written, overwrite_inside (by omega), List.getElem?_eq_getElem]
      · rw [slice_get_of_ge (by omega), List.getElem?_eq_none (by omega)]
    unfold entryAt
    rw [inode, bytes, decode_encode_entry whole]
  · intro j different
    have bytes : slice other (dataBase (diskInode disk place.sector) + entrySize * j) entrySize =
        slice disk (dataBase (diskInode disk place.sector) + entrySize * j) entrySize := by
      apply slice_congr
      intro offset inside
      rw [written]
      apply overwrite_outside
      rw [width]
      unfold entrySize at *
      omega
    unfold entryAt
    rw [inode, bytes]

end Frames

section Scans

variable {place : Place} {fs : FileSys} {inode : Ptr} {target : Volume.Inode}

/-- The in-memory inode of the directory. -/
structure DirInode (place : Place) (fs : FileSys) (inode : Ptr) (target : Volume.Inode) :
    Prop where
  present : fs.inodes inode = some target
  valid : OnDevice fs.size target.data
  data : target.data = diskInode fs.disk place.sector
  sized : Sized place fs.disk

theorem dir_inode_requested {next : FileSys} (dir : DirInode place fs inode target)
    (requested : Requested fs next) : DirInode place next inode target := by
  obtain ⟨requests, _, rfl⟩ := requested
  exact ⟨dir.present, dir.valid, dir.data, dir.sized⟩

theorem transferred_entry (bounce : Bool) {ofs total : Nat} (few : total ≤ entrySize) :
    transferred bounce ofs total = if bounce then total else 0 := by
  unfold transferred
  split
  · rfl
  · split
    · unfold entrySize at few
      have none_ : total / blockSectorSize = 0 := by
        unfold blockSectorSize
        omega
      rw [none_, Nat.zero_mul]
    · rfl

theorem available_entry (dir : DirInode place fs inode target) (index : Nat) :
    available target.data entrySize (entrySize * index) =
      if index < place.entries then entrySize else 0 := by
  have sized := dir.sized
  unfold Sized at sized
  unfold available
  rw [dir.data, sized]
  unfold entrySize
  split <;> omega

/-- Reading one entry: all of it, or nothing. -/
theorem entry_read_returns (dir : DirInode place fs inode target) (index : Nat) :
    Returns (inodeReadAt inode entrySize (entrySize * index)) fs fun bytes next =>
      Requested fs next ∧
        ((bytes.length = entrySize ∧ index < place.entries ∧
          decodeEntry bytes = entryAt place fs.disk index) ∨
        (bytes.length = 0 ∧ (Plenty fs → place.entries ≤ index))) := by
  have room := available_entry dir index
  apply returns_mono (inode_read_at_returns entrySize (entrySize * index) dir.present dir.valid)
  rintro bytes next ⟨requested, delivered⟩
  refine ⟨requested, ?_⟩
  rw [room] at delivered
  by_cases inside : index < place.entries
  · rw [if_pos inside, transferred_entry _ (Nat.le_refl _)] at delivered
    cases bounce : fs.memory fs.requests with
    | true =>
        rw [bounce, if_pos rfl] at delivered
        refine .inl ⟨by rw [delivered, slice_length], inside, ?_⟩
        rw [delivered, dir.data]
        rfl
    | false =>
        rw [bounce, if_neg (by simp)] at delivered
        refine .inr ⟨by rw [delivered, slice_length], ?_⟩
        intro plenty
        rw [plenty fs.requests] at bounce
        cases bounce
  · rw [if_neg inside, transferred_zero] at delivered
    exact .inr ⟨by rw [delivered, slice_length], fun _ => by omega⟩

/-- Entry `index` is in use under `name`. -/
def Matches (place : Place) (disk : Disk) (name : Name) (index : Nat) : Prop :=
  (entryAt place disk index).inUse ≠ 0 ∧ name = (entryAt place disk index).string

theorem lookup_loop_returns (rounds : Nat) (fs : FileSys) (name : Name) (index : Nat)
    (dir : DirInode place fs inode target) :
    Returns (lookupLoop inode name rounds (entrySize * index)) fs fun result next =>
      Requested fs next ∧
        match result with
        | none => Plenty fs → place.entries < index + rounds →
            ∀ j, index ≤ j → j < place.entries → ¬Matches place fs.disk name j
        | some (entry, ofs) => ∃ j < place.entries, ofs = entrySize * j ∧
            entry = entryAt place fs.disk j ∧ Matches place fs.disk name j := by
  induction rounds generalizing fs index with
  | zero =>
      apply returns_pure
      refine ⟨requested_refl fs, ?_⟩
      intro _ enough j _ _
      omega
  | succ rounds induction =>
      unfold lookupLoop
      apply returns_bind (entry_read_returns dir index)
      rintro bytes middle ⟨requested, whole | short⟩
      · obtain ⟨full, inside, read⟩ := whole
        rw [if_pos full]
        dsimp only
        rw [read]
        by_cases found : (entryAt place fs.disk index).inUse ≠ 0 ∧
            name = (entryAt place fs.disk index).string
        · rw [if_pos found]
          apply returns_pure
          exact ⟨requested, index, inside, rfl, rfl, found⟩
        · rw [if_neg found]
          have again := induction middle (index + 1) (dir_inode_requested dir requested)
          obtain ⟨requests, grown, rfl⟩ := requested
          apply returns_mono again
          rintro (_ | ⟨entry, ofs⟩) last ⟨more, result⟩
          · refine ⟨requested_trans ⟨requests, grown, rfl⟩ more, ?_⟩
            intro plenty enough j lower upper
            by_cases here : j = index
            · subst here
              exact found
            · exact result plenty (by omega) j (by omega) upper
          · exact ⟨requested_trans ⟨requests, grown, rfl⟩ more, result⟩
      · obtain ⟨empty, past⟩ := short
        rw [if_neg (by rw [empty]; decide)]
        apply returns_pure
        refine ⟨requested, ?_⟩
        intro plenty _ j lower upper
        have := past plenty
        omega

theorem entries_bounded (dir : DirInode place fs inode target) : place.entries < 2 ^ 27 := by
  have fits := on_device_fits dir.valid
  have sized := dir.sized
  unfold Sized at sized
  rw [dir.data, sized] at fits
  unfold entrySize at fits
  omega

theorem lookup_returns (dir : Dir) (its : DirInode place fs dir.inode target) (name : Name) :
    Returns (lookup dir (some name)) fs fun result next =>
      Requested fs next ∧
        match result with
        | none => Plenty fs → ∀ j < place.entries, ¬Matches place fs.disk name j
        | some (entry, ofs) => ∃ j < place.entries, ofs = entrySize * j ∧
            entry = entryAt place fs.disk j ∧ Matches place fs.disk name j := by
  have bounded := entries_bounded its
  apply returns_mono (lookup_loop_returns (2 ^ 27) fs name 0 its)
  rintro (_ | found) next ⟨requested, result⟩
  · refine ⟨requested, ?_⟩
    intro plenty j bound
    exact result plenty (by omega) j (Nat.zero_le _) bound
  · exact ⟨requested, result⟩

theorem free_slot_returns (rounds : Nat) (fs : FileSys) (index : Nat) (entry : List Byte)
    (dir : DirInode place fs inode target) (width : entry.length = entrySize)
    (start : index ≤ place.entries) (enough : place.entries < index + rounds) :
    Returns (freeSlotLoop inode rounds (entrySize * index) entry) fs fun result next =>
      Requested fs next ∧ result.1.length = entrySize ∧
        ∃ j ≤ place.entries, result.2 = entrySize * j ∧
          (Plenty fs → (∀ k, index ≤ k → k < j → (entryAt place fs.disk k).inUse ≠ 0) ∧
            (j < place.entries → (entryAt place fs.disk j).inUse = 0)) := by
  induction rounds generalizing fs index entry with
  | zero => omega
  | succ rounds induction =>
      unfold freeSlotLoop
      apply returns_bind (entry_read_returns dir index)
      rintro bytes middle ⟨requested, whole | short⟩
      · obtain ⟨full, inside, read⟩ := whole
        have filled : splice entry 0 bytes = bytes := by
          unfold splice
          rw [full, List.take_zero, List.nil_append, Nat.zero_add,
            List.drop_eq_nil_of_le (by omega), List.append_nil]
        dsimp only
        rw [if_pos full, filled, read]
        by_cases free : (entryAt place fs.disk index).inUse = 0
        · rw [if_pos free]
          apply returns_pure
          refine ⟨requested, full, index, start, rfl, ?_⟩
          intro _
          exact ⟨fun k lower upper => by omega, fun _ => free⟩
        · rw [if_neg free]
          have again := induction middle (index + 1) bytes (dir_inode_requested dir requested) full
            (by omega) (by omega)
          obtain ⟨requests, grown, rfl⟩ := requested
          apply returns_mono again
          rintro result last ⟨more, wide, j, bound, place_, rest⟩
          refine ⟨requested_trans ⟨requests, grown, rfl⟩ more, wide, j, bound, place_, ?_⟩
          intro plenty
          obtain ⟨before, after⟩ := rest plenty
          refine ⟨?_, after⟩
          intro k lower upper
          by_cases here : k = index
          · subst here
            exact free
          · exact before k (by omega) upper
      · obtain ⟨empty, past⟩ := short
        have nothing : bytes = [] := List.length_eq_zero_iff.mp empty
        have filled : splice entry 0 bytes = entry := by
          rw [nothing]
          simp [splice]
        dsimp only
        rw [if_neg (by rw [empty]; decide), filled]
        apply returns_pure
        refine ⟨requested, width, index, start, rfl, ?_⟩
        intro plenty
        refine ⟨fun k lower upper => by omega, ?_⟩
        intro inside
        have := past plenty
        omega

/-- An entry is written as a whole, or not at all. -/
theorem write_entry_returns (dir : DirInode place fs inode target)
    (allowed : target.denyWriteCnt = 0) {index : Nat} (bound : index ≤ place.entries)
    {entry : DirEntry} (whole : entry.name.length = nameMax + 1) :
    Returns (writeEntry inode entry (entrySize * index)) fs fun result next =>
      (result = true ∧ index < place.entries ∧
        Wrote fs next (dataBase (diskInode fs.disk place.sector) + entrySize * index)
          (encodeEntry entry)) ∨
      (result = false ∧ Requested fs next ∧ (Plenty fs → index = place.entries)) := by
  have room := available_entry dir index
  have width := encode_entry_length whole
  unfold writeEntry
  apply returns_bind (inode_write_at_returns _ entrySize (entrySize * index) dir.present dir.valid)
  rintro total next ⟨counted, wrote⟩
  apply returns_pure
  rw [if_neg (by simpa using allowed), room] at counted
  have nothing : total = 0 → Requested fs next := by
    intro none_
    have empty : slice (fun index => (encodeEntry entry).getD index 0) 0 total = [] := by
      rw [none_]
      rfl
    rw [empty] at wrote
    obtain ⟨requests, grown, rfl⟩ := wrote
    exact ⟨requests, grown, by rw [overwrite_nil]⟩
  by_cases inside : index < place.entries
  · rw [if_pos inside, transferred_entry _ (Nat.le_refl _)] at counted
    cases bounce : fs.memory fs.requests with
    | true =>
        rw [bounce, if_pos rfl] at counted
        have bytes : slice (fun index => (encodeEntry entry).getD index 0) 0 total =
            encodeEntry entry := by
          apply List.ext_getElem?
          intro offset
          by_cases within : offset < total
          · rw [slice_get within, Nat.zero_add, List.getD_eq_getElem?_getD,
              List.getElem?_eq_getElem (by omega)]
            rfl
          · rw [slice_get_of_ge (by omega), List.getElem?_eq_none (by omega)]
        rw [bytes, dir.data] at wrote
        exact .inl ⟨by simp [counted], inside, wrote⟩
    | false =>
        rw [bounce, if_neg (by simp)] at counted
        refine .inr ⟨by rw [counted]; rfl, nothing counted, ?_⟩
        intro plenty
        rw [plenty fs.requests] at bounce
        cases bounce
  · rw [if_neg inside, transferred_zero] at counted
    exact .inr ⟨by rw [counted]; rfl, nothing counted, fun _ => by omega⟩

end Scans

end UtSystems.Filesys.Entries

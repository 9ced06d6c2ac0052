import UtSystems.Filesys.Extraction

/-!
# Archives are read back

What `fsutil_append` has written is read by `fsutil_extract`, file by file, up to the sector that
is to end the archive. Its last byte comes from the kernel heap, and an empty archive has no such
sector at all.
-/

namespace UtSystems.Filesys.RoundTrips

open Lib.Bytes Lib.Effects Libc.Ustar Filesys.Volume
open Filesys.InodeData hiding chunkSize
open Filesys.FreeMap Filesys.Directory Filesys.Ownership Filesys.Consistency Filesys.Entries
open Filesys.NamedInodes Filesys.NamedFiles Filesys.Format Filesys.SectorOwners Filesys.PackedMap
open Filesys.DirectoryMap Filesys.Restart Filesys.NamedContents
open Filesys.Fsutil (appends)
open Filesys.Archives Filesys.Extraction

set_option autoImplicit false

/-- The root directory has these files and no others. -/
def HoldsExactly (fs : FileSys) (files : List ArchiveFile) : Prop :=
  (∀ file ∈ files, HasFile fs file) ∧
    ∀ name sector, Lists fs name sector → ∃ file ∈ files, file.name = name

/-- A file system with these files and no others, of which this many sectors are in use. -/
structure Holding (inodes : Set Nat) (fs : FileSys) (map : NameMap) (files : List ArchiveFile)
    (used : Nat) : Prop where
  stocked : Stocked inodes fs map
  there : ∀ file ∈ files, ∃ sector, map file.name = some sector ∧
    contents fs.disk sector = file.bytes
  only : ∀ name, map name ≠ none → ∃ file ∈ files, file.name = name
  packed : Packed fs.freeMap used

section Holdings

variable {inodes : Set Nat} {fs next : FileSys} {map : NameMap} {files : List ArchiveFile}
  {file : ArchiveFile} {name : Name} {used sector : Nat}

theorem holding_exactly (holding : Holding inodes fs map files used) : HoldsExactly fs files := by
  have represents := holding.stocked.represents
  constructor
  · intro file member
    obtain ⟨sector, mapped, data⟩ := holding.there file member
    exact ⟨sector, (named_iff represents).mpr mapped, data⟩
  · intro name sector listed
    have mapped : map name = some sector := (represents.mapped name sector).mpr listed
    apply holding.only name
    rw [mapped]
    exact fun impossible => nomatch impossible

theorem domain_few (holding : Holding inodes fs map files used) :
    (domain map).ncard ≤ files.length := by
  have inside : domain map ⊆ ((files.map ArchiveFile.name).toFinset : Set Name) := by
    intro name mapped
    obtain ⟨file, member, isName⟩ := holding.only name mapped
    rw [Finset.mem_coe, List.mem_toFinset, ← isName]
    exact List.mem_map_of_mem member
  have few := Set.ncard_le_ncard inside (Finset.finite_toSet _)
  rw [Set.ncard_coe_finset] at few
  have most := List.toFinset_card_le (files.map ArchiveFile.name)
  rw [List.length_map] at most
  exact Nat.le_trans few most

/-- A name stands for an inode that is neither the free map's nor the directory's. -/
theorem mapped_places (stocked : Stocked inodes fs map) (mapped : map name = some sector) :
    sector ∈ inodes ∧ sector ≠ freeMapSector ∧ sector ≠ rootDirSector := by
  obtain ⟨index, names, _⟩ := (stocked.represents.mapped name sector).mp mapped
  obtain ⟨inside, notMap, notRoot, _⟩ := stocked.ready.catalog.named index sector names
  exact ⟨inside, notMap, notRoot⟩

/-- A file more, and the others as they were. -/
theorem holding_added {m after : Extractor} (holding : Holding inodes m.fs map files used)
    (added : Added inodes map file.name file.bytes.length sector m after)
    (data : slice m.scratch (m.sector * blockSectorSize) file.bytes.length = file.bytes) :
    Holding (insert sector inodes) after.fs (Function.update map file.name (some sector))
      (files ++ [file]) (used + (1 + bytesToSectors file.bytes.length)) where
  stocked := added.stocked
  there := by
    intro other member
    cases List.mem_append.mp member with
    | inl old =>
        obtain ⟨place, mapped, bytes⟩ := holding.there other old
        obtain ⟨inside, notMap, notRoot⟩ := mapped_places holding.stocked mapped
        refine ⟨place, ?_, ?_⟩
        · rw [Function.update_of_ne, mapped]
          intro same
          rw [same, added.absent] at mapped
          cases mapped
        · rw [added.others.data place inside (fun either => either.elim notMap notRoot), bytes]
    | inr new =>
        rw [List.mem_singleton.mp new]
        exact ⟨sector, Function.update_self .., added.data.trans data⟩
  only := by
    intro name mapped
    by_cases same : name = file.name
    · exact ⟨file, List.mem_append_right _ (List.mem_singleton_self file), same.symm⟩
    · rw [Function.update_of_ne same] at mapped
      obtain ⟨other, member, isName⟩ := holding.only name mapped
      exact ⟨other, List.mem_append_left _ member, isName⟩
  packed := added.packed used holding.packed

end Holdings

section Reading

variable {inodes : Set Nat} {m : Extractor} {map : NameMap} {done rest : List ArchiveFile}
  {file : ArchiveFile} {used rounds : Nat}

/-- The archive of the files stands on the scratch device from this sector on. -/
def StandsAt (m : Extractor) (files : List ArchiveFile) : Prop :=
  slice m.scratch (m.sector * blockSectorSize) (archiveStream files).length = archiveStream files

/-- Files that can be put behind those that are there. -/
structure Puttable (fs : FileSys) (done rest : List ArchiveFile) (used : Nat) : Prop where
  plain : ∀ file ∈ rest, Plain file.name
  valid : ∀ file ∈ rest, ValidName file.name
  distinct : ((done ++ rest).map ArchiveFile.name).Nodup
  few : (done ++ rest).length ≤ rootPlace.entries
  room : used + archiveSectors rest ≤ fs.size

theorem block_at_slice (scratch : Nat → Byte) (sector : Nat) :
    (blockAt scratch sector).val = slice scratch (sector * blockSectorSize) blockSectorSize := by
  have size : ustarHeaderSize = blockSectorSize := rfl
  dsimp only [blockAt]
  rw [size]

/-- The parts of the first file of an archive. -/
theorem stands_first (stands : StandsAt m (file :: rest)) :
    blockAt m.scratch m.sector = file.header ∧
      slice m.scratch ((m.sector + 1) * blockSectorSize) file.bytes.length = file.bytes ∧
      slice m.scratch ((m.sector + file.sectors) * blockSectorSize) (archiveStream rest).length =
        archiveStream rest := by
  unfold StandsAt archiveStream at stands
  rw [List.flatMap_cons] at stands
  obtain ⟨first, others⟩ := slice_parts stands
  rw [stream_length, ← Nat.add_mul] at others
  obtain ⟨header, sectors⟩ := slice_parts first
  have size : file.header.val.length = blockSectorSize := file.header.property
  rw [size, ← Nat.succ_mul] at sectors
  rw [size] at header
  exact ⟨Subtype.ext ((block_at_slice _ _).trans header), (slice_parts sectors).1, others⟩

theorem scratch_next_runs (inside : m.sector < m.scratchSize) :
    scratchNext m = .ok (blockAt m.scratch m.sector) { m with sector := m.sector + 1 } := by
  change (if m.scratchSize ≤ m.sector then throw (Panic.pastEnd m.sector)
    else pure (blockAt m.scratch m.sector) : ExtractM _) { m with sector := m.sector + 1 } = _
  rw [if_neg (Nat.not_le.mpr inside)]
  rfl

/-- A file is taken from the archive. -/
theorem extract_loop_file {post : Extractor → Prop} {name : Name} {size : Nat}
    (inside : m.sector < m.scratchSize)
    (parsed : ustarParseHeader (blockAt m.scratch m.sector) = .ok (.file name .regular size))
    (ran : Returns (putFile name size) { m with sector := m.sector + 1 } fun _ next => post next)
    (rounds : Nat) :
    ∃ next, post next ∧ extractLoop (rounds + 1) m = extractLoop rounds next := by
  obtain ⟨_, next, result, holds⟩ := ran
  refine ⟨next, holds, ?_⟩
  rw [extractLoop, bind_run (scratch_next_runs inside), parsed]
  exact bind_run result

theorem data_sectors_created {bytes : List Byte} (few : dataSectors bytes < 2 ^ 21) :
    bytes.length < 2 ^ 31 ∧ bytesToSectors bytes.length = dataSectors bytes := by
  unfold dataSectors blockSectorSize at *
  have taken := @bytes_to_sectors_eq (bytes.length : Int) (by omega) (by omega)
  omega

theorem archive_sectors_cons (file : ArchiveFile) (rest : List ArchiveFile) :
    archiveSectors (file :: rest) = 1 + dataSectors file.bytes + archiveSectors rest := rfl

theorem parse_archive_header (plain : Plain file.name) (small : file.bytes.length < 2 ^ 31) :
    ustarParseHeader file.header = .ok (.file file.name .regular file.bytes.length) := by
  have value : (BitVec.ofNat 32 file.bytes.length : Word).toNat = file.bytes.length := by
    rw [BitVec.toNat_ofNat]
    omega
  have nonneg : 0 ≤ (BitVec.ofNat 32 file.bytes.length : Word).toInt := by
    rw [BitVec.toInt_ofNat', Int.bmod_def]
    omega
  have parsed := @parse_file_header file.name .regular _ plain nonneg
  dsimp only [UstarType.parsedSize] at parsed
  rw [value] at parsed
  exact parsed

/-- There is room for the first of the files. -/
theorem first_fits {fs : FileSys} (holding : Holding inodes fs map done used)
    (puttable : Puttable fs done (file :: rest) used)
    (count : bytesToSectors file.bytes.length = dataSectors file.bytes) :
    Fits fs map file.name (1 + bytesToSectors file.bytes.length) where
  valid := puttable.valid file List.mem_cons_self
  absent := by
    by_contra mapped
    obtain ⟨other, member, isName⟩ := holding.only file.name mapped
    have distinct := puttable.distinct
    rw [List.map_append, List.nodup_append] at distinct
    exact distinct.2.2 _ (List.mem_map_of_mem member) _
      (List.mem_map_of_mem (List.mem_cons_self : file ∈ file :: rest)) isName
  notFull := by
    have few := puttable.few
    rw [List.length_append, List.length_cons] at few
    have most := domain_few holding
    omega
  room := by
    have room := puttable.room
    rw [archive_sectors_cons] at room
    exact ⟨used, holding.packed, by omega⟩

theorem puttable_rest {fs next : FileSys} (puttable : Puttable fs done (file :: rest) used)
    (size : next.size = fs.size) : Puttable next (done ++ [file]) rest (used + file.sectors) where
  plain := fun other member => puttable.plain other (List.mem_cons_of_mem _ member)
  valid := fun other member => puttable.valid other (List.mem_cons_of_mem _ member)
  distinct := by
    rw [List.append_assoc]
    exact puttable.distinct
  few := by
    rw [List.append_assoc]
    exact puttable.few
  room := by
    rw [size, Nat.add_assoc]
    exact puttable.room

/-- What is left of the loop when the files of an archive have been put into the file system. -/
structure Extracted (inodes : Set Nat) (map : NameMap) (done rest : List ArchiveFile) (used : Nat)
    (m next : Extractor) : Prop where
  holding : Holding inodes next.fs map (done ++ rest) (used + archiveSectors rest)
  hasScratch : next.hasScratch = m.hasScratch
  scratchSize : next.scratchSize = m.scratchSize
  scratch : next.scratch = m.scratch
  place : next.sector = m.sector + archiveSectors rest

theorem extract_loop_files (holding : Holding inodes m.fs map done used)
    (puttable : Puttable m.fs done rest used) (stands : StandsAt m rest)
    (room : m.sector + archiveSectors rest ≤ m.scratchSize) (rounds : Nat) :
    ∃ inodes map next, Extracted inodes map done rest used m next ∧
      extractLoop (rounds + rest.length) m = extractLoop rounds next := by
  induction rest generalizing inodes map done used m with
  | nil =>
      refine ⟨inodes, map, m, ⟨?_, rfl, rfl, rfl, rfl⟩, rfl⟩
      rw [List.append_nil]
      exact holding
  | cons file rest induction =>
      have sectors := archive_sectors_cons file rest
      have diskSize : m.fs.size < 2 ^ 21 :=
        (holding.stocked.ready.sound.stored.valid _ (map_live holding.stocked.ready.sound)).small
      have fsRoom := puttable.room
      obtain ⟨small, count⟩ := @data_sectors_created file.bytes (by omega)
      have plain := puttable.plain file List.mem_cons_self
      obtain ⟨header, data, others⟩ := stands_first stands
      have parsed := parse_archive_header plain small
      rw [← header] at parsed
      have put := @put_file_ends _ { m with sector := m.sector + 1 } _ _ _ holding.stocked
        plain.noNul small
      have sectorsOf_ : sectorsOf file.bytes.length = dataSectors file.bytes := rfl
      have returned := returns_of_ends put (by
        intro _ either
        cases either with
        | inl none_ => exact none_ (first_fits holding puttable count)
        | inr past =>
            dsimp only at past
            omega)
      obtain ⟨middle, ⟨sector, added⟩, step⟩ := extract_loop_file (by omega) parsed returned
        (rounds + rest.length)
      have place : middle.sector = m.sector + file.sectors := by
        rw [added.place, ArchiveFile.sectors, sectorsOf_, Nat.add_assoc]
      have one : 1 + bytesToSectors file.bytes.length = file.sectors := by
        rw [count]
        rfl
      have again := holding_added (m := { m with sector := m.sector + 1 }) holding added data
      have more := puttable_rest puttable added.fsSize
      have behind : StandsAt middle rest := by
        unfold StandsAt
        rw [added.scratch, place]
        exact others
      have sizes : middle.scratchSize = m.scratchSize := added.scratchSize
      rw [one] at again
      obtain ⟨inodesLast, mapLast, next, extracted, loop⟩ := induction again more behind (by
        rw [place, sizes]
        unfold ArchiveFile.sectors
        omega)
      refine ⟨inodesLast, mapLast, next, ⟨?_, extracted.hasScratch.trans added.hasScratch,
        extracted.scratchSize.trans sizes, extracted.scratch.trans added.scratch, ?_⟩, step.trans loop⟩
      · have whole := extracted.holding
        rw [List.append_assoc, Nat.add_assoc] at whole
        exact whole
      · rw [extracted.place, place, Nat.add_assoc]
        rfl

end Reading

section Ending

variable {m : Extractor} {behind : Byte}

/-- Nothing but zeros is taken for the end of an archive. -/
theorem parse_marker (behind : Byte) (block : Field ustarHeaderSize)
    (marker : block.val = markerBlock behind) :
    ustarParseHeader block = if behind = 0 then .ok .eof else .error "not a ustar archive" := by
  by_cases zero : behind = 0
  · rw [if_pos zero]
    apply parsed_eof.mpr
    rw [marker, zero, isAllZeros, markerBlock, List.all_append, List.all_replicate]
    rfl
  · rw [if_neg zero]
    have notZeros : isAllZeros block.val = false := by
      rw [isAllZeros, List.all_eq_false]
      refine ⟨behind, ?_, by rw [decide_eq_true_eq]; exact zero⟩
      rw [marker]
      exact List.mem_append_right _ (List.mem_singleton_self behind)
    have magic : (ustarHeader block).magic.val ≠ ustarMagic := by
      change (block.val.drop 257).take 6 ≠ ustarMagic
      rw [marker, markerBlock, List.drop_append_of_le_length (by
        rw [List.length_replicate]
        decide), List.take_append_of_le_length (by
        rw [List.length_drop, List.length_replicate]
        decide)]
      decide
    unfold ustarParseHeader
    rw [notZeros, if_neg (by decide)]
    exact if_pos magic

theorem extract_loop_marker (inside : m.sector < m.scratchSize)
    (marker : slice m.scratch (m.sector * blockSectorSize) blockSectorSize = markerBlock behind)
    (rounds : Nat) :
    extractLoop (rounds + 1) m = if behind = 0 then .ok () { m with sector := m.sector + 1 }
      else .error (.message "bad ustar header in sector %u (not a ustar archive)")
        { m with sector := m.sector + 1 } := by
  have parsed := parse_marker behind (blockAt m.scratch m.sector)
    ((block_at_slice m.scratch m.sector).trans marker)
  rw [extractLoop, bind_run (scratch_next_runs inside), parsed]
  by_cases zero : behind = 0
  · rw [if_pos zero, if_pos zero]
    rfl
  · rw [if_neg zero, if_neg zero]
    rfl

theorem erase_sector_ensures (sector : Nat) (m : Extractor) :
    Ensures (eraseSector sector) m fun _ next =>
      sector < m.scratchSize ∧ next.scratchSize = m.scratchSize ∧ next.fs = m.fs := by
  unfold eraseSector
  apply ensures_get
  by_cases past : m.scratchSize ≤ sector
  · rw [if_pos past]
    exact ensures_throw
  · rw [if_neg past]
    exact ensures_returns ⟨_, _, rfl, Nat.lt_of_not_le past, rfl, rfl⟩

theorem erase_sector_returns {sector : Nat} (inside : sector < m.scratchSize) :
    Returns (eraseSector sector) m fun _ next =>
      next.scratchSize = m.scratchSize ∧ next.fs = m.fs := by
  unfold eraseSector
  apply returns_get
  rw [if_neg (Nat.not_le.mpr inside)]
  exact ⟨_, _, rfl, rfl, rfl⟩

end Ending

/-- From this sector on there are headers of directories, and then a sector full of zeros. -/
def EndsAt (scratchSize : Nat) (scratch : Nat → Byte) (first : Nat) : Prop :=
  ∃ count, first + count < scratchSize ∧
    (∀ index < count, ∃ name size, ustarParseHeader (blockAt scratch (first + index)) =
      .ok (.file name .directory size)) ∧
    isAllZeros (blockAt scratch (first + count)).val = true

section Nothing

variable {inodes : Set Nat} {m : Extractor} {map : NameMap}

theorem ends_at_next {scratchSize first : Nat} {scratch : Nat → Byte} {name : List Byte} {size : Nat}
    (parsed : ustarParseHeader (blockAt scratch first) = .ok (.file name .directory size))
    (ends : EndsAt scratchSize scratch (first + 1)) : EndsAt scratchSize scratch first := by
  obtain ⟨count, inside, directories, zeros⟩ := ends
  refine ⟨count + 1, by omega, ?_, ?_⟩
  · intro index below
    cases index with
    | zero => exact ⟨name, size, parsed⟩
    | succ index =>
        rw [← Nat.succ_add_eq_add_succ]
        exact directories index (by omega)
  · rw [← Nat.succ_add_eq_add_succ]
    exact zeros

theorem extract_loop_nothing {rounds : Nat} (ends : EndsAt m.scratchSize m.scratch m.sector)
    (enough : m.scratchSize < m.sector + rounds) :
    Returns (extractLoop rounds) m fun _ next =>
      next.fs = m.fs ∧ next.scratchSize = m.scratchSize := by
  obtain ⟨count, inside, directories, zeros⟩ := ends
  induction count generalizing m rounds with
  | zero =>
      obtain ⟨rounds, isRounds⟩ : ∃ more, rounds = more + 1 := ⟨rounds - 1, by omega⟩
      have parsed := parsed_eof.mpr zeros
      refine ⟨(), { m with sector := m.sector + 1 }, ?_, rfl, rfl⟩
      rw [isRounds, extractLoop, bind_run (scratch_next_runs inside)]
      rw [Nat.add_zero] at parsed
      rw [parsed]
      rfl
  | succ count induction =>
      obtain ⟨rounds, isRounds⟩ : ∃ more, rounds = more + 1 := ⟨rounds - 1, by omega⟩
      obtain ⟨name, size, parsed⟩ := directories 0 (Nat.succ_pos count)
      rw [Nat.add_zero] at parsed
      have later := @induction { m with sector := m.sector + 1 } rounds (by dsimp only; omega)
        (by dsimp only; omega) (by
          intro index below
          have next := directories (index + 1) (by omega)
          rw [← Nat.succ_add_eq_add_succ] at next
          exact next) (by
          rw [← Nat.succ_add_eq_add_succ] at zeros
          exact zeros)
      obtain ⟨_, next, result, holds⟩ := later
      refine ⟨(), next, ?_, holds⟩
      rw [isRounds, extractLoop, bind_run (scratch_next_runs (by omega)), parsed]
      exact result

/-- A loop that returns has put a file into the file system unless there was nothing to extract. -/
theorem extract_loop_ensures (stocked : Stocked inodes m.fs map) (rounds : Nat) :
    Ensures (extractLoop rounds) m fun _ next => next.scratchSize = m.scratchSize ∧
      ∃ inodes last, Stocked inodes next.fs last ∧ (∀ name, map name ≠ none → last name ≠ none) ∧
        ((∀ name, last name = none) → EndsAt m.scratchSize m.scratch m.sector) := by
  induction rounds generalizing inodes m map with
  | zero => exact ensures_get ensures_throw
  | succ rounds induction =>
      unfold extractLoop
      refine ensures_bind (ensures_ends (@scratch_next_ends m (fun _ => True)
        fun _ _ => trivial)) ?_
      intro block read after
      obtain ⟨isBlock, isRead, inside⟩ := after
      rw [isBlock, isRead]
      cases parsed : ustarParseHeader (blockAt m.scratch m.sector) with
      | error error => exact ensures_throw
      | ok entry =>
          cases entry with
          | eof =>
              apply ensures_pure
              refine ⟨rfl, inodes, map, stocked, fun _ mapped => mapped,
                fun _ => ⟨0, inside, ?_, ?_⟩⟩
              · intro index impossible
                exact absurd impossible (Nat.not_lt_zero index)
              · exact parsed_eof.mp parsed
          | file name type size =>
              cases type with
              | directory =>
                  intro _ next ran
                  obtain ⟨sized, others, last, final, kept, ends⟩ :=
                    @induction inodes { m with sector := m.sector + 1 } map stocked _ next ran
                  exact ⟨sized, others, last, final, kept,
                    fun none_ => ends_at_next parsed (ends none_)⟩
              | regular =>
                  obtain ⟨noNul, small⟩ := parsed_file parsed
                  refine ensures_bind (ensures_ends (put_file_ends
                    (m := { m with sector := m.sector + 1 }) stocked noNul small)) ?_
                  intro _ middle put
                  obtain ⟨sector, added⟩ := put
                  intro _ next ran
                  obtain ⟨sized, others, last, final, kept, _⟩ := induction added.stocked _ next ran
                  have here : last name ≠ none := by
                    apply kept
                    rw [Function.update_self]
                    exact fun impossible => nomatch impossible
                  refine ⟨sized.trans added.scratchSize, others, last, final, ?_,
                    fun none_ => absurd (none_ name) here⟩
                  intro other mapped
                  apply kept
                  by_cases same : other = name
                  · rw [same, Function.update_self]
                    exact fun impossible => nomatch impossible
                  · rw [Function.update_of_ne same]
                    exact mapped

end Nothing

section Extracting

variable {inodes : Set Nat} {m : Extractor} {map : NameMap} {files : List ArchiveFile} {used : Nat}
  {behind : Byte}

/-- What follows the allocation of the buffers. -/
def extractRest (rounds : Nat) : ExtractM Unit := do
  extractLoop rounds
  eraseSector 0
  eraseSector 1

theorem holding_requested {fs next : FileSys} (holding : Holding inodes fs map files used)
    (requested : Requested fs next) : Holding inodes next map files used := by
  obtain ⟨⟨ready, undenied, represents⟩, there, only, packed⟩ := holding
  obtain ⟨_, readyNext⟩ := ready_requested ready requested
  obtain ⟨requests, _, isNext⟩ := requested
  refine ⟨⟨readyNext, ?_, ?_⟩, ?_, only, ?_⟩
  · rw [isNext]
    exact undenied
  · rw [isNext]
    exact represents
  · rw [isNext]
    exact there
  · rw [isNext]
    exact packed

theorem with_malloc_runs (plenty : Plenty m.fs) :
    withFs malloc m = .ok (some m.fs.requests)
      { m with fs := { m.fs with requests := m.fs.requests + 1 } } := by
  have run : malloc m.fs = .ok (if m.fs.memory m.fs.requests then some m.fs.requests else none)
      { m.fs with requests := m.fs.requests + 1 } := rfl
  unfold withFs
  rw [run, plenty m.fs.requests]
  rfl

theorem fsutil_extract_starts (plenty : Plenty m.fs) (hasScratch : m.hasScratch = true) :
    ∃ fs, Requested m.fs fs ∧
      fsutilExtract m = extractRest (m.scratchSize + 1) { m with fs := fs } := by
  refine ⟨{ m.fs with requests := m.fs.requests + 2 }, ⟨_, by omega, rfl⟩, ?_⟩
  have second := with_malloc_runs (m := { m with
    fs := { m.fs with requests := m.fs.requests + 1 } }) plenty
  have gets : ∀ state : Extractor, (get : ExtractM Extractor) state = .ok state state :=
    fun _ => rfl
  rw [fsutilExtract, bind_run (with_malloc_runs plenty), bind_run second, if_neg (by simp),
    bind_run (gets _), if_neg (by rw [hasScratch]; decide), bind_run (gets _)]
  rfl

theorem archive_sectors_least (files : List ArchiveFile) : files.length ≤ archiveSectors files := by
  induction files with
  | nil => exact Nat.le_refl 0
  | cons file rest induction =>
      rw [List.length_cons, archive_sectors_cons]
      omega

theorem extract_rest_returns {rounds : Nat} (post : FileSys → Prop) (wide : 1 < m.scratchSize)
    (ran : Returns (extractLoop rounds) m fun _ next =>
      next.scratchSize = m.scratchSize ∧ post next.fs) :
    Returns (extractRest rounds) m fun _ next => post next.fs := by
  refine returns_bind ran ?_
  intro _ first after
  obtain ⟨size, holds⟩ := after
  refine returns_bind (erase_sector_returns (by omega)) ?_
  intro _ second after
  obtain ⟨sizeSecond, sameSecond⟩ := after
  refine returns_mono (erase_sector_returns (by omega)) ?_
  intro _ third after
  rw [after.2, sameSecond]
  exact holds

theorem extract_rest_ensures {rounds : Nat} (post : FileSys → Prop)
    (ran : Ensures (extractLoop rounds) m fun _ next =>
      next.scratchSize = m.scratchSize ∧ post next.fs) :
    Ensures (extractRest rounds) m fun _ next => 1 < m.scratchSize ∧ post next.fs := by
  refine ensures_bind ran ?_
  intro _ first after
  obtain ⟨size, holds⟩ := after
  refine ensures_bind (erase_sector_ensures 0 first) ?_
  intro _ second after
  obtain ⟨_, sizeSecond, sameSecond⟩ := after
  intro _ third erased
  obtain ⟨inside, _, sameThird⟩ := erase_sector_ensures 1 second _ third erased
  refine ⟨by omega, ?_⟩
  rw [sameThird, sameSecond]
  exact holds

/-- The files are put into an empty file system if the sector behind them holds nothing but
zeros. -/
theorem extract_archive_iff (holding : Holding inodes m.fs map [] used)
    (puttable : Puttable m.fs [] files used) (hasScratch : m.hasScratch = true)
    (begun : m.sector = 0) (stands : StandsAt m files) (some_ : files ≠ [])
    (room : archiveSectors files < m.scratchSize)
    (marker : slice m.scratch (archiveSectors files * blockSectorSize) blockSectorSize =
      markerBlock behind) :
    Returns fsutilExtract m (fun _ next => HoldsExactly next.fs files) ↔ behind = 0 := by
  obtain ⟨fs, requested, starts⟩ := fsutil_extract_starts holding.stocked.ready.plenty hasScratch
  have again := holding_requested holding requested
  have size : fs.size = m.fs.size := by
    obtain ⟨requests, _, isFs⟩ := requested
    rw [isFs]
  have few := archive_sectors_least files
  have positive := List.length_pos_iff.mpr some_
  have room' : used + archiveSectors files ≤ fs.size := by
    rw [size]
    exact puttable.room
  obtain ⟨rounds, isRounds⟩ : ∃ rounds, m.scratchSize + 1 = rounds + 1 + files.length :=
    ⟨m.scratchSize - files.length, by omega⟩
  obtain ⟨others, last, next, extracted, loop⟩ := extract_loop_files (m := { m with fs := fs })
    again { puttable with room := room' } stands (by dsimp only; omega) (rounds + 1)
  have place : next.sector = archiveSectors files := by
    rw [extracted.place]
    dsimp only
    rw [begun, Nat.zero_add]
  have sizes : next.scratchSize = m.scratchSize := extracted.scratchSize
  have behindIt : slice next.scratch (next.sector * blockSectorSize) blockSectorSize =
      markerBlock behind := by
    rw [extracted.scratch, place]
    exact marker
  have ends := extract_loop_marker (by omega) behindIt rounds
  rw [← loop, ← isRounds] at ends
  unfold Returns
  rw [starts]
  constructor
  · intro returned
    obtain ⟨_, final, result, _⟩ := returned
    by_contra nonzero
    rw [if_neg nonzero] at ends
    refine (extract_rest_ensures (m := { m with fs := fs }) (fun _ => False) ?_ _ final result).2
    intro _ _ impossible
    rw [ends] at impossible
    cases impossible
  · intro zero
    rw [if_pos zero] at ends
    exact extract_rest_returns (m := { m with fs := fs }) (HoldsExactly · files)
      (by dsimp only; omega) ⟨(), _, ends, sizes, holding_exactly extracted.holding⟩

/-- From an empty archive nothing is extracted if the scratch device ends it. -/
theorem extract_nothing_iff (holding : Holding inodes m.fs map [] used)
    (hasScratch : m.hasScratch = true) :
    Returns fsutilExtract m (fun _ next => HoldsExactly next.fs []) ↔
      1 < m.scratchSize ∧ EndsAt m.scratchSize m.scratch m.sector := by
  obtain ⟨fs, requested, starts⟩ := fsutil_extract_starts holding.stocked.ready.plenty hasScratch
  have again := holding_requested holding requested
  constructor
  · intro returned
    obtain ⟨_, next, result, exactly⟩ := returned
    rw [starts] at result
    obtain ⟨wide, inodes, last, stocked, _, ends⟩ := extract_rest_ensures (m := { m with fs := fs })
      (fun final => ∃ inodes last, Stocked inodes final last ∧
        (∀ name, map name ≠ none → last name ≠ none) ∧
        ((∀ name, last name = none) → EndsAt m.scratchSize m.scratch m.sector))
      (extract_loop_ensures again.stocked _) _ next result
    refine ⟨wide, ends fun name => ?_⟩
    cases mapped : last name with
    | none => rfl
    | some sector =>
        have listed : Lists next.fs name sector := (stocked.represents.mapped name sector).mp mapped
        obtain ⟨_, impossible, _⟩ := exactly.2 name sector listed
        cases impossible
  · intro after
    obtain ⟨wide, ends⟩ := after
    unfold Returns
    rw [starts]
    refine extract_rest_returns (m := { m with fs := fs }) (HoldsExactly · []) wide ?_
    refine returns_mono (extract_loop_nothing (m := { m with fs := fs }) ends (by
      dsimp only
      omega)) ?_
    intro _ next after
    rw [after.1]
    exact ⟨after.2, holding_exactly again⟩

end Extracting

/-- A file system that has just been formatted holds no files. -/
theorem formatted_holding {size : Nat} {disk : Disk} {memory : Nat → Bool} {fs : FileSys}
    (accepted : IdeAccepts size) (granted : ∀ request, memory request = true)
    (ran : filesysInit true (powerUp size disk memory) = .ok () fs) :
    ∃ inodes, Holding inodes fs (fun _ => none) [] (formatSectors size) ∧ fs.size = size := by
  have small : size < 2 ^ 21 := by
    unfold IdeAccepts blockSectorSize at accepted
    omega
  obtain ⟨⟨inodes, sound, catalog⟩, sameMemory, sameSize, onlyMap⟩ :=
    filesys_init_format_ensures size disk memory small _ _ ran
  obtain ⟨packed, empty⟩ := format_fresh size disk memory small _ _ ran
  refine ⟨inodes, ⟨⟨⟨?_, sound, catalog⟩, ?_, represents_empty empty⟩, ?_, ?_, packed⟩, sameSize⟩
  · intro request
    rw [sameMemory]
    exact granted request
  · intro file handle here
    obtain ⟨mapFile, mapHandle, _, isMap, _, mapHere, allows, _⟩ := sound.mapFile
    have isFile := onlyMap file handle here
    rw [isMap] at isFile
    rw [Option.some.inj isFile, here] at mapHere
    rw [Option.some.inj mapHere]
    exact allows
  · intro file impossible
    cases impossible
  · intro name impossible
    exact absurd rfl impossible

/-- The kernel at its first `fsutil_append`, with a scratch device. -/
def archiver (fs : FileSys) (scratchSize : Nat) (scratch : Nat → Byte) : Fsutil.Machine where
  fs := fs
  hasScratch := true
  scratchSize := scratchSize
  scratch := scratch
  sector := 0
  sources := []

/-- The kernel at its first `fsutil_extract`, with the scratch device of another. -/
def extractor (fs : FileSys) (m : Fsutil.Machine) : Extractor where
  fs := fs
  hasScratch := m.hasScratch
  scratchSize := m.scratchSize
  scratch := m.scratch
  sector := 0

/-- The archive ends where it should: the byte behind the buffer of the last call is 0 or, if there
are no calls, the scratch device holds the end of an archive. -/
def EndsWell (calls : List (Byte × ArchiveFile)) (scratchSize : Nat) (scratch : Nat → Byte) : Prop :=
  match calls.getLast? with
  | some (behind, _) => behind = 0
  | none => 1 < scratchSize ∧ EndsAt scratchSize scratch 0

theorem extract_iff_ends_well {inodes others : Set Nat} {source fs : FileSys} {used : Nat}
    (ready : Ready inodes source) (calls : List (Byte × ArchiveFile))
    (archivable : Archivable source (calls.map Prod.snd))
    (holding : Holding others fs (fun _ => none) [] used)
    (puttable : Puttable fs [] (calls.map Prod.snd) used) (scratchSize : Nat) (scratch : Nat → Byte)
    (room : archiveSectors (calls.map Prod.snd) < scratchSize) :
    Returns (appends (appendCalls calls)) (archiver source scratchSize scratch) fun _ m =>
      (Returns fsutilExtract (extractor fs m) fun _ next =>
        HoldsExactly next.fs (calls.map Prod.snd)) ↔ EndsWell calls scratchSize scratch := by
  refine returns_mono (appends_archive (m := archiver source scratchSize scratch) calls ready
    archivable rfl (by dsimp only [archiver]; omega)) ?_
  intro _ m after
  obtain ⟨copied, none_, marker⟩ := after
  have wrote := copied.wrote
  unfold EndsWell
  cases last : calls.getLast? with
  | none =>
      have empty := List.getLast?_eq_none_iff.mp last
      rw [empty, none_ empty]
      exact extract_nothing_iff (m := extractor fs (archiver source scratchSize scratch)) holding rfl
  | some call =>
      obtain ⟨behind, file⟩ := call
      have isMarker := marker behind file last
      have place := wrote_sectors wrote (archive_stream_length _)
      have begun : m.sector = archiveSectors (calls.map Prod.snd) := by
        rw [place]
        exact Nat.zero_add _
      have size : m.scratchSize = scratchSize := wrote.size
      rw [begun] at isMarker
      refine extract_archive_iff (m := extractor fs m) holding puttable wrote.hasScratch rfl
        wrote.stored ?_ ?_ isMarker
      · intro empty
        rw [List.map_eq_nil_iff.mp empty] at last
        cases last
      · dsimp only [extractor]
        rw [size]
        exact room

/-- After all calls of `fsutil_append`, `fsutil_extract` creates exactly the files that were
archived if and only if the archive ends well. -/
theorem archive_round_trip_iff {client : Client} (reachable : Reachable client)
    (plenty : Plenty client.fs) (calls : List (Byte × ArchiveFile))
    (archivable : Archivable client.fs (calls.map Prod.snd))
    (valid : ∀ file ∈ calls.map Prod.snd, ValidName file.name)
    (distinct : ((calls.map Prod.snd).map ArchiveFile.name).Nodup) (few : calls.length ≤ 16)
    (scratchSize : Nat) (scratch : Nat → Byte)
    (room : archiveSectors (calls.map Prod.snd) < scratchSize)
    {size : Nat} {disk : Disk} {memory : Nat → Bool} {fs : FileSys} (accepted : IdeAccepts size)
    (granted : ∀ request, memory request = true)
    (formatted_ : filesysInit true (powerUp size disk memory) = .ok () fs)
    (fits : formatSectors size + archiveSectors (calls.map Prod.snd) ≤ size) :
    Returns (appends (appendCalls calls)) (archiver client.fs scratchSize scratch) fun _ m =>
      (Returns fsutilExtract (extractor fs m) fun _ next =>
        HoldsExactly next.fs (calls.map Prod.snd)) ↔ EndsWell calls scratchSize scratch := by
  obtain ⟨⟨inodes, sound, catalog⟩, _⟩ := reachable_fine reachable
  obtain ⟨others, holding, sized⟩ := formatted_holding accepted granted formatted_
  refine extract_iff_ends_well ⟨plenty, sound, catalog⟩ calls archivable holding
    ⟨archivable.plain, valid, distinct, ?_, ?_⟩ scratchSize scratch room
  · rw [List.nil_append, List.length_map]
    exact few
  · rw [sized]
    exact fits

/-- A file `a` of three zeros. -/
def zeroFile : ArchiveFile where
  name := [0x61]
  bytes := [0, 0, 0]

theorem six_sectors_format :
    ∃ fs, filesysInit true (powerUp 6 (fun _ => 0) fun _ => true) = .ok () fs := by
  have runs : (filesysInit true).run' (powerUp 6 (fun _ => 0) fun _ => true) = some () := by
    decide +kernel
  exact ok_of_run runs

theorem six_sectors_accepted : IdeAccepts 6 := by
  unfold IdeAccepts blockSectorSize
  omega

theorem zero_file_puttable {fs : FileSys} (size : fs.size = 6) :
    Puttable fs [] [zeroFile] (formatSectors 6) where
  plain := by
    intro file member
    rw [List.mem_singleton.mp member]
    exact ⟨by decide, by decide, by decide⟩
  valid := by
    intro file member
    rw [List.mem_singleton.mp member]
    exact ⟨by decide, by decide⟩
  distinct := List.nodup_singleton _
  few := by decide
  room := by
    rw [size]
    decide

theorem zero_file_created : ∃ client, Reachable client ∧ Plenty client.fs ∧
    Archivable client.fs [zeroFile] := by
  obtain ⟨fs, ran⟩ := six_sectors_format
  have reachable : Reachable ⟨fs, []⟩ := .format six_sectors_accepted ran
  obtain ⟨inodes, holding, size⟩ := formatted_holding six_sectors_accepted (fun _ => rfl) ran
  have stocked := holding.stocked
  have nonneg : 0 ≤ (3 : Word).toInt := by decide
  have fits := first_fits holding (zero_file_puttable size) (by decide)
  obtain ⟨created, next, result, ⟨quiet, _⟩, made, succeeds⟩ := returns_ensures
    (filesys_create_returns ⟨inodes, stocked.ready.sound, stocked.ready.catalog⟩ nonneg zeroFile.name)
    (filesys_create_grows stocked.ready stocked.represents nonneg (by decide))
  obtain ⟨sector, ready, grew⟩ := made (succeeds fits)
  have performed : (Call.create zeroFile.name 3).perform fs = .ok id next := bind_run result
  have stepped := @Reachable.step ⟨fs, []⟩ (.create zeroFile.name 3) id next reachable trivial
    performed
  refine ⟨⟨next, id []⟩, stepped, ready.plenty, ?_, (zero_file_puttable size).plain⟩
  intro file member
  rw [List.mem_singleton.mp member]
  refine ⟨sector, (named_iff grew.represents).mpr (Function.update_self ..), ?_⟩
  exact grew.zero

/-- With a zero behind the buffer the file comes back. -/
theorem archive_round_trip_iff_zero_file : ∃ client fs, Reachable client ∧
    Archivable client.fs [zeroFile] ∧
    filesysInit true (powerUp 6 (fun _ => 0) fun _ => true) = .ok () fs ∧
    Returns (appends [(0, zeroFile.name)]) (archiver client.fs 3 fun _ => 1) fun _ m =>
      Returns fsutilExtract (extractor fs m) fun _ next => HoldsExactly next.fs [zeroFile] := by
  obtain ⟨client, reachable, plenty, archivable⟩ := zero_file_created
  obtain ⟨fs, ran⟩ := six_sectors_format
  have puttable := @zero_file_puttable (powerUp 6 (fun _ => 0) fun _ => true) rfl
  refine ⟨client, fs, reachable, archivable, ran, ?_⟩
  refine returns_mono (archive_round_trip_iff reachable plenty [(0, zeroFile)] archivable
    puttable.valid puttable.distinct (by decide) 3 (fun _ => 1) (by decide) six_sectors_accepted
    (fun _ => rfl) ran (by decide)) ?_
  intro _ m iff_
  exact iff_.mpr rfl

/-- With a one behind the buffer the file is archived and cannot be extracted. -/
theorem heap_byte_breaks_archive : ∃ client fs, Reachable client ∧
    Archivable client.fs [zeroFile] ∧
    filesysInit true (powerUp 6 (fun _ => 0) fun _ => true) = .ok () fs ∧
    Returns (appends [(1, zeroFile.name)]) (archiver client.fs 3 fun _ => 0) fun _ m =>
      ¬Returns fsutilExtract (extractor fs m) fun _ next => HoldsExactly next.fs [zeroFile] := by
  obtain ⟨client, reachable, plenty, archivable⟩ := zero_file_created
  obtain ⟨⟨inodes, sound, catalog⟩, _⟩ := reachable_fine reachable
  obtain ⟨fs, ran⟩ := six_sectors_format
  obtain ⟨others, holding, size⟩ := formatted_holding six_sectors_accepted (fun _ => rfl) ran
  refine ⟨client, fs, reachable, archivable, ran, ?_⟩
  refine returns_mono (extract_iff_ends_well ⟨plenty, sound, catalog⟩ [(1, zeroFile)] archivable
    holding (zero_file_puttable size) 3 (fun _ => 0) (by decide)) ?_
  intro _ m iff_ returned
  exact absurd (iff_.mp returned) (by decide : (1 : Byte) ≠ 0)

end UtSystems.Filesys.RoundTrips

import UtSystems.Filesys.Archives

/-!
# fsutil_extract

The files of an archive are created one after the other. A file that is put into the file system
gets its data from the sectors behind its header.
-/

namespace UtSystems.Filesys.Extraction

open Lib.Bytes Lib.Effects Libc.Ustar Filesys.Volume
open Filesys.InodeData hiding chunkSize
open Filesys.FreeMap Filesys.Inode Filesys.Directory Filesys.Ownership Filesys.Consistency
open Filesys.Entries Filesys.NamedFiles Filesys.ByteArrays Filesys.PackedMap Filesys.DirectoryMap
open Filesys.Restart Filesys.NamedContents
open Filesys.Fsutil (chunkSize)

set_option autoImplicit false

structure Extractor where
  fs : FileSys
  -- whether a device has the role `BLOCK_SCRATCH`
  hasScratch : Bool
  scratchSize : Nat
  scratch : Nat → Byte
  -- `static block_sector_t sector` of `fsutil_extract`
  sector : Nat

abbrev ExtractM := EStateM Panic Extractor

def withFs {α : Type} (program : FsM α) : ExtractM α := fun m =>
  match program m.fs with
  | .ok value fs => .ok value { m with fs := fs }
  | .error panic fs => .error panic { m with fs := fs }

def blockAt (scratch : Nat → Byte) (sector : Nat) : Field ustarHeaderSize :=
  ⟨slice scratch (sector * blockSectorSize) ustarHeaderSize, slice_length⟩

/-- `block_read (src, sector++, buffer)`. -/
def scratchNext : ExtractM (Field ustarHeaderSize) := do
  let m ← get
  modify fun m => { m with sector := m.sector + 1 }
  if m.scratchSize ≤ m.sector then throw (.pastEnd m.sector)
  else return blockAt m.scratch m.sector

/-- The copy loop, for at most so many rounds; each makes `size` smaller. -/
def putLoop (dst : Ptr) : Nat → Int → ExtractM Unit
  | 0, _ => return ()
  | rounds + 1, size =>
      if size ≤ 0 then return ()
      else do
        let data ← scratchNext
        let written ← withFs (fileWrite dst (fun i => data.val.getD i 0) (chunkSize size))
        if written ≠ chunkSize size then throw (.message "%s: write failed with %d bytes unwritten")
        else putLoop dst rounds (size - chunkSize size)

/-- What the loop does with the header of a regular file. -/
def putFile (fileName : Name) (size : Nat) : ExtractM Unit := do
  if ← withFs (filesysCreate fileName (BitVec.ofNat 32 size)) then
    match ← withFs (filesysOpen (some fileName)) with
    | none => throw (.message "%s: open failed")
    | some dst =>
        putLoop dst size size
        withFs (fileClose (some dst))
  else throw (.message "%s: create failed")

/-- The loop over the headers. Each round reads a sector of its own, so there cannot be more
rounds than sectors. -/
def extractLoop : Nat → ExtractM Unit
  | 0 => do throw (.pastEnd (← get).sector)
  | rounds + 1 => do
      match ustarParseHeader (← scratchNext) with
      | .error error => throw (.message ("bad ustar header in sector %u (" ++ error ++ ")"))
      | .ok .eof => return ()
      | .ok (.file _ .directory _) => extractLoop rounds
      | .ok (.file fileName .regular size) => do
          putFile fileName size
          extractLoop rounds

/-- `block_write (src, sector, header)` with a header of zeros. -/
def eraseSector (sector : Nat) : ExtractM Unit := do
  let m ← get
  if m.scratchSize ≤ sector then throw (.pastEnd sector)
  else set { m with
    scratch := overwrite m.scratch (sector * blockSectorSize) (List.replicate blockSectorSize 0) }

def fsutilExtract : ExtractM Unit := do
  let header ← withFs malloc
  let data ← withFs malloc
  if header = none ∨ data = none then throw (.message "couldn't allocate buffers")
  else if (← get).hasScratch = false then throw (.message "couldn't open scratch device")
  else do
    extractLoop ((← get).scratchSize + 1)
    eraseSector 0
    eraseSector 1

section Reading

variable {m : Extractor}

theorem with_fs_ends {Value : Type} {program : FsM Value} {post : Value → FileSys → Prop}
    {raised : Panic → Prop} (ran : Ends program m.fs post raised) :
    Ends (withFs program) m (fun value next => ∃ fs, next = { m with fs := fs } ∧ post value fs)
      raised := by
  rcases ran with returned | failed
  · obtain ⟨value, fs, result, holds⟩ := returned
    refine .inl ⟨value, { m with fs := fs }, ?_, fs, rfl, holds⟩
    unfold withFs
    rw [result]
  · obtain ⟨error, fs, result, allowed⟩ := failed
    refine .inr ⟨error, { m with fs := fs }, ?_, allowed⟩
    unfold withFs
    rw [result]

theorem scratch_next_ends {raised : Panic → Prop}
    (past : ∀ error, m.scratchSize ≤ m.sector → raised error) :
    Ends scratchNext m (fun block next => block = blockAt m.scratch m.sector ∧
      next = { m with sector := m.sector + 1 } ∧ m.sector < m.scratchSize) raised := by
  apply ends_get
  apply ends_modify
  by_cases outside : m.scratchSize ≤ m.sector
  · rw [if_pos outside]
    exact ends_throw (past _ outside)
  · rw [if_neg outside]
    exact ends_returns (returns_pure ⟨rfl, rfl, Nat.lt_of_not_le outside⟩)

end Reading

section Putting

variable {inodes : Set Nat} {m : Extractor} {dst : Ptr} {sector pos : Nat}

/-- The data of one file have been written, from the sectors that follow. -/
structure Filled (inodes : Set Nat) (sector : Nat) (bytes : List Byte) (m next : Extractor) :
    Prop where
  hasScratch : next.hasScratch = m.hasScratch
  size : next.scratchSize = m.scratchSize
  scratch : next.scratch = m.scratch
  written : Written inodes m.fs next.fs sector bytes
  undenied : Undenied next.fs

theorem written_trans {first second third : FileSys} {early late : List Byte}
    (one : Written inodes first second sector early) (two : Written inodes second third sector late) :
    Written inodes first third sector late where
  steady := steady_trans one.steady two.steady
  ready := two.ready
  freeMap := two.freeMap.trans one.freeMap
  confined := confined_trans one.confined two.confined
  contents := two.contents

theorem filled_trans {early late : List Byte} {middle next : Extractor}
    (one : Filled inodes sector early m middle) (two : Filled inodes sector late middle next) :
    Filled inodes sector late m next where
  hasScratch := two.hasScratch.trans one.hasScratch
  size := two.size.trans one.size
  scratch := two.scratch.trans one.scratch
  written := written_trans one.written two.written
  undenied := two.undenied

/-- What the buffer holds are the bytes of the sector. -/
theorem slice_block (scratch : Nat → Byte) (place : Nat) {count : Nat}
    (fits : count ≤ blockSectorSize) :
    slice (fun i => (blockAt scratch place).val.getD i 0) 0 count =
      slice scratch (place * blockSectorSize) count := by
  apply List.map_congr_left
  intro index member
  have inside := List.mem_range.mp member
  have within : index < ustarHeaderSize := Nat.lt_of_lt_of_le inside fits
  dsimp only [blockAt]
  rw [Nat.zero_add, List.getD_eq_getElem?_getD, slice_get within]
  rfl

theorem chunk_size_value (rest : Nat) : chunkSize rest = ((min blockSectorSize rest : Nat) : Int) := by
  unfold chunkSize
  split
  · next more => rw [Nat.min_eq_left (by omega)]
  · next less => rw [Nat.min_eq_right (by omega)]

/-- The sectors of `count` bytes. -/
def sectorsOf (count : Nat) : Nat := (count + 511) / blockSectorSize

/-- The rest of the data is in the file, and the next sector follows them. -/
structure Put (inodes : Set Nat) (dst : Ptr) (sector pos rest : Nat) (m next : Extractor) :
    Prop where
  filled : Filled inodes sector ((contents m.fs.disk sector).take pos ++
    slice m.scratch (m.sector * blockSectorSize) rest) m next
  place : next.sector = m.sector + sectorsOf rest
  handle : ∃ last, At next.fs dst sector last

theorem put_nothing (ready : Ready inodes m.fs) (undenied : Undenied m.fs)
    (at_ : At m.fs dst sector pos) (whole : (contents m.fs.disk sector).length = pos) :
    Put inodes dst sector pos 0 m m where
  filled := {
    hasScratch := rfl
    size := rfl
    scratch := rfl
    written := {
      steady := (kept_refl m.fs).toSteady
      ready := ready
      freeMap := rfl
      confined := confined_refl {sector} inodes m.fs.disk
      contents := by
        rw [slice_zero, List.append_nil, List.take_of_length_le (Nat.le_of_eq whole)] }
    undenied := undenied }
  place := rfl
  handle := ⟨pos, at_⟩

theorem sectors_of_rest {rest : Nat} (some_ : rest ≠ 0) :
    sectorsOf rest = 1 + sectorsOf (rest - min blockSectorSize rest) := by
  unfold sectorsOf blockSectorSize
  omega

/-- A chunk written behind the first ones. -/
theorem array_write_take {bytes chunk : List Byte} {buffer : Nat → Byte} {size : Int}
    (fits : pos + chunk.length ≤ bytes.length)
    (isChunk : slice buffer 0 (arrayRoom bytes size pos) = chunk) :
    (arrayWrite bytes buffer size pos).take (pos + chunk.length) = bytes.take pos ++ chunk ∧
      (arrayWrite bytes buffer size pos).length = bytes.length := by
  have front : (bytes.take pos).length = pos := List.length_take_of_le (by omega)
  unfold arrayWrite splice
  rw [isChunk]
  have both : (bytes.take pos ++ chunk).length = pos + chunk.length := by
    rw [List.length_append, front]
  constructor
  · rw [← both, List.take_left]
  · rw [List.length_append, both, List.length_drop]
    omega

theorem slice_sectors (scratch : Nat → Byte) (first rest : Nat) :
    slice scratch (first * blockSectorSize) rest =
      slice scratch (first * blockSectorSize) (min blockSectorSize rest) ++
        slice scratch ((first + 1) * blockSectorSize) (rest - min blockSectorSize rest) := by
  by_cases more : blockSectorSize ≤ rest
  · rw [Nat.min_eq_left more, Nat.succ_mul, ← slice_append, Nat.add_sub_cancel' more]
  · rw [Nat.min_eq_right (by omega), Nat.sub_self, slice_zero, List.append_nil]

/-- A sector's share of the data has been written. -/
theorem put_chunk {rest : Nat} (ready : Ready inodes m.fs) (undenied : Undenied m.fs)
    (at_ : At m.fs dst sector pos) (whole : (contents m.fs.disk sector).length = pos + rest) :
    Returns (fileWrite dst (fun i => (blockAt m.scratch m.sector).val.getD i 0)
        ((min blockSectorSize rest : Nat) : Int)) m.fs fun written fs =>
      written = min blockSectorSize rest ∧ Undenied fs ∧
        At fs dst sector (pos + min blockSectorSize rest) ∧
        (contents fs.disk sector).length = pos + rest ∧
        ∃ bytes, Written inodes m.fs fs sector bytes ∧
          bytes.take (pos + min blockSectorSize rest) = (contents m.fs.disk sector).take pos ++
            slice m.scratch (m.sector * blockSectorSize) (min blockSectorSize rest) := by
  refine returns_mono (file_write_at ready undenied at_ _ _) ?_
  intro written fs after
  obtain ⟨isWritten, wrote, moved, still, _⟩ := after
  have room : arrayRoom (contents m.fs.disk sector) ((min blockSectorSize rest : Nat) : Int) pos =
      min blockSectorSize rest := by
    unfold arrayRoom
    rw [Int.toNat_natCast, whole]
    omega
  have isChunk : slice (fun i => (blockAt m.scratch m.sector).val.getD i 0) 0
      (arrayRoom (contents m.fs.disk sector) ((min blockSectorSize rest : Nat) : Int) pos) =
      slice m.scratch (m.sector * blockSectorSize) (min blockSectorSize rest) := by
    rw [room]
    exact slice_block m.scratch m.sector (Nat.min_le_left _ _)
  have length : (slice m.scratch (m.sector * blockSectorSize)
      (min blockSectorSize rest)).length = min blockSectorSize rest := slice_length
  obtain ⟨front, same⟩ := array_write_take (by rw [length, whole]; omega) isChunk
  rw [length] at front
  rw [room] at isWritten
  rw [isWritten] at moved
  refine ⟨isWritten, still, moved, ?_, _, wrote, front⟩
  rw [wrote.contents, same, whole]

theorem put_loop_ends {rounds rest : Nat} (ready : Ready inodes m.fs) (undenied : Undenied m.fs)
    (at_ : At m.fs dst sector pos) (whole : (contents m.fs.disk sector).length = pos + rest)
    (enough : rest ≤ rounds) :
    Ends (putLoop dst rounds rest) m (fun _ next => Put inodes dst sector pos rest m next)
      fun _ => m.scratchSize < m.sector + sectorsOf rest := by
  have nothing : ∀ {m : Extractor} {pos rest : Nat} {raised : Panic → Prop}, rest = 0 →
      Ready inodes m.fs → Undenied m.fs → At m.fs dst sector pos →
      (contents m.fs.disk sector).length = pos + rest →
      Ends (pure ()) m (fun _ next => Put inodes dst sector pos rest m next) raised := by
    intro m pos rest raised none_ ready undenied at_ whole
    rw [none_] at whole ⊢
    exact ends_returns (returns_pure (put_nothing ready undenied at_ whole))
  induction rounds generalizing m pos rest with
  | zero => exact nothing (Nat.le_zero.mp enough) ready undenied at_ whole
  | succ rounds induction =>
      unfold putLoop
      by_cases none_ : rest = 0
      · rw [if_pos (by rw [none_]; decide)]
        exact nothing none_ ready undenied at_ whole
      · have more := sectors_of_rest none_
        rw [if_neg (by omega), more]
        refine ends_bind (scratch_next_ends fun _ outside => by omega) ?_
        intro data read after
        obtain ⟨isData, isRead, inside⟩ := after
        rw [isRead, isData, chunk_size_value]
        refine ends_bind (with_fs_ends (ends_returns (put_chunk ready undenied at_ whole))) ?_
        intro written second after
        obtain ⟨fs, isSecond, isWritten, still, moved, length, bytes, wrote, front⟩ := after
        have left : ((rest : Nat) : Int) - ((min blockSectorSize rest : Nat) : Int) =
            ((rest - min blockSectorSize rest : Nat) : Int) := by
          omega
        have positive : 0 < min blockSectorSize rest := by
          have size : blockSectorSize = 512 := rfl
          omega
        rw [isSecond, isWritten, if_neg (not_not.mpr rfl), left]
        have later := @induction { m with sector := m.sector + 1, fs := fs }
          (pos + min blockSectorSize rest) (rest - min blockSectorSize rest) wrote.ready still moved
          (by dsimp only; omega) (by omega)
        refine ends_mono later ?_ ?_
        · intro _ next after
          obtain ⟨filled, place, handle⟩ := after
          have begun : Filled inodes sector bytes m { m with sector := m.sector + 1, fs := fs } :=
            ⟨rfl, rfl, rfl, wrote, still⟩
          refine ⟨?_, ?_, handle⟩
          · rw [wrote.contents, front, List.append_assoc, ← slice_sectors] at filled
            exact filled_trans begun filled
          · rw [place, Nat.add_assoc, more]
        · intro _ past
          dsimp only at past
          omega

end Putting

section Files

variable {inodes : Set Nat} {m : Extractor} {map : NameMap} {name : Name} {sector size : Nat}

/-- A file system with these names, of which no file is denied to writers. -/
structure Stocked (inodes : Set Nat) (fs : FileSys) (map : NameMap) : Prop where
  ready : Ready inodes fs
  undenied : Undenied fs
  represents : Represents rootPlace fs.disk map

theorem named_iff {fs : FileSys} (represents : Represents rootPlace fs.disk map) :
    Named fs name sector ↔ map name = some sector := by
  have lists : ∀ other, Lists fs name other ↔ map name = some other :=
    fun other => (represents.mapped name other).symm
  constructor
  · intro named
    exact (lists sector).mp named.1
  · intro mapped
    refine ⟨(lists sector).mpr mapped, fun other listed => ?_⟩
    have again := (lists other).mp listed
    rw [mapped] at again
    exact (Option.some.inj again).symm

/-- A file has been put into the file system, under a new name and with the data behind its
header. -/
structure Added (inodes : Set Nat) (map : NameMap) (name : Name) (size sector : Nat)
    (m next : Extractor) : Prop where
  stocked : Stocked (insert sector inodes) next.fs (Function.update map name (some sector))
  new : sector ∉ inodes
  absent : map name = none
  data : contents next.fs.disk sector = slice m.scratch (m.sector * blockSectorSize) size
  others : Confined {freeMapSector, rootDirSector} inodes m.fs.disk next.fs.disk
  packed : ∀ used, Packed m.fs.freeMap used →
    Packed next.fs.freeMap (used + (1 + bytesToSectors size))
  fsSize : next.fs.size = m.fs.size
  hasScratch : next.hasScratch = m.hasScratch
  scratchSize : next.scratchSize = m.scratchSize
  scratch : next.scratch = m.scratch
  place : next.sector = m.sector + sectorsOf size

theorem put_file_ends (stocked : Stocked inodes m.fs map) (noNul : (0 : Byte) ∉ name)
    (small : size < 2 ^ 31) :
    Ends (putFile name size) m (fun _ next => ∃ sector, Added inodes map name size sector m next)
      fun _ => ¬Fits m.fs map name (1 + bytesToSectors size) ∨
        m.scratchSize < m.sector + sectorsOf size := by
  obtain ⟨ready, undenied, represents⟩ := stocked
  have value : (BitVec.ofNat 32 size : Word).toInt = size := by
    rw [BitVec.toInt_ofNat', Int.bmod_def]
    omega
  have nonneg : 0 ≤ (BitVec.ofNat 32 size : Word).toInt := by
    rw [value]
    exact Int.natCast_nonneg size
  have grows := filesys_create_grows ready represents nonneg noNul
  rw [value] at grows
  unfold putFile
  refine ends_bind (with_fs_ends (ends_returns (returns_ensures
    (filesys_create_returns ⟨inodes, ready.sound, ready.catalog⟩ nonneg name) grows))) ?_
  intro created second after
  obtain ⟨fs, isSecond, _, made, succeeds⟩ := after
  rw [isSecond]
  cases created with
  | false =>
      rw [if_neg (by decide)]
      exact ends_throw (.inl fun fits => nomatch succeeds fits)
  | true =>
      rw [if_pos rfl]
      obtain ⟨sector, readyCreated, grew⟩ := made rfl
      have undeniedCreated : Undenied fs := by
        intro file handle here
        rw [grew.kept.files] at here
        exact undenied file handle here
      have named : Named fs name sector := (named_iff grew.represents).mpr (Function.update_self ..)
      refine ends_bind (with_fs_ends (ends_returns (filesys_open_named readyCreated named))) ?_
      intro result third after
      obtain ⟨opened, isThird, file, isFile, same, readyOpened, at_, handle, files⟩ := after
      rw [isThird, isFile]
      have undeniedOpened : Undenied opened := by
        apply undenied_update undeniedCreated files
        intro other isOther
        rw [← Option.some.inj isOther]
        obtain ⟨inode, target, here, _⟩ := at_.here
        rw [files, Function.update_self] at here
        rw [Option.some.inj here]
      have zeros : (contents opened.disk sector).length = 0 + size := by
        rw [same.disk, grew.zero, List.length_replicate, value]
        omega
      refine ends_bind (ends_mono (@put_loop_ends _ { m with fs := opened } file sector 0 size size
        readyOpened undeniedOpened at_ zeros (Nat.le_refl size)) (fun _ _ put => put)
        (fun _ past => .inr past)) ?_
      intro _ fourth put
      obtain ⟨⟨hasScratch, scratchSize, scratch, written, undeniedPut⟩, place, last, ended⟩ := put
      refine ends_mono (with_fs_ends (ends_returns (file_close_at written.ready ended))) ?_
        (fun _ raised => raised)
      intro _ next after
      obtain ⟨closed, isNext, sameClosed, readyClosed, filesClosed⟩ := after
      rw [isNext]
      obtain ⟨_, _, notRoot⟩ := at_places readyOpened at_
      have root : Confined {sector} (insert sector inodes) fs.disk closed.disk := by
        rw [sameClosed.disk, ← same.disk]
        exact written.confined
      have rootIn := readyCreated.catalog.dirIn
      refine ⟨sector, ⟨readyClosed, ?_, ?_⟩, grew.new, grew.absent, ?_, ?_, ?_, ?_, hasScratch,
        scratchSize, scratch, place⟩
      · exact undenied_update undeniedPut filesClosed fun _ impossible => nomatch impossible
      · exact represents_congr grew.represents fun _ inside =>
          entry_at_congr readyCreated.catalog.sized (root.inode _ rootIn)
            (root.data _ rootIn fun same => notRoot same.symm) inside
      · rw [sameClosed.disk, written.contents, List.take_zero, List.nil_append]
      · refine confined_trans (confined_mono grew.confined (Set.Subset.refl _) Set.Subset.rfl) ?_
        refine ⟨fun other inside => root.inode other (Set.mem_insert_of_mem _ inside), ?_⟩
        intro other inside _
        apply root.data other (Set.mem_insert_of_mem _ inside)
        intro isSector
        rw [isSector] at inside
        exact grew.new inside
      · intro used packed
        rw [sameClosed.freeMap, written.freeMap, same.freeMap]
        exact grew.packed used packed
      · rw [sameClosed.steady.size, written.steady.size, same.steady.size, grew.kept.size]

end Files


end UtSystems.Filesys.Extraction

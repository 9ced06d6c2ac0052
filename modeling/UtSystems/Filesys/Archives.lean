import UtSystems.Filesys.Fsutil
import UtSystems.Filesys.NamedContents

/-!
# What fsutil_append writes

A call for a file that is there writes its header and its data, in whole sectors, behind what
earlier calls have written, and leaves the file system as it is.
-/

namespace UtSystems.Filesys.Archives

open Lib.Bytes Lib.Effects Libc.Ustar Filesys.Volume
open Filesys.InodeData hiding chunkSize
open Filesys.Directory Filesys.Ownership Filesys.Consistency Filesys.NamedInodes Filesys.ByteArrays
open Filesys.NamedContents Filesys.Fsutil

set_option autoImplicit false

def dataSectors (bytes : List Byte) : Nat := (bytes.length + 511) / blockSectorSize

/-- Data in whole sectors, the last one filled up with zeros. -/
def wholeSectors (bytes : List Byte) : List Byte :=
  bytes ++ List.replicate (dataSectors bytes * blockSectorSize - bytes.length) 0

structure ArchiveFile where
  name : Name
  bytes : List Byte

def ArchiveFile.header (file : ArchiveFile) : Field ustarHeaderSize :=
  (fileHeader file.name .regular (BitVec.ofNat 32 file.bytes.length)).bytes

/-- A file in an archive. -/
def ArchiveFile.stream (file : ArchiveFile) : List Byte :=
  file.header.val ++ wholeSectors file.bytes

def ArchiveFile.sectors (file : ArchiveFile) : Nat := 1 + dataSectors file.bytes

section Streams

variable {bytes : List Byte}

theorem whole_sectors_length (bytes : List Byte) :
    (wholeSectors bytes).length = dataSectors bytes * blockSectorSize := by
  have enough : bytes.length ≤ dataSectors bytes * blockSectorSize := by
    unfold dataSectors blockSectorSize
    omega
  rw [wholeSectors, List.length_append, List.length_replicate]
  omega

theorem stream_length (file : ArchiveFile) :
    file.stream.length = file.sectors * blockSectorSize := by
  rw [ArchiveFile.stream, List.length_append, file.header.property, whole_sectors_length,
    ArchiveFile.sectors, Nat.add_mul, Nat.one_mul]
  rfl

theorem data_sectors_drop (some_ : bytes ≠ []) :
    dataSectors bytes = 1 + dataSectors (bytes.drop blockSectorSize) := by
  have positive := List.length_pos_iff.mpr some_
  unfold dataSectors
  rw [List.length_drop]
  unfold blockSectorSize
  omega

theorem padded_length (bytes : List Byte) :
    (padded (bytes.take blockSectorSize)).length = blockSectorSize := by
  have short := List.length_take_le blockSectorSize bytes
  rw [padded, List.length_append, List.length_replicate]
  omega

/-- The first sector of the data, and the others. -/
theorem whole_sectors_split (some_ : bytes ≠ []) :
    wholeSectors bytes =
      padded (bytes.take blockSectorSize) ++ wholeSectors (bytes.drop blockSectorSize) := by
  have sectors := data_sectors_drop some_
  have size : blockSectorSize = 512 := rfl
  unfold wholeSectors padded
  by_cases more : blockSectorSize ≤ bytes.length
  · have full : (bytes.take blockSectorSize).length = blockSectorSize := List.length_take_of_le more
    have rest : dataSectors bytes * blockSectorSize - bytes.length =
        dataSectors (bytes.drop blockSectorSize) * blockSectorSize -
          (bytes.drop blockSectorSize).length := by
      rw [sectors, List.length_drop, Nat.add_mul, Nat.one_mul]
      omega
    rw [full, Nat.sub_self, List.replicate_zero, List.append_nil, ← List.append_assoc,
      List.take_append_drop, rest]
  · have all : bytes.take blockSectorSize = bytes := List.take_of_length_le (by omega)
    have none_ : bytes.drop blockSectorSize = [] := List.drop_of_length_le (by omega)
    rw [none_] at sectors
    have one : dataSectors bytes = 1 := sectors
    rw [all, none_, one, Nat.one_mul]
    exact (List.append_nil _).symm

end Streams

/-- The stream has been written from the position on, and nothing before it. -/
structure Wrote (stream : List Byte) (m next : Machine) : Prop where
  hasScratch : next.hasScratch = m.hasScratch
  size : next.scratchSize = m.scratchSize
  sector : next.sector * blockSectorSize = m.sector * blockSectorSize + stream.length
  stored : slice next.scratch (m.sector * blockSectorSize) stream.length = stream
  before : ∀ x < m.sector * blockSectorSize, next.scratch x = m.scratch x

section Writing

variable {m middle next : Machine} {stream : List Byte}

theorem wrote_nothing (m : Machine) (fs : FileSys) : Wrote [] m { m with fs := fs } :=
  ⟨rfl, rfl, (Nat.add_zero _).symm, slice_zero, fun _ _ => rfl⟩

theorem wrote_trans {first second : List Byte} (early : Wrote first m middle)
    (late : Wrote second middle next) : Wrote (first ++ second) m next where
  hasScratch := late.hasScratch.trans early.hasScratch
  size := late.size.trans early.size
  sector := by
    rw [late.sector, early.sector, List.length_append, Nat.add_assoc]
  stored := by
    have same : slice next.scratch (m.sector * blockSectorSize) first.length =
        slice middle.scratch (m.sector * blockSectorSize) first.length := by
      apply slice_congr
      intro index inside
      apply late.before
      rw [early.sector]
      omega
    have behind := late.stored
    rw [early.sector] at behind
    rw [List.length_append, slice_append, same, early.stored, behind]
  before := by
    intro x far
    rw [late.before x (by rw [early.sector]; omega)]
    exact early.before x far

theorem wrote_sectors {sectors : Nat} (wrote : Wrote stream m next)
    (length : stream.length = sectors * blockSectorSize) : next.sector = m.sector + sectors := by
  have place := wrote.sector
  rw [length, ← Nat.add_mul] at place
  exact Nat.eq_of_mul_eq_mul_right (by decide) place

theorem on_fs_returns {Value : Type} {program : FsM Value} {post : Value → FileSys → Prop}
    (ran : Returns program m.fs post) :
    Returns (onFs program) m fun value next => ∃ fs, next = { m with fs := fs } ∧ post value fs := by
  obtain ⟨value, fs, result, holds⟩ := ran
  refine ⟨value, { m with fs := fs }, ?_, fs, rfl, holds⟩
  unfold onFs
  rw [result]

theorem scratch_write_returns {sector : Nat} (inside : sector < m.scratchSize)
    (memory : List Byte) (offset : Nat) :
    Returns (scratchWrite sector memory offset) m fun _ next => next = { m with
      scratch := overwrite m.scratch (sector * blockSectorSize)
        ((memory.drop offset).take blockSectorSize)
      sources := m.sources ++ [offset] } := by
  apply returns_get
  rw [if_neg (Nat.not_le.mpr inside)]
  exact ⟨_, _, rfl, rfl⟩

theorem scratch_append_writes {buffer : List Byte} (inside : m.sector < m.scratchSize)
    (size : buffer.length = blockSectorSize) :
    Returns (scratchAppend buffer) m fun _ next => Wrote buffer m next ∧ next.fs = m.fs := by
  apply returns_get
  apply returns_modify
  refine returns_mono (@scratch_write_returns { m with sector := m.sector + 1 } m.sector inside
    buffer 0) ?_
  intro _ next isNext
  rw [isNext]
  have whole : (buffer.drop 0).take blockSectorSize = buffer := List.take_of_length_le (by
    rw [List.drop_zero, size])
  refine ⟨⟨rfl, rfl, ?_, ?_, ?_⟩, rfl⟩
  · rw [size]
    exact Nat.succ_mul _ _
  · dsimp only
    rw [whole]
    exact slice_overwrite
  · intro x far
    dsimp only
    exact overwrite_outside (.inl far)

end Writing

section Copying

variable {inodes : Set Nat} {m : Machine} {src : Ptr} {sector pos : Nat}

theorem chunk_size_length (rest : List Byte) :
    chunkSize rest.length = ((rest.take blockSectorSize).length : Int) := by
  rw [List.length_take]
  unfold chunkSize
  split
  · next more => rw [Nat.min_eq_left (by omega)]
  · next less => rw [Nat.min_eq_right (by omega)]

/-- The stream has been written, and the file system has only been read. -/
structure Copied (inodes : Set Nat) (stream : List Byte) (m next : Machine) : Prop where
  wrote : Wrote stream m next
  same : Same m.fs next.fs
  ready : Ready inodes next.fs

theorem same_refl (fs : FileSys) : Same fs fs :=
  same_opened (opened_requested (requested_refl fs))

theorem copied_trans {first second : List Byte} {middle next : Machine}
    (early : Copied inodes first m middle) (late : Copied inodes second middle next) :
    Copied inodes (first ++ second) m next :=
  ⟨wrote_trans early.wrote late.wrote, same_trans early.same late.same, late.ready⟩

theorem copied_fs {fs : FileSys} (same : Same m.fs fs) (ready : Ready inodes fs) :
    Copied inodes [] m { m with fs := fs } := ⟨wrote_nothing m fs, same, ready⟩

/-- The copy loop, with the rest of the file still to be read. -/
theorem copy_out_copies {rounds : Nat} {rest : List Byte} (ready : Ready inodes m.fs)
    (at_ : At m.fs src sector pos) (isRest : (contents m.fs.disk sector).drop pos = rest)
    (enough : rest.length ≤ rounds) (room : m.sector + dataSectors rest ≤ m.scratchSize) :
    Returns (copyOut src rounds rest.length) m fun _ next =>
      Copied inodes (wholeSectors rest) m next ∧ ∃ last, At next.fs src sector last := by
  have stays : rest = [] → Copied inodes (wholeSectors rest) m m := by
    intro none_
    rw [none_]
    exact copied_fs (same_refl m.fs) ready
  induction rounds generalizing m pos rest with
  | zero =>
      have none_ : rest = [] := List.length_eq_zero_iff.mp (Nat.le_zero.mp enough)
      exact returns_pure ⟨stays none_, pos, at_⟩
  | succ rounds induction =>
      unfold copyOut
      by_cases none_ : rest = []
      · rw [if_pos (by rw [none_]; decide)]
        exact returns_pure ⟨stays none_, pos, at_⟩
      · have positive := List.length_pos_iff.mpr none_
        have sectors := data_sectors_drop none_
        rw [if_neg (by omega)]
        apply returns_get
        rw [if_neg (by omega)]
        refine returns_bind (on_fs_returns (file_read_at ready at_ (chunkSize rest.length))) ?_
        intro chunk middle after
        obtain ⟨fs, isMiddle, isChunk, same, readyAfter, atAfter, _⟩ := after
        have taken : chunk = rest.take blockSectorSize := by
          rw [isChunk, arrayRead, isRest, chunk_size_length, Int.toNat_natCast, List.length_take]
          exact List.take_eq_take_min.symm
        rw [isMiddle, chunk_size_length, taken, if_neg (not_not.mpr rfl)]
        have inside : m.sector < m.scratchSize := by omega
        refine returns_bind (@scratch_append_writes { m with fs := fs } _ inside
          (padded_length rest)) ?_
        intro _ appended after
        obtain ⟨wrote, sameFs⟩ := after
        change appended.fs = fs at sameFs
        rw [← sameFs] at same readyAfter atAfter
        have begun := wrote_trans (wrote_nothing m fs) wrote
        have early : Copied inodes (padded (rest.take blockSectorSize)) m appended :=
          ⟨begun, same, readyAfter⟩
        have one : (padded (rest.take blockSectorSize)).length = 1 * blockSectorSize := by
          rw [padded_length, Nat.one_mul]
        have place := wrote_sectors early.wrote one
        have rested : (contents appended.fs.disk sector).drop (pos + chunk.length) =
            rest.drop blockSectorSize := by
          rw [same.disk, ← List.drop_drop, isRest, taken, List.length_take]
          by_cases more : blockSectorSize ≤ rest.length
          · rw [Nat.min_eq_left more]
          · rw [Nat.min_eq_right (by omega), List.drop_length, List.drop_of_length_le (by omega)]
        have left : (rest.length : Int) - (rest.take blockSectorSize).length =
            ((rest.drop blockSectorSize).length : Int) := by
          rw [List.length_take, List.length_drop]
          omega
        have shorter : (rest.drop blockSectorSize).length ≤ rounds := by
          rw [List.length_drop]
          unfold blockSectorSize
          omega
        have fits : appended.sector + dataSectors (rest.drop blockSectorSize) ≤
            appended.scratchSize := by
          rw [early.wrote.size, place]
          omega
        rw [left]
        refine returns_mono (induction readyAfter atAfter rested shorter fits ?_) ?_
        · intro empty
          rw [empty]
          exact copied_fs (same_refl appended.fs) readyAfter
        · intro _ next after
          obtain ⟨late, ended⟩ := after
          rw [whole_sectors_split none_]
          exact ⟨copied_trans early late, ended⟩

end Copying

/-- The sector behind the position, after a call with this byte behind its buffer. -/
def markerBlock (behind : Byte) : List Byte := List.replicate (blockSectorSize - 1) 0 ++ [behind]

/-- A file has been written, and the marker behind it. -/
structure Archived (inodes : Set Nat) (behind : Byte) (stream : List Byte) (m next : Machine) :
    Prop where
  copied : Copied inodes stream m next
  marker : slice next.scratch (next.sector * blockSectorSize) blockSectorSize = markerBlock behind

/-- A file by its name. -/
def HasFile (fs : FileSys) (file : ArchiveFile) : Prop :=
  ∃ sector, Named fs file.name sector ∧ contents fs.disk sector = file.bytes

section Appending

variable {inodes : Set Nat} {m : Machine} {file : ArchiveFile} {src : Ptr} {sector : Nat}

theorem marker_block_length (behind : Byte) : (markerBlock behind).length = blockSectorSize := by
  rw [markerBlock, List.length_append, List.length_replicate, List.length_singleton]
  decide

theorem write_marker_archives {stream : List Byte} {next : Machine} (behind : Byte)
    (copied : Copied inodes stream m next) (inside : next.sector < next.scratchSize) :
    Returns (writeMarker behind) next fun _ last =>
      Archived inodes behind stream m last ∧ last.fs = next.fs := by
  apply returns_get
  refine returns_bind (scratch_write_returns inside (cleared behind) 0) ?_
  intro _ middle isMiddle
  have still : next.sector < middle.scratchSize := by
    rw [isMiddle]
    exact inside
  refine returns_mono (scratch_write_returns still (cleared behind) 1) ?_
  intro _ last isLast
  rw [isLast, isMiddle]
  have block : ((cleared behind).drop 1).take blockSectorSize = markerBlock behind :=
    cleared_drop behind
  have wrote := copied.wrote
  have untouched : ∀ x < next.sector * blockSectorSize, overwrite (overwrite next.scratch
      (next.sector * blockSectorSize) (((cleared behind).drop 0).take blockSectorSize))
      (next.sector * blockSectorSize) (((cleared behind).drop 1).take blockSectorSize) x =
      next.scratch x := by
    intro x far
    rw [overwrite_outside (.inl far), overwrite_outside (.inl far)]
  refine ⟨⟨⟨⟨wrote.hasScratch, wrote.size, wrote.sector, ?_, ?_⟩, copied.same, copied.ready⟩, ?_⟩, rfl⟩
  · rw [slice_congr, wrote.stored]
    intro index within
    apply untouched
    rw [wrote.sector]
    omega
  · intro x far
    rw [← wrote.before x far]
    apply untouched
    rw [wrote.sector]
    omega
  · dsimp only
    rw [block, ← marker_block_length behind]
    exact slice_overwrite

theorem archived_fs {behind : Byte} {stream : List Byte} {next : Machine}
    (archived : Archived inodes behind stream m next) {fs : FileSys} (same : Same next.fs fs)
    (ready : Ready inodes fs) : Archived inodes behind stream m { next with fs := fs } := by
  obtain ⟨⟨wrote, early, _⟩, marker⟩ := archived
  exact ⟨⟨⟨wrote.hasScratch, wrote.size, wrote.sector, wrote.stored, wrote.before⟩,
    same_trans early same, ready⟩, marker⟩

theorem append_from_archives (behind : Byte) (ready : Ready inodes m.fs)
    (at_ : At m.fs src sector 0) (data : contents m.fs.disk sector = file.bytes)
    (plain : Plain file.name) (hasScratch : m.hasScratch = true)
    (room : m.sector + file.sectors < m.scratchSize) :
    Returns (appendFrom behind file.name src) m fun _ next =>
      Archived inodes behind file.stream m next := by
  unfold ArchiveFile.sectors at room
  unfold appendFrom
  refine returns_bind (on_fs_returns (file_length_at ready at_)) ?_
  intro size first after
  obtain ⟨fs, isFirst, sameFs, isSize⟩ := after
  have unchanged : first = m := by
    rw [isFirst, sameFs]
  rw [unchanged, isSize, data]
  apply returns_get
  rw [if_neg (by rw [hasScratch]; decide)]
  have made : ustarMakeHeader file.name .regular (BitVec.ofInt 32 file.bytes.length) =
      some file.header := by
    rw [make_header (by rw [plain.kept]; exact plain.short), plain.kept, BitVec.ofInt_natCast]
    rfl
  rw [made]
  have inside : m.sector < m.scratchSize := by omega
  refine returns_bind (scratch_append_writes inside file.header.property) ?_
  intro _ headed after
  obtain ⟨wrote, same⟩ := after
  have header : Copied inodes file.header.val m headed := by
    refine ⟨wrote, ?_, ?_⟩
    · rw [same]
      exact same_refl m.fs
    · rw [same]
      exact ready
  have one : file.header.val.length = 1 * blockSectorSize := file.header.property
  have place := wrote_sectors wrote one
  rw [← same] at at_ data
  have fits : headed.sector + dataSectors file.bytes ≤ headed.scratchSize := by
    rw [wrote.size, place]
    omega
  refine returns_bind (copy_out_copies header.ready at_ (by rw [data]; rfl) (Nat.le_refl _) fits) ?_
  intro _ copied after
  obtain ⟨late, last, ended⟩ := after
  have all := copied_trans header late
  have next : copied.sector = m.sector + file.sectors := wrote_sectors all.wrote (stream_length file)
  have behindIt : copied.sector < copied.scratchSize := by
    rw [all.wrote.size, next]
    unfold ArchiveFile.sectors
    omega
  refine returns_bind (write_marker_archives behind all behindIt) ?_
  intro _ marked after
  obtain ⟨archived, kept⟩ := after
  rw [← kept] at ended
  refine returns_mono (on_fs_returns (file_close_at archived.copied.ready ended)) ?_
  intro _ closed after
  obtain ⟨fs, isClosed, same, readyAfter, _⟩ := after
  rw [isClosed]
  exact archived_fs archived same readyAfter

theorem ready_requested {fs next : FileSys} (ready : Ready inodes fs)
    (requested : Requested fs next) : Same fs next ∧ Ready inodes next := by
  have kept := kept_requested requested
  have catalog := catalog_requested ready.catalog ready.sound.toTable requested
  exact ⟨same_opened (opened_requested requested), (plenty_calm kept.toCalm).mpr ready.plenty,
    sound_requested ready.sound requested, catalog⟩

theorem has_file_same {fs next : FileSys} (same : Same fs next) (has : HasFile fs file) :
    HasFile next file := by
  obtain ⟨sector, named, data⟩ := has
  refine ⟨sector, ?_, by rw [same.disk]; exact data⟩
  unfold Named Restart.Lists at *
  rw [same.disk]
  exact named

theorem fsutil_append_archives (behind : Byte) (ready : Ready inodes m.fs)
    (has : HasFile m.fs file) (plain : Plain file.name) (hasScratch : m.hasScratch = true)
    (room : m.sector + file.sectors < m.scratchSize) :
    Returns (fsutilAppend behind file.name) m fun _ next =>
      Archived inodes behind file.stream m next := by
  unfold fsutilAppend
  refine returns_bind (on_fs_returns (malloc_returns m.fs)) ?_
  intro buffer first after
  obtain ⟨fs, isFirst, isFs, isBuffer⟩ := after
  have requested : Requested m.fs fs := ⟨m.fs.requests + 1, Nat.le_succ _, isFs⟩
  obtain ⟨same, readyFirst⟩ := ready_requested ready requested
  rw [isFirst, isBuffer, ready.plenty]
  obtain ⟨sector, named, data⟩ := has_file_same same has
  refine returns_bind (on_fs_returns (filesys_open_named readyFirst named)) ?_
  intro found second after
  obtain ⟨opened, isSecond, src, isSrc, sameSecond, readySecond, at_, _⟩ := after
  rw [isSecond, isSrc]
  have dataSecond : contents opened.disk sector = file.bytes := by
    rw [sameSecond.disk]
    exact data
  refine returns_mono (@append_from_archives inodes { m with fs := opened } file src sector behind
    readySecond at_ dataSecond plain hasScratch room) ?_
  intro _ next archived
  obtain ⟨⟨wrote, sameLast, readyLast⟩, marker⟩ := archived
  have whole := same_trans (same_trans same sameSecond) sameLast
  exact ⟨⟨⟨wrote.hasScratch, wrote.size, wrote.sector, wrote.stored, wrote.before⟩, whole, readyLast⟩,
    marker⟩

/-- One call for each file, with the byte behind its buffer. -/
def appendCalls (files : List (Byte × ArchiveFile)) : List (Byte × Name) :=
  files.map fun call => (call.1, call.2.name)

def archiveStream (files : List ArchiveFile) : List Byte := files.flatMap ArchiveFile.stream

def archiveSectors (files : List ArchiveFile) : Nat := (files.map ArchiveFile.sectors).sum

theorem archive_stream_length (files : List ArchiveFile) :
    (archiveStream files).length = archiveSectors files * blockSectorSize := by
  unfold archiveStream archiveSectors
  induction files with
  | nil => rfl
  | cons file rest ih =>
      rw [List.flatMap_cons, List.length_append, ih, stream_length, List.map_cons, List.sum_cons,
        Nat.add_mul]

/-- The files of a system, each to be found under its name. -/
structure Archivable (fs : FileSys) (files : List ArchiveFile) : Prop where
  there : ∀ file ∈ files, HasFile fs file
  plain : ∀ file ∈ files, Plain file.name

theorem archivable_same {fs next : FileSys} {files : List ArchiveFile} (same : Same fs next)
    (archivable : Archivable fs files) : Archivable next files :=
  ⟨fun file member => has_file_same same (archivable.there file member), archivable.plain⟩

/-- All calls return; what the last one leaves behind the archive depends on the heap. -/
theorem appends_archive (calls : List (Byte × ArchiveFile)) (ready : Ready inodes m.fs)
    (archivable : Archivable m.fs (calls.map Prod.snd)) (hasScratch : m.hasScratch = true)
    (room : m.sector + archiveSectors (calls.map Prod.snd) < m.scratchSize) :
    Returns (appends (appendCalls calls)) m fun _ next =>
      Copied inodes (archiveStream (calls.map Prod.snd)) m next ∧ (calls = [] → next = m) ∧
        ∀ behind file, calls.getLast? = some (behind, file) →
          slice next.scratch (next.sector * blockSectorSize) blockSectorSize = markerBlock behind := by
  induction calls generalizing m with
  | nil =>
      apply returns_pure
      refine ⟨copied_fs (same_refl m.fs) ready, fun _ => rfl, ?_⟩
      intro behind file impossible
      cases impossible
  | cons call rest ih =>
      obtain ⟨behind, file⟩ := call
      have sectors : archiveSectors (((behind, file) :: rest).map Prod.snd) =
          file.sectors + archiveSectors (rest.map Prod.snd) := rfl
      rw [sectors] at room
      have here : file ∈ ((behind, file) :: rest).map Prod.snd := List.mem_cons_self
      refine returns_bind (fsutil_append_archives behind ready (archivable.there file here)
        (archivable.plain file here) hasScratch
        (show m.sector + file.sectors < m.scratchSize by omega)) ?_
      intro _ middle archived
      have wrote := archived.copied.wrote
      have place := wrote_sectors wrote (stream_length file)
      have others : Archivable middle.fs (rest.map Prod.snd) := by
        apply archivable_same archived.copied.same
        exact ⟨fun other member => archivable.there other (List.mem_cons_of_mem _ member),
          fun other member => archivable.plain other (List.mem_cons_of_mem _ member)⟩
      have fits : middle.sector + archiveSectors (rest.map Prod.snd) < middle.scratchSize := by
        rw [wrote.size, place]
        omega
      refine returns_mono (ih archived.copied.ready others (wrote.hasScratch.trans hasScratch) fits) ?_
      intro _ next after
      obtain ⟨copied, none_, marker⟩ := after
      refine ⟨copied_trans archived.copied copied, (fun impossible => nomatch impossible), ?_⟩
      intro last lastFile isLast
      cases rest with
      | nil =>
          cases isLast
          rw [none_ rfl]
          exact archived.marker
      | cons other more =>
          rw [List.getLast?_cons_cons] at isLast
          exact marker last lastFile isLast

end Appending

end UtSystems.Filesys.Archives

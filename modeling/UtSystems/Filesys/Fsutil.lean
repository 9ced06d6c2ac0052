import UtSystems.Filesys.Format
import UtSystems.Libc.Ustar

/-!
# fsutil_append

A file goes to the scratch device behind what earlier calls have written: a header, its data, and
the two sectors that are to end the archive. `block_write` copies 512 bytes from wherever it is
told to, so the machine notes where in the buffer each block begins, and a call is given the byte
that the kernel heap holds behind the buffer.
-/

namespace UtSystems.Filesys.Fsutil

open Lib.Bytes Lib.Effects Libc.Ustar Filesys.Volume Filesys.Inode Filesys.Directory Filesys.Format

set_option autoImplicit false

structure Machine where
  fs : FileSys
  -- whether a device has the role `BLOCK_SCRATCH`
  hasScratch : Bool
  scratchSize : Nat
  scratch : Nat → Byte
  -- `static block_sector_t sector` of `fsutil_append`
  sector : Nat
  -- where in `buffer` the blocks began that have been written
  sources : List Nat

abbrev FsutilM := EStateM Panic Machine

def onFs {α : Type} (program : FsM α) : FsutilM α := fun m =>
  match program m.fs with
  | .ok value fs => .ok value { m with fs := fs }
  | .error panic fs => .error panic { m with fs := fs }

/-- `block_write (dst, sector, buffer + offset)`; `memory` begins with the buffer. -/
def scratchWrite (sector : Nat) (memory : List Byte) (offset : Nat) : FsutilM Unit := do
  let m ← get
  if m.scratchSize ≤ sector then throw (.pastEnd sector)
  else set { m with
    scratch := overwrite m.scratch (sector * blockSectorSize)
      ((memory.drop offset).take blockSectorSize)
    sources := m.sources ++ [offset] }

/-- `block_write (dst, sector++, buffer)`. -/
def scratchAppend (buffer : List Byte) : FsutilM Unit := do
  let m ← get
  modify fun m => { m with sector := m.sector + 1 }
  scratchWrite m.sector buffer 0

/-- A chunk as it stands in the buffer after `memset`. -/
def padded (chunk : List Byte) : List Byte :=
  chunk ++ List.replicate (blockSectorSize - chunk.length) 0

def chunkSize (size : Int) : Int := if blockSectorSize < size then blockSectorSize else size

/-- The copy loop, for at most so many rounds; each makes `size` smaller. -/
def copyOut (src : Ptr) : Nat → Int → FsutilM Unit
  | 0, _ => return ()
  | rounds + 1, size =>
      if size ≤ 0 then return ()
      else do
        let m ← get
        if m.scratchSize ≤ m.sector then throw (.message "%s: out of space on scratch device")
        else do
          let chunk ← onFs (fileRead src (chunkSize size))
          if chunk.length ≠ chunkSize size then
            throw (.message "%s: read failed with %d bytes unread")
          else do
            scratchAppend (padded chunk)
            copyOut src rounds (size - chunkSize size)

/-- The buffer after `memset`, with the byte behind it. -/
def cleared (behind : Byte) : List Byte := List.replicate blockSectorSize 0 ++ [behind]

def writeMarker (behind : Byte) : FsutilM Unit := do
  let m ← get
  scratchWrite m.sector (cleared behind) 0
  scratchWrite m.sector (cleared behind) 1

def appendFrom (behind : Byte) (fileName : Name) (src : Ptr) : FsutilM Unit := do
  let size ← onFs (fileLength src)
  if (← get).hasScratch = false then throw (.message "couldn't open scratch device")
  else
    match ustarMakeHeader fileName .regular (BitVec.ofInt 32 size) with
    | none => throw (.message "%s: name too long for ustar format")
    | some header => do
        scratchAppend header.val
        copyOut src size.toNat size
        writeMarker behind
        onFs (fileClose (some src))

def fsutilAppend (behind : Byte) (fileName : Name) : FsutilM Unit := do
  match ← onFs malloc with
  | none => throw (.message "couldn't allocate buffer")
  | some _ =>
      match ← onFs (filesysOpen (some fileName)) with
      | none => throw (.message "%s: open failed")
      | some src => appendFrom behind fileName src

/-- Calls of `fsutil_append`, each with the byte behind its buffer. -/
def appends : List (Byte × Name) → FsutilM Unit
  | [] => return ()
  | (behind, fileName) :: rest => do
      fsutilAppend behind fileName
      appends rest

/-! ## What is written -/

/-- Sectors from `m.sector` on have been written, up to the sector before `next.sector`. -/
structure Advanced (m next : Machine) : Prop where
  size : next.scratchSize = m.scratchSize
  forward : m.sector ≤ next.sector
  behind : ∀ x, next.sector * blockSectorSize ≤ x → next.scratch x = m.scratch x

section Writing

variable {m middle next : Machine}

theorem advanced_trans (first : Advanced m middle) (second : Advanced middle next) :
    Advanced m next where
  size := second.size.trans first.size
  forward := Nat.le_trans first.forward second.forward
  behind := by
    intro x far
    have sooner : middle.sector * blockSectorSize ≤ x :=
      Nat.le_trans (Nat.mul_le_mul_right _ second.forward) far
    exact (second.behind x far).trans (first.behind x sooner)

/-- The file system knows nothing of the scratch device. -/
theorem on_fs_ensures {α : Type} (program : FsM α) (m : Machine) :
    Ensures (onFs program) m fun _ next => ∃ fs, next = { m with fs := fs } := by
  intro value next ran
  unfold onFs at ran
  cases result : program m.fs with
  | ok other fs =>
      rw [result] at ran
      cases ran
      exact ⟨fs, rfl⟩
  | error panic fs =>
      rw [result] at ran
      cases ran

theorem advanced_fs (m : Machine) (fs : FileSys) : Advanced m { m with fs := fs } :=
  ⟨rfl, Nat.le_refl _, fun _ _ => rfl⟩

theorem scratch_write_ensures (sector : Nat) (memory : List Byte) (offset : Nat) (m : Machine) :
    Ensures (scratchWrite sector memory offset) m fun _ next => next = { m with
      scratch := overwrite m.scratch (sector * blockSectorSize)
        ((memory.drop offset).take blockSectorSize)
      sources := m.sources ++ [offset] } := by
  apply ensures_get
  split
  · exact ensures_throw
  · intro _ next ran
    cases ran
    rfl

theorem scratch_append_ensures (buffer : List Byte) (m : Machine) :
    Ensures (scratchAppend buffer) m fun _ next => Advanced m next ∧ m.sector < next.sector := by
  apply ensures_get
  apply ensures_modify
  intro _ next ran
  rw [scratch_write_ensures m.sector buffer 0 _ _ next ran]
  refine ⟨⟨rfl, Nat.le_succ _, ?_⟩, Nat.lt_succ_self _⟩
  intro x far
  apply overwrite_outside
  have short : ((buffer.drop 0).take blockSectorSize).length ≤ blockSectorSize :=
    List.length_take_le _ _
  dsimp only at far
  rw [Nat.add_mul, Nat.one_mul] at far
  omega

theorem copy_out_ensures (src : Ptr) (rounds : Nat) (size : Int) (m : Machine) :
    Ensures (copyOut src rounds size) m fun _ next => Advanced m next := by
  have stays : Advanced m m := ⟨rfl, Nat.le_refl _, fun _ _ => rfl⟩
  induction rounds generalizing size m with
  | zero => exact ensures_pure stays
  | succ rounds induction =>
      unfold copyOut
      split
      · exact ensures_pure stays
      · apply ensures_get
        split
        · exact ensures_throw
        · refine ensures_bind (on_fs_ensures _ m) ?_
          rintro chunk _ ⟨fs, rfl⟩
          split
          · exact ensures_throw
          · refine ensures_bind (scratch_append_ensures _ _) ?_
            intro _ middle appended
            have later := induction (size - chunkSize size) middle
              ⟨rfl, Nat.le_refl _, fun _ _ => rfl⟩
            intro _ next ran
            exact advanced_trans (advanced_trans (advanced_fs m fs) appended.1)
              (later _ next ran)

/-- What a call that returns has done. -/
structure Appended (behind : Byte) (m next : Machine) : Prop where
  size : next.scratchSize = m.scratchSize
  forward : m.sector ≤ next.sector
  zeros : ∀ i < blockSectorSize - 1, next.scratch (next.sector * blockSectorSize + i) = 0
  last : next.scratch (next.sector * blockSectorSize + (blockSectorSize - 1)) = behind
  beyond : ∀ x, (next.sector + 1) * blockSectorSize ≤ x → next.scratch x = m.scratch x
  outside : 1 ∈ next.sources

theorem cleared_drop (behind : Byte) :
    ((cleared behind).drop 1).take blockSectorSize =
      List.replicate (blockSectorSize - 1) 0 ++ [behind] := by
  have one : (cleared behind).drop 1 = List.replicate (blockSectorSize - 1) 0 ++ [behind] := rfl
  rw [one, List.take_of_length_le]
  rw [List.length_append, List.length_replicate, List.length_singleton]
  decide

/-- Both blocks go to the same sector, and the second one is not in the buffer. -/
theorem write_marker_ensures (behind : Byte) (m : Machine) :
    Ensures (writeMarker behind) m fun _ next => Appended behind m next := by
  apply ensures_get
  refine ensures_bind (scratch_write_ensures m.sector (cleared behind) 0 m) ?_
  rintro _ middle rfl
  intro _ next ran
  rw [scratch_write_ensures m.sector (cleared behind) 1 _ _ next ran]
  have size : (List.replicate (blockSectorSize - 1) (0 : Byte) ++ [behind]).length =
      blockSectorSize := by
    rw [List.length_append, List.length_replicate, List.length_singleton]
    decide
  refine ⟨rfl, Nat.le_refl _, ?_, ?_, ?_, List.mem_append_right _ (List.mem_singleton_self _)⟩
  · intro i below
    dsimp only
    rw [cleared_drop, overwrite_inside (by rw [size]; omega), List.getElem_append_left (by
      rw [List.length_replicate]
      exact below), List.getElem_replicate]
  · dsimp only
    rw [cleared_drop, overwrite_inside (by rw [size]; decide), List.getElem_append_right (by
      rw [List.length_replicate])]
    simp
  · intro x far
    dsimp only at far ⊢
    rw [Nat.add_mul, Nat.one_mul] at far
    rw [cleared_drop, overwrite_outside (by rw [size]; omega)]
    apply overwrite_outside
    have short : (((cleared behind).drop 0).take blockSectorSize).length ≤ blockSectorSize :=
      List.length_take_le _ _
    omega

theorem appended_before {behind : Byte} (before : Advanced m middle)
    (appended : Appended behind middle next) : Appended behind m next where
  size := appended.size.trans before.size
  forward := Nat.le_trans before.forward appended.forward
  zeros := appended.zeros
  last := appended.last
  beyond := by
    intro x far
    rw [appended.beyond x far]
    apply before.behind
    have sooner := Nat.mul_le_mul_right blockSectorSize
      (Nat.le_trans appended.forward (Nat.le_succ _))
    exact Nat.le_trans sooner far
  outside := appended.outside

theorem append_from_ensures (behind : Byte) (fileName : Name) (src : Ptr) (m : Machine) :
    Ensures (appendFrom behind fileName src) m fun _ next => Appended behind m next := by
  unfold appendFrom
  refine ensures_bind (on_fs_ensures _ m) ?_
  rintro size _ ⟨fs, rfl⟩
  apply ensures_get
  split
  · exact ensures_throw
  · split
    · exact ensures_throw
    · refine ensures_bind (scratch_append_ensures _ _) ?_
      intro _ headed headedBy
      refine ensures_bind (copy_out_ensures _ _ _ headed) ?_
      intro _ copied copiedBy
      refine ensures_bind (write_marker_ensures behind copied) ?_
      intro _ marked markedBy _ next ran
      obtain ⟨fsLast, isNext⟩ := on_fs_ensures _ marked _ next ran
      rw [isNext]
      have all := appended_before (advanced_trans (advanced_trans (advanced_fs m fs) headedBy.1)
        copiedBy) markedBy
      exact ⟨all.size, all.forward, all.zeros, all.last, all.beyond, all.outside⟩

theorem fsutil_append_ensures (behind : Byte) (fileName : Name) (m : Machine) :
    Ensures (fsutilAppend behind fileName) m fun _ next => Appended behind m next := by
  unfold fsutilAppend
  refine ensures_bind (on_fs_ensures _ m) ?_
  rintro buffer _ ⟨first, rfl⟩
  split
  · exact ensures_throw
  · refine ensures_bind (on_fs_ensures _ _) ?_
    rintro src _ ⟨second, rfl⟩
    split
    · exact ensures_throw
    · intro _ next ran
      have appended := append_from_ensures behind fileName _ _ _ next ran
      exact appended_before (advanced_fs m second) appended

/-- The two sectors at the position are all zeros. -/
def EndsArchive (m : Machine) : Prop :=
  ∀ i < 2 * blockSectorSize, m.scratch (m.sector * blockSectorSize + i) = 0

/-- Every block that has been written was in the buffer. -/
def WrittenFromBuffer (m : Machine) : Prop :=
  ∀ offset ∈ m.sources, offset + blockSectorSize ≤ blockSectorSize

theorem appended_not_from_buffer {behind : Byte} (appended : Appended behind m next) :
    ¬WrittenFromBuffer next := by
  intro inside
  have one := inside 1 appended.outside
  omega

theorem appended_ends_iff {behind : Byte} (appended : Appended behind m next) :
    EndsArchive next ↔ behind = 0 ∧
      ∀ i < blockSectorSize, m.scratch ((next.sector + 1) * blockSectorSize + i) = 0 := by
  have positive : blockSectorSize = 512 := rfl
  constructor
  · intro ends
    constructor
    · rw [← appended.last]
      exact ends _ (by omega)
    · intro i below
      have zero := ends (blockSectorSize + i) (by omega)
      rw [← Nat.add_assoc, ← Nat.succ_mul] at zero
      rw [← appended.beyond _ (Nat.le_add_right _ _)]
      exact zero
  · rintro ⟨isZero, beyond⟩ i below
    by_cases early : i < blockSectorSize - 1
    · exact appended.zeros i early
    · by_cases last : i = blockSectorSize - 1
      · rw [last, appended.last]
        exact isZero
      · have zero := beyond (i - blockSectorSize) (by omega)
        rw [← appended.beyond _ (Nat.le_add_right _ _)] at zero
        have same : next.sector * blockSectorSize + i =
            (next.sector + 1) * blockSectorSize + (i - blockSectorSize) := by
          rw [Nat.succ_mul]
          omega
        rw [same]
        exact zero

/-- The last call decides; the sector behind its position is as it was before the first one. -/
theorem appends_ensure (calls : List (Byte × Name)) (behind : Byte) (fileName : Name)
    (m : Machine) :
    Ensures (appends (calls ++ [(behind, fileName)])) m fun _ next => Appended behind m next := by
  induction calls generalizing m with
  | nil =>
      refine ensures_bind (fsutil_append_ensures behind fileName m) ?_
      intro _ next appended
      exact ensures_pure appended
  | cons call rest induction =>
      refine ensures_bind (fsutil_append_ensures call.1 call.2 m) ?_
      intro _ middle first _ next ran
      have later := induction middle _ next ran
      exact {
        size := later.size.trans first.size
        forward := Nat.le_trans first.forward later.forward
        zeros := later.zeros
        last := later.last
        beyond := by
          intro x far
          rw [later.beyond x far]
          apply first.beyond
          exact Nat.le_trans (Nat.mul_le_mul_right _ (Nat.succ_le_succ later.forward)) far
        outside := later.outside }

end Writing

/-- Calls that have returned have never written what they should, whatever the scratch device held:
the second block of the last one is not in the buffer. The archive ends with two sectors of zeros
if and only if the byte behind the buffer is 0 and the sector behind the position held zeros. -/
theorem archive_is_not_ended (m next : Machine) (calls : List (Byte × Name)) (behind : Byte)
    (fileName : Name) (ran : appends (calls ++ [(behind, fileName)]) m = .ok () next) :
    ¬(EndsArchive next ∧ WrittenFromBuffer next) ∧
      (EndsArchive next ↔ behind = 0 ∧
        ∀ i < blockSectorSize, m.scratch ((next.sector + 1) * blockSectorSize + i) = 0) := by
  have appended := appends_ensure calls behind fileName m () next ran
  exact ⟨fun both => appended_not_from_buffer appended both.2, appended_ends_iff appended⟩

/-- The kernel at power-up, with a scratch device of four sectors that are not zeros. -/
def dirtyScratch : Machine where
  fs := powerUp 12 (fun _ => 0) fun _ => true
  hasScratch := true
  scratchSize := 4
  scratch := fun _ => 1
  sector := 0
  sources := []

/-- Formats the file system and creates the empty file `a`. -/
def prepare : FsutilM Unit := do
  onFs (filesysInit true)
  let _ ← onFs (filesysCreate [0x61] 0)

theorem archive_is_not_ended_empty_file :
    ∃ m next, appends ([] ++ [(0, [0x61])]) m = .ok () next ∧
      ¬(EndsArchive next ∧ WrittenFromBuffer next) := by
  have runs : (prepare >>= fun _ => appends ([] ++ [(0, [0x61])])).run' dirtyScratch = some () := by
    decide +kernel
  obtain ⟨last, ran⟩ := ok_of_run runs
  obtain ⟨_, m, _, appended⟩ := bind_ok ran
  exact ⟨m, last, appended, (archive_is_not_ended m last [] 0 [0x61] appended).1⟩

/-- Two sectors are free behind the archive of `a`, and the second one is not cleared. -/
theorem dirty_scratch_is_not_cleared :
    ∃ next, (prepare >>= fun _ => appends [(0, [0x61])]) dirtyScratch = .ok () next ∧
      next.sector + 2 ≤ next.scratchSize ∧ ¬EndsArchive next ∧ ¬WrittenFromBuffer next := by
  have runs : ((prepare >>= fun _ => appends [(0, [0x61])]) >>= fun _ => do
      let m ← get
      return (m.sector, m.scratchSize, m.scratch 1024, m.sources)).run' dirtyScratch =
      some (1, 4, 1, [0, 0, 1]) := by decide +kernel
  obtain ⟨last, ran⟩ := ok_of_run runs
  obtain ⟨_, next, appended, ends⟩ := bind_ok ran
  change EStateM.Result.ok (next.sector, next.scratchSize, next.scratch 1024, next.sources) next =
    _ at ends
  injection ends with values
  simp only [Prod.mk.injEq] at values
  obtain ⟨position, size, stale, sources⟩ := values
  refine ⟨next, appended, ?_, ?_, ?_⟩
  · rw [position, size]
    decide
  · intro zeros
    have isZero := zeros 512 (by decide)
    rw [position, show 1 * blockSectorSize + 512 = 1024 from rfl, stale] at isZero
    exact absurd isZero (by decide)
  · intro inside
    have past := inside 1 (by rw [sources]; decide)
    exact absurd past (by decide)

end UtSystems.Filesys.Fsutil

import UtSystems.Filesys.NamedContents

/-!
# The requests for memory of an operation

`Spends` counts the requests of an operation that succeeds, and says that it succeeds exactly
if all of them are granted. A transfer that begins with a sector asks for its bounce buffer
once, unless it moves whole sectors only; an inode that is open is not read again.
-/

namespace UtSystems.Filesys.Requests

open Lib.Bytes Lib.Effects Filesys.Volume Filesys.InodeData Filesys.FreeMap Filesys.Inode
open Filesys.Directory Filesys.Ownership Filesys.Consistency Filesys.Entries

set_option autoImplicit false

/-- The next `count` requests for memory are granted. -/
def Granted (fs : FileSys) (count : Nat) : Prop :=
  ∀ index < count, fs.memory (fs.requests + index) = true

structure Spent (fs next : FileSys) (count : Nat) : Prop where
  memory : next.memory = fs.memory
  requests : next.requests = fs.requests + count

structure Spends (fs next : FileSys) (count : Nat) (success : Prop) : Prop where
  granted : success ↔ Granted fs count
  spent : success → Spent fs next count

variable {fs middle next : FileSys} {first second : Nat} {reached success : Prop}

theorem granted_zero (fs : FileSys) : Granted fs 0 := by
  intro index impossible
  omega

theorem granted_one : Granted fs 1 ↔ fs.memory fs.requests = true := by
  constructor
  · intro granted
    exact granted 0 Nat.one_pos
  · intro granted index inside
    have only : index = 0 := by omega
    rw [only]
    exact granted

theorem granted_add (spent : Spent fs middle first) :
    Granted fs (first + second) ↔ Granted fs first ∧ Granted middle second := by
  constructor
  · intro granted
    refine ⟨fun index inside => granted index (by omega), ?_⟩
    intro index inside
    rw [spent.memory, spent.requests, Nat.add_assoc]
    exact granted (first + index) (by omega)
  · intro both index inside
    by_cases early : index < first
    · exact both.1 index early
    · have late := both.2 (index - first) (by omega)
      rw [spent.memory, spent.requests, Nat.add_assoc] at late
      rw [show first + (index - first) = index by omega] at late
      exact late

theorem granted_fewer (granted : Granted fs (first + second)) : Granted fs first :=
  fun index inside => granted index (by omega)

theorem spent_refl (fs : FileSys) : Spent fs fs 0 := ⟨rfl, rfl⟩

theorem spent_trans (early : Spent fs middle first) (late : Spent middle next second) :
    Spent fs next (first + second) where
  memory := late.memory.trans early.memory
  requests := by rw [late.requests, early.requests, Nat.add_assoc]

theorem spent_free (early : Spent fs middle first) (late : Spent middle next 0) :
    Spent fs next first := spent_trans early late

/-- An operation of two parts, of which the second needs the first to succeed. -/
theorem spends_then (early : Spends fs middle first reached)
    (late : reached → Spends middle next second success) (needs : success → reached) :
    Spends fs next (first + second) success where
  granted := by
    constructor
    · intro succeeds
      have arrives := needs succeeds
      exact (granted_add (early.spent arrives)).mpr
        ⟨early.granted.mp arrives, (late arrives).granted.mp succeeds⟩
    · intro granted
      have arrives := early.granted.mpr (granted_fewer granted)
      exact (late arrives).granted.mpr ((granted_add (early.spent arrives)).mp granted).2
  spent := by
    intro succeeds
    have arrives := needs succeeds
    exact spent_trans (early.spent arrives) ((late arrives).spent succeeds)

theorem spends_refused (refused : ¬Granted fs first) (fails : ¬success) :
    Spends fs next first success where
  granted := ⟨fun succeeds => absurd succeeds fails, fun granted => absurd granted refused⟩
  spent := fun succeeds => absurd succeeds fails

theorem spends_spent (granted : Granted fs first) (succeeds : success)
    (spent : Spent fs next first) : Spends fs next first success where
  granted := ⟨fun _ => granted, fun _ => succeeds⟩
  spent := fun _ => spent

section Memory

theorem malloc_spends (fs : FileSys) :
    Ensures malloc fs fun pointer next => Spends fs next 1 (pointer.isSome = true) := by
  refine ensures_returns (returns_mono (malloc_returns fs) ?_)
  rintro pointer _ ⟨rfl, rfl⟩
  have asked : Spent fs { fs with requests := fs.requests + 1 } 1 := ⟨rfl, rfl⟩
  cases granted : fs.memory fs.requests with
  | false =>
      apply spends_refused
      · rw [granted_one, granted]
        exact Bool.false_ne_true
      · exact Bool.false_ne_true
  | true => exact spends_spent (granted_one.mpr granted) rfl asked

theorem block_read_same (sector : Nat) (fs : FileSys) :
    Ensures (blockRead sector) fs fun _ next => next = fs := by
  unfold blockRead
  apply ensures_get
  split
  · exact ensures_throw
  · exact ensures_pure rfl

theorem block_read_spends (sector : Nat) (fs : FileSys) :
    Ensures (blockRead sector) fs fun _ next => Spent fs next 0 := by
  intro bytes next ran
  rw [block_read_same sector fs bytes next ran]
  exact spent_refl fs

theorem block_write_spends (sector : Nat) (buffer : List Byte) (fs : FileSys) :
    Ensures (blockWrite sector buffer) fs fun _ next => Spent fs next 0 := by
  unfold blockWrite
  apply ensures_get
  split
  · exact ensures_throw
  · rintro _ _ ⟨⟩
    exact ⟨rfl, rfl⟩

theorem inode_at_spends (inode : Ptr) (fs : FileSys) :
    Ensures (inodeAt inode) fs fun found next => next = fs ∧ fs.inodes inode = some found := by
  unfold inodeAt
  apply ensures_get
  cases here : fs.inodes inode with
  | none => exact ensures_throw
  | some found => exact ensures_pure ⟨rfl, rfl⟩

theorem bounce_kept (fs : FileSys) :
    Ensures (takeBounce true) fs fun taken next => taken = true ∧ next = fs :=
  ensures_pure ⟨rfl, rfl⟩

theorem take_bounce_spends (fs : FileSys) :
    Ensures (takeBounce false) fs fun _ next => Spent fs next 1 := by
  refine ensures_bind (ensures_returns (malloc_returns fs)) ?_
  rintro pointer _ ⟨rfl, _⟩
  exact ensures_pure ⟨rfl, rfl⟩

end Memory

section Transfers

variable {data : InodeDisk}

/-- The requests of a transfer of `total` bytes that begins with a sector. -/
def bounceRequests (total : Nat) : Nat := if total % blockSectorSize = 0 then 0 else 1

theorem bounce_requests_sector {total : Nat} (whole : blockSectorSize ≤ total) :
    bounceRequests (total - blockSectorSize) = bounceRequests total := by
  unfold bounceRequests
  rw [Nat.mod_eq_sub_mod whole]

theorem bounce_requests_part {total : Nat} (some_ : 0 < total) (part : total < blockSectorSize) :
    bounceRequests total = 1 := by
  unfold bounceRequests
  rw [Nat.mod_eq_of_lt part, if_neg (by omega)]

/-- All bytes are moved if the bounce buffer is not needed or is there. -/
theorem transferred_all {offset : Nat} (aligned : offset % blockSectorSize = 0) (bounce : Bool)
    (total : Nat) :
    transferred bounce offset total = total ↔ total % blockSectorSize = 0 ∨ bounce = true := by
  have split_ := Nat.div_add_mod' total blockSectorSize
  cases bounce with
  | true => simp [transferred]
  | false =>
      simp only [transferred, Bool.false_eq_true, if_false, aligned, if_true, or_false]
      omega

theorem granted_bounce (fs : FileSys) (total : Nat) :
    Granted fs (bounceRequests total) ↔
      total % blockSectorSize = 0 ∨ fs.memory fs.requests = true := by
  unfold bounceRequests
  by_cases whole : total % blockSectorSize = 0
  · rw [if_pos whole]
    exact ⟨fun _ => .inl whole, fun _ => granted_zero fs⟩
  · rw [if_neg whole, granted_one]
    exact ⟨.inr, fun either => either.resolve_left whole⟩

/-- The bounce buffer is filled from the device or with zeros. -/
theorem either_sector_spends {part : Prop} [Decidable part] {sector : Nat} {zeros : List Byte}
    {rest : List Byte → FsM Nat}
    (runs : ∀ bytes middle, Spent fs middle 0 →
      Ensures (rest bytes) middle fun _ next => Spent middle next 0) :
    Ensures (if part then blockRead sector >>= rest else pure zeros >>= rest) fs fun _ next =>
      Spent fs next 0 := by
  split
  · refine ensures_bind (block_read_spends sector fs) ?_
    intro bytes middle read total last ran
    exact spent_free read (runs bytes middle read total last ran)
  · exact runs zeros fs (spent_refl fs)

/-- The part of a round that has its bounce buffer touches the device only. -/
theorem write_loop_bounced (buffer : Nat → Byte) (rounds : Nat) (fs : FileSys) (size : Int)
    (offset written : Nat) :
    Ensures (inodeWriteLoop data buffer rounds true size offset written) fs fun _ next =>
      Spent fs next 0 := by
  induction rounds generalizing fs size offset written with
  | zero => exact ensures_pure (spent_refl fs)
  | succ rounds induction =>
      unfold inodeWriteLoop
      split
      · exact ensures_pure (spent_refl fs)
      dsimp only
      split
      · exact ensures_pure (spent_refl fs)
      split
      · refine ensures_bind (block_write_spends _ _ fs) ?_
        intro _ middle early total last ran
        exact spent_free early (induction _ _ _ _ total last ran)
      · refine ensures_bind (bounce_kept fs) ?_
        rintro _ _ ⟨rfl, rfl⟩
        rw [if_pos rfl]
        apply either_sector_spends
        intro bytes middle read
        refine ensures_bind (block_write_spends _ _ middle) ?_
        intro _ second wrote total last ran
        exact spent_free wrote (induction second _ _ _ total last ran)

theorem write_loop_spends (buffer : Nat → Byte) (rounds : Nat) (fs : FileSys) (size : Int)
    (offset written : Nat) (aligned : offset % blockSectorSize = 0) (enough : size ≤ rounds) :
    Ensures (inodeWriteLoop data buffer rounds false size offset written) fs fun _ next =>
      Spent fs next (bounceRequests (available data size offset)) := by
  induction rounds generalizing fs size offset written with
  | zero =>
      rw [available_eq_zero (.inl (by omega))]
      exact ensures_pure (spent_refl fs)
  | succ rounds induction =>
      unfold inodeWriteLoop
      by_cases finished : size ≤ 0
      · rw [if_pos finished, available_eq_zero (.inl finished)]
        exact ensures_pure (spent_refl fs)
      rw [if_neg finished]
      dsimp only
      by_cases past : inodeLength data ≤ offset
      · rw [if_pos (chunk_size_past_end past), available_eq_zero (.inr past)]
        exact ensures_pure (spent_refl fs)
      have within : (offset : Int) < inodeLength data := by omega
      have left := available_pos (by omega : 0 < size) within
      obtain ⟨chunk, chunkEq, chunkPos, most, after⟩ := chunk_of_round (by omega : 0 < size) within
      rw [chunkEq, if_neg (by omega), Int.toNat_natCast]
      by_cases whole : chunk = blockSectorSize
      · rw [if_pos ⟨aligned, congrArg Nat.cast whole⟩]
        refine ensures_bind (block_write_spends _ _ fs) ?_
        intro _ middle early total last ran
        have next_ : (offset + chunk) % blockSectorSize = 0 := by
          rw [whole, Nat.add_mod_right]
          exact aligned
        have late := induction middle _ _ _ next_ (by omega) total last ran
        rw [after, whole, bounce_requests_sector (by omega)] at late
        have both := spent_trans early late
        rw [Nat.zero_add] at both
        exact both
      · have part : available data size offset < blockSectorSize := by
          rw [aligned] at most
          omega
        rw [if_neg (fun full => whole (Int.natCast_inj.mp full.2)), bounce_requests_part left part]
        refine ensures_bind (take_bounce_spends fs) ?_
        intro taken middle asked
        cases taken with
        | false =>
            rw [if_neg Bool.false_ne_true]
            exact ensures_pure asked
        | true =>
            rw [if_pos rfl]
            intro total last ran
            refine spent_free asked (either_sector_spends ?_ total last ran)
            intro bytes second read
            refine ensures_bind (block_write_spends _ _ second) ?_
            intro _ third wrote total last ran
            exact spent_free wrote (write_loop_bounced buffer _ _ _ _ _ total last ran)

theorem read_loop_bounced (rounds : Nat) (fs : FileSys) (size : Int) (offset : Nat) :
    Ensures (inodeReadLoop data rounds true size offset) fs fun _ next => Spent fs next 0 := by
  induction rounds generalizing fs size offset with
  | zero => exact ensures_pure (spent_refl fs)
  | succ rounds induction =>
      unfold inodeReadLoop
      split
      · exact ensures_pure (spent_refl fs)
      dsimp only
      split
      · exact ensures_pure (spent_refl fs)
      split
      · refine ensures_bind (block_read_spends _ fs) ?_
        intro _ middle early
        refine ensures_bind (induction middle _ _) ?_
        intro _ last late
        exact ensures_pure (spent_free early late)
      · refine ensures_bind (bounce_kept fs) ?_
        rintro _ _ ⟨rfl, rfl⟩
        rw [if_pos rfl]
        refine ensures_bind (block_read_spends _ _) ?_
        intro _ middle early
        refine ensures_bind (induction middle _ _) ?_
        intro _ last late
        exact ensures_pure (spent_free early late)

/-- Reading less than a sector asks for the bounce buffer once. -/
theorem read_loop_spends (rounds : Nat) (fs : FileSys) (size : Int) (offset : Nat)
    (some_ : 0 < available data size offset) (few : available data size offset < blockSectorSize)
    (enough : size ≤ rounds) :
    Ensures (inodeReadLoop data rounds false size offset) fs fun _ next => Spent fs next 1 := by
  have positive : 0 < size := by
    by_contra negative
    rw [available_eq_zero (.inl (by omega))] at some_
    omega
  have within : (offset : Int) < inodeLength data := by
    by_contra past
    rw [available_eq_zero (.inr (by omega))] at some_
    omega
  cases rounds with
  | zero => omega
  | succ rounds =>
      obtain ⟨chunk, chunkEq, chunkPos, most, _⟩ := chunk_of_round positive within
      unfold inodeReadLoop
      rw [if_neg (by omega)]
      dsimp only
      rw [chunkEq, if_neg (by omega), Int.toNat_natCast, if_neg (by omega)]
      refine ensures_bind (take_bounce_spends fs) ?_
      intro taken middle asked
      cases taken with
      | false =>
          rw [if_neg Bool.false_ne_true]
          exact ensures_pure asked
      | true =>
          rw [if_pos rfl]
          refine ensures_bind (block_read_spends _ _) ?_
          intro _ second early
          refine ensures_bind (read_loop_bounced _ second _ _) ?_
          intro _ last late
          exact ensures_pure (spent_free (spent_free asked early) late)

end Transfers

section Opening

/-- An inode that is open is found in the list. -/
def openRequests (fs : FileSys) (sector : Nat) : Nat := if (findOpen fs sector).isSome then 0 else 1

theorem inode_reopen_spends (inode : Ptr) (fs : FileSys) :
    Ensures (inodeReopen inode) fs fun _ next => Spent fs next 0 := by
  unfold inodeReopen
  refine ensures_bind (inode_at_spends inode fs) ?_
  rintro target _ ⟨rfl, _⟩
  rintro _ _ ⟨⟩
  exact ⟨rfl, rfl⟩

theorem inode_open_spends (sector : Nat) (fs : FileSys) :
    Ensures (inodeOpen sector) fs fun result next =>
      Spends fs next (openRequests fs sector) (result.isSome = true) := by
  unfold inodeOpen openRequests
  apply ensures_get
  cases found : findOpen fs sector with
  | some inode =>
      refine ensures_bind (inode_reopen_spends inode fs) ?_
      intro _ next spent
      exact ensures_pure (spends_spent (granted_zero fs) rfl spent)
  | none =>
      refine ensures_bind (malloc_spends fs) ?_
      intro pointer middle spends
      cases pointer with
      | none => exact ensures_pure spends
      | some inode =>
          apply ensures_modify
          refine ensures_bind (block_read_spends _ _) ?_
          intro bytes second read
          apply ensures_modify
          apply ensures_pure
          have spent := spends.spent rfl
          exact ⟨spends.granted, fun _ => ⟨read.memory.trans spent.memory,
            read.requests.trans spent.requests⟩⟩

theorem dir_open_spends (inode : Option Ptr) (fs : FileSys) :
    Ensures (dirOpen inode) fs fun result next =>
      (inode.isSome = true → Spends fs next 1 (result.isSome = true)) ∧
        (result.isSome = true → inode.isSome = true) := by
  unfold dirOpen
  refine ensures_bind (malloc_spends fs) ?_
  intro pointer middle spends
  have refuses : pointer = none → Ensures (do
      inodeClose inode
      return none : FsM (Option Dir)) middle fun result next =>
      (inode.isSome = true → Spends fs next 1 (result.isSome = true)) ∧
        (result.isSome = true → inode.isSome = true) := by
    intro missing
    refine ensures_bind (fun _ _ _ => trivial : Ensures _ _ fun _ _ => True) ?_
    intro _ last _
    apply ensures_pure
    refine ⟨fun _ => spends_refused ?_ Bool.false_ne_true, fun impossible => ?_⟩
    · intro granted
      have there := spends.granted.mpr granted
      rw [missing] at there
      cases there
    · cases impossible
  cases inode with
  | none =>
      refine ensures_bind (fun _ _ _ => trivial : Ensures _ _ fun _ _ => True) ?_
      intro _ last _
      apply ensures_pure
      exact ⟨(fun impossible => nomatch impossible), id⟩
  | some inode =>
      cases pointer with
      | none => exact refuses rfl
      | some address =>
          apply ensures_pure
          exact ⟨fun _ => spends, fun _ => rfl⟩

/-- The requests of `dir_open_root`. -/
def rootRequests (fs : FileSys) : Nat := openRequests fs rootDirSector + 1

theorem dir_open_root_spends (fs : FileSys) :
    Ensures dirOpenRoot fs fun result next =>
      Spends fs next (rootRequests fs) (result.isSome = true) := by
  unfold dirOpenRoot
  refine ensures_bind (inode_open_spends rootDirSector fs) ?_
  intro inode middle early dir next ran
  obtain ⟨late, needs⟩ := dir_open_spends inode middle dir next ran
  exact spends_then early late needs

end Opening

section Allocating

variable {inodes : Set Nat} {held : Set Ptr} {extra : Ptr → Nat}

/-- The requests of a write of the whole map. -/
def mapRequests (fs : FileSys) : Nat := bounceRequests (byteCnt fs.freeMap.length)

theorem inode_write_spends {inode : Ptr} {target : Volume.Inode} (buffer : Nat → Byte) (size : Int)
    (present : fs.inodes inode = some target) (allowed : target.denyWriteCnt = 0) :
    Ensures (inodeWriteAt inode buffer size 0) fs fun _ next =>
      Spent fs next (bounceRequests (available target.data size 0)) := by
  unfold inodeWriteAt
  refine ensures_bind (inode_at_spends inode fs) ?_
  intro found next same
  obtain ⟨isSame, here⟩ := same
  rw [present] at here
  cases here
  rw [isSame, if_neg (by simpa using allowed)]
  exact write_loop_spends buffer _ fs size 0 0 (Nat.zero_mod _) (by omega)

/-- The whole map is written if the bounce buffer is not needed or is there. -/
theorem map_write_spends (sound : Sound inodes fs held extra) {file : Ptr} {map : Bitmap}
    (named : fs.freeMapFile = some file) (sized : map.length = fs.freeMap.length) :
    Ensures (bitmapWrite map file) { fs with freeMap := map } fun written next =>
      Spends fs next (mapRequests fs) (written = true) := by
  obtain ⟨mapFile, handle, target, isMap, _, present, _, reached, place⟩ := sound.mapFile
  rw [named] at isMap
  cases isMap
  have data : target.data = diskInode fs.disk freeMapSector := by
    rw [← place]
    exact sound.loaded _ _ reached
  have allowed := map_allowed sound reached place
  have room : available target.data (byteCnt map.length) 0 = byteCnt map.length := by
    have fits := sound.mapRoom
    rw [← data, ← sized] at fits
    unfold available
    omega
  have counted := ensures_returns (@file_write_at_returns { fs with freeMap := map } file target
    (bitmapBytes map) (byteCnt map.length) 0 handle present reached
    (table_valid sound.toTable reached))
  have asked : Ensures (fileWriteAt file (bitmapBytes map) (byteCnt map.length) 0)
      { fs with freeMap := map } fun _ next => Spent fs next (mapRequests fs) := by
    unfold fileWriteAt
    refine ensures_bind (ensures_returns (@file_at_returns { fs with freeMap := map } file handle
      present)) ?_
    rintro found _ ⟨rfl, rfl⟩
    intro total last ran
    have spent := @inode_write_spends { fs with freeMap := map } found.inode target
      (bitmapBytes map) (byteCnt map.length) reached allowed total last ran
    rw [room, sized] at spent
    exact ⟨spent.memory, spent.requests⟩
  unfold bitmapWrite
  refine ensures_bind (ensures_and counted asked) ?_
  intro total last after
  obtain ⟨⟨isTotal, _⟩, spent⟩ := after
  apply ensures_pure
  refine ⟨?_, fun _ => spent⟩
  rw [if_neg (by simpa using allowed), room] at isTotal
  unfold mapRequests
  rw [granted_bounce, ← sized, decide_eq_true_eq, isTotal]
  exact transferred_all (Nat.zero_mod _) _ _

/-- `free_map_allocate` succeeds if there is a run of free sectors and the map can be written. -/
theorem allocate_outcome (sound : Sound inodes fs held extra) (cnt : Nat) :
    Ensures (freeMapAllocate cnt) fs fun result next =>
      match result with
      | none => ¬((∃ start, bitmapScan fs.freeMap 0 cnt false = some start) ∧
          Granted fs (mapRequests fs))
      | some start => bitmapScan fs.freeMap 0 cnt false = some start ∧
          Granted fs (mapRequests fs) ∧ Spent fs next (mapRequests fs) := by
  obtain ⟨file, _, _, named, _⟩ := sound.mapFile
  unfold freeMapAllocate
  apply ensures_get
  cases scanned : bitmapScan fs.freeMap 0 cnt false with
  | none =>
      apply ensures_pure
      rintro ⟨⟨start, impossible⟩, _⟩
      cases impossible
  | some start =>
      obtain ⟨fits, _⟩ := bitmap_scan_some scanned
      simp only [named]
      apply ensures_modify
      refine ensures_bind (map_write_spends sound named (bitmap_set_multiple_length fits)) ?_
      intro written middle spends
      cases written with
      | true =>
          apply ensures_pure
          exact ⟨rfl, spends.granted.mp rfl, spends.spent rfl⟩
      | false =>
          apply ensures_modify
          apply ensures_pure
          intro both
          exact Bool.false_ne_true (spends.granted.mpr both.2)

/-- There is a run of free sectors, and memory for `inode_create`. -/
def Makes (fs : FileSys) (sectors : Nat) : Prop :=
  (∃ start, bitmapScan fs.freeMap 0 sectors false = some start) ∧ Granted fs (1 + mapRequests fs)

theorem inode_create_makes (sound : Sound inodes fs held extra) {length : Word}
    (nonneg : 0 ≤ length.toInt) (sector : Nat) :
    Ensures (inodeCreate sector length) fs fun result _ =>
      result = true ↔ Makes fs (bytesToSectors length.toInt) := by
  unfold inodeCreate
  rw [if_neg (by omega)]
  refine ensures_bind (ensures_and (malloc_spends fs) (ensures_returns (malloc_returns fs))) ?_
  rintro pointer _ ⟨spends, rfl, _⟩
  cases pointer with
  | none =>
      apply ensures_pure
      refine ⟨(fun impossible => nomatch impossible), fun makes => ?_⟩
      exact absurd (spends.granted.mpr (granted_fewer makes.2)) Bool.false_ne_true
  | some inode =>
      have asked := spends.spent rfl
      have granted := spends.granted.mp rfl
      have begun := sound_requested sound
        (⟨fs.requests + 1, Nat.le_succ _, rfl⟩ : Requested fs { fs with requests := fs.requests + 1 })
      refine ensures_bind (allocate_outcome begun _) ?_
      intro result middle outcome
      cases result with
      | none =>
          apply ensures_pure
          refine ⟨(fun impossible => nomatch impossible), fun makes => ?_⟩
          exact absurd ⟨makes.1, ((granted_add asked).mp makes.2).2⟩ outcome
      | some start =>
          obtain ⟨scanned, written, _⟩ := outcome
          refine ensures_bind (fun _ _ _ => trivial : Ensures _ _ fun _ _ => True) ?_
          intro _ _ _
          refine ensures_bind (fun _ _ _ => trivial : Ensures _ _ fun _ _ => True) ?_
          intro _ _ _
          apply ensures_pure
          exact ⟨fun _ => ⟨⟨start, scanned⟩, (granted_add asked).mpr ⟨granted, written⟩⟩,
            fun _ => rfl⟩

end Allocating

section Lookups

variable {place : Place} {inode : Ptr} {target : Volume.Inode} {name : Name} {index : Nat}

/-- Reading an entry of the directory takes the bounce buffer. -/
theorem entry_read_outcome (dir : DirInode place fs inode target) (index : Nat) :
    Ensures (inodeReadAt inode entrySize (entrySize * index)) fs fun bytes next =>
      Requested fs next ∧
        ((bytes.length = entrySize ∧ index < place.entries ∧
          decodeEntry bytes = entryAt place fs.disk index ∧ Granted fs 1 ∧ Spent fs next 1) ∨
        (bytes.length ≠ entrySize ∧ ¬(index < place.entries ∧ Granted fs 1))) := by
  have room := available_entry dir index
  have asked : Ensures (inodeReadAt inode entrySize (entrySize * index)) fs fun _ next =>
      index < place.entries → Spent fs next 1 := by
    intro bytes next ran inside
    unfold inodeReadAt at ran
    obtain ⟨found, middle, here, ran⟩ := bind_ok ran
    obtain ⟨rfl, present⟩ := inode_at_spends inode fs found middle here
    rw [dir.present] at present
    cases present
    rw [if_pos inside] at room
    exact read_loop_spends _ _ entrySize (entrySize * index) (by rw [room]; decide)
      (by rw [room]; decide) (by omega) bytes next ran
  have delivers := ensures_returns
    (inode_read_at_returns entrySize (entrySize * index) dir.present dir.valid)
  have reads := ensures_returns (entry_read_returns dir index)
  intro bytes next ran
  obtain ⟨requested, outcome⟩ := reads bytes next ran
  refine ⟨requested, ?_⟩
  by_cases inside : index < place.entries
  · have spent := asked bytes next ran inside
    obtain ⟨_, delivered⟩ := delivers bytes next ran
    rw [room, if_pos inside, transferred_entry _ (Nat.le_refl _)] at delivered
    have width : bytes.length = if fs.memory fs.requests then entrySize else 0 := by
      rw [delivered, slice_length]
    cases outcome with
    | inl whole =>
        refine .inl ⟨whole.1, inside, whole.2.2, granted_one.mpr ?_, spent⟩
        by_contra refused
        rw [if_neg refused, whole.1] at width
        cases width
    | inr short =>
        refine .inr ⟨by rw [short.1]; decide, fun both => ?_⟩
        rw [granted_one.mp both.2, if_pos rfl, short.1] at width
        cases width
  · cases outcome with
    | inl whole => exact absurd whole.2.1 inside
    | inr short => exact .inr ⟨by rw [short.1]; decide, fun both => inside both.1⟩

/-- The entry at which a search for `name` from entry `index` on stops. -/
structure FirstMatch (place : Place) (disk : Disk) (name : Name) (index j : Nat) : Prop where
  after : index ≤ j
  inside : j < place.entries
  matches_ : Matches place disk name j
  before : ∀ k, index ≤ k → k < j → ¬Matches place disk name k

theorem first_match_unique {disk : Disk} {j k : Nat} (one : FirstMatch place disk name index j)
    (other : FirstMatch place disk name index k) : j = k := by
  by_contra different
  by_cases less : j < k
  · exact other.before j one.after less one.matches_
  · exact one.before k other.after (by omega) other.matches_

theorem first_match_later {disk : Disk} {j : Nat} (other : ¬Matches place disk name index) :
    FirstMatch place disk name index j ↔ FirstMatch place disk name (index + 1) j := by
  constructor
  · rintro ⟨after, inside, matches_, before⟩
    have different : j ≠ index := by
      rintro rfl
      exact other matches_
    exact ⟨by omega, inside, matches_, fun k lower upper => before k (by omega) upper⟩
  · rintro ⟨after, inside, matches_, before⟩
    refine ⟨by omega, inside, matches_, fun k lower upper => ?_⟩
    by_cases here : k = index
    · rw [here]
      exact other
    · exact before k (by omega) upper

/-- `lookup` asks for a bounce buffer at each entry up to the one it stops at. -/
theorem lookup_loop_outcome (rounds : Nat) (fs : FileSys) (index : Nat)
    (dir : DirInode place fs inode target) (enough : place.entries < index + rounds) :
    Ensures (lookupLoop inode name rounds (entrySize * index)) fs fun result next =>
      match result with
      | none => ¬∃ j, FirstMatch place fs.disk name index j ∧ Granted fs (j + 1 - index)
      | some (entry, _) => ∃ j, FirstMatch place fs.disk name index j ∧
          Granted fs (j + 1 - index) ∧ Spent fs next (j + 1 - index) ∧
          entry = entryAt place fs.disk j := by
  induction rounds generalizing fs index with
  | zero =>
      apply ensures_pure
      rintro ⟨j, first, _⟩
      have after := first.after
      have inside := first.inside
      omega
  | succ rounds induction =>
      unfold lookupLoop
      refine ensures_bind (entry_read_outcome dir index) ?_
      rintro bytes middle ⟨requested, whole | short⟩
      · obtain ⟨full, inside, read, granted, spent⟩ := whole
        rw [if_pos full]
        dsimp only
        rw [read]
        by_cases found : (entryAt place fs.disk index).inUse ≠ 0 ∧
            name = (entryAt place fs.disk index).string
        · rw [if_pos found]
          apply ensures_pure
          rw [← Nat.add_sub_cancel_left index 1] at granted spent
          exact ⟨index, ⟨Nat.le_refl _, inside, found, fun k lower upper => by omega⟩, granted,
            spent, rfl⟩
        · rw [if_neg found]
          have later := @first_match_later place name index fs.disk
          have again := induction middle (index + 1) (dir_inode_requested dir requested) (by omega)
          have same : middle.disk = fs.disk := by
            obtain ⟨_, _, rfl⟩ := requested
            rfl
          rw [same] at again
          have joined : ∀ j, FirstMatch place fs.disk name (index + 1) j →
              j + 1 - index = 1 + (j + 1 - (index + 1)) := by
            intro j first
            have after := first.after
            omega
          intro result last ran
          have outcome := again result last ran
          cases result with
          | none =>
              rintro ⟨j, first, both⟩
              have next_ := (later found).mp first
              rw [joined j next_] at both
              exact outcome ⟨j, next_, ((granted_add spent).mp both).2⟩
          | some result =>
              obtain ⟨j, first, more, spends, isEntry⟩ := outcome
              refine ⟨j, (later found).mpr first, ?_, ?_, isEntry⟩
              · rw [joined j first]
                exact (granted_add spent).mpr ⟨granted, more⟩
              · rw [joined j first]
                exact spent_trans spent spends
      · obtain ⟨short, refused⟩ := short
        rw [if_neg short]
        apply ensures_pure
        rintro ⟨j, first, granted⟩
        have after := first.after
        have inside := first.inside
        refine refused ⟨by omega, ?_⟩
        rw [show j + 1 - index = 1 + (j - index) by omega] at granted
        exact granted_fewer granted

theorem lookup_outcome {dir : Dir} (its : DirInode place fs dir.inode target) (name : Name) :
    Ensures (lookup dir (some name)) fs fun result next =>
      match result with
      | none => ¬∃ j, FirstMatch place fs.disk name 0 j ∧ Granted fs (j + 1)
      | some (entry, _) => ∃ j, FirstMatch place fs.disk name 0 j ∧ Granted fs (j + 1) ∧
          Spent fs next (j + 1) ∧ entry = entryAt place fs.disk j :=
  lookup_loop_outcome (2 ^ 27) fs 0 its (by have := entries_bounded its; omega)

end Lookups

end UtSystems.Filesys.Requests

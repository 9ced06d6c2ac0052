import UtSystems.Filesys.Consistency

/-!
# Opening and closing inodes and files keeps the invariant

Opening takes a sector that holds an inode and adds an opener; closing takes an opener
away, and with the last one the in-memory inode, together with its sectors if the file was
removed. The free map's own inode always has a holder, so it is never the one that goes.
-/

namespace UtSystems.Filesys.OpenInodes

open Lib.Effects Filesys.Volume Filesys.InodeData Filesys.FreeMap Filesys.Inode Filesys.Ownership
open Filesys.Consistency

set_option autoImplicit false

section Opening

variable {inodes : Set Nat} {fs : FileSys} {held : Set Ptr} {extra : Ptr → Nat} {sector : Nat}

theorem find_open_some {inode : Ptr} (found : findOpen fs sector = some inode) :
    ∃ target, fs.inodes inode = some target ∧ target.sector = sector := by
  have passes := List.find?_some found
  cases here : fs.inodes inode with
  | none => simp [here] at passes
  | some target =>
      simp only [here, Option.any_some, beq_iff_eq] at passes
      exact ⟨target, rfl, passes⟩

theorem find_open_none (table : Table inodes fs held extra)
    (missing : findOpen fs sector = none) {inode : Ptr} {target : Volume.Inode}
    (present : fs.inodes inode = some target) : target.sector ≠ sector := by
  intro same
  have member : inode ∈ fs.openInodes := (table.listed inode).mpr ⟨target, present⟩
  have absent := List.find?_eq_none.mp missing inode member
  simp [present, same] at absent

/-- What `inode_open` stores for a sector that is not open yet. -/
def loadedInode (disk : Disk) (sector : Nat) : Volume.Inode :=
  { sector := sector, openCnt := 1, removed := false, denyWriteCnt := 0,
    data := diskInode disk sector }

/-- The state after a new in-memory inode has been set up. -/
def withInode (fs : FileSys) (sector : Nat) : FileSys :=
  { fs with
    openInodes := fs.requests :: fs.openInodes
    inodes := Function.update fs.inodes fs.requests (some (loadedInode fs.disk sector))
    requests := fs.requests + 1 }

theorem inode_unused (table : Table inodes fs held extra) : fs.inodes fs.requests = none := by
  cases here : fs.inodes fs.requests with
  | none => rfl
  | some found => exact absurd (table.inodeOld _ _ here) (Nat.lt_irrefl _)

theorem with_inode_some {other : Ptr} {found : Volume.Inode}
    (here : (withInode fs sector).inodes other = some found) :
    (other = fs.requests ∧ found = loadedInode fs.disk sector) ∨
      (other ≠ fs.requests ∧ fs.inodes other = some found) := by
  change Function.update fs.inodes fs.requests _ other = some found at here
  by_cases same : other = fs.requests
  · subst same
    rw [Function.update_self] at here
    cases here
    exact .inl ⟨rfl, rfl⟩
  · rw [Function.update_of_ne same] at here
    exact .inr ⟨same, here⟩

theorem with_inode_older (table : Table inodes fs held extra) {other : Ptr} {found : Volume.Inode}
    (here : fs.inodes other = some found) : (withInode fs sector).inodes other = some found := by
  change Function.update fs.inodes fs.requests _ other = some found
  rw [Function.update_of_ne (Nat.ne_of_lt (table.inodeOld other found here)), here]

theorem opened_new_inode (table : Table inodes fs held extra) :
    Opened fs (withInode fs sector) := by
  refine ⟨⟨⟨⟨rfl, rfl, rfl, Nat.le_succ _, ?_⟩, ?_⟩, rfl⟩, rfl, rfl, ?_⟩
  · intro other found here old
    rcases with_inode_some here with ⟨rfl, _⟩ | ⟨_, was⟩
    · exact absurd old (Nat.lt_irrefl _)
    · exact ⟨found, was, rfl⟩
  · rintro _ ⟨other, found, here, gone, rfl⟩
    rcases with_inode_some here with ⟨_, rfl⟩ | ⟨_, was⟩
    · cases gone
    · exact ⟨other, found, was, gone, rfl⟩
  · intro other found here
    exact ⟨found, with_inode_older table here, rfl⟩

theorem table_new_inode (table : Table inodes fs held extra) (stored : sector ∈ inodes)
    (missing : findOpen fs sector = none) :
    Table inodes (withInode fs sector) held (bump extra fs.requests) := by
  have unused := inode_unused table
  have noHolder : holders fs held fs.requests = ∅ := by
    ext file
    simp only [Set.mem_empty_iff_false, iff_false]
    rintro ⟨inside, handle, here, refers, _⟩
    obtain ⟨found, foundHere⟩ := table.reached file handle inside here
    rw [refers, unused] at foundHere
    cases foundHere
  have noExtra : extra fs.requests = 0 := by
    by_contra some_
    obtain ⟨found, here⟩ := table.spare fs.requests (by omega)
    rw [unused] at here
    cases here
  constructor
  case stored => exact table.stored
  case nodup =>
    apply List.nodup_cons.mpr
    refine ⟨?_, table.nodup⟩
    intro member
    obtain ⟨found, here⟩ := (table.listed _).mp member
    rw [unused] at here
    cases here
  case listed =>
    intro other
    constructor
    · intro member
      rcases List.mem_cons.mp member with rfl | older
      · exact ⟨_, Function.update_self ..⟩
      · obtain ⟨found, here⟩ := (table.listed other).mp older
        exact ⟨found, with_inode_older table here⟩
    · rintro ⟨found, here⟩
      rcases with_inode_some here with ⟨rfl, _⟩ | ⟨_, was⟩
      · exact List.mem_cons_self
      · exact List.mem_cons_of_mem _ ((table.listed other).mpr ⟨found, was⟩)
  case inodeOld =>
    intro other found here
    rcases with_inode_some here with ⟨rfl, _⟩ | ⟨_, was⟩
    · exact Nat.lt_succ_self _
    · exact Nat.lt_succ_of_lt (table.inodeOld other found was)
  case fileOld =>
    intro file handle here
    exact Nat.lt_succ_of_lt (table.fileOld file handle here)
  case refersOld =>
    intro file handle here
    exact Nat.lt_succ_of_lt (table.refersOld file handle here)
  case sectorApart =>
    intro first second one two firstHere secondHere same
    rcases with_inode_some firstHere with ⟨rfl, rfl⟩ | ⟨_, wasFirst⟩
    · rcases with_inode_some secondHere with ⟨rfl, _⟩ | ⟨_, wasSecond⟩
      · rfl
      · exact absurd same.symm (find_open_none table missing wasSecond)
    · rcases with_inode_some secondHere with ⟨rfl, rfl⟩ | ⟨_, wasSecond⟩
      · exact absurd same (find_open_none table missing wasFirst)
      · exact table.sectorApart first second one two wasFirst wasSecond same
  case live =>
    intro other found here
    rcases with_inode_some here with ⟨_, rfl⟩ | ⟨_, was⟩
    · exact stored
    · exact table.live other found was
  case loaded =>
    intro other found here
    rcases with_inode_some here with ⟨_, rfl⟩ | ⟨_, was⟩
    · rfl
    · exact table.loaded other found was
  case counted =>
    intro other found here
    rcases with_inode_some here with ⟨rfl, rfl⟩ | ⟨different, was⟩
    · rw [bump_self, noExtra]
      have noDenier : deniers fs held fs.requests = ∅ :=
        Set.subset_empty_iff.mp (by rw [← noHolder]; exact deniers_subset _)
      have alone : Counted fs held (0 + 1) fs.requests (loadedInode fs.disk sector) := by
        refine ⟨?_, Int.one_pos, ?_⟩
        · rw [noHolder, Set.ncard_empty]
          rfl
        · rw [noDenier, Set.ncard_empty]
          rfl
      exact counted_congr alone rfl
    · rw [bump_of_ne different]
      exact counted_congr (table.counted other found was) rfl
  case reached =>
    intro file handle inside here
    obtain ⟨found, was⟩ := table.reached file handle inside here
    exact ⟨found, with_inode_older table was⟩
  case spare =>
    intro other some_
    by_cases same : other = fs.requests
    · subst same
      exact ⟨_, Function.update_self ..⟩
    · rw [bump_of_ne same] at some_
      obtain ⟨found, was⟩ := table.spare other some_
      exact ⟨found, with_inode_older table was⟩

theorem inode_reopen_returns (table : Table inodes fs held extra) {inode : Ptr}
    {target : Volume.Inode} (present : fs.inodes inode = some target) :
    Returns (inodeReopen inode) fs fun _ next =>
      Opened fs next ∧ Table inodes next held (bump extra inode) ∧
        next.inodes = Function.update fs.inodes inode
          (some { target with openCnt := target.openCnt + 1 }) := by
  have counted := table.counted inode target present
  have more : Counted fs held (bump extra inode inode) inode
      { target with openCnt := target.openCnt + 1 } := by
    rw [bump_self]
    refine ⟨?_, ?_, counted.denied⟩
    · rw [counted.opened]
      push_cast
      omega
    · have := counted.positive
      dsimp only
      omega
  have again := table_recount (bump extra inode) table more present rfl rfl (fun _ => bump_of_ne)
  apply returns_bind (inode_at_returns present)
  rintro target _ ⟨rfl, rfl⟩
  apply returns_modify_last
  exact ⟨opened_recount present rfl rfl rfl, again, rfl⟩

/-- `inode_open` of a sector that is not open yet. -/
theorem inode_open_absent (missing : findOpen fs sector = none) (inside : sector < fs.size) :
    Returns (inodeOpen sector) fs fun result next =>
      match result with
      | none => fs.memory fs.requests = false ∧ next = { fs with requests := fs.requests + 1 }
      | some inode => inode = fs.requests ∧ next = withInode fs sector := by
  unfold inodeOpen
  apply returns_get
  rw [missing]
  apply returns_bind (malloc_returns fs)
  rintro pointer _ ⟨rfl, rfl⟩
  cases granted : fs.memory fs.requests with
  | false => exact returns_pure ⟨rfl, rfl⟩
  | true =>
      apply returns_modify
      apply returns_bind (@block_read_returns
        { fs with openInodes := fs.requests :: fs.openInodes, requests := fs.requests + 1 }
        sector inside)
      rintro bytes _ ⟨rfl, read⟩
      have same : decodeInode bytes = diskInode fs.disk sector := by rw [read, diskInode]
      rw [same]
      apply returns_modify
      apply returns_pure
      exact ⟨rfl, rfl⟩

theorem inode_open_returns (table : Table inodes fs held extra) (stored : sector ∈ inodes) :
    Returns (inodeOpen sector) fs fun result next =>
      Opened fs next ∧
        match result with
        | none => Table inodes next held extra ∧ ¬Plenty fs
        | some inode => Table inodes next held (bump extra inode) ∧
            ∃ target, next.inodes inode = some target ∧ target.sector = sector := by
  cases missing : findOpen fs sector with
  | some inode =>
      obtain ⟨target, present, place⟩ := find_open_some missing
      unfold inodeOpen
      apply returns_get
      rw [missing]
      apply returns_bind (inode_reopen_returns table present)
      rintro _ next ⟨opened, again, changed⟩
      apply returns_pure
      refine ⟨opened, again, { target with openCnt := target.openCnt + 1 }, ?_, place⟩
      rw [changed, Function.update_self]
  | none =>
      apply returns_mono (inode_open_absent missing (inode_lt table.stored stored))
      intro result next after
      cases result with
      | none =>
          obtain ⟨refused, rfl⟩ := after
          have requested : Requested fs { fs with requests := fs.requests + 1 } :=
            ⟨fs.requests + 1, Nat.le_succ _, rfl⟩
          refine ⟨opened_requested requested, table_requested table requested, ?_⟩
          intro plenty
          rw [plenty fs.requests] at refused
          cases refused
      | some inode =>
          obtain ⟨rfl, rfl⟩ := after
          exact ⟨opened_new_inode table, table_new_inode table stored missing, _,
            Function.update_self .., rfl⟩

/-- `inode_open` when the free map is in place. -/
theorem inode_open_sound (sound : Sound inodes fs held extra) (stored : sector ∈ inodes) :
    Returns (inodeOpen sector) fs fun result next =>
      Opened fs next ∧
        match result with
        | none => Sound inodes next held extra ∧ ¬Plenty fs
        | some inode => Sound inodes next held (bump extra inode) ∧
            ∃ target, next.inodes inode = some target ∧ target.sector = sector := by
  apply returns_mono (inode_open_returns sound.toTable stored)
  rintro (_ | inode) next ⟨opened, again, rest⟩
  · exact ⟨opened, sound_opened sound opened again, rest⟩
  · exact ⟨opened, sound_opened sound opened again, rest⟩

end Opening

section Closing

variable {inodes fewer : Set Nat} {fs : FileSys} {held : Set Ptr} {extra more : Ptr → Nat}
  {inode : Ptr} {target : Volume.Inode}

/-- The state after an in-memory inode has been freed. -/
def withoutInode (fs : FileSys) (inode : Ptr) : FileSys :=
  { fs with
    openInodes := fs.openInodes.erase inode
    inodes := Function.update fs.inodes inode none }

theorem without_inode_some {other : Ptr} {found : Volume.Inode}
    (here : (withoutInode fs inode).inodes other = some found) :
    other ≠ inode ∧ fs.inodes other = some found := by
  simp only [withoutInode] at here
  by_cases same : other = inode
  · subst same
    rw [Function.update_self] at here
    cases here
  · rw [Function.update_of_ne same] at here
    exact ⟨same, here⟩

theorem without_inode_of_ne {other : Ptr} {found : Volume.Inode} (different : other ≠ inode)
    (here : fs.inodes other = some found) : (withoutInode fs inode).inodes other = some found := by
  simp only [withoutInode, Function.update_of_ne different, here]

theorem kept_without_inode : Kept fs (withoutInode fs inode) := by
  refine ⟨⟨⟨rfl, rfl, rfl, Nat.le_refl _, ?_⟩, ?_⟩, rfl⟩
  · intro other found here _
    exact ⟨found, (without_inode_some here).2, rfl⟩
  · rintro _ ⟨other, found, here, gone, rfl⟩
    exact ⟨other, found, (without_inode_some here).2, gone, rfl⟩

/-- Freeing an inode that nothing refers to. The inodes that stay on the device are those in
`fewer`. -/
theorem table_without_inode {map : Bitmap} (table : Table inodes fs held more)
    (unheld : holders fs held inode = ∅) (unspared : extra inode = 0)
    (others : ∀ other, other ≠ inode → extra other = more other)
    (stored : Stored fs.size fs.disk map fewer)
    (live : ∀ other found, other ≠ inode → fs.inodes other = some found → found.sector ∈ fewer) :
    Table fewer { withoutInode fs inode with freeMap := map } held extra where
  stored := stored
  nodup := table.nodup.erase inode
  listed := by
    intro other
    change other ∈ fs.openInodes.erase inode ↔ _
    rw [table.nodup.mem_erase_iff, table.listed other]
    constructor
    · rintro ⟨different, found, here⟩
      exact ⟨found, without_inode_of_ne different here⟩
    · rintro ⟨found, here⟩
      obtain ⟨different, was⟩ := without_inode_some here
      exact ⟨different, found, was⟩
  inodeOld := fun other found here => table.inodeOld other found (without_inode_some here).2
  fileOld := table.fileOld
  refersOld := table.refersOld
  sectorApart := fun first second one two firstHere secondHere =>
    table.sectorApart first second one two (without_inode_some firstHere).2
      (without_inode_some secondHere).2
  live := by
    intro other found here
    obtain ⟨different, was⟩ := without_inode_some here
    exact live other found different was
  loaded := fun other found here => table.loaded other found (without_inode_some here).2
  counted := by
    intro other found here
    obtain ⟨different, was⟩ := without_inode_some here
    rw [others other different]
    exact counted_congr (table.counted other found was) rfl
  reached := by
    intro file handle inside here
    obtain ⟨found, was⟩ := table.reached file handle inside here
    refine ⟨found, without_inode_of_ne ?_ was⟩
    rintro rfl
    have member : file ∈ holders fs held handle.inode := mem_holders inside here
    rw [unheld] at member
    exact member
  spare := by
    intro other some_
    have different : other ≠ inode := by
      rintro rfl
      omega
    rw [others other different] at some_
    obtain ⟨found, was⟩ := table.spare other some_
    exact ⟨found, without_inode_of_ne different was⟩

/-- What `inode_close` leaves in memory. -/
def closedInode (target : Volume.Inode) : Option Volume.Inode :=
  if target.openCnt = 1 then none else some { target with openCnt := target.openCnt - 1 }

/-- The last opener of a removed inode closes it. -/
def Vanishes (target : Volume.Inode) : Prop := target.openCnt = 1 ∧ target.removed = true

/-- `inode_close` of an inode that is not removed changes nothing on the device. -/
theorem inode_close_kept (table : Table inodes fs held (bump extra inode))
    (present : fs.inodes inode = some target) (stays : ¬Vanishes target) :
    Returns (inodeClose (some inode)) fs fun _ next =>
      Kept fs next ∧ next.disk = fs.disk ∧ next.freeMap = fs.freeMap ∧
        next.inodes = Function.update fs.inodes inode (closedInode target) ∧
        Table inodes next held extra := by
  have counted := table.counted inode target present
  have opened := counted.opened
  rw [bump_self] at opened
  push_cast at opened
  unfold inodeClose
  apply returns_bind (inode_at_returns present)
  rintro target fs ⟨rfl, rfl⟩
  apply returns_modify
  unfold closedInode
  by_cases last : target.openCnt = 1
  · have kept : target.removed = false := by
      cases goes : target.removed with
      | false => rfl
      | true => exact absurd ⟨last, goes⟩ stays
    rw [if_pos (by omega : target.openCnt - 1 = 0), if_pos last]
    unfold inodeDiscard
    apply returns_modify
    dsimp only
    rw [kept, if_neg (by simp)]
    apply returns_modify_last
    dsimp only
    rw [Function.update_idem]
    have noHolder : (holders fs held inode).ncard = 0 := by omega
    refine ⟨kept_without_inode, rfl, rfl, rfl, ?_⟩
    apply table_without_inode table
    · exact (Set.ncard_eq_zero (holders_finite table inode)).mp noHolder
    · omega
    · intro other different
      exact (bump_of_ne different).symm
    · exact table.stored
    · intro other found _ here
      exact table.live other found here
  · have changed := @opened_recount fs inode target { target with openCnt := target.openCnt - 1 }
      present rfl rfl rfl
    rw [if_neg (by omega : ¬target.openCnt - 1 = 0), if_neg last]
    apply returns_pure
    refine ⟨changed.kept, rfl, rfl, rfl, ?_⟩
    refine table_recount extra table ⟨?_, ?_, counted.denied⟩ present rfl rfl ?_
    · dsimp only
      omega
    · have := counted.positive
      dsimp only
      omega
    · intro other different
      exact (bump_of_ne different).symm

/-- Clearing the marks of the inode sector and then of the data sectors clears the marks
of the footprint. -/
theorem marked_after_release {size : Nat} {disk : Disk} {freeMap : Bitmap} {sector : Nat}
    (stored : Stored size disk freeMap inodes) (here : sector ∈ inodes)
    {data : InodeDisk} (same : data = diskInode disk sector) :
    sector + 1 ≤ freeMap.length ∧
      (∀ index < 1, bitmapTest freeMap (sector + index) = true) ∧
      data.start.toNat + bytesToSectors (inodeLength data) ≤ freeMap.length ∧
      (∀ index < bytesToSectors (inodeLength data),
        bitmapTest (bitmapSetMultiple freeMap sector 1 false) (data.start.toNat + index) = true) ∧
      marked (bitmapSetMultiple (bitmapSetMultiple freeMap sector 1 false)
        data.start.toNat (bytesToSectors (inodeLength data)) false) =
          marked freeMap \ footprint disk sector := by
  have inside := inode_lt stored here
  have valid := (stored.valid sector here).inside
  rw [← same] at valid
  have fits : sector + 1 ≤ freeMap.length := by
    rw [stored.mapLength]
    omega
  have extentFits : data.start.toNat + bytesToSectors (inodeLength data) ≤ freeMap.length := by
    rw [stored.mapLength]
    exact valid
  refine ⟨fits, ?_, extentFits, ?_, ?_⟩
  · intro index zero
    obtain rfl : index = 0 := by omega
    exact inode_marked stored here
  · intro index bound
    have member : data.start.toNat + index ∈ extent (diskInode disk sector) := by
      rw [← same]
      exact ⟨by omega, by omega⟩
    have apart : data.start.toNat + index ≠ sector := by
      intro clash
      rw [clash] at member
      exact stored.own sector here member
    rw [bitmap_set_multiple_test fits, if_neg (by omega)]
    exact extent_marked stored here member
  · ext cell
    have test : cell ∈ marked (bitmapSetMultiple (bitmapSetMultiple freeMap sector 1 false)
        data.start.toNat (bytesToSectors (inodeLength data)) false) ↔
        (if data.start.toNat ≤ cell ∧ cell < data.start.toNat + bytesToSectors (inodeLength data)
          then false else if sector ≤ cell ∧ cell < sector + 1 then false
          else bitmapTest freeMap cell) = true := by
      change bitmapTest _ cell = true ↔ _
      rw [bitmap_set_multiple_test (by rw [bitmap_set_multiple_length fits]; exact extentFits),
        bitmap_set_multiple_test fits]
    have member : cell ∈ footprint disk sector ↔ cell = sector ∨
        (data.start.toNat ≤ cell ∧
          cell < data.start.toNat + bytesToSectors (inodeLength data)) := by
      unfold footprint
      rw [← same]
      exact Set.mem_insert_iff
    rw [test, Set.mem_sdiff, member]
    split
    · next inExtent => simp [inExtent]
    · next notExtent =>
      split
      · next atSector =>
        have isSector : cell = sector := by omega
        simp [isSector]
      · next notSector =>
        have different : cell ≠ sector := by omega
        simp only [different, notExtent, or_self, not_false_eq_true, and_true]
        exact Iff.rfl

/-- The free map file's inode is another one than an inode without holders. -/
theorem map_open_unheld (sound : Sound inodes fs held more) (unheld : holders fs held inode = ∅)
    (change_ : Option Volume.Inode) (openInodes : List Ptr) :
    ∃ file map, MapOpen
        { fs with
          inodes := Function.update fs.inodes inode change_
          openInodes := openInodes } file map ∧
      map.data = diskInode fs.disk freeMapSector ∧ (Plenty fs → map.denyWriteCnt = 0) := by
  obtain ⟨file, handle, map, named, inside, here, _, was, place⟩ := sound.mapFile
  have different : handle.inode ≠ inode := by
    rintro rfl
    have member : file ∈ holders fs held handle.inode := mem_holders inside here
    rw [unheld] at member
    exact member
  refine ⟨file, map, ⟨named, ⟨handle, here, ?_⟩, table_valid sound.toTable was⟩, ?_, ?_⟩
  · change Function.update fs.inodes inode change_ handle.inode = some map
    rw [Function.update_of_ne different, was]
  · rw [← place]
    exact sound.loaded _ _ was
  · intro _
    exact map_allowed sound was place

/-- The last `inode_close` of a removed inode gives its sectors back. -/
theorem inode_close_vanishes (sound : Sound inodes fs held (bump extra inode))
    (present : fs.inodes inode = some target) (vanishes : Vanishes target) :
    Returns (inodeClose (some inode)) fs fun _ next =>
      Kept fs next ∧ Confined {freeMapSector} inodes fs.disk next.disk ∧
        next.inodes = Function.update fs.inodes inode none ∧
        marked next.freeMap = marked fs.freeMap \ footprint fs.disk target.sector ∧
        Sound (inodes \ {target.sector}) next held extra := by
  have counted := sound.counted inode target present
  have opened := counted.opened
  rw [bump_self] at opened
  push_cast at opened
  have here := sound.live inode target present
  have mapHere := map_live sound
  obtain ⟨last, goes⟩ := vanishes
  have noHolder : (holders fs held inode).ncard = 0 := by omega
  have unheld := (Set.ncard_eq_zero (holders_finite sound.toTable inode)).mp noHolder
  obtain ⟨fits, used, extentFits, extentUsed, marks⟩ :=
    marked_after_release sound.stored here (sound.loaded inode target present)
  obtain ⟨file, map, ready, mapData, allowed⟩ := map_open_unheld sound unheld
    (some { target with openCnt := target.openCnt - 1 }) (fs.openInodes.erase inode)
  have sized := @bitmap_set_multiple_length fs.freeMap target.sector 1 false fits
  unfold inodeClose
  apply returns_bind (inode_at_returns present)
  rintro target fs ⟨rfl, rfl⟩
  apply returns_modify
  rw [if_pos (by omega : target.openCnt - 1 = 0)]
  unfold inodeDiscard
  apply returns_modify
  dsimp only
  rw [if_pos goes]
  apply returns_bind (free_map_release_returns ready fits used)
  intro _ middle changed
  have readyAgain := map_open_changed ready changed
  obtain ⟨first, firstFits, _, _, grown, rfl⟩ := changed
  apply returns_bind (free_map_release_returns readyAgain (by rw [sized]; exact extentFits)
    extentUsed)
  rintro _ _ ⟨second, secondFits, whole, requests, more_, rfl⟩
  apply returns_modify_last
  dsimp only at grown more_ ⊢
  rw [Function.update_idem]
  -- Both writes stay inside the free map's own data
  rw [mapData] at firstFits secondFits ⊢
  have firstConfined := @confined_write _ _ _ _ freeMapSector sound.stored 0 first mapHere
    (by omega)
  rw [Nat.add_zero] at firstConfined
  have mapStays := firstConfined.inode _ mapHere
  have secondConfined := @confined_write _ _ _ _ freeMapSector
    (stored_disk sound.stored firstConfined.inode) 0 second mapHere (by rw [mapStays]; omega)
  rw [Nat.add_zero, mapStays] at secondConfined
  have confined := confined_trans firstConfined secondConfined
  have table := table_device sound.toTable (Nat.le_trans grown more_)
    (stored_disk sound.stored confined.inode) confined.inode
  have lengths : (bitmapSetMultiple (bitmapSetMultiple fs.freeMap target.sector 1 false)
      target.data.start.toNat (bytesToSectors (inodeLength target.data)) false).length =
        fs.freeMap.length := by
    rw [bitmap_set_multiple_length (by rw [sized]; exact extentFits), sized]
  refine ⟨kept_trans (kept_device (Nat.le_trans grown more_)) kept_without_inode, confined, rfl,
    marks, ?_, ?_, ?_, ?_, ?_⟩
  · apply table_without_inode table unheld (by omega : extra inode = 0)
    · intro other different
      exact (bump_of_ne different).symm
    · apply stored_release table.stored here lengths
      intro cell used_ outside
      rw [footprint_congr (confined.inode _ here)] at outside
      rw [marks]
      exact ⟨used_, outside⟩
    · intro other found different was
      refine ⟨table.live other found was, ?_⟩
      intro same
      exact different (table.sectorApart other inode found target was present same)
  · obtain ⟨mapFile, handle, found, named, inside, handleHere, allows, was, place⟩ := sound.mapFile
    refine ⟨mapFile, handle, found, named, inside, handleHere, allows, ?_, place⟩
    apply without_inode_of_ne _ was
    rintro rfl
    have member : mapFile ∈ holders fs held handle.inode := mem_holders inside handleHere
    rw [unheld] at member
    exact member
  · intro other handle found handleHere foundHere place
    exact sound.mapOnly other handle found handleHere (without_inode_some foundHere).2 place
  · dsimp only
    rw [lengths, confined.inode _ mapHere]
    exact sound.mapRoom
  · intro plenty
    have enough : Plenty fs := fun request => plenty request
    have room : byteCnt (bitmapSetMultiple fs.freeMap target.sector 1 false).length ≤
        (inodeLength map.data).toNat := by
      rw [sized, mapData]
      exact sound.mapRoom
    have exact_ := whole ⟨enough, allowed enough, room⟩
    have sameInode := confined.inode _ mapHere
    rw [exact_] at sameInode ⊢
    change bitmapOfBytes _ (contents _ freeMapSector) = _
    unfold contents
    rw [sameInode]
    apply bitmap_of_written
    rw [lengths]
    exact sound.mapRoom

/-- The inodes on the device after `inode_close`. -/
def remaining (inodes : Set Nat) (target : Volume.Inode) : Set Nat :=
  { sector ∈ inodes | ¬(Vanishes target ∧ sector = target.sector) }

/-- The sectors `inode_close` gives back. -/
def released (disk : Disk) (target : Volume.Inode) : Set Nat :=
  { cell | Vanishes target ∧ cell ∈ footprint disk target.sector }

/-- `inode_close` takes one opener away. -/
theorem inode_close_returns (sound : Sound inodes fs held (bump extra inode))
    (present : fs.inodes inode = some target) :
    Returns (inodeClose (some inode)) fs fun _ next =>
      Kept fs next ∧ Confined {freeMapSector} inodes fs.disk next.disk ∧
        next.inodes = Function.update fs.inodes inode (closedInode target) ∧
        marked next.freeMap = marked fs.freeMap \ released fs.disk target ∧
        Sound (remaining inodes target) next held extra := by
  by_cases vanishes : Vanishes target
  · apply returns_mono (inode_close_vanishes sound present vanishes)
    rintro _ next ⟨kept, confined, gone, marks, again⟩
    have rest : remaining inodes target = inodes \ {target.sector} := by
      ext sector
      simp [remaining, vanishes]
    have cells : released fs.disk target = footprint fs.disk target.sector := by
      ext cell
      simp [released, vanishes]
    refine ⟨kept, confined, ?_, by rw [cells]; exact marks, by rw [rest]; exact again⟩
    rw [gone, closedInode, if_pos vanishes.1]
  · apply returns_mono (inode_close_kept sound.toTable present vanishes)
    rintro _ next ⟨kept, disk, freeMap, changed, again⟩
    have rest : remaining inodes target = inodes := by
      ext sector
      simp [remaining, vanishes]
    have cells : released fs.disk target = ∅ := by
      ext cell
      simp [released, vanishes]
    refine ⟨kept, ?_, changed, ?_, ?_⟩
    · rw [disk]
      exact confined_refl _ _ _
    · rw [freeMap, cells, Set.sdiff_empty]
    · rw [rest]
      exact sound_frame sound again kept.toCalm kept.files freeMap (by rw [disk]) (by rw [disk])

/-- Only a removed inode leaves the device. -/
theorem remaining_keeps (present : fs.inodes inode = some target) :
    inodes \ removedSet fs ⊆ remaining inodes target := by
  rintro sector ⟨here, stays⟩
  refine ⟨here, ?_⟩
  rintro ⟨vanishes, rfl⟩
  exact stays ⟨inode, target, present, vanishes.2, rfl⟩

theorem remaining_subset : remaining inodes target ⊆ inodes := fun _ here => here.1

end Closing

end UtSystems.Filesys.OpenInodes

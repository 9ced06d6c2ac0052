import UtSystems.Filesys.OpenInodes

/-!
# Open files keep the invariant

`file_open` takes over one opener of its inode, and `file_close` gives it back. A file
other than the free map's own refers to another inode than the free map's, so whatever is
done to it leaves the free map alone.
-/

namespace UtSystems.Filesys.OpenFiles

open Lib.Bytes Lib.Effects Filesys.Volume Filesys.InodeData Filesys.FreeMap Filesys.Inode
open Filesys.Ownership Filesys.Consistency Filesys.OpenInodes

set_option autoImplicit false

variable {inodes : Set Nat} {fs : FileSys} {held : Set Ptr} {extra : Ptr → Nat} {inode file : Ptr}

theorem file_update_some {change : Option File} {other : Ptr} {handle : File}
    (here : Function.update fs.files file change other = some handle) :
    (other = file ∧ change = some handle) ∨ (other ≠ file ∧ fs.files other = some handle) := by
  by_cases same : other = file
  · subst same
    rw [Function.update_self] at here
    exact .inl ⟨rfl, here⟩
  · rw [Function.update_of_ne same] at here
    exact .inr ⟨same, here⟩

section Opening

theorem file_fresh (table : Table inodes fs held extra) : fs.files fs.requests = none := by
  cases here : fs.files fs.requests with
  | none => rfl
  | some handle => exact absurd (table.fileOld _ _ here) (Nat.lt_irrefl _)

/-- The state after `file_open` has set up a new file. -/
def withFile (fs : FileSys) (inode : Ptr) : FileSys :=
  { fs with
    files := Function.update fs.files fs.requests
      (some { inode := inode, pos := 0, denyWrite := false })
    requests := fs.requests + 1 }

theorem steady_new_file : Steady fs (withFile fs inode) :=
  steady_inodes rfl rfl rfl (Nat.le_succ _) rfl

/-- A new file takes over one opener of its inode. -/
theorem table_new_file (table : Table inodes fs Set.univ (bump extra inode)) :
    Table inodes (withFile fs inode) Set.univ extra := by
  have fresh := file_fresh table
  have absent : ∀ other, fs.requests ∉ holders fs Set.univ other := by
    rintro other ⟨_, handle, here, _⟩
    rw [fresh] at here
    cases here
  obtain ⟨opened, isOpen⟩ := table.spare inode (by rw [bump_self]; omega)
  apply table_files table (Nat.le_succ _)
  · intro other handle here
    rcases file_update_some here with ⟨rfl, created⟩ | ⟨_, was⟩
    · cases created
      exact ⟨Nat.lt_succ_self _, Nat.lt_succ_of_lt (table.inodeOld _ _ isOpen)⟩
    · exact ⟨Nat.lt_succ_of_lt (table.fileOld other handle was),
        Nat.lt_succ_of_lt (table.refersOld other handle was)⟩
  · intro other target present
    have counted := table.counted other target present
    have opened := counted.opened
    refine ⟨?_, counted.positive, ?_⟩
    · by_cases same : other = inode
      · subst same
        have grown := Set.ncard_insert_of_notMem (absent other) (holders_finite table other)
        rw [bump_self] at opened
        rw [holders, referring_update_in (Set.mem_univ _) rfl rfl]
        change _ = ((insert fs.requests (holders fs Set.univ other)).ncard : Int) + _
        rw [grown]
        push_cast at opened ⊢
        omega
      · rw [bump_of_ne same] at opened
        rw [holders, referring_update_out]
        · change _ = ((holders fs Set.univ other \ {fs.requests}).ncard : Int) + _
          rw [Set.sdiff_singleton_eq_self (absent other)]
          exact opened
        · rintro handle ⟨⟩ refers
          exact absurd refers.symm same
    · rw [deniers, referring_update_out]
      · change _ = ((deniers fs Set.univ other \ {fs.requests}).ncard : Int)
        rw [Set.sdiff_singleton_eq_self (fun member => absent other (deniers_subset other member))]
        exact counted.denied
      · rintro handle ⟨⟩ _
        rfl
  · intro other handle inside here
    rcases file_update_some here with ⟨_, created⟩ | ⟨_, was⟩
    · cases created
      exact ⟨opened, isOpen⟩
    · exact table.reached other handle inside was
  · intro other some_
    apply table.spare other
    by_cases same : other = inode
    · rw [same, bump_self]
      omega
    · rw [bump_of_ne same]
      exact some_

theorem sound_new_file {target : Volume.Inode} (sound : Sound inodes fs Set.univ (bump extra inode))
    (present : fs.inodes inode = some target) (notMap : target.sector ≠ freeMapSector) :
    Sound inodes (withFile fs inode) Set.univ extra := by
  refine ⟨table_new_file sound.toTable, ready_files sound.toMapReady ?_ ?_⟩
  · intro other handle _ inside here
    refine ⟨inside, handle, ?_, rfl, rfl⟩
    rw [Function.update_of_ne (Nat.ne_of_lt (sound.fileOld other handle here)), here]
  · intro other handle found here reached place
    rcases file_update_some here with ⟨_, created⟩ | ⟨_, was⟩
    · cases created
      rw [present] at reached
      cases reached
      exact absurd place notMap
    · exact ⟨handle, was, rfl⟩

/-- Inodes have been closed; only removed ones can have left the device. -/
structure Closes (inodes : Set Nat) (fs next : FileSys) (extra : Ptr → Nat) : Prop where
  kept : Kept fs next
  confined : Confined {freeMapSector} inodes fs.disk next.disk
  rest : ∃ rest, inodes \ removedSet fs ⊆ rest ∧ rest ⊆ inodes ∧ Sound rest next Set.univ extra

theorem closes_requested {next : FileSys} (sound : Sound inodes fs Set.univ extra)
    (requested : Requested fs next) : Closes inodes fs next extra := by
  have same : next.disk = fs.disk := by
    obtain ⟨_, _, rfl⟩ := requested
    rfl
  refine ⟨kept_requested requested, ?_, inodes, Set.sdiff_subset, Set.Subset.rfl,
    sound_requested sound requested⟩
  rw [same]
  exact confined_refl _ _ _

theorem inode_close_closes (sound : Sound inodes fs Set.univ (bump extra inode)) :
    Returns (inodeClose (some inode)) fs fun _ next => Closes inodes fs next extra := by
  obtain ⟨target, present⟩ := sound.spare inode (by rw [bump_self]; omega)
  apply returns_mono (inode_close_returns sound present)
  rintro _ next ⟨kept, confined, _, _, again⟩
  exact ⟨kept, confined, remaining inodes target, remaining_keeps present, remaining_subset, again⟩

theorem closes_after_opened {next last : FileSys} {more : Ptr → Nat} (opened : Opened fs next)
    (closes : Closes inodes next last more) : Closes inodes fs last more := by
  obtain ⟨kept, confined, rest, most, less, again⟩ := closes
  rw [opened.disk] at confined
  refine ⟨kept_trans opened.kept kept, confined, rest, ?_, less, again⟩
  rintro sector ⟨here, stays⟩
  exact most ⟨here, fun gone => stays (opened.kept.removed gone)⟩

theorem file_open_returns {target : Volume.Inode}
    (sound : Sound inodes fs Set.univ (bump extra inode))
    (present : fs.inodes inode = some target) (notMap : target.sector ≠ freeMapSector) :
    Returns (fileOpen (some inode)) fs fun result next =>
      match result with
      | none => Closes inodes fs next extra ∧ ¬Plenty fs
      | some file => file = fs.requests ∧ next = withFile fs inode ∧
          Sound inodes next Set.univ extra := by
  unfold fileOpen
  apply returns_bind (malloc_returns fs)
  rintro pointer _ ⟨rfl, rfl⟩
  cases granted : fs.memory fs.requests with
  | false =>
      have requested : Requested fs { fs with requests := fs.requests + 1 } :=
        ⟨fs.requests + 1, Nat.le_succ _, rfl⟩
      apply returns_bind (inode_close_closes (sound_requested sound requested))
      intro _ next closes
      apply returns_pure
      refine ⟨closes_after_opened (opened_requested requested) closes, ?_⟩
      intro plenty
      rw [plenty fs.requests] at granted
      cases granted
  | true =>
      apply returns_modify
      apply returns_pure
      exact ⟨rfl, rfl, sound_new_file sound present notMap⟩

theorem file_open_null (fs : FileSys) :
    Returns (fileOpen none) fs fun result next => result = none ∧ Requested fs next := by
  unfold fileOpen
  apply returns_bind (malloc_returns fs)
  rintro pointer _ ⟨rfl, rfl⟩
  exact returns_pure ⟨rfl, fs.requests + 1, Nat.le_succ _, rfl⟩

end Opening

section Handles

variable {handle : File} {target : Volume.Inode}

/-- A file moves its position. -/
theorem sound_position (sound : Sound inodes fs held extra) (present : fs.files file = some handle)
    (pos : Nat) :
    Sound inodes { fs with
      files := Function.update fs.files file (some { handle with pos := pos }) } held extra := by
  constructor
  · apply @table_files inodes fs held held extra extra _ fs.requests sound.toTable (Nat.le_refl _)
    · intro other found here
      rcases file_update_some here with ⟨rfl, changed⟩ | ⟨_, was⟩
      · cases changed
        exact ⟨sound.fileOld other handle present, sound.refersOld other handle present⟩
      · exact ⟨sound.fileOld other found was, sound.refersOld other found was⟩
    · intro other found here
      have counted := sound.counted other found here
      refine ⟨?_, counted.positive, ?_⟩
      · rw [holders, referring_update_same { handle with pos := pos } present rfl rfl]
        exact counted.opened
      · rw [deniers, referring_update_same { handle with pos := pos } present rfl rfl]
        exact counted.denied
    · intro other found inside here
      rcases file_update_some here with ⟨rfl, changed⟩ | ⟨_, was⟩
      · cases changed
        exact sound.reached other handle inside present
      · exact sound.reached other found inside was
    · exact sound.spare
  · apply @ready_files fs held held _ fs.requests sound.toMapReady
    · intro other found _ inside here
      refine ⟨inside, ?_⟩
      by_cases same : other = file
      · subst same
        rw [present] at here
        cases here
        exact ⟨{ handle with pos := pos }, Function.update_self .., rfl, rfl⟩
      · exact ⟨found, by rw [Function.update_of_ne same, here], rfl, rfl⟩
    · intro other found _ here _ _
      rcases file_update_some here with ⟨rfl, changed⟩ | ⟨_, was⟩
      · cases changed
        exact ⟨handle, present, rfl⟩
      · exact ⟨found, was, rfl⟩

theorem referring_elsewhere {counts : File → Bool} (change : File) {other : Ptr}
    (present : fs.files file = some handle) (refers : change.inode = handle.inode)
    (different : other ≠ handle.inode) :
    referring counts (Function.update fs.files file (some change)) held other =
      referring counts fs.files held other := by
  rw [referring_update_out]
  · apply Set.sdiff_singleton_eq_self
    rintro ⟨_, found, here, there, _⟩
    rw [present] at here
    cases here
    exact different there.symm
  · rintro found ⟨⟩ there
    exact absurd (there.symm.trans refers) different

/-- A file starts or stops to deny writes, and its inode counts that. -/
theorem sound_flag {flag : Bool} {count : Int} (sound : Sound inodes fs held extra)
    (present : fs.files file = some handle) (reached : fs.inodes handle.inode = some target)
    (notMap : target.sector ≠ freeMapSector)
    (denied : count = (referring File.denyWrite
      (Function.update fs.files file (some { handle with denyWrite := flag })) held
      handle.inode).ncard) :
    Sound inodes { fs with
      files := Function.update fs.files file (some { handle with denyWrite := flag })
      inodes := Function.update fs.inodes handle.inode
        (some { target with denyWriteCnt := count }) } held extra := by
  have back : ∀ {other found}, Function.update fs.inodes handle.inode
      (some { target with denyWriteCnt := count }) other = some found →
      ∃ was, fs.inodes other = some was ∧ found.sector = was.sector ∧ found.data = was.data :=
    fun {other found} here => @recount_before fs _ _ { target with denyWriteCnt := count }
      reached rfl rfl other found here
  constructor
  · apply @table_update inodes fs held held extra extra _ _ fs.requests sound.toTable (Nat.le_refl _)
    · intro other found here
      rcases file_update_some here with ⟨rfl, changed⟩ | ⟨_, was⟩
      · cases changed
        exact ⟨sound.fileOld other handle present, sound.refersOld other handle present⟩
      · exact ⟨sound.fileOld other found was, sound.refersOld other found was⟩
    · intro other found here
      exact back here
    · intro other was here
      obtain ⟨found, foundHere, _⟩ := @recount_after fs _ _ { target with denyWriteCnt := count }
        reached rfl other was here
      exact ⟨found, foundHere⟩
    · intro other found here
      by_cases same : other = handle.inode
      · subst same
        rw [Function.update_self] at here
        cases here
        have counted := sound.counted _ target reached
        refine ⟨?_, counted.positive, denied⟩
        rw [holders, referring_update_same { handle with denyWrite := flag } present rfl rfl]
        exact counted.opened
      · rw [Function.update_of_ne same] at here
        have counted := sound.counted other found here
        refine ⟨?_, counted.positive, ?_⟩
        · rw [holders, referring_elsewhere { handle with denyWrite := flag } present rfl same]
          exact counted.opened
        · rw [deniers, referring_elsewhere { handle with denyWrite := flag } present rfl same]
          exact counted.denied
    · intro other found inside here
      rcases file_update_some here with ⟨rfl, changed⟩ | ⟨_, was⟩
      · cases changed
        exact ⟨target, reached⟩
      · exact sound.reached other found inside was
    · exact sound.spare
  · obtain ⟨map, mapHandle, mapTarget, named, inside, mapHere, allows, mapReached, place⟩ :=
      sound.mapFile
    have different : map ≠ file := by
      rintro rfl
      rw [present] at mapHere
      cases mapHere
      rw [reached] at mapReached
      cases mapReached
      exact notMap place
    have elsewhere : mapHandle.inode ≠ handle.inode := by
      intro same
      rw [same, reached] at mapReached
      cases mapReached
      exact notMap place
    refine ⟨⟨map, mapHandle, mapTarget, named, inside, ?_, allows, ?_, place⟩, ?_, sound.mapRoom,
      sound.recorded⟩
    · exact (Function.update_of_ne different ..).trans mapHere
    · exact (Function.update_of_ne elsewhere ..).trans mapReached
    · intro other found its here there atMap
      obtain ⟨was, wasHere, sector, _⟩ := back there
      have before : ∃ old, fs.files other = some old ∧ old.inode = found.inode := by
        rcases file_update_some here with ⟨rfl, changed⟩ | ⟨_, older⟩
        · cases changed
          exact ⟨handle, present, rfl⟩
        · exact ⟨found, older, rfl⟩
      obtain ⟨old, oldHere, same⟩ := before
      exact sound.mapOnly other old was oldHere (by rw [same]; exact wasHere)
        (sector.symm.trans atMap)

theorem steady_flag {flag : Bool} {count : Int} (reached : fs.inodes handle.inode = some target) :
    Steady fs { fs with
      files := Function.update fs.files file (some { handle with denyWrite := flag })
      inodes := Function.update fs.inodes handle.inode
        (some { target with denyWriteCnt := count }) } := by
  refine ⟨⟨rfl, rfl, rfl, Nat.le_refl _, ?_⟩, recount_removed reached rfl rfl⟩
  intro other found here _
  obtain ⟨was, wasHere, sector, _⟩ :=
    @recount_before fs _ _ { target with denyWriteCnt := count } reached rfl rfl other found here
  exact ⟨was, wasHere, sector⟩

/-- `file_deny_write` of a file that does not deny writes yet. -/
theorem file_deny_write_returns (sound : Sound inodes fs held extra) (inside : file ∈ held)
    (present : fs.files file = some handle) (reached : fs.inodes handle.inode = some target)
    (notMap : target.sector ≠ freeMapSector) (allows : handle.denyWrite = false) :
    Returns (fileDenyWrite (some file)) fs fun _ next =>
      Sound inodes next held extra ∧ next = { fs with
        files := Function.update fs.files file (some { handle with denyWrite := true })
        inodes := Function.update fs.inodes handle.inode
          (some { target with denyWriteCnt := target.denyWriteCnt + 1 }) } := by
  have counted := sound.counted _ target reached
  have finite := holders_finite sound.toTable handle.inode
  have notDenier : file ∉ deniers fs held handle.inode := by
    rintro ⟨_, found, here, _, denies⟩
    rw [present] at here
    cases here
    rw [allows] at denies
    cases denies
  have isHolder : file ∈ holders fs held handle.inode := mem_holders inside present
  have grown := Set.ncard_insert_of_notMem notDenier (finite.subset (deniers_subset _))
  have bounded : (insert file (deniers fs held handle.inode)).ncard ≤
      (holders fs held handle.inode).ncard :=
    Set.ncard_le_ncard (Set.insert_subset isHolder (deniers_subset _)) finite
  have denied : target.denyWriteCnt + 1 = (referring File.denyWrite
      (Function.update fs.files file (some { handle with denyWrite := true })) held
      handle.inode).ncard := by
    rw [referring_update_in inside rfl rfl]
    change _ = ((insert file (deniers fs held handle.inode)).ncard : Int)
    rw [grown, counted.denied]
    push_cast
    rfl
  have again := sound_flag sound present reached notMap denied
  unfold fileDenyWrite
  apply returns_bind (file_at_returns present)
  rintro handle fs ⟨rfl, rfl⟩
  rw [if_neg (by rw [allows]; simp)]
  apply returns_modify
  apply returns_bind (@inode_at_returns
    { fs with files := Function.update fs.files file (some { handle with denyWrite := true }) }
    handle.inode target reached)
  rintro target _ ⟨rfl, rfl⟩
  apply returns_modify
  have room : target.denyWriteCnt + 1 ≤ target.openCnt := by
    rw [counted.opened, counted.denied]
    omega
  rw [if_pos room]
  apply returns_pure
  exact ⟨again, rfl⟩

/-- `file_allow_write`, as `file_close` calls it. -/
theorem file_allow_write_returns (sound : Sound inodes fs held extra) (inside : file ∈ held)
    (present : fs.files file = some handle) (reached : fs.inodes handle.inode = some target)
    (notMap : target.sector ≠ freeMapSector) :
    Returns (fileAllowWrite file) fs fun _ next =>
      Steady fs next ∧ Sound inodes next held extra ∧ next.disk = fs.disk ∧
        next.files = Function.update fs.files file (some { handle with denyWrite := false }) := by
  have counted := sound.counted _ target reached
  have finite := holders_finite sound.toTable handle.inode
  unfold fileAllowWrite
  apply returns_bind (file_at_returns present)
  rintro handle fs ⟨rfl, rfl⟩
  cases denies : handle.denyWrite with
  | false =>
      rw [if_neg (by simp)]
      apply returns_pure
      refine ⟨(kept_refl _).toSteady, sound, rfl, ?_⟩
      rw [← denies]
      exact (Function.update_eq_self_iff.mpr present.symm).symm
  | true =>
      have isDenier : file ∈ deniers fs held handle.inode :=
        ⟨inside, handle, present, rfl, denies⟩
      have fewer := Set.ncard_sdiff_singleton_add_one isDenier (finite.subset (deniers_subset _))
      have denied : target.denyWriteCnt - 1 = (referring File.denyWrite
          (Function.update fs.files file (some { handle with denyWrite := false })) held
          handle.inode).ncard := by
        rw [referring_update_out (by rintro found ⟨⟩ _; rfl)]
        change _ = ((deniers fs held handle.inode \ {file}).ncard : Int)
        rw [counted.denied]
        omega
      have again := sound_flag sound present reached notMap denied
      have bounds : 0 < target.denyWriteCnt ∧ target.denyWriteCnt ≤ target.openCnt := by
        refine ⟨?_, deny_le_open sound.toTable reached⟩
        rw [counted.denied]
        omega
      rw [if_pos rfl]
      apply returns_modify
      apply returns_bind (@inode_at_returns
        { fs with files := Function.update fs.files file (some { handle with denyWrite := false }) }
        handle.inode target reached)
      rintro target _ ⟨rfl, rfl⟩
      rw [if_pos bounds]
      apply returns_modify_last
      exact ⟨steady_flag reached, again, rfl, rfl⟩

end Handles

section Closing

variable {handle : File} {target : Volume.Inode}

/-- A file about to be closed counts as an opener without a file. -/
theorem table_leave (table : Table inodes fs Set.univ extra)
    (present : fs.files file = some handle) (allows : handle.denyWrite = false) :
    Table inodes fs (Set.univ \ {file}) (bump extra handle.inode) := by
  apply @table_files inodes fs Set.univ _ extra _ fs.files fs.requests table (Nat.le_refl _)
  · intro other found here
    exact ⟨table.fileOld other found here, table.refersOld other found here⟩
  · intro other target here
    have counted := table.counted other target here
    have opened := counted.opened
    refine ⟨?_, counted.positive, ?_⟩
    · rw [holders, referring_left_out]
      change _ = ((holders fs Set.univ other \ {file}).ncard : Int) + _
      by_cases same : other = handle.inode
      · subst same
        have fewer := Set.ncard_sdiff_singleton_add_one (mem_holders (Set.mem_univ file) present)
          (holders_finite table handle.inode)
        rw [bump_self]
        push_cast at opened ⊢
        omega
      · rw [bump_of_ne same, Set.sdiff_singleton_eq_self]
        · exact opened
        · rintro ⟨_, found, foundHere, refers, _⟩
          rw [present] at foundHere
          cases foundHere
          exact same refers.symm
    · rw [deniers, referring_left_out]
      change _ = ((deniers fs Set.univ other \ {file}).ncard : Int)
      rw [Set.sdiff_singleton_eq_self]
      · exact counted.denied
      · rintro ⟨_, found, foundHere, _, denies⟩
        rw [present] at foundHere
        cases foundHere
        rw [allows] at denies
        cases denies
  · intro other found inside here
    exact table.reached other found trivial here
  · intro other some_
    by_cases same : other = handle.inode
    · rw [same]
      exact table.reached file handle trivial present
    · rw [bump_of_ne same] at some_
      exact table.spare other some_

theorem sound_leave (sound : Sound inodes fs Set.univ extra)
    (present : fs.files file = some handle) (allows : handle.denyWrite = false)
    (notMap : fs.freeMapFile ≠ some file) :
    Sound inodes fs (Set.univ \ {file}) (bump extra handle.inode) := by
  refine ⟨table_leave sound.toTable present allows, ?_⟩
  apply @ready_files fs Set.univ _ fs.files fs.requests sound.toMapReady
  · intro other found named _ here
    refine ⟨⟨trivial, ?_⟩, found, here, rfl, rfl⟩
    rintro rfl
    exact notMap named
  · intro other found _ here _ _
    exact ⟨found, here, rfl⟩

/-- Freeing a file that is not counted any more. -/
theorem table_free (table : Table inodes fs (Set.univ \ {file}) extra) :
    Table inodes { fs with files := Function.update fs.files file none } Set.univ extra := by
  apply @table_files inodes fs _ _ extra _ _ fs.requests table (Nat.le_refl _)
  · intro other found here
    rcases file_update_some here with ⟨_, impossible⟩ | ⟨_, was⟩
    · cases impossible
    · exact ⟨table.fileOld other found was, table.refersOld other found was⟩
  · intro other target here
    have counted := table.counted other target here
    have opened := counted.opened
    have denied := counted.denied
    rw [holders, referring_left_out] at opened
    rw [deniers, referring_left_out] at denied
    refine ⟨?_, counted.positive, ?_⟩
    · rw [holders, referring_update_out (fun _ impossible => by cases impossible)]
      exact opened
    · rw [deniers, referring_update_out (fun _ impossible => by cases impossible)]
      exact denied
  · intro other found _ here
    rcases file_update_some here with ⟨_, impossible⟩ | ⟨different, was⟩
    · cases impossible
    · exact table.reached other found ⟨trivial, different⟩ was
  · exact table.spare

theorem sound_free (sound : Sound inodes fs (Set.univ \ {file}) extra) :
    Sound inodes { fs with files := Function.update fs.files file none } Set.univ extra := by
  refine ⟨table_free sound.toTable, ?_⟩
  apply @ready_files fs _ _ _ fs.requests sound.toMapReady
  · rintro other found _ ⟨_, different⟩ here
    exact ⟨trivial, found, by rw [Function.update_of_ne different, here], rfl, rfl⟩
  · intro other found _ here _ _
    rcases file_update_some here with ⟨_, impossible⟩ | ⟨_, was⟩
    · cases impossible
    · exact ⟨found, was, rfl⟩

theorem map_handle (sound : Sound inodes fs held extra) (notMap : fs.freeMapFile ≠ some file)
    (present : fs.files file = some handle) (reached : fs.inodes handle.inode = some target) :
    target.sector ≠ freeMapSector :=
  fun place => notMap (sound.mapOnly file handle target present reached place)

/-- `file_close` of any file but the free map's. -/
theorem file_close_returns (sound : Sound inodes fs Set.univ extra)
    (present : fs.files file = some handle) (notMap : fs.freeMapFile ≠ some file) :
    Returns (fileClose (some file)) fs fun _ next =>
      Steady fs next ∧ next.files = Function.update fs.files file none ∧
        Confined {freeMapSector} inodes fs.disk next.disk ∧
        ∃ rest, inodes \ removedSet fs ⊆ rest ∧ rest ⊆ inodes ∧
          Sound rest next Set.univ extra := by
  obtain ⟨target, reached⟩ := sound.reached file handle trivial present
  unfold fileClose
  apply returns_bind (file_allow_write_returns sound trivial present reached
    (map_handle sound notMap present reached))
  rintro _ allowed ⟨steady, again, disk, files⟩
  have there : allowed.files file = some { handle with denyWrite := false } := by
    rw [files, Function.update_self]
  obtain ⟨opened, isOpen⟩ := again.reached file _ trivial there
  have stillNotMap : allowed.freeMapFile ≠ some file := by
    rw [steady.freeMapFile]
    exact notMap
  apply returns_bind (file_at_returns there)
  rintro _ _ ⟨rfl, rfl⟩
  apply returns_bind (inode_close_returns (sound_leave again there rfl stillNotMap) isOpen)
  rintro _ closed ⟨kept, confined, _, _, settled⟩
  apply returns_modify_last
  rw [disk] at confined
  have freed : Steady closed { closed with files := Function.update closed.files file none } :=
    steady_inodes rfl rfl rfl (Nat.le_refl _) rfl
  refine ⟨steady_trans (steady_trans steady kept.toSteady) freed, ?_, confined,
    remaining inodes opened, ?_, remaining_subset, sound_free settled⟩
  · rw [kept.files, files, Function.update_idem]
  · rintro sector ⟨here, stays⟩
    exact remaining_keeps isOpen ⟨here, fun gone => stays (steady.removed gone)⟩

end Closing

section Transfers

variable {handle : File} {target : Volume.Inode}

/-- `file_read` delivers bytes of the file and moves the position. -/
theorem file_read_returns (sound : Sound inodes fs held extra)
    (present : fs.files file = some handle) (reached : fs.inodes handle.inode = some target)
    (size : Int) :
    Returns (fileRead file size) fs fun bytes next =>
      bytes = slice fs.disk (dataBase target.data + handle.pos)
        (transferred (fs.memory fs.requests) handle.pos (available target.data size handle.pos)) ∧
      Sound inodes next held extra ∧ ∃ requests, fs.requests ≤ requests ∧ next = { fs with
        files := Function.update fs.files file
          (some { handle with pos := handle.pos + bytes.length })
        requests := requests } := by
  unfold fileRead
  apply returns_bind (file_at_returns present)
  rintro handle fs ⟨rfl, rfl⟩
  apply returns_bind (inode_read_at_returns size handle.pos reached
    (table_valid sound.toTable reached))
  rintro bytes _ ⟨⟨requests, grown, rfl⟩, delivered⟩
  apply returns_modify
  apply returns_pure
  refine ⟨delivered, ?_, requests, grown, rfl⟩
  exact @sound_position inodes { fs with requests := requests } held extra file handle
    (sound_requested sound ⟨requests, grown, rfl⟩) present _

/-- `inode_write_at` of an open inode other than the free map's. -/
theorem inode_write_sound (sound : Sound inodes fs held extra) {inode : Ptr}
    (reached : fs.inodes inode = some target) (notMap : target.sector ≠ freeMapSector)
    (buffer : Nat → Byte) (size : Int) (offset : Nat) :
    Returns (inodeWriteAt inode buffer size offset) fs fun total next =>
      total = (if target.denyWriteCnt ≠ 0 then 0 else transferred (fs.memory fs.requests)
        offset (available target.data size offset)) ∧
      Kept fs next ∧ Confined {target.sector} inodes fs.disk next.disk ∧
      Sound inodes next held extra ∧
      Wrote fs next (dataBase target.data + offset) (slice buffer 0 total) := by
  apply returns_mono (inode_write_at_returns buffer size offset reached
    (table_valid sound.toTable reached))
  rintro total written ⟨counted, wrote⟩
  have within : total = 0 ∨ offset + total ≤ (inodeLength target.data).toNat := by
    rw [counted]
    split
    · exact .inl rfl
    · have most := @transferred_le offset (fs.memory fs.requests)
        (available target.data size offset)
      unfold available at *
      omega
  have here := sound.live _ _ reached
  have data := sound.loaded _ _ reached
  have kept : Kept fs written ∧ Confined {target.sector} inodes fs.disk written.disk ∧
      Sound inodes written held extra := by
    rcases within with none_ | fits
    · have same : slice buffer 0 total = [] := by
        rw [none_]
        rfl
      rw [same] at wrote
      obtain ⟨requests, grown, rfl⟩ := wrote
      rw [overwrite_nil]
      exact ⟨kept_device grown, confined_refl _ _ _, sound_requested sound ⟨requests, grown, rfl⟩⟩
    · rw [data] at wrote fits
      exact sound_wrote sound here notMap (by rw [slice_length]; exact fits) wrote
  obtain ⟨keeps, confined, again⟩ := kept
  exact ⟨counted, keeps, confined, again, wrote⟩

/-- `file_write` to any file but the free map's. -/
theorem file_write_returns (sound : Sound inodes fs held extra)
    (present : fs.files file = some handle) (reached : fs.inodes handle.inode = some target)
    (notMap : target.sector ≠ freeMapSector) (buffer : Nat → Byte) (size : Int) :
    Returns (fileWrite file buffer size) fs fun total next =>
      total = (if target.denyWriteCnt ≠ 0 then 0 else transferred (fs.memory fs.requests)
        handle.pos (available target.data size handle.pos)) ∧
      Steady fs next ∧ Sound inodes next held extra ∧
      Confined {target.sector} inodes fs.disk next.disk ∧
      next.inodes = fs.inodes ∧
      next.disk = overwrite fs.disk (dataBase target.data + handle.pos) (slice buffer 0 total) ∧
      next.files = Function.update fs.files file
        (some { handle with pos := handle.pos + total }) := by
  unfold fileWrite
  apply returns_bind (file_at_returns present)
  rintro handle fs ⟨rfl, rfl⟩
  apply returns_bind (inode_write_sound sound reached notMap buffer size handle.pos)
  rintro total written ⟨counted, _, confined, again, requests, grown, rfl⟩
  apply returns_modify
  apply returns_pure
  exact ⟨counted, steady_inodes rfl rfl rfl grown rfl, sound_position again present _, confined, rfl,
    rfl, rfl⟩

theorem file_seek_returns (sound : Sound inodes fs held extra)
    (present : fs.files file = some handle) {newPos : Int} (nonneg : 0 ≤ newPos) :
    Returns (fileSeek file newPos) fs fun _ next =>
      Sound inodes next held extra ∧ next = { fs with
        files := Function.update fs.files file (some { handle with pos := newPos.toNat }) } := by
  unfold fileSeek
  rw [if_neg (by omega)]
  apply returns_bind (file_at_returns present)
  rintro handle fs ⟨rfl, rfl⟩
  apply returns_modify_last
  exact ⟨sound_position sound present _, rfl⟩

end Transfers

end UtSystems.Filesys.OpenFiles

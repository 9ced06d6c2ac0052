import UtSystems.Filesys.StoreCalls
import UtSystems.Lib.FileStore

/-!
# The file system as a store of files

From a freshly formatted device on, and with memory to spare, the calls of filesys.c and file.c on
names and open files answer as a store of files does: names refer to files, open files have
positions of their own, and a file that is removed lives on for those who have it open. What
shows in the store are the entries of the root directory, the bytes on the device, and the open
files.
-/

namespace UtSystems.Filesys.StoreRefinement

open Lib.Bytes Lib.Effects Lib.FileStore Filesys.Volume Filesys.InodeData Filesys.FreeMap
open Filesys.Inode Filesys.Directory Filesys.Ownership
open Filesys.Consistency (Calm deniers)
open Filesys.OpenFiles (map_handle)
open Filesys.Entries Filesys.Format
open Filesys.SectorOwners (IdeAccepts)
open Filesys.ByteArrays (arrayRead arrayRoom arrayWrite)
open Filesys.DirectoryMap Filesys.NamedContents Filesys.StoreCalls

set_option autoImplicit false

/-- Files are known by the sectors of their inodes, and open files by their addresses. -/
abbrev Files := Store Name Nat Ptr Byte

/-- What an open file is on; the free map's is not for users. -/
def openedAt (fs : FileSys) (file : Ptr) : Option (Handle Nat) :=
  if fs.freeMapFile = some file then none
  else (fs.files file).bind fun handle => (fs.inodes handle.inode).map fun inode =>
    { file := inode.sector, pos := handle.pos, denies := handle.denyWrite }

structure Shows (fs : FileSys) (store : Files) : Prop where
  ready : ∃ inodes, Ready inodes fs
  names : Represents rootPlace fs.disk store.names
  opened : store.opened = openedAt fs
  content : ∀ file, store.Used file → store.content file = some (contents fs.disk file)
  sound : Lib.FileStore.Sound store

/-- A call of a user of the file system, with the arguments of the function. -/
inductive Request where
  | create (name : Name) (initialSize : Word)
  | open_ (name : Name)
  | remove (name : Name)
  | read (file : Ptr) (size : Int)
  | write (file : Ptr) (buffer : Nat → Byte) (size : Int)
  | seek (file : Ptr) (newPos : Int)
  | tell (file : Ptr)
  | length (file : Ptr)
  | denyWrite (file : Ptr)
  | allowWrite (file : Ptr)
  | close (file : Ptr)

def Request.perform : Request → FsM (Answer Ptr Byte)
  | .create name initialSize => return .success (← filesysCreate name initialSize)
  | .open_ name => return .opened (← filesysOpen (some name))
  | .remove name => return .success (← filesysRemove name)
  | .read file size => return .cells (← fileRead file size)
  | .write file buffer size => return .count (← fileWrite file buffer size)
  | .seek file newPos => do
      fileSeek file newPos
      return .done
  | .tell file => return .count (← fileTell file)
  | .length file => return .count (← fileLength file).toNat
  | .denyWrite file => do
      fileDenyWrite (some file)
      return .done
  | .allowWrite file => do
      fileAllowWrite file
      return .done
  | .close file => do
      fileClose (some file)
      return .done

/-- What the call asks of the store. -/
def Request.call : Request → Call Name Ptr Byte
  | .create name initialSize => .create name (List.replicate initialSize.toInt.toNat 0)
  | .open_ name => .open_ name
  | .remove name => .remove name
  | .read file size => .read file size.toNat
  | .write file buffer size => .write file (slice buffer 0 size.toNat)
  | .seek file newPos => .seek file newPos.toNat
  | .tell file => .tell file
  | .length file => .length file
  | .denyWrite file => .denyWrite file
  | .allowWrite file => .allowWrite file
  | .close file => .close file

/-- The file is open, and not the free map's. -/
def IsOpen (fs : FileSys) (file : Ptr) : Prop :=
  (∃ handle, fs.files file = some handle) ∧ fs.freeMapFile ≠ some file

/-- A string has no null byte, and the assertions on lengths and positions are met. -/
def Request.Allowed (fs : FileSys) : Request → Prop
  | .create name initialSize => 0 ≤ initialSize.toInt ∧ (0 : Byte) ∉ name
  | .open_ _ | .remove _ => True
  | .seek file newPos => IsOpen fs file ∧ 0 ≤ newPos
  | .read file _ | .write file .. | .tell file | .length file | .denyWrite file | .allowWrite file
  | .close file => IsOpen fs file

section Showing

variable {inodes : Set Nat} {fs next : FileSys} {store : Files} {file : Ptr}

theorem opened_at {handle : File} {target : Volume.Inode} (notMap : fs.freeMapFile ≠ some file)
    (here : fs.files file = some handle) (reached : fs.inodes handle.inode = some target) :
    openedAt fs file =
      some { file := target.sector, pos := handle.pos, denies := handle.denyWrite } := by
  unfold openedAt
  rw [if_neg notMap, here, Option.bind_some, reached, Option.map_some]

theorem opened_at_some {found : Handle Nat} (open_ : openedAt fs file = some found) :
    ∃ handle target, fs.freeMapFile ≠ some file ∧ fs.files file = some handle ∧
      fs.inodes handle.inode = some target ∧
      found = { file := target.sector, pos := handle.pos, denies := handle.denyWrite } := by
  unfold openedAt at open_
  split at open_
  · cases open_
  · next notMap =>
      cases here : fs.files file with
      | none =>
          rw [here] at open_
          cases open_
      | some handle =>
          rw [here, Option.bind_some] at open_
          cases reached : fs.inodes handle.inode with
          | none =>
              rw [reached] at open_
              cases open_
          | some target =>
              rw [reached, Option.map_some] at open_
              exact ⟨handle, target, notMap, rfl, reached, (Option.some.inj open_).symm⟩

/-- Files in use are inodes of their own. -/
theorem used_place (shows_ : Shows fs store) (ready : Ready inodes fs) {file : Nat}
    (used : store.Used file) :
    file ∈ inodes ∧ file ≠ freeMapSector ∧ file ≠ rootDirSector := by
  cases used with
  | inl named =>
      obtain ⟨name, isFile⟩ := named
      obtain ⟨index, names, _⟩ := (shows_.names.mapped name file).mp isFile
      obtain ⟨inside, notMap, notRoot, _⟩ := ready.catalog.named index file names
      exact ⟨inside, notMap, notRoot⟩
  | inr open_ =>
      obtain ⟨key, found, there, isFile⟩ := open_
      rw [shows_.opened] at there
      obtain ⟨handle, target, notMap, here, reached, isFound⟩ := opened_at_some there
      rw [isFound] at isFile
      rw [← isFile]
      exact ⟨ready.sound.live _ _ reached, map_handle ready.sound notMap here reached,
        ready.catalog.noFile key handle target here reached⟩

/-- An open file that has not been touched is on the file it was on. -/
theorem opened_at_same {rest : Set Nat} (ready : Ready inodes fs) (after : Ready rest next)
    (calm : Calm fs next) (same : next.files file = fs.files file) :
    openedAt next file = openedAt fs file := by
  unfold openedAt
  rw [calm.freeMapFile, same]
  split
  · rfl
  · cases here : fs.files file with
    | none => rfl
    | some handle =>
        obtain ⟨target, reached⟩ := ready.sound.reached file handle trivial here
        obtain ⟨found, there⟩ :=
          after.sound.reached file handle trivial (by rw [same]; exact here)
        obtain ⟨was, wasHere, sector⟩ :=
          calm.older _ found there (ready.sound.refersOld file handle here)
        rw [reached] at wasHere
        cases wasHere
        rw [Option.bind_some, Option.bind_some, reached, there, Option.map_some, Option.map_some,
          sector]

theorem opened_at_kept {rest : Set Nat} (ready : Ready inodes fs) (after : Ready rest next)
    (calm : Calm fs next) (files : next.files = fs.files) : openedAt next = openedAt fs := by
  funext file
  exact opened_at_same ready after calm (by rw [files])

/-- One open file has been changed or closed. -/
theorem opened_at_update {rest : Set Nat} {change : Option File} (ready : Ready inodes fs)
    (after : Ready rest next) (calm : Calm fs next)
    (files : next.files = Function.update fs.files file change) :
    openedAt next = Function.update (openedAt fs) file (openedAt next file) := by
  funext other
  by_cases same : other = file
  · rw [same, Function.update_self]
  · rw [Function.update_of_ne same]
    exact opened_at_same ready after calm (by rw [files, Function.update_of_ne same])

theorem shows_open (shows_ : Shows fs store) (ready : Ready inodes fs) (open_ : IsOpen fs file) :
    ∃ handle target, fs.files file = some handle ∧ fs.inodes handle.inode = some target ∧
      store.opened file =
        some { file := target.sector, pos := handle.pos, denies := handle.denyWrite } ∧
      store.content target.sector = some (contents fs.disk target.sector) := by
  obtain ⟨⟨handle, here⟩, notMap⟩ := open_
  obtain ⟨target, reached⟩ := ready.sound.reached file handle trivial here
  have opened := opened_at notMap here reached
  rw [← shows_.opened] at opened
  exact ⟨handle, target, here, reached, opened, shows_.content _ (used_opened opened)⟩

/-- The count of the inode says whether somebody denies writes to the file. -/
theorem denied_iff (shows_ : Shows fs store) (ready : Ready inodes fs) {inode : Ptr}
    {target : Volume.Inode} (reached : fs.inodes inode = some target) :
    target.denyWriteCnt ≠ 0 ↔ store.Denied target.sector := by
  have counted := (ready.sound.counted inode target reached).denied
  have finite : (deniers fs Set.univ inode).Finite :=
    (Consistency.holders_finite ready.sound.toTable inode).subset (Consistency.deniers_subset inode)
  have some_ : target.denyWriteCnt ≠ 0 ↔ (deniers fs Set.univ inode).Nonempty := by
    rw [counted, ← Set.ncard_pos finite]
    omega
  rw [some_]
  unfold Store.Denied
  rw [shows_.opened]
  constructor
  · intro nonempty
    obtain ⟨file, _, handle, here, refers, denies⟩ := nonempty
    have notMap : fs.freeMapFile ≠ some file := by
      intro isMap
      obtain ⟨map, mapHandle, _, named, _, mapHere, allows, _⟩ := ready.sound.mapFile
      rw [isMap] at named
      cases named
      rw [here] at mapHere
      cases mapHere
      rw [allows] at denies
      cases denies
    rw [← refers] at reached
    exact ⟨file, _, opened_at notMap here reached, rfl, denies⟩
  · intro denied
    obtain ⟨file, found, there, isFile, denies⟩ := denied
    obtain ⟨handle, its, _, here, itsHere, isFound⟩ := opened_at_some there
    rw [isFound] at isFile denies
    exact ⟨file, trivial, handle, here,
      ready.sound.sectorApart _ _ its target itsHere reached isFile, denies⟩

variable {call : Call Name Ptr Byte} {answer : Answer Ptr Byte} {after : Files}

/-- A step of the store that the file system has followed. -/
theorem shows_step {touched : Set Nat} (shows_ : Shows fs store) (ready : Ready inodes fs)
    (step : Step store call answer after) (went : Went inodes touched fs next)
    (names : Represents rootPlace next.disk after.names) (opened : after.opened = openedAt next)
    (changed : ∀ file, after.Used file → (store.Used file → call.Writes store file) →
      after.content file = some (contents next.disk file))
    (spared : ∀ file, store.Used file → ¬call.Writes store file → file ∉ touched) :
    Shows next after := by
  refine ⟨went.ready, names, opened, ?_, step_sound shows_.sound step⟩
  intro file used
  by_cases mine : store.Used file → call.Writes store file
  · exact changed file used mine
  · obtain ⟨before, unwritten⟩ := Classical.not_imp.mp mine
    rw [step_content shows_.sound step before used unwritten, shows_.content file before,
      went.confined.data file (used_place shows_ ready before).1 (spared file before unwritten)]

end Showing

section Calls

variable {inodes : Set Nat} {fs : FileSys} {store : Files} {name : Name} {file : Ptr}

/-- The call is answered as the store may answer it, and shows in the store so. -/
def Follows (store : Files) (call : Call Name Ptr Byte) (answer : Answer Ptr Byte)
    (next : FileSys) : Prop :=
  ∃ after, Step store call answer after ∧ Shows next after

theorem reserved_spared (shows_ : Shows fs store) (ready : Ready inodes fs) {file : Nat}
    (used : store.Used file) : file ∉ ({freeMapSector, rootDirSector} : Set Nat) := by
  obtain ⟨_, notMap, notRoot⟩ := used_place shows_ ready used
  intro reserved
  cases reserved with
  | inl isMap => exact notMap isMap
  | inr isRoot => exact notRoot isRoot

theorem create_follows {length : Word} (shows_ : Shows fs store) (nonneg : 0 ≤ length.toInt)
    (noNul : (0 : Byte) ∉ name) :
    Returns (filesysCreate name length) fs fun result next =>
      Follows store (.create name (List.replicate length.toInt.toNat 0)) (.success result) next ∧
        (result = false → ¬(Free store.names name ∧ Roomy fs (bytesToSectors length.toInt))) := by
  obtain ⟨inodes, ready⟩ := shows_.ready
  refine returns_mono (filesys_create_went ready shows_.names nonneg noNul) ?_
  intro result next after
  obtain ⟨files, outcome⟩ := after
  cases result with
  | true =>
      obtain ⟨sector, adds⟩ := outcome
      obtain ⟨rest, readyNext⟩ := adds.went.ready
      have unused : ¬store.Used sector := fun used => adds.new (used_place shows_ ready used).1
      have fresh : store.content sector = none := by
        by_contra holds
        exact unused ((shows_.sound.stored sector).mp holds)
      refine ⟨⟨_, .created adds.absent fresh, ?_⟩, fun impossible => by cases impossible⟩
      refine shows_step shows_ ready (.created adds.absent fresh) adds.went adds.represents ?_ ?_
        fun file used _ => reserved_spared shows_ ready used
      · exact shows_.opened.trans (opened_at_kept ready readyNext adds.went.calm files).symm
      · intro file used unwritten
        cases (used_created adds.absent).mp used with
        | inl isNew =>
            rw [isNew, adds.zero]
            exact Function.update_self ..
        | inr old => exact absurd (unwritten old) id
  | false =>
      obtain ⟨represents, went, why⟩ := outcome
      obtain ⟨rest, readyNext⟩ := went.ready
      have step : Step store (.create name (List.replicate length.toInt.toNat 0))
          (.success false) store := .notCreated
      refine ⟨⟨store, step, ?_⟩, fun _ => why⟩
      refine shows_step shows_ ready step went represents ?_
        (fun file used unwritten => absurd (unwritten used) id)
        fun file used _ => reserved_spared shows_ ready used
      exact shows_.opened.trans (opened_at_kept ready readyNext went.calm files).symm

theorem remove_follows (shows_ : Shows fs store) :
    Returns (filesysRemove name) fs fun result next =>
      Follows store (.remove name) (.success result) next := by
  obtain ⟨inodes, ready⟩ := shows_.ready
  refine returns_mono (filesys_remove_went ready shows_.names) ?_
  intro result next after
  obtain ⟨files, went, outcome⟩ := after
  obtain ⟨rest, readyNext⟩ := went.ready
  have opened := shows_.opened.trans (opened_at_kept ready readyNext went.calm files).symm
  cases result with
  | true =>
      obtain ⟨named, represents⟩ := outcome
      cases isFile : store.names name with
      | none => exact absurd isFile named
      | some sector =>
          refine ⟨_, .removed isFile, ?_⟩
          refine shows_step shows_ ready (.removed isFile) went represents opened ?_
            fun file used _ => reserved_spared shows_ ready used
          intro file used unwritten
          exact absurd (unwritten (used_set_name used)) id
  | false =>
      obtain ⟨absent, represents⟩ := outcome
      refine ⟨store, .notRemoved absent, ?_⟩
      exact shows_step shows_ ready (.notRemoved absent) went represents opened
        (fun file used unwritten => absurd (unwritten used) id)
        fun file used _ => reserved_spared shows_ ready used

theorem same_went {next : FileSys} (same : Same fs next) (readyNext : Ready inodes next) :
    Went inodes ∅ fs next := by
  refine ⟨same.steady.toCalm, ⟨inodes, readyNext⟩, ?_⟩
  rw [same.disk]
  exact confined_refl _ _ _

theorem open_follows (shows_ : Shows fs store) :
    Returns (filesysOpen (some name)) fs fun result next =>
      Follows store (.open_ name) (.opened result) next := by
  obtain ⟨inodes, ready⟩ := shows_.ready
  refine returns_mono (filesys_open_went ready shows_.names) ?_
  intro result next after
  obtain ⟨same, readyNext, outcome⟩ := after
  have went := same_went same readyNext
  have names : Represents rootPlace next.disk store.names := by
    rw [same.disk]
    exact shows_.names
  cases result with
  | none =>
      obtain ⟨absent, files⟩ := outcome
      refine ⟨store, .notOpened absent, ?_⟩
      exact shows_step shows_ ready (.notOpened absent) went names
        (shows_.opened.trans (opened_at_kept ready readyNext went.calm files).symm)
        (fun file used unwritten => absurd (unwritten used) id) fun _ _ _ => Set.notMem_empty _
  | some file =>
      obtain ⟨sector, isFile, adding⟩ := outcome
      obtain ⟨inode, target, files, reached, isSector⟩ := adding.opened
      have free : store.opened file = none := by
        rw [shows_.opened]
        unfold openedAt
        rw [adding.free, Option.bind_none, ite_self]
      have here : openedAt next file = some { file := sector, pos := 0, denies := false } := by
        rw [opened_at adding.notMap (by rw [files, Function.update_self]) reached, isSector]
      refine ⟨_, .opened isFile free, ?_⟩
      refine shows_step shows_ ready (.opened isFile free) went names ?_ ?_
        fun _ _ _ => Set.notMem_empty _
      · rw [opened_at_update ready readyNext went.calm files, here, ← shows_.opened]
        rfl
      · intro other used unwritten
        have before := (used_new_handle free (.inl ⟨name, isFile⟩)).mp used
        exact absurd (unwritten before) id

/-- A call that changes nothing but one open file, which stays on its file. -/
theorem handle_follows {next : FileSys} {call : Call Name Ptr Byte} {answer : Answer Ptr Byte}
    {handle change : File} {target : Volume.Inode} {found : Handle Nat}
    (shows_ : Shows fs store) (ready : Ready inodes fs) (went : Went inodes ∅ fs next)
    (disk : next.disk = fs.disk) (notMap : fs.freeMapFile ≠ some file)
    (here : fs.files file = some handle) (reached : fs.inodes handle.inode = some target)
    (files : next.files = Function.update fs.files file (some change))
    (refers : change.inode = handle.inode)
    (isFound : found = { file := target.sector, pos := change.pos, denies := change.denyWrite })
    (step : Step store call answer (store.setHandle file (some found)))
    (quiet : ∀ file, ¬call.Writes store file) : Follows store call answer next := by
  obtain ⟨rest, readyNext⟩ := went.ready
  have changed : next.files file = some change := by rw [files, Function.update_self]
  obtain ⟨its, itsHere⟩ := readyNext.sound.reached file change trivial changed
  have itsOld := itsHere
  rw [refers] at itsOld
  obtain ⟨was, wasHere, sector⟩ :=
    went.calm.older _ its itsOld (ready.sound.refersOld file handle here)
  rw [reached] at wasHere
  cases wasHere
  have opened : openedAt next file = some found := by
    rw [opened_at (by rw [went.calm.freeMapFile]; exact notMap) changed itsHere, isFound, sector]
  have before : store.opened file =
      some { file := target.sector, pos := handle.pos, denies := handle.denyWrite } := by
    rw [shows_.opened]
    exact opened_at notMap here reached
  refine ⟨_, step, shows_step shows_ ready step went ?_ ?_ ?_ fun _ _ _ => Set.notMem_empty _⟩
  · rw [disk]
    exact shows_.names
  · rw [opened_at_update ready readyNext went.calm files, opened, ← shows_.opened]
    rfl
  · intro other used unwritten
    have earlier := (used_set_handle before (by rw [isFound])).mp used
    exact absurd (unwritten earlier) (quiet other)

theorem read_follows (shows_ : Shows fs store) (open_ : IsOpen fs file) (size : Int) :
    Returns (fileRead file size) fs fun bytes next =>
      Follows store (.read file size.toNat) (.cells bytes) next := by
  obtain ⟨inodes, ready⟩ := shows_.ready
  obtain ⟨handle, target, here, reached, opened, holds⟩ := shows_open shows_ ready open_
  refine returns_mono (file_read_went ready here open_.2 reached size) ?_
  intro bytes next after
  obtain ⟨delivered, went, disk, _, files⟩ := after
  have isRead : bytes = readFrom (contents fs.disk target.sector) size.toNat handle.pos := delivered
  rw [isRead] at files ⊢
  exact handle_follows shows_ ready went disk open_.2 here reached files rfl rfl
    (.read opened holds) fun _ writes => writes

theorem seek_follows (shows_ : Shows fs store) (open_ : IsOpen fs file) {newPos : Int}
    (nonneg : 0 ≤ newPos) :
    Returns (fileSeek file newPos) fs fun _ next =>
      Follows store (.seek file newPos.toNat) .done next := by
  obtain ⟨inodes, ready⟩ := shows_.ready
  obtain ⟨handle, target, here, reached, opened, _⟩ := shows_open shows_ ready open_
  refine returns_mono (file_seek_went ready here open_.2 nonneg) ?_
  intro _ next after
  obtain ⟨went, disk, _, files⟩ := after
  exact handle_follows shows_ ready went disk open_.2 here reached files rfl rfl (.sought opened)
    fun _ writes => writes

theorem flag_follows (shows_ : Shows fs store) (open_ : IsOpen fs file) (flag : Bool) :
    Returns (if flag then fileDenyWrite (some file) else fileAllowWrite file) fs fun _ next =>
      Follows store (if flag then .denyWrite file else .allowWrite file) .done next := by
  obtain ⟨inodes, ready⟩ := shows_.ready
  obtain ⟨handle, target, here, reached, opened, _⟩ := shows_open shows_ ready open_
  refine returns_mono (file_flag_went ready here open_.2 flag) ?_
  intro _ next after
  obtain ⟨went, disk, files⟩ := after
  cases flag with
  | true =>
      exact handle_follows shows_ ready went disk open_.2 here reached files rfl rfl
        (.denies opened) fun _ writes => writes
  | false =>
      exact handle_follows shows_ ready went disk open_.2 here reached files rfl rfl
        (.allows opened) fun _ writes => writes

/-- What a write writes is the part of the buffer that the file has room for. -/
theorem array_write_cells (content : List Byte) (buffer : Nat → Byte) (size : Int) (pos : Nat) :
    arrayWrite content buffer size pos = writeTo content (slice buffer 0 size.toNat) pos := by
  unfold arrayWrite writeTo arrayRoom slice
  rw [← List.map_take, List.take_range]
  congr 3
  omega

theorem write_follows (shows_ : Shows fs store) (open_ : IsOpen fs file) (buffer : Nat → Byte)
    (size : Int) :
    Returns (fileWrite file buffer size) fs fun written next =>
      Follows store (.write file (slice buffer 0 size.toNat)) (.count written) next := by
  obtain ⟨inodes, ready⟩ := shows_.ready
  obtain ⟨handle, target, here, reached, opened, holds⟩ := shows_open shows_ ready open_
  refine returns_mono (file_write_went ready here open_.2 reached buffer size) ?_
  intro written next after
  obtain ⟨counted, went, whole, table, files⟩ := after
  obtain ⟨rest, readyNext⟩ := went.ready
  obtain ⟨_, notMap, notRoot⟩ := used_place shows_ ready (used_opened opened)
  have notMapNext : next.freeMapFile ≠ some file := by
    rw [went.calm.freeMapFile]
    exact open_.2
  have names : Represents rootPlace next.disk store.names := by
    refine represents_congr shows_.names fun index inside => ?_
    exact entry_at_congr ready.catalog.sized (went.confined.inode _ ready.catalog.dirIn)
      (went.confined.data _ ready.catalog.dirIn fun same => notRoot same.symm) inside
  have openedNext : openedAt next file = some
      { file := target.sector, pos := handle.pos + written, denies := handle.denyWrite } :=
    opened_at notMapNext (by rw [files, Function.update_self]) (by rw [table]; exact reached)
  have updated := opened_at_update ready readyNext went.calm files
  rw [openedNext, ← shows_.opened] at updated
  by_cases denied : target.denyWriteCnt ≠ 0
  · rw [if_pos denied] at counted whole
    rw [counted] at updated ⊢
    have step : Step store (.write file (slice buffer 0 size.toNat)) (.count 0) store :=
      .refused opened ((denied_iff shows_ ready reached).mp denied)
    refine ⟨store, step, shows_step shows_ ready step went names ?_ ?_ ?_⟩
    · rw [updated, Nat.add_zero, ← opened, Function.update_eq_self]
    · intro other used writes
      obtain ⟨found, there, isFile⟩ := writes used
      rw [opened] at there
      cases there
      rw [← isFile, whole]
      exact holds
    · intro other used unwritten same
      exact unwritten ⟨_, opened, same.symm⟩
  · rw [if_neg denied] at counted whole
    have allowed : ¬store.Denied target.sector :=
      fun is_ => denied ((denied_iff shows_ ready reached).mpr is_)
    have room : written = min (slice buffer 0 size.toNat).length
        ((contents fs.disk target.sector).length - handle.pos) := by
      rw [counted, slice_length]
      rfl
    rw [room] at updated ⊢
    have step := @Step.written _ _ _ _ _ _ _ store file _ _ (slice buffer 0 size.toNat) opened
      holds allowed
    refine ⟨_, step, shows_step shows_ ready step went names updated.symm ?_ ?_⟩
    · intro other used writes
      have before := (used_written opened (by rfl)).mp used
      obtain ⟨found, there, isFile⟩ := writes before
      rw [opened] at there
      cases there
      rw [← isFile, whole, array_write_cells]
      exact Function.update_self ..
    · intro other used unwritten same
      exact unwritten ⟨_, opened, same.symm⟩

theorem close_follows (shows_ : Shows fs store) (open_ : IsOpen fs file) :
    Returns (fileClose (some file)) fs fun _ next => Follows store (.close file) .done next := by
  obtain ⟨inodes, ready⟩ := shows_.ready
  obtain ⟨handle, target, here, reached, opened, _⟩ := shows_open shows_ ready open_
  refine returns_mono (file_close_went ready here open_.2) ?_
  intro _ next after
  obtain ⟨went, confined, files⟩ := after
  obtain ⟨rest, readyNext⟩ := went.ready
  have closed : openedAt next file = none := by
    unfold openedAt
    rw [files, Function.update_self, Option.bind_none, ite_self]
  have step := Step.closed opened
  refine ⟨_, step, shows_step shows_ ready step went ?_ ?_ ?_ ?_⟩
  · exact represents_confined shows_.names ready.catalog confined
  · rw [opened_at_update ready readyNext went.calm files, closed, ← shows_.opened]
    rfl
  · intro other used unwritten
    exact absurd (unwritten (used_closed used)) id
  · intro other used _
    exact reserved_spared shows_ ready used

/-- A call that only looks at an open file. -/
theorem look_follows {call : Call Name Ptr Byte} {answer : Answer Ptr Byte}
    (shows_ : Shows fs store) (step : Step store call answer store) : Follows store call answer fs :=
  ⟨store, step, shows_⟩

theorem tell_follows (shows_ : Shows fs store) (open_ : IsOpen fs file) :
    Returns (fileTell file) fs fun pos next => Follows store (.tell file) (.count pos) next := by
  obtain ⟨inodes, ready⟩ := shows_.ready
  obtain ⟨handle, target, here, _, opened, _⟩ := shows_open shows_ ready open_
  unfold fileTell
  apply returns_bind (file_at_returns here)
  intro found next after
  rw [after.1, after.2]
  exact returns_pure (look_follows shows_ (.told opened))

theorem length_follows (shows_ : Shows fs store) (open_ : IsOpen fs file) :
    Returns (fileLength file) fs fun length next =>
      Follows store (.length file) (.count length.toNat) next ∧ 0 ≤ length := by
  obtain ⟨inodes, ready⟩ := shows_.ready
  obtain ⟨handle, target, here, reached, opened, holds⟩ := shows_open shows_ ready open_
  have inside := (used_place shows_ ready (used_opened opened)).1
  have length := contents_length ready inside
  unfold fileLength
  apply returns_bind (file_at_returns here)
  intro found next after
  rw [after.1, after.2]
  apply returns_bind (inode_at_returns reached)
  intro its last after
  rw [after.1, after.2]
  apply returns_pure
  have counted : (inodeLength target.data).toNat = (contents fs.disk target.sector).length := by
    rw [ready.sound.loaded _ _ reached, ← length]
    rfl
  rw [counted]
  refine ⟨look_follows shows_ (.measured opened holds), ?_⟩
  rw [ready.sound.loaded _ _ reached]
  exact Int.le_trans (Int.natCast_nonneg _) (Int.le_of_eq length)

/-- A file that cannot be created has no valid new name, no entry or no room on the device. -/
def Request.Excused (fs : FileSys) (store : Files) : Request → Answer Ptr Byte → Prop
  | .create name initialSize, .success false =>
      ¬(Free store.names name ∧ Roomy fs (bytesToSectors initialSize.toInt))
  | _, _ => True

theorem perform_follows {request : Request} (shows_ : Shows fs store)
    (allowed : request.Allowed fs) :
    Returns request.perform fs fun answer next =>
      Follows store request.call answer next ∧ request.Excused fs store answer := by
  cases request with
  | create name length =>
      apply returns_bind (create_follows shows_ allowed.1 allowed.2)
      intro result next after
      obtain ⟨follows, why⟩ := after
      apply returns_pure
      refine ⟨follows, ?_⟩
      cases result with
      | true => trivial
      | false => exact why rfl
  | open_ name =>
      apply returns_bind (open_follows shows_)
      intro result next follows
      exact returns_pure ⟨follows, trivial⟩
  | remove name =>
      apply returns_bind (remove_follows shows_)
      intro result next follows
      exact returns_pure ⟨follows, trivial⟩
  | read file size =>
      apply returns_bind (read_follows shows_ allowed size)
      intro bytes next follows
      exact returns_pure ⟨follows, trivial⟩
  | write file buffer size =>
      apply returns_bind (write_follows shows_ allowed buffer size)
      intro written next follows
      exact returns_pure ⟨follows, trivial⟩
  | seek file newPos =>
      apply returns_bind (seek_follows shows_ allowed.1 allowed.2)
      intro _ next follows
      exact returns_pure ⟨follows, trivial⟩
  | tell file =>
      apply returns_bind (tell_follows shows_ allowed)
      intro pos next follows
      exact returns_pure ⟨follows, trivial⟩
  | length file =>
      apply returns_bind (length_follows shows_ allowed)
      intro length next after
      exact returns_pure ⟨after.1, trivial⟩
  | denyWrite file =>
      apply returns_bind (flag_follows shows_ allowed true)
      intro _ next follows
      exact returns_pure ⟨follows, trivial⟩
  | allowWrite file =>
      apply returns_bind (flag_follows shows_ allowed false)
      intro _ next follows
      exact returns_pure ⟨follows, trivial⟩
  | close file =>
      apply returns_bind (close_follows shows_ allowed)
      intro _ next follows
      exact returns_pure ⟨follows, trivial⟩

end Calls

/-- Requests with their answers, one after the other. -/
inductive Serves : FileSys → List (Request × Answer Ptr Byte) → FileSys → Prop where
  | nil {fs : FileSys} : Serves fs [] fs
  | cons {fs next last : FileSys} {request : Request} {answer : Answer Ptr Byte}
      {rest : List (Request × Answer Ptr Byte)} (allowed : request.Allowed fs)
      (ran : request.perform fs = .ok answer next) (later : Serves next rest last) :
      Serves fs ((request, answer) :: rest) last

/-- What the store is asked and answers. -/
def calls (served : List (Request × Answer Ptr Byte)) : List (Call Name Ptr Byte × Answer Ptr Byte) :=
  served.map fun entry => (entry.1.call, entry.2)

def emptyStore : Files where
  names := fun _ => none
  content := fun _ => none
  opened := fun _ => none

theorem serves_follows {fs last : FileSys} {served : List (Request × Answer Ptr Byte)} {store : Files}
    (shows_ : Shows fs store) (run : Serves fs served last) :
    ∃ after, Runs store (calls served) after ∧ Shows last after := by
  induction run generalizing store with
  | nil => exact ⟨store, .nil, shows_⟩
  | cons allowed ran later ih =>
      obtain ⟨⟨middle, step, showing⟩, _⟩ := returns_ok (perform_follows shows_ allowed) ran
      obtain ⟨after, rest, ends⟩ := ih showing
      exact ⟨after, .cons step rest, ends⟩

/-- A device that has just been formatted shows an empty store. -/
theorem formatted_shows {size : Nat} {disk : Disk} {memory : Nat → Bool} {fs : FileSys}
    (small : size < 2 ^ 21) (plenty : ∀ request, memory request = true)
    (ran : filesysInit true (powerUp size disk memory) = .ok () fs) : Shows fs emptyStore := by
  obtain ⟨⟨inodes, sound, catalog⟩, isMemory, _, only⟩ :=
    filesys_init_format_ensures size disk memory small _ _ ran
  obtain ⟨_, unused⟩ := PackedMap.format_fresh size disk memory small _ _ ran
  have none_ : ∀ file, openedAt fs file = none := by
    intro file
    unfold openedAt
    split
    · rfl
    · next notMap =>
        cases here : fs.files file with
        | none => rfl
        | some handle => exact absurd (only file handle here) notMap
  refine ⟨⟨inodes, ?_, sound, catalog⟩, represents_empty unused, (funext none_).symm, ?_, ?_⟩
  · intro request
    rw [isMemory]
    exact plenty request
  · intro file used
    cases used with
    | inl named =>
        obtain ⟨_, impossible⟩ := named
        cases impossible
    | inr open_ =>
        obtain ⟨_, _, impossible, _⟩ := open_
        cases impossible
  · refine ⟨?_, fun _ _ _ impossible => by cases impossible⟩
    intro file
    constructor
    · intro holds
      exact absurd rfl holds
    · intro used
      cases used with
      | inl named =>
          obtain ⟨_, impossible⟩ := named
          cases impossible
      | inr open_ =>
          obtain ⟨_, _, impossible, _⟩ := open_
          cases impossible

/-- With memory to spare, every run of calls from a formatted device is a run of the store with the
same answers, and what is on the device and open at its end is what is in the store. Every
further call returns, and creating a file fails only for a reason. -/
theorem filesys_serves_store {size : Nat} {disk : Disk} {memory : Nat → Bool} {fs last : FileSys}
    {served : List (Request × Answer Ptr Byte)} (accepted : IdeAccepts size)
    (plenty : ∀ request, memory request = true)
    (formatted : filesysInit true (powerUp size disk memory) = .ok () fs)
    (run : Serves fs served last) :
    ∃ store, Runs emptyStore (calls served) store ∧ Shows last store ∧
      ∀ request : Request, request.Allowed last → ∃ answer next,
        request.perform last = .ok answer next ∧ Follows store request.call answer next ∧
          request.Excused last store answer := by
  have small : size < 2 ^ 21 := by
    unfold IdeAccepts blockSectorSize at accepted
    omega
  obtain ⟨store, runs, showing⟩ := serves_follows (formatted_shows small plenty formatted) run
  refine ⟨store, runs, showing, ?_⟩
  intro request allowed
  obtain ⟨answer, next, ran, follows⟩ := perform_follows showing allowed
  exact ⟨answer, next, ran, follows⟩

/-- Formats a device, and creates and opens the file `a`. -/
def openNew : FsM (Bool × Bool) := do
  filesysInit true
  let success ← filesysCreate [0x61] 3
  let file ← filesysOpen (some [0x61])
  return (success, file.isSome)

theorem filesys_serves_store_open :
    ∃ fs last file, filesysInit true (powerUp 8 (fun _ => 0) fun _ => true) = .ok () fs ∧
      Serves fs [(.create [0x61] 3, .success true), (.open_ [0x61], .opened (some file))] last ∧
      ∃ store, Runs emptyStore (calls [(.create [0x61] 3, .success true),
        (.open_ [0x61], .opened (some file))]) store ∧ Shows last store := by
  have runs : openNew.run' (powerUp 8 (fun _ => 0) fun _ => true) = some (true, true) := by
    decide +kernel
  have accepted : IdeAccepts 8 := by
    unfold IdeAccepts blockSectorSize
    omega
  obtain ⟨last, ran⟩ := ok_of_run runs
  obtain ⟨_, fs, formatted, ran⟩ := bind_ok ran
  obtain ⟨success, middle, created, ran⟩ := bind_ok ran
  obtain ⟨found, ended, opened, ran⟩ := bind_ok ran
  cases found with
  | none => cases ran
  | some file =>
      cases ran
      have creates : (Request.create [0x61] 3).perform fs = .ok (.success true) middle :=
        bind_run created
      have opens : (Request.open_ [0x61]).perform middle = .ok (.opened (some file)) last :=
        bind_run opened
      have run : Serves fs [(.create [0x61] 3, .success true), (.open_ [0x61], .opened (some file))]
          last := .cons ⟨by decide, by decide⟩ creates (.cons trivial opens .nil)
      obtain ⟨store, ran, showing, _⟩ :=
        filesys_serves_store accepted (fun _ => rfl) formatted run
      exact ⟨fs, last, file, formatted, run, store, ran, showing⟩

end UtSystems.Filesys.StoreRefinement

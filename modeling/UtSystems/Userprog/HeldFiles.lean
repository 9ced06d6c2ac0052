import UtSystems.Userprog.Descriptors

/-!
# Which files are open for whom

Between two steps the file system is in order, every file that a process holds is open, and
no file is held twice. Two more facts are kept by the runs that deserve them: every open file
is held by somebody (`tidy`), and only executables of running processes deny writes (`exclusive`).
-/

namespace UtSystems.Userprog.HeldFiles

open Lib.Bytes Lib.Effects Filesys.Volume Filesys.InodeData Filesys.Inode Filesys.Directory
open Filesys.Consistency Filesys.NamedFiles Filesys.Entries Filesys.NamedInodes Userprog.Elf
open Userprog.Descriptors

set_option autoImplicit false

abbrev Ordered (fs : FileSys) : Prop := InOrder rootPlace fs fun _ => 0

/-- An operation has come back with the open files as they were. -/
structure Resting (base fs : FileSys) : Prop where
  order : Ordered fs
  calm : Calm base fs
  files : fs.files = base.files

/-- One file more is open, and does not deny writes. -/
structure Borrowed (base fs : FileSys) (file : Ptr) : Prop where
  order : Ordered fs
  calm : Calm base fs
  fresh : base.files file = none
  notMap : base.freeMapFile ≠ some file
  files : ∃ handle, handle.denyWrite = false ∧
    fs.files = Function.update base.files file (some handle)

section Borrowing

variable {base fs : FileSys} {file : Ptr}

theorem ordered_new (order : Ordered base) (new : base.requests ≤ file) :
    base.files file = none ∧ base.freeMapFile ≠ some file := by
  obtain ⟨inodes, sound, _⟩ := order
  constructor
  · by_contra present
    obtain ⟨handle, here⟩ := Option.ne_none_iff_exists'.mp present
    exact absurd (sound.fileOld file handle here) (Nat.not_lt.mpr new)
  · intro isMap
    obtain ⟨map, handle, _, named, _, here, _⟩ := sound.mapFile
    rw [isMap] at named
    cases named
    exact absurd (sound.fileOld _ handle here) (Nat.not_lt.mpr new)

theorem filesys_open_borrows (order : Ordered base) (name : Name) :
    Returns (filesysOpen (some name)) base fun result next =>
      match result with
      | none => Resting base next ∧
          (Plenty base → ∀ j < rootPlace.entries, ¬Matches rootPlace base.disk name j)
      | some file => Borrowed base next file ∧ NewFile base next name file := by
  apply returns_mono (filesys_open_returns order name)
  rintro (_ | file) next ⟨calm, after, result⟩
  · exact ⟨⟨after, calm, result.1⟩, result.2⟩
  · obtain ⟨fresh, notMap⟩ := ordered_new order result.fresh
    obtain ⟨inode, _, _, files, _⟩ := result.opened
    exact ⟨⟨after, calm, fresh, notMap, _, rfl, files⟩, result⟩

theorem borrowed_here (borrowed : Borrowed base fs file) :
    ∃ handle, handle.denyWrite = false ∧ fs.files file = some handle ∧
      fs.freeMapFile ≠ some file ∧ fs.files = Function.update base.files file (some handle) := by
  obtain ⟨handle, allows, files⟩ := borrowed.files
  refine ⟨handle, allows, ?_, ?_, files⟩
  · rw [files, Function.update_self]
  · rw [borrowed.calm.freeMapFile]
    exact borrowed.notMap

/-- The file has been moved about in. -/
theorem borrowed_moved {next : FileSys} {handle : File} (borrowed : Borrowed base fs file)
    (order : Ordered next) (calm : Calm fs next)
    (files : next.files = Function.update fs.files file (some handle))
    (allows : handle.denyWrite = false) : Borrowed base next file := by
  obtain ⟨was, _, before⟩ := borrowed.files
  refine ⟨order, calm_trans borrowed.calm calm, borrowed.fresh, borrowed.notMap, handle, allows, ?_⟩
  rw [files, before, Function.update_idem]

theorem borrowed_read (borrowed : Borrowed base fs file) (size : Int) :
    Returns (fileRead file size) fs fun _ next => Borrowed base next file := by
  obtain ⟨handle, allows, here, notMap, _⟩ := borrowed_here borrowed
  apply returns_mono (file_read_in_order borrowed.order here notMap size)
  rintro bytes _ ⟨after, requests, grown, rfl⟩
  have steady : Steady fs { fs with
      files := Function.update fs.files file
        (some { handle with pos := handle.pos + bytes.length })
      requests := requests } := steady_inodes rfl rfl rfl grown rfl
  exact borrowed_moved borrowed after steady.toCalm rfl allows

theorem borrowed_write (borrowed : Borrowed base fs file) (buffer : Nat → Byte) (size : Int) :
    Returns (fileWrite file buffer size) fs fun _ next => Borrowed base next file := by
  obtain ⟨handle, allows, here, notMap, _⟩ := borrowed_here borrowed
  apply returns_mono (file_write_in_order borrowed.order here notMap buffer size)
  rintro total next ⟨calm, after, _, files⟩
  exact borrowed_moved borrowed after calm files allows

theorem borrowed_seek (borrowed : Borrowed base fs file) (newPos : Nat) :
    Returns (fileSeek file newPos) fs fun _ next => Borrowed base next file := by
  obtain ⟨handle, allows, here, notMap, _⟩ := borrowed_here borrowed
  apply returns_mono (file_seek_in_order borrowed.order here notMap (Int.natCast_nonneg newPos))
  rintro _ _ ⟨after, rfl⟩
  have steady : Steady fs { fs with
      files := Function.update fs.files file
        (some { handle with pos := (newPos : Int).toNat }) } :=
    steady_inodes rfl rfl rfl (Nat.le_refl _) rfl
  exact borrowed_moved borrowed after steady.toCalm rfl allows

theorem file_length_returns {handle : File} (order : Ordered fs) (here : fs.files file = some handle) :
    ∃ target, fs.inodes handle.inode = some target ∧
      Returns (fileLength file) fs fun length next =>
        next = fs ∧ length = inodeLength target.data := by
  obtain ⟨inodes, sound, _⟩ := order
  obtain ⟨target, reached⟩ := sound.reached file handle trivial here
  refine ⟨target, reached, ?_⟩
  unfold fileLength
  apply returns_bind (file_at_returns here)
  rintro _ _ ⟨rfl, rfl⟩
  apply returns_bind (inode_at_returns reached)
  rintro _ _ ⟨rfl, rfl⟩
  exact returns_pure ⟨rfl, rfl⟩

theorem borrowed_length (borrowed : Borrowed base fs file) :
    Returns (fileLength file) fs fun _ next => Borrowed base next file := by
  obtain ⟨handle, _, here, _⟩ := borrowed_here borrowed
  obtain ⟨_, _, ran⟩ := file_length_returns borrowed.order here
  apply returns_mono ran
  rintro _ _ ⟨rfl, _⟩
  exact borrowed

theorem borrowed_close (borrowed : Borrowed base fs file) :
    Returns (fileClose (some file)) fs fun _ next => Resting base next := by
  obtain ⟨handle, _, here, notMap, before⟩ := borrowed_here borrowed
  apply returns_mono (file_close_in_order borrowed.order here notMap)
  rintro _ next ⟨calm, after, files⟩
  refine ⟨after, calm_trans borrowed.calm calm, ?_⟩
  rw [files, before, Function.update_idem]
  exact Function.update_eq_self_iff.mpr borrowed.fresh.symm

end Borrowing

section Loading

variable {base fs : FileSys} {file : Ptr} {room : Room}

theorem load_pages_borrowed (pages readBytes frame : Nat) (borrowed : Borrowed base fs file) :
    Returns (loadPages room file pages readBytes frame) fs fun _ next =>
      Borrowed base next file := by
  induction pages generalizing fs readBytes frame with
  | zero => exact returns_pure borrowed
  | succ pages ih =>
      unfold loadPages
      split
      · exact returns_pure borrowed
      · apply returns_bind (borrowed_read borrowed _)
        intro bytes next again
        split
        · exact returns_pure again
        · exact ih _ _ again

theorem load_segment_borrowed (segment : Segment) (frame : Nat) (borrowed : Borrowed base fs file) :
    Returns (loadSegment room file segment frame) fs fun _ next => Borrowed base next file := by
  apply returns_bind (borrowed_seek borrowed segment.ofs)
  intro _ next again
  exact load_pages_borrowed _ _ _ again

theorem load_phdrs_borrowed (headers fileOfs frame : Nat) (borrowed : Borrowed base fs file) :
    Returns (loadPhdrs room file headers fileOfs frame) fs fun _ next =>
      Borrowed base next file := by
  induction headers generalizing fs fileOfs frame with
  | zero => exact returns_pure borrowed
  | succ headers ih =>
      unfold loadPhdrs
      apply returns_bind (borrowed_length borrowed)
      intro length next first
      split
      · exact returns_pure first
      · apply returns_bind (borrowed_seek first fileOfs)
        intro _ next second
        apply returns_bind (borrowed_read second 32)
        intro phdr next third
        split
        · exact returns_pure third
        · cases treatment length.toNat phdr with
          | ignore => exact ih _ _ third
          | reject => exact returns_pure third
          | load segment =>
              apply returns_bind (load_segment_borrowed segment frame third)
              rintro ⟨loaded, frame⟩ next fourth
              cases loaded with
              | true => exact ih _ _ fourth
              | false => exact returns_pure fourth

/-- The new process's executable is open and denies writes. -/
structure Executing (base fs : FileSys) (file : Ptr) : Prop where
  order : Ordered fs
  calm : Calm base fs
  fresh : base.files file = none
  notMap : base.freeMapFile ≠ some file
  files : ∃ handle, handle.denyWrite = true ∧
    fs.files = Function.update base.files file (some handle)

theorem borrowed_deny (borrowed : Borrowed base fs file) :
    Returns (fileDenyWrite (some file)) fs fun _ next => Executing base next file := by
  obtain ⟨handle, _, here, notMap, before⟩ := borrowed_here borrowed
  apply returns_mono (file_deny_in_order borrowed.order here notMap)
  rintro _ next ⟨calm, after, _, files⟩
  refine ⟨after, calm_trans borrowed.calm calm, borrowed.fresh, borrowed.notMap,
    { handle with denyWrite := true }, rfl, ?_⟩
  rw [files, before, Function.update_idem]

theorem resting_borrowed {middle : FileSys} (resting : Resting base middle)
    (borrowed : Borrowed middle fs file) : Borrowed base fs file := by
  obtain ⟨handle, allows, files⟩ := borrowed.files
  refine ⟨borrowed.order, calm_trans resting.calm borrowed.calm, ?_, ?_, handle, allows, ?_⟩
  · rw [← resting.files]
    exact borrowed.fresh
  · rw [← resting.calm.freeMapFile]
    exact borrowed.notMap
  · rw [files, resting.files]

/-- The header that `load` reads fails the check. -/
def headerRejected (fs : FileSys) (room : Room) (command : List Byte) : Bool :=
  room.pagedir &&
    match filesysOpen (strtok [0x20, 0x09, 0x0a] command) fs with
    | .ok (some file) opened =>
        match fileRead file 52 opened with
        | .ok ehdr _ => !ehdrOk ehdr
        | .error _ _ => false
    | _ => false

/-- The stops of `load`: the command is too long, has no first word, or the file cannot be
opened a second time. -/
def LoadStops (command : List Byte) (error : Panic) : Prop :=
  100 ≤ command.length ∨ error = .nullName ∧ strtok [0x20, 0x09, 0x0a] command = none ∨
    error = .nullFile

theorem filesys_open_null (order : Ordered base) :
    Ends (filesysOpen none) base (fun result next => result = none ∧ Resting base next)
      (fun error => error = .nullName) := by
  obtain ⟨inodes, sound, catalog⟩ := order
  unfold filesysOpen
  apply ends_bind (ends_returns (dir_open_root_returns sound catalog))
  rintro (_ | dir) first result
  · obtain ⟨quiet, order⟩ := in_order_closes catalog sound.toTable result.1
    apply ends_returns
    apply returns_mono (UtSystems.Filesys.OpenFiles.file_open_null first)
    rintro _ last ⟨rfl, requested⟩
    obtain ⟨rest, settled, ready⟩ := order
    refine ⟨rfl, ⟨rest, sound_requested settled requested,
      catalog_requested ready settled.toTable requested⟩,
      calm_trans quiet.toCalm (kept_requested requested).toCalm, ?_⟩
    rw [(kept_requested requested).files, quiet.files]
  · exact .inr ⟨_, _, rfl, rfl⟩

/-- What `load` leaves open. -/
def AfterLoad (base : FileSys) (room : Room) (command : List Byte) (loaded : Loaded)
    (fs : FileSys) : Prop :=
  match loaded with
  | .failed => Resting base fs
  | .exited => headerRejected base room command = true ∧ ∃ file, Borrowed base fs file
  | .success fileToExe => Executing base fs fileToExe

theorem load_ends (order : Ordered base) (command : List Byte) :
    Ends (load room command) base (AfterLoad base room command) (LoadStops command) := by
  unfold load
  cases pagedir : room.pagedir with
  | false =>
      obtain ⟨inodes, sound, catalog⟩ := order
      exact ends_returns (returns_pure
        ⟨⟨inodes, sound, catalog⟩, (kept_refl base).toCalm, rfl⟩)
  | true =>
      rw [if_neg (by decide)]
      split
      · next long => exact ends_throw (.inl long)
      cases name : strtok [0x20, 0x09, 0x0a] command with
      | none =>
          apply ends_bind (ends_mono (filesys_open_null order) (fun _ _ post => post)
            fun _ raised => .inr (.inl ⟨raised, name⟩))
          rintro _ next ⟨rfl, resting⟩
          exact ends_returns (returns_pure resting)
      | some word =>
          obtain ⟨result, opened, ran, post⟩ := filesys_open_borrows order word
          apply ends_after ran
          cases result with
          | none => exact ends_returns (returns_pure post.1)
          | some file =>
              obtain ⟨borrowed, _⟩ := post
              obtain ⟨ehdr, read, readRan, again⟩ := borrowed_read borrowed 52
              apply ends_after readRan
              cases accepted : ehdrOk ehdr with
              | false =>
                  apply ends_returns
                  apply returns_pure
                  refine ⟨?_, file, again⟩
                  unfold headerRejected
                  rw [pagedir, name, ran]
                  dsimp only
                  rw [readRan]
                  dsimp only
                  rw [accepted]
                  rfl
              | true =>
                  apply ends_bind (ends_returns (load_phdrs_borrowed _ _ _ again))
                  intro loaded next scanned
                  apply ends_bind (ends_returns (borrowed_close scanned))
                  intro _ closed resting
                  split
                  · apply ends_bind (ends_returns (filesys_open_borrows resting.order word))
                    rintro (_ | fileToExe) next result
                    · exact ends_throw (.inr (.inr rfl))
                    · apply ends_returns
                      apply returns_bind (borrowed_deny (resting_borrowed resting result.1))
                      intro _ last executing
                      exact returns_pure executing
                  · exact ends_returns (returns_pure resting)

end Loading

/-- Where a holder may keep a file: `fdt[2]` to `fdt[127]`, or `file_to_exe`. -/
def Holder.Valid : Holder → Prop
  | .descriptor _ fd => 2 ≤ fd ∧ fd < 128
  | .executable _ => True

structure Inv (tidy exclusive : Prop) (fs : FileSys) (held : Holder → Option Ptr) : Prop where
  order : Ordered fs
  valid : ∀ holder file, held holder = some file → Holder.Valid holder
  present : ∀ holder file, held holder = some file →
    (∃ handle, fs.files file = some handle) ∧ fs.freeMapFile ≠ some file
  once : ∀ first second file, held first = some file → held second = some file → first = second
  denies : ∀ pid file handle, held (.executable pid) = some file →
    fs.files file = some handle → handle.denyWrite = true
  owned : tidy → ∀ file handle, fs.files file = some handle →
    fs.freeMapFile = some file ∨ ∃ holder, held holder = some file
  denied : exclusive → ∀ file handle, fs.files file = some handle → handle.denyWrite = true →
    ∃ pid, held (.executable pid) = some file

section Changes

variable {tidy exclusive : Prop} {fs next : FileSys} {held : Holder → Option Ptr} {file : Ptr}
  {handle : File} {holder : Holder}

/-- The same files are open and deny writes. -/
theorem inv_alike (inv : Inv tidy exclusive fs held) (order : Ordered next)
    (freeMapFile : next.freeMapFile = fs.freeMapFile)
    (files : ∀ file, (next.files file).map File.denyWrite = (fs.files file).map File.denyWrite) :
    Inv tidy exclusive next held := by
  have before : ∀ {file handle}, next.files file = some handle →
      ∃ was, fs.files file = some was ∧ handle.denyWrite = was.denyWrite := by
    intro file handle here
    have same := files file
    rw [here, Option.map_some] at same
    obtain ⟨was, wasHere, eq⟩ := Option.map_eq_some_iff.mp same.symm
    exact ⟨was, wasHere, eq.symm⟩
  constructor
  case order => exact order
  case valid => exact inv.valid
  case present =>
    intro holder file holds
    obtain ⟨⟨was, wasHere⟩, notMap⟩ := inv.present holder file holds
    have same := files file
    rw [wasHere, Option.map_some] at same
    obtain ⟨handle, here, _⟩ := Option.map_eq_some_iff.mp same
    rw [freeMapFile]
    exact ⟨⟨handle, here⟩, notMap⟩
  case once => exact inv.once
  case denies =>
    intro pid file handle holds here
    obtain ⟨was, wasHere, same⟩ := before here
    rw [same]
    exact inv.denies pid file was holds wasHere
  case owned =>
    intro isTidy file handle here
    obtain ⟨was, wasHere, _⟩ := before here
    rw [freeMapFile]
    exact inv.owned isTidy file was wasHere
  case denied =>
    intro isExclusive file handle here flag
    obtain ⟨was, wasHere, same⟩ := before here
    rw [same] at flag
    exact inv.denied isExclusive file was wasHere flag

theorem inv_resting (inv : Inv tidy exclusive fs held) (resting : Resting fs next) :
    Inv tidy exclusive next held := by
  apply inv_alike inv resting.order resting.calm.freeMapFile
  intro file
  rw [resting.files]

/-- A file is replaced by one that denies writes as it did. -/
theorem inv_replaced {change : File} (inv : Inv tidy exclusive fs held) (order : Ordered next)
    (freeMapFile : next.freeMapFile = fs.freeMapFile)
    (files : next.files = Function.update fs.files file (some change))
    (here : fs.files file = some handle) (same : change.denyWrite = handle.denyWrite) :
    Inv tidy exclusive next held := by
  apply inv_alike inv order freeMapFile
  intro other
  rw [files]
  by_cases isFile : other = file
  · subst isFile
    rw [Function.update_self, here, Option.map_some, Option.map_some, same]
  · rw [Function.update_of_ne isFile]

/-- Nobody holds what is not an open file. -/
theorem unheld_of_fresh (inv : Inv tidy exclusive fs held) (fresh : fs.files file = none)
    (holder : Holder) : held holder ≠ some file := by
  intro holds
  obtain ⟨⟨was, here⟩, _⟩ := inv.present holder file holds
  rw [fresh] at here
  cases here

/-- A new file, held by somebody or by nobody. -/
theorem inv_new {after : Holder → Option Ptr} (inv : Inv tidy exclusive fs held) (order : Ordered next)
    (freeMapFile : next.freeMapFile = fs.freeMapFile) (fresh : fs.files file = none)
    (notMap : fs.freeMapFile ≠ some file)
    (files : next.files = Function.update fs.files file (some handle))
    (holders : ∀ holder, after holder = held holder ∧ after holder ≠ some file ∨
      after holder = some file ∧ held holder = none)
    (valid : ∀ holder, after holder = some file → Holder.Valid holder)
    (single : ∀ first second, after first = some file → after second = some file → first = second)
    (denies : ∀ pid, after (.executable pid) = some file → handle.denyWrite = true)
    (owned : tidy → ∃ holder, after holder = some file)
    (denied : exclusive → handle.denyWrite = true → ∃ pid, after (.executable pid) = some file) :
    Inv tidy exclusive next after := by
  have unheld := unheld_of_fresh inv fresh
  have other : ∀ holder another, after holder = some another → another ≠ file →
      held holder = some another := by
    intro holder another holds different
    rcases holders holder with ⟨same, _⟩ | ⟨isNew, _⟩
    · rw [← same]
      exact holds
    · rw [isNew] at holds
      cases holds
      exact absurd rfl different
  have kept : ∀ holder another, held holder = some another → after holder = some another := by
    intro holder another holds
    rcases holders holder with ⟨same, _⟩ | ⟨_, empty⟩
    · rw [same]
      exact holds
    · rw [empty] at holds
      cases holds
  constructor
  case order => exact order
  case valid =>
    intro holder another holds
    by_cases isNew : another = file
    · subst isNew
      exact valid holder holds
    · exact inv.valid holder another (other holder another holds isNew)
  case present =>
    intro holder another holds
    rw [freeMapFile, files]
    by_cases isNew : another = file
    · subst isNew
      exact ⟨⟨handle, Function.update_self ..⟩, notMap⟩
    · rw [Function.update_of_ne isNew]
      exact inv.present holder another (other holder another holds isNew)
  case once =>
    intro first second another one two
    by_cases isNew : another = file
    · subst isNew
      exact single first second one two
    · exact inv.once first second another (other first another one isNew)
        (other second another two isNew)
  case denies =>
    intro pid another found holds here
    rw [files] at here
    by_cases isNew : another = file
    · subst isNew
      rw [Function.update_self] at here
      cases here
      exact denies pid holds
    · rw [Function.update_of_ne isNew] at here
      exact inv.denies pid another found (other _ another holds isNew) here
  case owned =>
    intro isTidy another found here
    rw [files] at here
    rw [freeMapFile]
    by_cases isNew : another = file
    · subst isNew
      exact .inr (owned isTidy)
    · rw [Function.update_of_ne isNew] at here
      rcases inv.owned isTidy another found here with isMap | ⟨holder, holds⟩
      · exact .inl isMap
      · exact .inr ⟨holder, kept holder another holds⟩
  case denied =>
    intro isExclusive another found here flag
    rw [files] at here
    by_cases isNew : another = file
    · subst isNew
      rw [Function.update_self] at here
      cases here
      exact denied isExclusive flag
    · rw [Function.update_of_ne isNew] at here
      obtain ⟨pid, holds⟩ := inv.denied isExclusive another found here flag
      exact ⟨pid, kept _ another holds⟩

/-- A file nobody holds. -/
theorem inv_leaked (inv : Inv tidy exclusive fs held) (borrowed : Borrowed fs next file)
    (untidy : ¬tidy) : Inv tidy exclusive next held := by
  obtain ⟨handle, allows, files⟩ := borrowed.files
  have unheld : ∀ holder, held holder ≠ some file := by
    intro holder holds
    obtain ⟨⟨was, here⟩, _⟩ := inv.present holder file holds
    rw [borrowed.fresh] at here
    cases here
  apply inv_new inv borrowed.order borrowed.calm.freeMapFile borrowed.fresh borrowed.notMap files
  · exact fun holder => .inl ⟨rfl, unheld holder⟩
  · exact fun holder holds => absurd holds (unheld holder)
  · exact fun first _ one _ => absurd one (unheld first)
  · exact fun pid holds => absurd holds (unheld _)
  · exact fun isTidy => absurd isTidy untidy
  · intro _ flag
    rw [allows] at flag
    cases flag

theorem inv_held (inv : Inv tidy exclusive fs held) (order : Ordered next)
    (freeMapFile : next.freeMapFile = fs.freeMapFile) (fresh : fs.files file = none)
    (notMap : fs.freeMapFile ≠ some file)
    (files : next.files = Function.update fs.files file (some handle))
    (free : held holder = none) (valid : Holder.Valid holder)
    (flag : handle.denyWrite = true ↔ ∃ pid, holder = .executable pid) :
    Inv tidy exclusive next (Function.update held holder (some file)) := by
  have unheld := unheld_of_fresh inv fresh
  have only : ∀ other, Function.update held holder (some file) other = some file →
      other = holder := by
    intro other holds
    by_contra different
    rw [Function.update_of_ne different] at holds
    exact unheld other holds
  apply inv_new inv order freeMapFile fresh notMap files
  · intro other
    by_cases same : other = holder
    · subst same
      exact .inr ⟨Function.update_self .., free⟩
    · rw [Function.update_of_ne same]
      exact .inl ⟨rfl, unheld other⟩
  · intro other holds
    rw [only other holds]
    exact valid
  · intro first second one two
    rw [only first one, only second two]
  · exact fun pid holds => flag.mpr ⟨pid, (only _ holds).symm⟩
  · exact fun _ => ⟨holder, Function.update_self ..⟩
  · intro _ denies
    obtain ⟨pid, rfl⟩ := flag.mp denies
    exact ⟨pid, Function.update_self ..⟩

/-- A file is closed by its holder. -/
theorem inv_closed (inv : Inv tidy exclusive fs held) (order : Ordered next)
    (freeMapFile : next.freeMapFile = fs.freeMapFile)
    (files : next.files = Function.update fs.files file none) (holds : held holder = some file) :
    Inv tidy exclusive next (Function.update held holder none) := by
  have still : ∀ {other another}, Function.update held holder none other = some another →
      held other = some another ∧ another ≠ file := by
    intro other another after
    by_cases same : other = holder
    · subst same
      rw [Function.update_self] at after
      cases after
    · rw [Function.update_of_ne same] at after
      refine ⟨after, ?_⟩
      rintro rfl
      exact same (inv.once other holder another after holds)
  have kept : ∀ {other another}, held other = some another → another ≠ file →
      Function.update held holder none other = some another := by
    intro other another before different
    rw [Function.update_of_ne]
    · exact before
    · rintro rfl
      rw [holds] at before
      cases before
      exact different rfl
  have before : ∀ {another found}, next.files another = some found →
      another ≠ file ∧ fs.files another = some found := by
    intro another found here
    rw [files] at here
    by_cases same : another = file
    · subst same
      rw [Function.update_self] at here
      cases here
    · rw [Function.update_of_ne same] at here
      exact ⟨same, here⟩
  constructor
  case order => exact order
  case valid => exact fun other another after => inv.valid other another (still after).1
  case present =>
    intro other another after
    obtain ⟨was, different⟩ := still after
    rw [freeMapFile, files, Function.update_of_ne different]
    exact inv.present other another was
  case once =>
    exact fun first second another one two =>
      inv.once first second another (still one).1 (still two).1
  case denies =>
    exact fun pid another found after here =>
      inv.denies pid another found (still after).1 (before here).2
  case owned =>
    intro isTidy another found here
    obtain ⟨different, was⟩ := before here
    rw [freeMapFile]
    rcases inv.owned isTidy another found was with isMap | ⟨other, holdsOther⟩
    · exact .inl isMap
    · exact .inr ⟨other, kept holdsOther different⟩
  case denied =>
    intro isExclusive another found here flag
    obtain ⟨different, was⟩ := before here
    obtain ⟨pid, holdsOther⟩ := inv.denied isExclusive another found was flag
    exact ⟨pid, kept holdsOther different⟩

/-- Holders disappear without closing anything. -/
theorem inv_forgotten {after : Holder → Option Ptr} (inv : Inv tidy exclusive fs held)
    (fewer : ∀ holder file, after holder = some file → held holder = some file)
    (untidy : ¬tidy) (shared : ¬exclusive) : Inv tidy exclusive fs after where
  order := inv.order
  valid := fun holder file holds => inv.valid holder file (fewer holder file holds)
  present := fun holder file holds => inv.present holder file (fewer holder file holds)
  once := fun first second file one two =>
    inv.once first second file (fewer first file one) (fewer second file two)
  denies := fun pid file handle holds => inv.denies pid file handle (fewer _ file holds)
  owned := fun isTidy => absurd isTidy untidy
  denied := fun isExclusive => absurd isExclusive shared

end Changes

end UtSystems.Userprog.HeldFiles

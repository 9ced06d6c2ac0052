import UtSystems.Filesys.ByteArrays

/-!
# The table of open inodes

A client opens, reopens, removes, closes, creates and writes inodes on a formatted device.
The history of its calls says how many opens of an inode are outstanding, whether it has
been removed, and which sectors each call took out of the free map. The only other opener
is the kernel's own file on the free map.
-/

namespace UtSystems.Filesys.Openers

open Lib.Bytes Lib.Effects Filesys.Volume Filesys.InodeData Filesys.FreeMap Filesys.Inode
open Filesys.Ownership Filesys.Consistency Filesys.OpenInodes Filesys.OpenFiles Filesys.Creation
open Filesys.NamedInodes Filesys.NamedFiles Filesys.Format Filesys.SectorOwners Filesys.ByteArrays

set_option autoImplicit false

inductive Call where
  | open_ (sector : Nat)
  | reopen (inode : Ptr)
  | remove (inode : Ptr)
  | close (inode : Ptr)
  | create (length : Word)
  | write (inode : Ptr) (buffer : Nat → Byte) (size : Int) (offset : Nat)

/-- What a call has done to the openers and the inodes. -/
inductive Event where
  | opened (sector : Nat) (inode : Ptr)
  | reopened (inode : Ptr)
  | removed (inode : Ptr)
  | closed (inode : Ptr)
  | created (sector : Nat)
  | nothing
  deriving DecidableEq

/-- A sector from the free map and an inode in it, as `filesys_create` makes them. -/
def createInode (length : Word) : FsM (Option Nat) := do
  match ← freeMapAllocate 1 with
  | none => return none
  | some sector =>
      if ← inodeCreate sector length then return some sector
      else
        if sector ≠ 0 then freeMapRelease sector 1
        return none

def Call.perform : Call → FsM Event
  | .open_ sector => do
      match ← inodeOpen sector with
      | some inode => return .opened sector inode
      | none => return .nothing
  | .reopen inode => do
      inodeReopen inode
      return .reopened inode
  | .remove inode => do
      inodeRemove inode
      return .removed inode
  | .close inode => do
      inodeClose (some inode)
      return .closed inode
  | .create length => do
      match ← createInode length with
      | some sector => return .created sector
      | none => return .nothing
  | .write inode buffer size offset => do
      let _ ← inodeWriteAt inode buffer size offset
      return .nothing

/-- The calls made, the last one first, with the sectors that each of them released. -/
abbrev History := List (Event × Set Nat)

def Happened (history : History) (event : Event) : Prop := event ∈ history.map Prod.fst

def Event.opens (inode : Ptr) : Event → Bool
  | .opened _ other | .reopened other => other = inode
  | _ => false

def Event.closes (inode : Ptr) : Event → Bool
  | .closed other => other = inode
  | _ => false

/-- The opens of an inode that no close has matched yet. -/
def outstanding : History → Ptr → Nat
  | [], _ => 0
  | (event, _) :: earlier, inode =>
      outstanding earlier inode + (event.opens inode).toNat - (event.closes inode).toNat

/-- The sectors of inodes that exist: a formatted device has two. -/
def existing : History → Set Nat
  | [] => {rootDirSector, freeMapSector}
  | (.created sector, _) :: earlier => insert sector (existing earlier)
  | (_, released) :: earlier => existing earlier \ released

/-- Inodes are opened where they exist, and an open inode is used and closed by an opener.
Nobody but the kernel writes to the free map. -/
def Call.Allowed (history : History) : Call → Prop
  | .open_ sector => sector ∈ existing history
  | .reopen inode | .remove inode | .close inode => 0 < outstanding history inode
  | .create length => 0 ≤ length.toInt
  | .write inode .. => 0 < outstanding history inode ∧
      ∃ sector, sector ≠ freeMapSector ∧ Happened history (.opened sector inode)

structure Session where
  fs : FileSys
  history : History

inductive Reachable : Session → Prop where
  | format {size : Nat} {disk : Disk} {memory : Nat → Bool} {fs : FileSys}
      (accepted : IdeAccepts size)
      (ran : filesysInit true (powerUp size disk memory) = .ok () fs) : Reachable ⟨fs, []⟩
  | step {session : Session} {call : Call} {event : Event} {next : FileSys}
      (before : Reachable session) (allowed : call.Allowed session.history)
      (ran : call.perform session.fs = .ok event next) :
      Reachable ⟨next, (event, marked session.fs.freeMap \ marked next.freeMap) :: session.history⟩

section Counting

variable {history : History} {released : Set Nat} {inode other : Ptr}

end Counting

open Classical in
/-- How many closes of an inode have released sectors. -/
noncomputable def releases : History → Ptr → Nat
  | [], _ => 0
  | (event, released) :: earlier, inode =>
      releases earlier inode + if event = .closed inode ∧ released ≠ ∅ then 1 else 0

open Classical in
/-- What holds between the calls. -/
structure Tracks (fs : FileSys) (history : History) : Prop where
  order : ∃ inodes, existing history ⊆ inodes ∧ Sound inodes fs Set.univ (outstanding history)
  onlyMap : ∀ file handle, fs.files file = some handle → fs.freeMapFile = some file
  flags : ∀ inode target, fs.inodes inode = some target →
    (target.removed = true ↔ Happened history (.removed inode))
  places : ∀ sector inode, Happened history (.opened sector inode) → inode < fs.requests ∧
    ∀ target, fs.inodes inode = some target → target.sector = sector
  removedOld : ∀ inode, Happened history (.removed inode) → inode < fs.requests
  releasedOnce : ∀ inode, releases history inode =
    if Happened history (.removed inode) ∧ fs.inodes inode = none then 1 else 0
  others : ∀ entry ∈ history, entry.2 ≠ ∅ → ∃ inode, entry.1 = .closed inode

section Tracking

variable {fs next : FileSys} {history : History} {event : Event} {released : Set Nat}

end Tracking

/-- Whether a call writes to the data of an inode. -/
def Call.Writes (inode : Ptr) : Call → Prop
  | .write other .. => other = inode
  | _ => False

section Calls

variable {fs : FileSys} {history : History} {inode : Ptr}

theorem create_inode_returns {inodes : Set Nat} {extra : Ptr → Nat} {length : Word}
    (sound : Sound inodes fs Set.univ extra) (nonneg : 0 ≤ length.toInt) :
    Returns (createInode length) fs fun result next =>
      Kept fs next ∧ Confined {freeMapSector} inodes fs.disk next.disk ∧ next.inodes = fs.inodes ∧
        marked fs.freeMap ⊆ marked next.freeMap ∧
        match result with
        | none => Sound inodes next Set.univ extra
        | some sector => sector ∉ inodes ∧ Sound (insert sector inodes) next Set.univ extra := by
  unfold createInode
  apply returns_bind (allocate_returns sound 1)
  rintro (_ | sector) second ⟨kept, confined, again, table, result⟩
  · apply returns_pure
    refine ⟨kept, confined, table, ?_, again⟩
    rw [result.1]
  obtain ⟨fits, free, map, _⟩ := result
  have clear := free 0 (by omega)
  rw [Nat.add_zero] at clear
  have unowned : Unowned inodes second.disk sector :=
    unowned_confined (unowned_of_free sound.stored clear) confined
  have marks : marked second.freeMap = marked fs.freeMap ∪ {sector} := by
    rw [map, marked_allocated (by rw [sound.stored.mapLength]; exact fits)]
    ext cell
    simp only [Set.mem_union, Set.mem_ofPred_eq, Set.mem_singleton_iff]
    constructor
    · rintro (old | new)
      · exact .inl old
      · exact .inr (by omega)
    · rintro (old | new)
      · exact .inl old
      · exact .inr (by omega)
  have used : sector ∈ marked second.freeMap := by
    rw [marks]
    exact .inr rfl
  have unmarked : sector ∉ marked fs.freeMap := by
    intro was
    have set_ : bitmapTest fs.freeMap sector = true := was
    rw [clear] at set_
    cases set_
  apply returns_bind (inode_create_returns again nonneg unowned used)
  rintro result third (⟨rfl, created⟩ | ⟨rfl, failed⟩)
  · rw [if_pos rfl]
    apply returns_pure
    refine ⟨kept_trans kept created.kept, confined_trans confined created.confined, ?_, ?_,
      unowned_not_stored unowned, created.sound⟩
    · rw [created.table, table]
    · rw [created.marks, marks]
      exact fun cell here => .inl (.inl here)
  · have nonzero : sector ≠ 0 := by
      rintro rfl
      exact unmarked (inode_marked sound.stored (map_live sound))
    have stillUnowned := unowned_confined unowned failed.confined
    have stillUsed : sector ∈ marked third.freeMap := by
      rw [failed.freeMap]
      exact used
    rw [if_neg (by simp), if_pos nonzero]
    apply returns_bind (release_unowned_returns failed.sound stillUnowned stillUsed)
    rintro _ last ⟨keeps, apart, settled, same, final⟩
    apply returns_pure
    refine ⟨kept_trans kept (kept_trans failed.kept keeps),
      confined_trans confined (confined_trans failed.confined apart), ?_, ?_, settled⟩
    · rw [same, failed.table, table]
    · rw [final, failed.freeMap, marks]
      intro cell here
      refine ⟨.inl here, ?_⟩
      rintro rfl
      exact unmarked here

end Calls

end UtSystems.Filesys.Openers

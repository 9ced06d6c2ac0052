import UtSystems.Userprog.HeldSteps
import Mathlib.Data.Set.Card

/-!
# The files that are left open

A file is kept by a process, through a descriptor or as its executable, or by the kernel,
which keeps the file of the free map. When nobody keeps a file any more it must be closed:
the number of openers of an inode is the number of those who keep a file on it.
-/

namespace UtSystems.Userprog.ClosedFiles

open Lib.Effects Lib.GuardedRun Filesys.Volume Filesys.Consistency Userprog.Descriptors
open Userprog.HeldFiles Userprog.HeldSteps

set_option autoImplicit false

/-- The file that a live process keeps, or the kernel. -/
def keptFile (system : System) : Option Holder → Option Ptr
  | some holder => system.processes.held holder
  | none => system.fs.freeMapFile

/-- Who keeps a file on the inode. -/
def keepers (system : System) (inode : Ptr) : Set (Option Holder) :=
  { keeper | ∃ file handle, keptFile system keeper = some file ∧
    system.fs.files file = some handle ∧ handle.inode = inode }

/-- Each open file is kept by exactly one keeper, each kept file is open, and the inodes count
their keepers. -/
structure Accounted (system : System) : Prop where
  opened : ∀ keeper file, keptFile system keeper = some file →
    ∃ handle, system.fs.files file = some handle
  kept : ∀ file handle, system.fs.files file = some handle →
    ∃! keeper, keptFile system keeper = some file
  counted : ∀ inode target, system.fs.inodes inode = some target →
    target.openCnt = (keepers system inode).ncard

section Accounts

variable {exclusive : Prop} {system : System}

theorem kept_once (inv : Inv True exclusive system.fs system.processes.held)
    {first second : Option Holder} {file : Ptr} (one : keptFile system first = some file)
    (two : keptFile system second = some file) : first = second := by
  cases first with
  | none =>
      cases second with
      | none => rfl
      | some holder => exact absurd one (inv.present holder file two).2
  | some holder =>
      cases second with
      | none => exact absurd two (inv.present holder file one).2
      | some other => rw [inv.once holder other file one two]

theorem kept_open (inv : Inv True exclusive system.fs system.processes.held)
    {keeper : Option Holder} {file : Ptr} (keeps : keptFile system keeper = some file) :
    ∃ handle, system.fs.files file = some handle := by
  cases keeper with
  | none =>
      obtain ⟨inodes, sound, _⟩ := inv.order
      obtain ⟨map, handle, _, named, _, here, _⟩ := sound.mapFile
      change system.fs.freeMapFile = some file at keeps
      rw [keeps] at named
      cases named
      exact ⟨handle, here⟩
  | some holder => exact (inv.present holder file keeps).1

theorem open_kept (inv : Inv True exclusive system.fs system.processes.held) {file : Ptr}
    {handle : File} (here : system.fs.files file = some handle) :
    ∃ keeper, keptFile system keeper = some file := by
  rcases inv.owned trivial file handle here with isMap | ⟨holder, holds⟩
  · exact ⟨none, isMap⟩
  · exact ⟨some holder, holds⟩

/-- Keepers and open files of an inode correspond. -/
theorem keepers_holders (inv : Inv True exclusive system.fs system.processes.held) (inode : Ptr) :
    (holders system.fs Set.univ inode).ncard = (keepers system inode).ncard := by
  have image : holders system.fs Set.univ inode =
      (fun keeper => (keptFile system keeper).getD 0) '' keepers system inode := by
    ext file
    constructor
    · rintro ⟨_, handle, here, refers, _⟩
      obtain ⟨keeper, keeps⟩ := open_kept inv here
      exact ⟨keeper, ⟨file, handle, keeps, here, refers⟩, by simp [keeps]⟩
    · rintro ⟨keeper, ⟨other, handle, keeps, here, refers⟩, rfl⟩
      simp only [keeps, Option.getD_some]
      exact ⟨trivial, handle, here, refers, rfl⟩
  rw [image]
  apply Set.InjOn.ncard_image
  rintro first ⟨one, _, keepsOne, _⟩ second ⟨two, _, keepsTwo, _⟩ same
  simp only [keepsOne, keepsTwo, Option.getD_some] at same
  subst same
  exact kept_once inv keepsOne keepsTwo

theorem inv_accounted (inv : Inv True exclusive system.fs system.processes.held) :
    Accounted system where
  opened := fun _ _ keeps => kept_open inv keeps
  kept := by
    intro file handle here
    obtain ⟨keeper, keeps⟩ := open_kept inv here
    exact ⟨keeper, keeps, fun other keepsToo => kept_once inv keepsToo keeps⟩
  counted := by
    intro inode target present
    obtain ⟨inodes, sound, _⟩ := inv.order
    have counted := (sound.counted inode target present).opened
    rw [counted, keepers_holders inv inode]
    exact Int.add_zero _

end Accounts

/-- No step ends a process without `sys_exit`, rejects the header of an executable, or opens a
file for a full table. -/
def Orderly (system : System) (action : Action) : Prop := Tidy system.fs system.processes action

/-- `sys_exit` closes each file once: it does not come to a file that is closed already. -/
theorem exit_succeeds {tidy exclusive : Prop} {system : System} {pid : Nat} {process : Process}
    (inv : Inv tidy exclusive system.fs system.processes.held)
    (alive : system.processes pid = some process) :
    ∃ next, step system (.exit pid) = some next ∧ next.processes pid = none := by
  obtain ⟨_, fs, ran, _⟩ := sys_exit_returns inv alive
  refine ⟨{ fs := fs, processes := Function.update system.processes pid none }, ?_,
    Function.update_self ..⟩
  have closed : (do
      sysExit process
      return Function.update system.processes pid none : FsM Processes) system.fs =
      .ok (Function.update system.processes pid none) fs := bind_run ran
  simp only [step, Action.perform, alive, Option.map_some, closed]

/-- In every orderly run all files are accounted for, and a process can always exit: what it
had opened is closed then. -/
theorem files_are_accounted {start system : System} (boots : Boots start)
    (run : Reaches step Orderly start system) :
    Accounted system ∧ ∀ pid process, system.processes pid = some process →
      ∃ next, step system (.exit pid) = some next ∧ next.processes pid = none ∧
        Accounted next := by
  have reached : ∀ {system}, Reaches step Orderly start system →
      Inv True False system.fs system.processes.held := by
    intro system run
    exact reaches_inv True False boots
      (reaches_mono (fun _ _ orderly => ⟨fun _ => orderly, False.elim⟩) run)
  refine ⟨inv_accounted (reached run), ?_⟩
  intro pid process alive
  obtain ⟨next, taken, gone⟩ := exit_succeeds (reached run) alive
  have orderly : Orderly system (.exit pid) := trivial
  exact ⟨next, taken, gone, inv_accounted (reached (.push run orderly taken))⟩

instance (system : System) (action : Action) : Decidable (Orderly system action) :=
  inferInstanceAs (Decidable (Tidy system.fs system.processes action))

/-- The first process opens a file twice, closes it once and exits. -/
theorem files_are_accounted_after_exit :
    ∃ system, Reaches step Orderly (booted 8) system ∧
      (system.processes 1).isNone = true ∧ Accounted system := by
  obtain ⟨system, run, gone⟩ := @reaches_of_check _ _ step Orderly _ (booted 8)
    (startFirst ++ [.openFile 1 [0x61], .openFile 1 [0x61], .close 1 2, .exit 1])
    (fun system => (system.processes 1).isNone) (by decide +kernel)
  exact ⟨system, run, gone, (files_are_accounted eight_sectors_boot run).1⟩

/-- The first process is killed by an exception. -/
theorem killed_process_leaves_file_open :
    ∃ system, Reaches step (fun _ _ => True) (booted 8) system ∧
      (system.processes 1).isNone = true ∧ ¬Accounted system := by
  obtain ⟨before, run, alive⟩ := @reaches_of_check _ _ step Orderly _ (booted 8)
    startFirst (fun system => ((system.processes 1).bind Process.fileToExe).isSome)
    (by decide +kernel)
  obtain ⟨file, holds⟩ := Option.isSome_iff_exists.mp alive
  have inv := reaches_inv True False eight_sectors_boot
    (reaches_mono (fun _ _ orderly => ⟨fun _ => orderly, False.elim⟩) run)
  obtain ⟨process, isProcess, _⟩ := Option.bind_eq_some_iff.mp holds
  have taken : step before (.killed 1) =
      some { fs := before.fs, processes := Function.update before.processes 1 none } := by
    simp only [step, Action.perform, isProcess, Option.map_some]
    rfl
  have after : Reaches step (fun _ _ => True) (booted 8)
      { fs := before.fs, processes := Function.update before.processes 1 none } :=
    .push (reaches_mono (fun _ _ _ => trivial) run) trivial taken
  refine ⟨_, after, by simp, fun accounted => ?_⟩
  have executable : before.processes.held (.executable 1) = some file := holds
  obtain ⟨⟨handle, here⟩, notMap⟩ := inv.present _ file executable
  obtain ⟨keeper, keeps, _⟩ := accounted.kept file handle here
  cases keeper with
  | none => exact notMap keeps
  | some holder =>
      have was := held_fewer holder file keeps
      rw [inv.once holder _ file was executable] at keeps
      simp [keptFile, Processes.held] at keeps

end UtSystems.Userprog.ClosedFiles

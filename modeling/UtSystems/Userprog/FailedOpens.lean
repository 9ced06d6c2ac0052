import UtSystems.Filesys.OpenCounts
import UtSystems.Userprog.HeldSteps

/-!
# What a failed `sys_open` leaves behind

When `filesys_open` fails it has closed again every inode that it opened. When the table is
full `sys_open` fails with the file open, and nothing closes it.
-/

namespace UtSystems.Userprog.FailedOpens

open Lib.Effects Lib.GuardedRun Filesys.Volume Filesys.Directory Filesys.NamedInodes
open Filesys.OpenCounts Userprog.Descriptors Userprog.HeldFiles Userprog.HeldSteps

set_option autoImplicit false

/-- The list of open inodes and the counts of their openers are as before. -/
structure Untouched (fs next : FileSys) : Prop where
  openInodes : next.openInodes = fs.openInodes
  openCnts : ∀ inode, (next.inodes inode).map (·.openCnt) = (fs.inodes inode).map (·.openCnt)

variable {fs middle next : FileSys} {inode : Ptr} {fdt after : Fdt} {name : Name}

theorem untouched_requested (requested : Requested fs next) : Untouched fs next := by
  obtain ⟨_, _, rfl⟩ := requested
  exact ⟨rfl, fun _ => rfl⟩

theorem reopened_touched (reopened : Reopened fs inode middle) (inodes : next.inodes = middle.inodes) :
    ¬Untouched fs next := by
  intro untouched
  have counts := untouched.openCnts inode
  rw [inodes] at counts
  cases reopened with
  | @again target requests present positive grown =>
      rw [present] at counts
      dsimp only at counts
      rw [Function.update_self, Option.map_some, Option.map_some, Option.some.injEq] at counts
      dsimp only at counts
      omega
  | first absent once kept grown =>
      rw [absent] at counts
      dsimp only at counts
      rw [Function.update_self] at counts
      cases counts

/-- `add_fdt_entry` fails only for want of a slot. -/
theorem add_fdt_entry_fails {file : Ptr} (failed : addFdtEntry fdt file = (-1, after)) :
    freeFdtSlot fdt = none := by
  unfold addFdtEntry at failed
  cases slot : freeFdtSlot fdt with
  | none => rfl
  | some i =>
      rw [slot] at failed
      have negative : (i : Int) = -1 := congrArg Prod.fst failed
      omega

theorem sys_open_fails (order : Ordered fs) (failed : sysOpen fdt name fs = .ok (-1, after) next) :
    (after = fdt ∧ Untouched fs next) ↔
      ¬(freeFdtSlot fdt = none ∧ ValidName name ∧ Found fs name) := by
  obtain ⟨inodes, sound, catalog⟩ := order
  unfold sysOpen at failed
  by_cases invalid : nameMax < name.length ∨ name.length = 0
  · rw [if_pos invalid] at failed
    cases failed
    refine ⟨fun _ full => ?_, fun _ => ⟨rfl, untouched_requested (requested_refl fs)⟩⟩
    obtain ⟨_, ⟨nonempty, short⟩, _⟩ := full
    have positive := List.length_pos_iff.mpr nonempty
    omega
  · rw [if_neg invalid] at failed
    have valid : ValidName name := by
      refine ⟨?_, by omega⟩
      rintro rfl
      exact invalid (.inr rfl)
    obtain ⟨opened, last, ran, failed⟩ := bind_ok failed
    have outcome := filesys_open_outcome sound catalog name opened last ran
    cases opened with
    | none =>
        cases failed
        exact ⟨fun _ full => outcome.2 full.2.2, fun _ => ⟨rfl, untouched_requested outcome.1⟩⟩
    | some file =>
        obtain ⟨found, inode, middle, reopened, _, same⟩ := outcome
        have finished : (EStateM.Result.ok (addFdtEntry fdt file) last :
            EStateM.Result Panic FileSys (Int × Fdt)) = .ok (-1, after) next := failed
        rw [EStateM.Result.ok.injEq] at finished
        obtain ⟨entered, isLast⟩ := finished
        rw [← isLast]
        have full := add_fdt_entry_fails entered
        exact ⟨fun both => absurd both.2 (reopened_touched reopened same),
          fun not_ => absurd ⟨full, valid, found⟩ not_⟩

/-- A failed open leaves no trace unless it has opened the file and the table is full. -/
theorem failed_open_leaves_no_trace_iff {start system : System} (boots : Boots start)
    (run : Reaches step (fun _ _ => True) start system)
    (failed : sysOpen fdt name system.fs = .ok (-1, after) next) :
    (after = fdt ∧ Untouched system.fs next) ↔
      ¬(freeFdtSlot fdt = none ∧ ValidName name ∧ Found system.fs name) := by
  have inv := reaches_inv False False boots
    (reaches_mono (fun _ _ _ => ⟨False.elim, False.elim⟩) run)
  exact sys_open_fails inv.order failed

/-- The counts of the openers, along the list of open inodes. -/
def openCounts (fs : FileSys) : List (Option Int) :=
  fs.openInodes.map fun inode => (fs.inodes inode).map (·.openCnt)

theorem untouched_counts (untouched : Untouched fs next) : openCounts next = openCounts fs := by
  unfold openCounts
  rw [untouched.openInodes]
  apply List.map_congr_left
  intro inode _
  exact untouched.openCnts inode

/-- A failed open of process 1, and whether the counts stay. -/
def opensInVain (name : Name) (stays : Bool) (system : System) : Bool :=
  (system.processes 1).any fun process =>
    (do
      let (fd, _) ← sysOpen process.fdt name
      let last ← get
      return (fd, decide (openCounts last = openCounts system.fs)) : FsM (Int × Bool)).run'
        system.fs = some (-1, stays)

theorem opens_in_vain {stays : Bool} {system : System} (vain : opensInVain name stays system = true) :
    ∃ process after next, system.processes 1 = some process ∧
      sysOpen process.fdt name system.fs = .ok (-1, after) next ∧
      decide (openCounts next = openCounts system.fs) = stays := by
  unfold opensInVain at vain
  simp only [Option.any_eq_true, decide_eq_true_eq] at vain
  obtain ⟨process, alive, runs⟩ := vain
  obtain ⟨last, ran⟩ := ok_of_run runs
  obtain ⟨⟨fd, after⟩, next, opened, ran⟩ := bind_ok ran
  cases ran
  exact ⟨process, after, _, alive, opened, rfl⟩

/-- Opening a file that is not there. -/
theorem failed_open_leaves_no_trace_missing :
    ∃ system process after next, Reaches step (fun _ _ => True) (booted 8) system ∧
      system.processes 1 = some process ∧
      sysOpen process.fdt [0x62] system.fs = .ok (-1, after) next ∧
      after = process.fdt ∧ Untouched system.fs next := by
  obtain ⟨system, run, vain⟩ := @reaches_of_check _ _ step (fun _ _ => True) _ (booted 8) startFirst
    (fun system => opensInVain [0x62] true system &&
      (system.processes 1).any fun process => (freeFdtSlot process.fdt).isSome) (by decide +kernel)
  obtain ⟨vain, slots⟩ := Bool.and_eq_true_iff.mp vain
  obtain ⟨process, after, next, alive, opened, _⟩ := opens_in_vain vain
  rw [alive, Option.any_some] at slots
  refine ⟨system, process, after, next, run, alive, opened, ?_⟩
  apply (failed_open_leaves_no_trace_iff eight_sectors_boot run opened).mpr
  intro full
  rw [full.1] at slots
  cases slots

/-- Process 1 opens its own executable until its table is full. -/
def fillTable : List Action := startFirst ++ List.replicate 126 (.openFile 1 [0x61])

theorem full_table_keeps_file_open :
    ∃ system process after next, Reaches step (fun _ _ => True) (booted 8) system ∧
      system.processes 1 = some process ∧
      sysOpen process.fdt [0x61] system.fs = .ok (-1, after) next ∧ ¬Untouched system.fs next := by
  obtain ⟨system, run, vain⟩ := @reaches_of_check _ _ step (fun _ _ => True) _ (booted 8) fillTable
    (opensInVain [0x61] false) (by decide +kernel)
  obtain ⟨process, after, next, alive, opened, changed⟩ := opens_in_vain vain
  refine ⟨system, process, after, next, run, alive, opened, fun untouched => ?_⟩
  rw [untouched_counts untouched, decide_eq_true rfl] at changed
  cases changed

end UtSystems.Userprog.FailedOpens

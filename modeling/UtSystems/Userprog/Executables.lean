import UtSystems.Userprog.HeldSteps
import Mathlib.Data.Set.Card

/-!
# Executables are read-only while they run

`load` opens the executable of a process a second time and denies writes to it; `sys_exit`
closes that file and allows them again. While every process that ends does so in `sys_exit`, an
inode counts as many denials as there are processes that execute it.
-/

namespace UtSystems.Userprog.Executables

open Lib.Bytes Lib.Effects Lib.GuardedRun Filesys.Volume Filesys.InodeData Filesys.Consistency
open Filesys.OpenFiles Filesys.NamedFiles Userprog.Elf Userprog.Descriptors Userprog.HeldFiles
open Userprog.HeldSteps

set_option autoImplicit false

/-- The live processes whose executable is the file of the inode. -/
def executing (system : System) (inode : Ptr) : Set Nat :=
  { pid | ∃ file handle, system.processes.held (.executable pid) = some file ∧
    system.fs.files file = some handle ∧ handle.inode = inode }

/-- The write returns 0 and leaves the disk as it is. -/
def Refused (fs : FileSys) (fdt : Fdt) (fd : Int) (buffer : Nat → Byte) (size : Word) : Prop :=
  Returns (sysWrite fdt fd buffer size) fs fun written next => written = 0 ∧ next.disk = fs.disk

/-- The descriptor `fd` of process `pid` is at a place of the file from where `size` bytes lie
within its length. -/
structure WithinLength (system : System) (pid : Nat) (fd : Int) (size : Word) (fdt : Fdt)
    (inode : Ptr) (target : Inode) : Prop where
  alive : ∃ process, system.processes pid = some process ∧ process.fdt = fdt
  handle : ∃ file handle, fdtFile fdt fd = some file ∧ system.fs.files file = some handle ∧
    handle.inode = inode ∧ handle.pos + size.toInt ≤ inodeLength target.data
  target : system.fs.inodes inode = some target
  positive : 0 < size.toInt

section Counting

variable {tidy : Prop} {system : System}

/-- Processes that execute the file and open files that deny writes correspond. -/
theorem executing_deniers (inv : Inv tidy True system.fs system.processes.held) (inode : Ptr) :
    deniers system.fs Set.univ inode =
      (fun pid => (system.processes.held (.executable pid)).getD 0) '' executing system inode := by
  ext file
  constructor
  · rintro ⟨_, handle, here, refers, denies⟩
    obtain ⟨pid, holds⟩ := inv.denied trivial file handle here denies
    exact ⟨pid, ⟨file, handle, holds, here, refers⟩, by simp [holds]⟩
  · rintro ⟨pid, ⟨other, handle, holds, here, refers⟩, rfl⟩
    simp only [holds, Option.getD_some]
    exact ⟨trivial, handle, here, refers, inv.denies pid other handle holds here⟩

theorem executing_injective {exclusive : Prop} (inv : Inv tidy exclusive system.fs system.processes.held)
    (inode : Ptr) :
    Set.InjOn (fun pid => (system.processes.held (.executable pid)).getD 0)
      (executing system inode) := by
  rintro first ⟨one, _, holdsOne, _⟩ second ⟨two, _, holdsTwo, _⟩ same
  simp only [holdsOne, holdsTwo, Option.getD_some] at same
  subst same
  have holder := inv.once _ _ one holdsOne holdsTwo
  cases holder
  rfl

theorem deny_write_counts (inv : Inv tidy True system.fs system.processes.held) {inode : Ptr}
    {target : Inode} (present : system.fs.inodes inode = some target) :
    target.denyWriteCnt = (executing system inode).ncard ∧ (executing system inode).Finite ∧
      target.denyWriteCnt ≤ target.openCnt := by
  obtain ⟨inodes, sound, _⟩ := inv.order
  have finite : (deniers system.fs Set.univ inode).Finite :=
    (holders_finite sound.toTable inode).subset (deniers_subset inode)
  rw [executing_deniers inv inode] at finite
  refine ⟨?_, finite.of_finite_image (executing_injective inv inode), ?_⟩
  · rw [(sound.counted inode target present).denied, executing_deniers inv inode,
      (executing_injective inv inode).ncard_image]
  · exact deny_le_open sound.toTable present

end Counting

section Writing

variable {tidy exclusive : Prop} {system : System} {pid : Nat} {fd : Int} {size : Word} {fdt : Fdt}
  {inode : Ptr} {target : Inode}

theorem sys_write_counts (inv : Inv tidy exclusive system.fs system.processes.held)
    (within : WithinLength system pid fd size fdt inode target) (buffer : Nat → Byte) :
    Returns (sysWrite fdt fd buffer size) system.fs fun written next =>
      ∃ pos, written = (if target.denyWriteCnt ≠ 0 then 0 else
        (transferred (system.fs.memory system.fs.requests) pos size.toInt.toNat)) ∧
        next.disk = overwrite system.fs.disk (dataBase target.data + pos)
          (slice buffer 0 written.toNat) := by
  obtain ⟨⟨process, alive, rfl⟩, ⟨file, handle, found, here, rfl, fits⟩, present, positive⟩ := within
  obtain ⟨low, high, _⟩ := fdt_file_some found
  obtain ⟨_, _, notMap⟩ := descriptor_open inv alive found
  obtain ⟨inodes, sound, _, other, reached, apart, _⟩ := user_handle inv.order here notMap
  rw [present] at reached
  cases reached
  unfold sysWrite
  rw [if_neg (by omega), if_neg (by omega), found]
  apply returns_bind (file_write_returns sound here present apart buffer size.toInt)
  rintro total next ⟨count, _, _, _, _, disk, _⟩
  apply returns_pure
  have whole : available target.data size.toInt handle.pos = size.toInt.toNat := by
    unfold available
    omega
  rw [whole] at count
  refine ⟨handle.pos, ?_, ?_⟩
  · rw [count]
  · rw [Int.toNat_natCast]
    exact disk

theorem write_refused (inv : Inv tidy exclusive system.fs system.processes.held)
    (within : WithinLength system pid fd size fdt inode target) (buffer : Nat → Byte)
    (denied : target.denyWriteCnt ≠ 0) : Refused system.fs fdt fd buffer size := by
  apply returns_mono (sys_write_counts inv within buffer)
  rintro written next ⟨pos, count, disk⟩
  rw [if_pos denied] at count
  subst count
  refine ⟨rfl, ?_⟩
  rw [disk, Int.toNat_natCast]
  exact overwrite_nil

/-- With memory for the bounce buffer the bytes are stored. -/
theorem write_stored (inv : Inv tidy exclusive system.fs system.processes.held)
    (within : WithinLength system pid fd size fdt inode target) (buffer : Nat → Byte)
    (memory : system.fs.memory system.fs.requests = true) (allowed : target.denyWriteCnt = 0) :
    Returns (sysWrite fdt fd buffer size) system.fs fun written next =>
      written = size.toInt ∧ ∃ pos, next.disk = overwrite system.fs.disk
        (dataBase target.data + pos) (slice buffer 0 size.toInt.toNat) := by
  apply returns_mono (sys_write_counts inv within buffer)
  rintro written next ⟨pos, count, disk⟩
  have moved : transferred true pos size.toInt.toNat = size.toInt.toNat := rfl
  rw [if_neg (not_not.mpr allowed), memory, moved, Int.toNat_of_nonneg within.positive.le] at count
  subst count
  exact ⟨rfl, pos, disk⟩

end Writing

/-- Every process that ends does so in `sys_exit`. -/
def EndsInExit (_ : System) (action : Action) : Prop := Exclusive action

instance (system : System) (action : Action) : Decidable (EndsInExit system action) :=
  inferInstanceAs (Decidable (Exclusive action))

/-- While processes end in `sys_exit` only, writes are denied as often as the file is executed,
and a write within the length of a file is refused exactly when the file is executed. -/
theorem executables_are_read_only {start system : System} (boots : Boots start)
    (run : Reaches step EndsInExit start system) :
    (∀ inode target, system.fs.inodes inode = some target →
      target.denyWriteCnt = (executing system inode).ncard ∧ (executing system inode).Finite ∧
        target.denyWriteCnt ≤ target.openCnt) ∧
    ∀ pid fd size fdt inode target buffer, WithinLength system pid fd size fdt inode target →
      system.fs.memory system.fs.requests = true →
      (Refused system.fs fdt fd buffer size ↔ (executing system inode).Nonempty) := by
  have within : Reaches step (Within False True) start system :=
    reaches_mono (fun _ _ exits => ⟨False.elim, fun _ => exits⟩) run
  have inv := reaches_inv False True boots within
  refine ⟨fun inode target present => deny_write_counts inv present, ?_⟩
  intro pid fd size fdt inode target buffer write memory
  obtain ⟨count, finite, _⟩ := deny_write_counts inv write.target
  constructor
  · intro refused
    by_contra nobody
    rw [Set.not_nonempty_iff_eq_empty.mp nobody, Set.ncard_empty] at count
    have stored := write_stored inv write buffer memory count
    obtain ⟨written, next, ran, wrote, _⟩ := stored
    have none_ := (returns_ok refused ran).1
    have positive := write.positive
    omega
  · intro someone
    apply write_refused inv write buffer
    rw [count]
    exact_mod_cast (Set.ncard_pos finite).mpr someone |>.ne'

/-- Process 1 executes `a`, process 2 executes `b` and opens `a`. -/
def openRunning : List Action :=
  [.extract [0x61] zeroPageProgram, .extract [0x62] zeroPageProgram, .start 1 [0x61] roomy,
    .start 2 [0x62] roomy, .openFile 2 [0x61]]

/-- Only process 1 executes the file that process 2 has as descriptor 2. -/
def sharesRunning (system : System) : Bool :=
  (do
    let writer ← system.processes 2
    let file ← fdtFile writer.fdt 2
    let handle ← system.fs.files file
    let target ← system.fs.inodes handle.inode
    let executable ← system.processes.held (.executable 1)
    let running ← system.fs.files executable
    return running.inode = handle.inode ∧ target.denyWriteCnt = 1 ∧
      handle.pos + 1 ≤ inodeLength target.data ∧
      system.fs.memory system.fs.requests = true : Option Bool) = some true

theorem shares_running {system : System} (shares : sharesRunning system = true) :
    ∃ fdt inode target, WithinLength system 2 2 1 fdt inode target ∧ target.denyWriteCnt = 1 ∧
      1 ∈ executing system inode ∧ system.fs.memory system.fs.requests = true := by
  unfold sharesRunning at shares
  simp only [decide_eq_true_eq, Option.bind_eq_bind, Option.bind_eq_some_iff] at shares
  obtain ⟨writer, alive, file, found, handle, here, target, present, executable, holds, running,
    runs, passes⟩ := shares
  simp only [Option.pure_def, Option.some.injEq, decide_eq_true_eq] at passes
  obtain ⟨same, denied, fits, memory⟩ := passes
  refine ⟨writer.fdt, handle.inode, target, ⟨⟨writer, alive, rfl⟩,
    ⟨file, handle, found, here, rfl, ?_⟩, present, by decide⟩, denied,
    ⟨executable, running, holds, runs, same⟩, memory⟩
  exact fits

theorem open_running_reached :
    ∃ system, Reaches step EndsInExit (booted 8) system ∧ sharesRunning system = true :=
  reaches_of_check openRunning sharesRunning (by decide +kernel)

theorem executables_are_read_only_running :
    ∃ system fdt inode target, Reaches step EndsInExit (booted 8) system ∧
      WithinLength system 2 2 1 fdt inode target ∧
      Refused system.fs fdt 2 (fun _ => 0) 1 := by
  obtain ⟨system, run, shares⟩ := open_running_reached
  obtain ⟨fdt, inode, target, within, _, running, memory⟩ := shares_running shares
  have readOnly := (executables_are_read_only eight_sectors_boot run).2 2 2 1 fdt inode target
    (fun _ => 0) within memory
  exact ⟨system, fdt, inode, target, run, within, readOnly.mpr ⟨1, running⟩⟩

/-- The process that executes the file is killed by an exception, and writes stay denied. -/
theorem killed_process_denies_writes :
    ∃ system fdt inode target, Reaches step (fun _ _ => True) (booted 8) system ∧
      WithinLength system 2 2 1 fdt inode target ∧
      system.fs.memory system.fs.requests = true ∧ target.denyWriteCnt = 1 ∧
      Refused system.fs fdt 2 (fun _ => 0) 1 ∧ executing system inode = ∅ := by
  obtain ⟨before, run, shares⟩ := open_running_reached
  obtain ⟨fdt, inode, target, within, once, running, memory⟩ := shares_running shares
  have inv := reaches_inv False True eight_sectors_boot
    (reaches_mono (fun _ _ exits => ⟨False.elim, fun _ => exits⟩) run)
  have member := running
  obtain ⟨file, handle, holds, _⟩ := running
  obtain ⟨process, alive, _⟩ := Option.bind_eq_some_iff.mp holds
  have taken : step before (.killed 1) =
      some { fs := before.fs, processes := Function.update before.processes 1 none } := by
    simp only [step, Action.perform, alive, Option.map_some]
    rfl
  refine ⟨{ fs := before.fs, processes := Function.update before.processes 1 none }, fdt, inode,
    target, .push (reaches_mono (fun _ _ _ => trivial) run) trivial taken, ?_, memory, once,
    write_refused inv within _ (by omega), ?_⟩
  · obtain ⟨⟨writer, writing, table⟩, opened, present, positive⟩ := within
    have still : Function.update before.processes 1 none 2 = some writer := by
      rw [Function.update_of_ne (by decide)]
      exact writing
    exact ⟨⟨writer, still, table⟩, opened, present, positive⟩
  · obtain ⟨count, finite, _⟩ := deny_write_counts inv within.target
    have single : (executing before inode).ncard = 1 := by omega
    obtain ⟨only, alone⟩ := Set.ncard_eq_one.mp single
    have isFirst : only = 1 := by
      rw [alone] at member
      exact member.symm
    ext pid
    simp only [Set.mem_empty_iff_false, iff_false]
    rintro ⟨executable, found, runs, here, refers⟩
    have was : pid ∈ executing before inode :=
      ⟨executable, found, held_fewer _ executable runs, here, refers⟩
    rw [alone, isFirst] at was
    cases was
    simp [Processes.held] at runs

end UtSystems.Userprog.Executables

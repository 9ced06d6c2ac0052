import UtSystems.Userprog.DescriptorTables
import UtSystems.Userprog.SyscallFetch

/-!
# What sys_read stores in user memory

`sys_read` stores the bytes of the keyboard or of a file from the start of the buffer on, in
ascending order. `buf_check` has seen that the pages of the buffer are present; a page without
`PTE_W` faults when the kernel stores to it.
-/

namespace UtSystems.Userprog.UserWrites

open Lib.Bytes Lib.Effects Lib.GuardedRun Filesys.Volume Filesys.OpenFiles Filesys.NamedFiles
open Userprog.UserMemory Userprog.SyscallFetch Userprog.Descriptors Userprog.HeldFiles
open Userprog.HeldSteps Userprog.DescriptorTables

set_option autoImplicit false

/-- The user bytes that have been stored, and what has ended the process. -/
structure Stores where
  stored : List Addr
  ended : Option Ended
  deriving DecidableEq, Repr

/-- So many bytes are stored from `buffer + index` on. -/
def store (space : AddressSpace) (buffer : Addr) : Nat → Nat → Stores
  | 0, _ => { stored := [], ended := none }
  | count + 1, index =>
      let uaddr := buffer + BitVec.ofNat 32 index
      if writable space uaddr then
        let rest := store space buffer count (index + 1)
        { rest with stored := uaddr :: rest.stored }
      else { stored := [], ended := some (.writeFault uaddr) }

/-- `SYS_READ` of `syscall_handler`. -/
def serveRead (space : AddressSpace) (esp : Addr) (fdt : Fdt) (input : Nat → Byte) : FsM Stores :=
  match fetchCall space esp with
  | .error ended => return { stored := [], ended := some ended }
  | .ok (.read fd buffer size) => do
      let (_, bytes) ← sysRead fdt fd.toInt size input
      return store space buffer bytes.length 0
  | .ok _ => return { stored := [], ended := none }

/-- The bytes stored lie on writable pages, or `sys_exit(-1)` has come before any store. -/
def OnlyWritable (space : AddressSpace) (stores : Stores) : Prop :=
  (∀ uaddr ∈ stores.stored, writable space uaddr = true) ∧
    (stores.ended = none ∨ stores.ended = some (.exited (-1)) ∧ stores.stored = [])

/-- The handler has read the number of `SYS_READ`. -/
structure CallsRead (space : AddressSpace) (esp : Addr) : Prop where
  passed : usrPtrCheck space esp = true
  last : readable space (esp + 3#32) = true
  number : SyscallNr.ofWord (word space esp) = some .read

/-- How many bytes there are for the buffer: as many as asked for from the keyboard, and from a
file those that are left of it. -/
def delivered (fs : FileSys) (table : Table) (fd : Int) (size : Word) : Nat :=
  if fd = 0 then size.toNat
  else
    match table.lookup fd with
    | none => 0
    | some opened =>
        match fs.inodes opened.inode with
        | none => 0
        | some target => moves fs opened target size

section Storing

variable {space : AddressSpace} {buffer : Addr}

theorem store_stored (count index : Nat) :
    ∀ uaddr ∈ (store space buffer count index).stored, writable space uaddr = true := by
  induction count generalizing index with
  | zero =>
      intro uaddr stored
      cases stored
  | succ count ih =>
      rw [store]
      dsimp only
      split
      · next allowed =>
        intro uaddr stored
        rcases List.mem_cons.mp stored with rfl | later
        · exact allowed
        · exact ih (index + 1) uaddr later
      · intro uaddr stored
        cases stored

/-- Nothing stops the stores if all pages are writable; otherwise a fault does. -/
theorem store_ended (count index : Nat) :
    (store space buffer count index).ended = none ↔
      ∀ offset < count, writable space (buffer + BitVec.ofNat 32 (index + offset)) = true := by
  induction count generalizing index with
  | zero => simp [store]
  | succ count ih =>
      rw [store]
      dsimp only
      split
      · next allowed =>
        rw [ih]
        constructor
        · intro later offset inside
          cases offset with
          | zero => exact allowed
          | succ offset =>
              rw [← Nat.succ_add_eq_add_succ]
              exact later offset (by omega)
        · intro all offset inside
          rw [Nat.add_assoc, Nat.add_comm 1]
          exact all (offset + 1) (by omega)
      · next refused =>
        simp only [reduceCtorEq, false_iff, not_forall]
        exact ⟨0, Nat.succ_pos _, refused⟩

theorem store_fault (count index : Nat) (ended : Ended)
    (stopped : (store space buffer count index).ended = some ended) :
    ∃ uaddr, ended = .writeFault uaddr := by
  induction count generalizing index with
  | zero => cases stopped
  | succ count ih =>
      rw [store] at stopped
      dsimp only at stopped
      split at stopped
      · exact ih (index + 1) stopped
      · cases stopped
        exact ⟨_, rfl⟩

theorem store_only_writable (count : Nat) :
    OnlyWritable space (store space buffer count 0) ↔
      ∀ index < count, writable space (buffer + BitVec.ofNat 32 index) = true := by
  have unstopped := @store_ended space buffer count 0
  simp only [Nat.zero_add] at unstopped
  rw [← unstopped]
  constructor
  · rintro ⟨_, finished | ⟨exited, _⟩⟩
    · exact finished
    · obtain ⟨_, impossible⟩ := store_fault count 0 _ exited
      cases impossible
  · exact fun finished => ⟨store_stored count 0, .inl finished⟩

end Storing

section Reading

variable {tidy exclusive : Prop} {system : System} {process : Process} {pid : Nat}

/-- `sys_read` has as many bytes for the buffer as there are. -/
theorem sys_read_delivers (inv : Inv tidy exclusive system.fs system.processes.held)
    (alive : system.processes pid = some process) (fd : Int) (size : Word) (input : Nat → Byte) :
    Returns (sysRead process.fdt fd size input) system.fs fun result _ =>
      result.2.length = delivered system.fs (tableOf system pid) fd size := by
  unfold sysRead delivered
  rw [table_lookup alive]
  by_cases console : fd = 1
  · subst console
    exact returns_pure rfl
  rw [if_neg console]
  by_cases keyboard : fd = 0
  · rw [if_pos keyboard, if_pos keyboard]
    exact returns_pure (by simp)
  rw [if_neg keyboard, if_neg keyboard]
  cases found : fdtFile process.fdt fd with
  | none => exact returns_pure rfl
  | some file =>
      obtain ⟨_, ⟨handle, here⟩, notMap⟩ := descriptor_open inv alive found
      obtain ⟨_, sound, _, target, reached, _⟩ := user_handle inv.order here notMap
      simp only [Option.bind_some, openFile, here, Option.map_some, reached]
      apply returns_bind (file_read_returns sound here reached size.toInt)
      rintro bytes _ ⟨bytesRead, _⟩
      apply returns_pure
      dsimp only
      rw [bytesRead, slice_length]
      rfl

theorem calls_read {space : AddressSpace} {esp : Addr} (calls : CallsRead space esp) :
    fetchCall space esp = fetchBuffer space esp .read := by
  have number : loadWord space esp = .ok (word space esp) :=
    load_word_readable (usr_ptr_check_readable calls.passed) calls.last
  simp only [fetchCall, calls.passed, require, number, calls.number, if_true, bind, Except.bind]

/-- Where the first bytes of the three argument words pass, the last byte of the last is mapped. -/
def LastWordMapped (space : AddressSpace) (esp : Addr) : Prop :=
  usrPtrCheck space (esp + 4#32) = true → usrPtrCheck space (esp + 8#32) = true →
    usrPtrCheck space (esp + 12#32) = true → readable space (esp + 15#32) = true

/-- The pages that the bytes of the call are for are writable. -/
def BufferWritable (space : AddressSpace) (esp : Addr) (fs : FileSys) (table : Table) : Prop :=
  ∀ fd buffer size, fetchCall space esp = .ok (.read fd buffer size) →
    ∀ index < delivered fs table fd.toInt size,
      writable space (buffer + BitVec.ofNat 32 index) = true

theorem serve_read_only_writable (inv : Inv tidy exclusive system.fs system.processes.held)
    (alive : system.processes pid = some process) {space : AddressSpace} {esp : Addr}
    (calls : CallsRead space esp) (input : Nat → Byte) :
    Returns (serveRead space esp process.fdt input) system.fs fun stores _ =>
      (OnlyWritable space stores ↔ LastWordMapped space esp ∧
        BufferWritable space esp system.fs (tableOf system pid)) := by
  have mapped := @fetch_buffer_only_readable space esp .read
    fun _ _ _ _ impossible => False.elim impossible
  rw [← calls_read calls] at mapped
  unfold serveRead LastWordMapped BufferWritable
  rw [← mapped]
  cases fetched : fetchCall space esp with
  | error ended =>
      apply returns_pure
      constructor
      · rintro ⟨_, finished | ⟨exited, _⟩⟩
        · cases finished
        · cases exited
          exact ⟨rfl, fun _ _ _ impossible => by cases impossible⟩
      · rintro ⟨exited, _⟩
        change ended = _ at exited
        subst exited
        refine ⟨?_, .inr ⟨rfl, rfl⟩⟩
        intro uaddr stored
        cases stored
  | ok call =>
      rw [calls_read calls] at fetched
      have called := fetch_buffer_ok fetched
      subst called
      apply returns_bind (sys_read_delivers inv alive _ _ input)
      rintro ⟨value, bytes⟩ next count
      apply returns_pure
      rw [store_only_writable, count]
      constructor
      · intro allowed
        refine ⟨fun _ impossible => impossible.elim, ?_⟩
        intro _ _ _ same
        cases same
        exact allowed
      · rintro ⟨_, allowed⟩
        exact allowed _ _ _ rfl

end Reading

/-- In every state of every run, `SYS_READ` stores on writable pages only, or ends the process by
`sys_exit(-1)` before any store, exactly when its words are mapped and the pages of the bytes it
has for the buffer are writable. -/
theorem read_stores_only_writable_iff {start system : System} (boots : Boots start)
    (run : Reaches step (fun _ _ => True) start system) {pid : Nat} {process : Process}
    (alive : system.processes pid = some process) (space : AddressSpace) (esp : Addr)
    (calls : CallsRead space esp) (input : Nat → Byte) :
    Returns (serveRead space esp process.fdt input) system.fs fun stores _ =>
      (OnlyWritable space stores ↔ LastWordMapped space esp ∧
        BufferWritable space esp system.fs (tableOf system pid)) := by
  have inv := reaches_inv False False boots
    (reaches_mono (fun _ _ _ => ⟨False.elim, False.elim⟩) run)
  exact serve_read_only_writable inv alive calls input

/-- A process with a code page that is not writable and a stack page, and `read(0, code, 1)` on
the stack. -/
def readIntoCode : AddressSpace where
  pagedir := fun directory =>
    if directory.val = 767 then
      some fun table => if table.val = 1023 then pteCreateUser 0x00100000 true else 0
    else if directory.val = 32 then
      some fun table => if table.val = 72 then pteCreateUser 0x00101000 false else 0
    else none
  contents := fun uaddr =>
    if uaddr = 0xBFFFFFE0 then 8
    else if uaddr = 0xBFFFFFE9 then 0x80
    else if uaddr = 0xBFFFFFEA then 0x04
    else if uaddr = 0xBFFFFFEB then 0x08
    else if uaddr = 0xBFFFFFEC then 1
    else 0

theorem read_into_code_fetched :
    fetchCall readIntoCode 0xBFFFFFE0 = .ok (.read 0 0x08048000 1) := by
  decide +kernel

theorem read_into_code_calls : CallsRead readIntoCode 0xBFFFFFE0 where
  passed := by decide +kernel
  last := by decide +kernel
  number := by decide +kernel

theorem first_process_starts :
    ∃ system process, Reaches step (fun _ _ => True) (booted 8) system ∧
      system.processes 1 = some process := by
  obtain ⟨system, run, alive⟩ := @reaches_of_check _ _ step (fun _ _ => True) _ (booted 8) startFirst
    (fun system => (system.processes 1).isSome) (by decide +kernel)
  obtain ⟨process, alive⟩ := Option.isSome_iff_exists.mp alive
  exact ⟨system, process, run, alive⟩

theorem read_stores_only_writable_iff_started :
    ∃ system process, Reaches step (fun _ _ => True) (booted 8) system ∧
      system.processes 1 = some process ∧
      Returns (serveRead readIntoCode 0xBFFFFFE0 process.fdt fun _ => 0) system.fs fun stores _ =>
        (OnlyWritable readIntoCode stores ↔ LastWordMapped readIntoCode 0xBFFFFFE0 ∧
          BufferWritable readIntoCode 0xBFFFFFE0 system.fs (tableOf system 1)) := by
  obtain ⟨system, process, run, alive⟩ := first_process_starts
  exact ⟨system, process, run, alive, read_stores_only_writable_iff eight_sectors_boot run alive
    readIntoCode 0xBFFFFFE0 read_into_code_calls fun _ => 0⟩

/-- The handler lets the call through, and the store faults in the kernel. -/
theorem read_into_code_faults :
    CallsRead readIntoCode 0xBFFFFFE0 ∧
    fetchCall readIntoCode 0xBFFFFFE0 = .ok (.read 0 0x08048000 1) ∧
    ∃ system process, Reaches step (fun _ _ => True) (booted 8) system ∧
      system.processes 1 = some process ∧
      Returns (serveRead readIntoCode 0xBFFFFFE0 process.fdt fun _ => 0) system.fs fun stores _ =>
        stores.ended = some (.writeFault 0x08048000) ∧ ¬OnlyWritable readIntoCode stores := by
  obtain ⟨system, process, run, alive⟩ := first_process_starts
  refine ⟨read_into_code_calls, read_into_code_fetched, system, process, run, alive, ?_⟩
  unfold serveRead
  rw [read_into_code_fetched]
  refine ⟨store readIntoCode 0x08048000 1 0, system.fs, rfl, ?_⟩
  have faults : store readIntoCode 0x08048000 1 0 =
      { stored := [], ended := some (.writeFault 0x08048000) } := by
    decide +kernel
  rw [faults]
  refine ⟨rfl, ?_⟩
  rintro ⟨_, finished | ⟨exited, _⟩⟩
  · cases finished
  · cases exited

end UtSystems.Userprog.UserWrites

import UtSystems.Userprog.DescriptorTables
import UtSystems.Userprog.SyscallFetch

/-!
# The two sides of a system call

The stubs of lib/user/syscall.c push the arguments and the number on the user's stack, trap, and
take the result from EAX. `syscall_handler` fetches the call from the stack and puts the result of
the `sys_*` function into the frame's EAX, in most of its cases.
-/

namespace UtSystems.Userprog.SyscallStubs

open Lib.Bytes Lib.Effects Lib.GuardedRun Filesys.Volume Filesys.Inode Filesys.NamedFiles
open Userprog.UserMemory Userprog.SyscallFetch Userprog.Descriptors Userprog.HeldFiles
open Userprog.HeldSteps Userprog.DescriptorTables

set_option autoImplicit false

/-- A word is stored by the user; a fault of the user's ends in `sys_exit(-1)`. -/
def storeWord (space : AddressSpace) (uaddr : Addr) (value : Word) : Except Ended AddressSpace :=
  if (List.range 4).all fun index => writable space (uaddr + BitVec.ofNat 32 index) then
    .ok { space with contents := fun cell =>
      if (cell - uaddr).toNat < 4 then wordByte value (cell - uaddr).toNat
      else space.contents cell }
  else .error (.exited (-1))

/-- `pushl`. -/
def pushWord (space : AddressSpace) (esp : Addr) (value : Word) :
    Except Ended (AddressSpace × Addr) := do
  let space ← storeWord space (esp - 4#32) value
  return (space, esp - 4#32)

/-- The last word is pushed first. -/
def pushWords (space : AddressSpace) (esp : Addr) : List Word → Except Ended (AddressSpace × Addr)
  | [] => .ok (space, esp)
  | value :: rest => do
      let (space, esp) ← pushWords space esp rest
      pushWord space esp value

/-- What the stub of a call leaves on the stack, from the number on. -/
def stubWords : Call → List Word
  | .halt => [0]
  | .exit status => [1, status]
  | .exec cmdLine => [2, cmdLine]
  | .wait pid => [3, pid]
  | .create file initialSize => [4, file, initialSize]
  | .remove file => [5, file]
  | .open file => [6, file]
  | .filesize fd => [7, fd]
  | .read fd buffer size => [8, fd, buffer, size]
  | .write fd buffer size => [9, fd, buffer, size]
  | .seek fd position => [10, fd, position]
  | .tell fd => [11, fd]
  | .close fd => [12, fd]
  | .unknown number => [number]

/-- The calls that lib/user/syscall.c has a stub for. -/
def HasStub : Call → Prop
  | .unknown _ => False
  | _ => True

/-- The stubs and `sys_*` functions that return a value. -/
def HasResult : Call → Prop
  | .exec _ | .wait _ | .create _ _ | .remove _ | .open _ | .filesize _ | .read _ _ _
  | .write _ _ _ | .tell _ => True
  | .halt | .exit _ | .seek _ _ | .close _ | .unknown _ => False

section Handler

variable {Error State : Type} (stop : Ended → Error) (sys : Call → EStateM Error State Word)

/-- `syscall_handler` on a frame with `eax`; `sys` calls the `sys_*` function, and what it returns
for a function without result is not looked at. -/
def syscallHandler (space : AddressSpace) (esp : Addr) (eax : Word) : EStateM Error State Word :=
  match fetchCall space esp with
  | .error ended => throw (stop ended)
  | .ok call => do
      let value ← sys call
      match call with
      | .exit _ | .exec _ | .wait _ | .create _ _ | .remove _ | .open _ | .filesize _ | .read _ _ _
      | .write _ _ _ => return value
      | .halt | .seek _ _ | .tell _ | .close _ | .unknown _ => return eax

/-- A stub, called with `eax` in the register: what it finds there when the handler is back. -/
def stub (space : AddressSpace) (esp : Addr) (eax : Word) (call : Call) :
    EStateM Error State Word :=
  match pushWords space esp (stubWords call) with
  | .error ended => throw (stop ended)
  | .ok (space, esp) => syscallHandler stop sys space esp eax

end Handler

section Words

variable {space next : AddressSpace} {uaddr esp last : Addr} {value : Word}

theorem store_word_contents (stored : storeWord space uaddr value = .ok next) (cell : Addr) :
    next.contents cell = if (cell - uaddr).toNat < 4 then wordByte value (cell - uaddr).toNat
      else space.contents cell := by
  unfold storeWord at stored
  split at stored
  · cases stored
    rfl
  · cases stored

theorem store_word_here (stored : storeWord space uaddr value = .ok next) :
    word next uaddr = value := by
  have byte : ∀ index < 4, next.contents (uaddr + BitVec.ofNat 32 index) = wordByte value index := by
    intro index inside
    rw [store_word_contents stored, BitVec.add_comm, BitVec.add_sub_cancel, BitVec.toNat_ofNat,
      Nat.mod_eq_of_lt (by omega), if_pos inside]
  have first := byte 0 (by decide)
  rw [BitVec.add_zero] at first
  unfold word
  rw [first, byte 1 (by decide), byte 2 (by decide), byte 3 (by decide)]
  exact join_word_bytes value

theorem store_word_above (stored : storeWord space uaddr value = .ok next) {distance : Nat}
    (apart : 4 ≤ distance) (small : distance < 2 ^ 31) :
    word next (uaddr + BitVec.ofNat 32 distance) = word space (uaddr + BitVec.ofNat 32 distance) := by
  have byte : ∀ index < 4,
      next.contents (uaddr + BitVec.ofNat 32 distance + BitVec.ofNat 32 index) =
        space.contents (uaddr + BitVec.ofNat 32 distance + BitVec.ofNat 32 index) := by
    intro index inside
    rw [store_word_contents stored, offset_add, BitVec.add_comm, BitVec.add_sub_cancel,
      BitVec.toNat_ofNat, Nat.mod_eq_of_lt (by omega), if_neg (by omega)]
  have first := byte 0 (by decide)
  rw [BitVec.add_zero] at first
  unfold word
  rw [first, byte 1 (by decide), byte 2 (by decide), byte 3 (by decide)]

theorem push_words_cons {first : Word} {rest : List Word}
    (pushed : pushWords space esp (first :: rest) = .ok (next, last)) :
    ∃ between top, pushWords space esp rest = .ok (between, top) ∧
      storeWord between (top - 4#32) first = .ok next ∧ last = top - 4#32 := by
  obtain ⟨⟨between, top⟩, before, pushed⟩ := except_bind_ok pushed
  obtain ⟨final, stored, pushed⟩ := except_bind_ok pushed
  cases pushed
  exact ⟨between, top, before, stored, rfl⟩

/-- The words lie on the stack from the last one pushed upwards. -/
theorem push_words_on_stack {words : List Word} (few : words.length ≤ 4)
    (pushed : pushWords space esp words = .ok (next, last)) (index : Nat) {value : Word}
    (here : words[index]? = some value) : word next (last + BitVec.ofNat 32 (4 * index)) = value := by
  induction words generalizing next last index with
  | nil => cases here
  | cons first rest ih =>
      obtain ⟨between, top, before, stored, rfl⟩ := push_words_cons pushed
      cases index with
      | zero =>
          cases here
          rw [Nat.mul_zero, BitVec.add_zero]
          exact store_word_here stored
      | succ index =>
          have inside := (List.getElem?_eq_some_iff.mp here).1
          have fewer : rest.length ≤ 4 := Nat.le_of_succ_le few
          have place : top - 4#32 + BitVec.ofNat 32 (4 * (index + 1)) =
              top + BitVec.ofNat 32 (4 * index) := by
            rw [Nat.mul_add, Nat.add_comm, BitVec.ofNat_add, ← BitVec.add_assoc,
              BitVec.sub_add_cancel]
          rw [store_word_above stored (by omega) (by omega), place]
          exact ih fewer before index here

/-- The handler finds on the stack the call that the stub is for. -/
theorem call_at_pushed {call : Call} (hasStub : HasStub call)
    (pushed : pushWords space esp (stubWords call) = .ok (next, last)) : callAt next last = call := by
  have few : (stubWords call).length ≤ 4 := by
    cases call <;> simp [stubWords]
  have number : ∀ {value}, (stubWords call)[0]? = some value → word next last = value := by
    intro value here
    have found := push_words_on_stack few pushed 0 here
    rw [Nat.mul_zero, BitVec.add_zero] at found
    exact found
  have first : ∀ {value}, (stubWords call)[1]? = some value → word next (last + 4#32) = value :=
    fun here => push_words_on_stack few pushed 1 here
  have second : ∀ {value}, (stubWords call)[2]? = some value → word next (last + 8#32) = value :=
    fun here => push_words_on_stack few pushed 2 here
  have third : ∀ {value}, (stubWords call)[3]? = some value → word next (last + 12#32) = value :=
    fun here => push_words_on_stack few pushed 3 here
  unfold callAt
  cases call with
  | halt =>
      rw [number rfl]
      rfl
  | exit | exec | wait | remove | «open» | filesize | tell | close =>
      rw [number rfl, first rfl]
      rfl
  | create | seek =>
      rw [number rfl, first rfl, second rfl]
      rfl
  | read | write =>
      rw [number rfl, first rfl, second rfl, third rfl]
      rfl
  | unknown number => exact hasStub.elim

end Words

/-- The handler drops the result of the call. -/
def Drops : Call → Prop
  | .tell _ => True
  | _ => False

/-- When a stub comes back, the `sys_*` function has been called with the stub's arguments. Its
result is in EAX, unless the handler drops it. -/
theorem stub_result {Error State : Type} {stop : Ended → Error}
    {sys : Call → EStateM Error State Word} {space : AddressSpace} {esp : Addr} {eax : Word}
    {call : Call} (hasStub : HasStub call) {state next : State} {result : Word}
    (returned : stub stop sys space esp eax call state = .ok result next) :
    ∃ value, sys call state = .ok value next ∧
      ((HasResult call → result = value) ↔ (Drops call → eax = value)) := by
  unfold stub at returned
  cases pushed : pushWords space esp (stubWords call) with
  | error ended =>
      rw [pushed] at returned
      cases returned
  | ok onStack =>
      rw [pushed] at returned
      change syscallHandler stop sys onStack.1 onStack.2 eax state = _ at returned
      unfold syscallHandler at returned
      cases found : fetchCall onStack.1 onStack.2 with
      | error ended =>
          rw [found] at returned
          cases returned
      | ok fetched =>
          have same : fetched = call := (fetch_call_ok found).trans (call_at_pushed hasStub pushed)
          rw [found, same] at returned
          obtain ⟨value, middle, ran, rest⟩ := bind_ok returned
          cases call with
          | unknown number => exact hasStub.elim
          | tell fd =>
              cases rest
              exact ⟨_, ran, fun agrees _ => agrees trivial, fun agrees _ => agrees trivial⟩
          | halt | seek | close =>
              cases rest
              exact ⟨_, ran, fun _ => False.elim, fun _ => False.elim⟩
          | exit | exec | wait | create | remove | «open» | filesize | read | write =>
              cases rest
              exact ⟨_, ran, fun _ => False.elim, fun _ _ => rfl⟩

section Files

variable {tidy exclusive : Prop} {system : System} {process : Process} {pid : Nat}

def onFiles {Value : Type} (program : FsM Value) : EStateM (Ended ⊕ Panic) FileSys Value :=
  fun fs =>
    match program fs with
    | .ok value next => .ok value next
    | .error panic last => .error (.inr panic) last

/-- `sys_seek` and `sys_tell`, and any other functions. -/
def positionCalls (fdt : Fdt) (others : Call → EStateM (Ended ⊕ Panic) FileSys Word) :
    Call → EStateM (Ended ⊕ Panic) FileSys Word
  | .seek fd position => onFiles do
      sysSeek fdt fd.toInt position
      return 0
  | .tell fd => onFiles do
      return BitVec.ofNat 32 (← sysTell fdt fd.toInt)
  | call => others call

theorem on_files_ok {Value : Type} {program : FsM Value} {fs next : FileSys} {value : Value}
    (ran : onFiles program fs = .ok value next) : program fs = .ok value next := by
  unfold onFiles at ran
  cases result : program fs with
  | ok other last =>
      rw [result] at ran
      cases ran
      rfl
  | error panic last =>
      rw [result] at ran
      cases ran

/-- `sys_tell` returns the position that `sys_seek` has set. -/
theorem tell_after_seek (inv : Inv tidy exclusive system.fs system.processes.held)
    (alive : system.processes pid = some process) {fd position : Word}
    (isOpen : (fdtFile process.fdt fd.toInt).isSome) (small : position.toNat < 2 ^ 31) :
    Returns (do
      sysSeek process.fdt fd.toInt position
      sysTell process.fdt fd.toInt) system.fs fun told _ => BitVec.ofNat 32 told = position := by
  obtain ⟨file, found⟩ := Option.isSome_iff_exists.mp isOpen
  obtain ⟨_, ⟨handle, here⟩, notMap⟩ := descriptor_open inv alive found
  have signed : position.toInt = position.toNat := by
    rw [BitVec.toInt_eq_toNat_cond, if_pos (by omega)]
  unfold sysSeek sysTell
  rw [found]
  apply returns_bind (file_seek_in_order inv.order here notMap (by omega))
  rintro _ _ ⟨_, rfl⟩
  unfold fileTell
  apply returns_bind (file_at_returns (Function.update_self ..))
  rintro _ _ ⟨rfl, rfl⟩
  apply returns_pure
  dsimp only
  rw [signed, Int.toNat_natCast, BitVec.ofNat_toNat, BitVec.setWidth_eq]

/-- After the stub of `seek` has come back, `sys_tell` returns the position. -/
theorem tell_stub_position (inv : Inv tidy exclusive system.fs system.processes.held)
    (alive : system.processes pid = some process) {fd position : Word}
    (isOpen : (fdtFile process.fdt fd.toInt).isSome) (small : position.toNat < 2 ^ 31)
    {stop : Ended → Ended ⊕ Panic} {others : Call → EStateM (Ended ⊕ Panic) FileSys Word}
    {space spaceTell : AddressSpace} {esp espTell : Addr} {eax eaxTell result told : Word}
    {middle last : FileSys}
    (sought : stub stop (positionCalls process.fdt others) space esp eax (.seek fd position) system.fs =
      .ok result middle)
    (tells : stub stop (positionCalls process.fdt others) spaceTell espTell eaxTell (.tell fd) middle =
      .ok told last) :
    positionCalls process.fdt others (.tell fd) middle = .ok position last ∧
      (told = position ↔ eaxTell = position) := by
  have seekStub : HasStub (.seek fd position) := trivial
  have tellStub : HasStub (.tell fd) := trivial
  obtain ⟨_, seeks, _⟩ := stub_result seekStub sought
  obtain ⟨value, ran, agree⟩ := stub_result tellStub tells
  obtain ⟨_, _, moved, rest⟩ := bind_ok (on_files_ok seeks)
  cases rest
  obtain ⟨number, _, read, rest⟩ := bind_ok (on_files_ok ran)
  cases rest
  have both : (do
      sysSeek process.fdt fd.toInt position
      sysTell process.fdt fd.toInt : FsM Nat) system.fs = .ok number last :=
    (bind_run moved).trans read
  have isPosition := returns_ok (tell_after_seek inv alive isOpen small) both
  rw [isPosition] at agree ran
  refine ⟨ran, ?_, ?_⟩
  · exact fun same => agree.mp (fun _ => same) trivial
  · exact fun same => agree.mpr (fun _ => same) trivial

end Files

/-- When a stub comes back, the `sys_*` function has been called with the same arguments and EAX
holds its result: always, but for `tell` only if EAX held it before. So `seek` to a position and
`tell` give that position only if EAX held it. -/
theorem stubs_have_results_iff {Error State : Type} (stop : Ended → Error)
    (sys : Call → EStateM Error State Word) (space : AddressSpace) (esp : Addr) (eax : Word)
    (call : Call) (state next : State) (result : Word) :
    (HasStub call → stub stop sys space esp eax call state = .ok result next →
      ∃ value, sys call state = .ok value next ∧
        ((HasResult call → result = value) ↔ (Drops call → eax = value))) ∧
    ∀ {start system : System}, Boots start → Reaches step (fun _ _ => True) start system →
      ∀ {pid : Nat} {process : Process} {fd position : Word}, system.processes pid = some process →
      (fdtFile process.fdt fd.toInt).isSome → position.toNat < 2 ^ 31 →
      ∀ stop others space spaceTell esp espTell eax eaxTell middle last result told,
      stub stop (positionCalls process.fdt others) space esp eax (.seek fd position) system.fs =
        .ok result middle →
      stub stop (positionCalls process.fdt others) spaceTell espTell eaxTell (.tell fd) middle =
        .ok told last →
      (told = position ↔ eaxTell = position) := by
  constructor
  · intro hasStub returned
    exact stub_result hasStub returned
  · intro start system boots run pid process fd position alive isOpen small stop others space
      spaceTell esp espTell eax eaxTell middle last result told sought told_
    have inv := reaches_inv False False boots
      (reaches_mono (fun _ _ _ => ⟨False.elim, False.elim⟩) run)
    exact (tell_stub_position inv alive isOpen small sought told_).2

/-- `seek(2, 5)` and `tell(2)` from a stack that has room for them. -/
def seekThenTell (fdt : Fdt) (eax : Word) : EStateM (Ended ⊕ Panic) FileSys Word := do
  let _ ← stub .inl (positionCalls fdt fun _ => pure 0) stackOnly 0xBFFFFFF0 eax (.seek 2 5)
  stub .inl (positionCalls fdt fun _ => pure 0) stackOnly 0xBFFFFFF0 eax (.tell 2)

/-- Process 1 has a file open, and `tell` comes back with what EAX held, 7. -/
def tellsSeven (system : System) : Bool :=
  (system.processes 1).any fun process =>
    (fdtFile process.fdt 2).isSome && (seekThenTell process.fdt 7).run' system.fs = some 7

theorem seven_told :
    ∃ system process middle last result, Reaches step (fun _ _ => True) (booted 8) system ∧
      system.processes 1 = some process ∧ (fdtFile process.fdt 2).isSome ∧
      stub .inl (positionCalls process.fdt fun _ => pure 0) stackOnly 0xBFFFFFF0 7 (.seek 2 5)
        system.fs = .ok result middle ∧
      stub .inl (positionCalls process.fdt fun _ => pure 0) stackOnly 0xBFFFFFF0 7 (.tell 2) middle =
        .ok 7 last := by
  obtain ⟨system, run, tells⟩ := @reaches_of_check _ _ step (fun _ _ => True) _ (booted 8) openOwn
    tellsSeven (by decide +kernel)
  unfold tellsSeven at tells
  simp only [Option.any_eq_true, Bool.and_eq_true, decide_eq_true_eq] at tells
  obtain ⟨process, alive, isOpen, told⟩ := tells
  obtain ⟨last, ran⟩ := ok_of_run told
  obtain ⟨result, middle, sought, tells⟩ := bind_ok ran
  exact ⟨system, process, middle, last, result, run, alive, isOpen, sought, tells⟩

theorem stubs_have_results_iff_seven :
    ∃ system process middle, Reaches step (fun _ _ => True) (booted 8) system ∧
      system.processes 1 = some process ∧
      (∃ value last, positionCalls process.fdt (fun _ => pure 0) (.tell 2) middle = .ok value last ∧
        ((HasResult (.tell 2) → (7 : Word) = value) ↔ (Drops (.tell 2) → (7 : Word) = value))) ∧
      ((7 : Word) = 5 ↔ (7 : Word) = 5) := by
  obtain ⟨system, process, middle, last, result, run, alive, isOpen, sought, tells⟩ := seven_told
  have both := stubs_have_results_iff .inl (positionCalls process.fdt fun _ => pure 0) stackOnly
    0xBFFFFFF0 7 (.tell 2) middle last 7
  have general := both.1 trivial tells
  have position := @both.2 _ _ eight_sectors_boot run 1 process 2 5 alive isOpen
    (by decide) .inl _ stackOnly stackOnly _ _ 7 7 middle last result 7 sought tells
  obtain ⟨value, ran, agree⟩ := general
  exact ⟨system, process, middle, run, alive, ⟨value, last, ran, agree⟩, position⟩

/-- `sys_tell` has returned 5, and `tell` returns 7. -/
theorem tell_drops_position :
    ∃ system process middle last result, Reaches step (fun _ _ => True) (booted 8) system ∧
      system.processes 1 = some process ∧ (fdtFile process.fdt 2).isSome ∧
      stub .inl (positionCalls process.fdt fun _ => pure 0) stackOnly 0xBFFFFFF0 7 (.seek 2 5)
        system.fs = .ok result middle ∧
      stub .inl (positionCalls process.fdt fun _ => pure 0) stackOnly 0xBFFFFFF0 7 (.tell 2) middle =
        .ok 7 last ∧
      positionCalls process.fdt (fun _ => pure 0) (.tell 2) middle = .ok 5 last := by
  obtain ⟨system, process, middle, last, result, run, alive, isOpen, sought, tells⟩ := seven_told
  refine ⟨system, process, middle, last, result, run, alive, isOpen, sought, tells, ?_⟩
  have inv := reaches_inv False False eight_sectors_boot
    (reaches_mono (fun _ _ _ => ⟨False.elim, False.elim⟩) run)
  exact (@tell_stub_position _ _ system process 1 inv alive 2 5 isOpen (by decide) _ _ _ _ _ _ _ _ _ _ _ _
    sought tells).1

end UtSystems.Userprog.SyscallStubs

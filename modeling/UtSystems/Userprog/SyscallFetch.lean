import UtSystems.Lib.Effects
import UtSystems.Userprog.UserMemory

/-!
# What syscall_handler fetches from user memory

Every case of the switch checks the words it needs, then the string or buffer
they point to, and then reads the words again to call the `sys_*` function. The
model keeps these reads in the order of the source and returns the call with its
arguments. `sys_exit` does not return, so a failed check ends the handler.

`usr_ptr_check` looks at one byte. The words it guards are four bytes long.
-/

namespace UtSystems.Userprog.SyscallFetch

open Lib.Bytes
open Lib.Effects (except_bind_ok)
open Userprog.UserMemory

set_option autoImplicit false

/-- The numbers of lib/syscall-nr.h that the switch has a case for. -/
inductive SyscallNr where
  | halt | exit | exec | wait | create | remove | «open» | filesize | read | write | seek
  | tell | close
  deriving DecidableEq, Repr

def SyscallNr.ofWord (number : Word) : Option SyscallNr :=
  match number.toNat with
  | 0 => some .halt
  | 1 => some .exit
  | 2 => some .exec
  | 3 => some .wait
  | 4 => some .create
  | 5 => some .remove
  | 6 => some .open
  | 7 => some .filesize
  | 8 => some .read
  | 9 => some .write
  | 10 => some .seek
  | 11 => some .tell
  | 12 => some .close
  | _ => none

/-- A call with the argument words that the handler hands to the `sys_*` function. -/
inductive Call where
  | halt
  | exit (status : Word)
  | exec (cmdLine : Addr)
  | wait (pid : Word)
  | create (file : Addr) (initialSize : Word)
  | remove (file : Addr)
  | «open» (file : Addr)
  | filesize (fd : Word)
  | read (fd : Word) (buffer : Addr) (size : Word)
  | write (fd : Word) (buffer : Addr) (size : Word)
  | seek (fd : Word) (position : Word)
  | tell (fd : Word)
  | close (fd : Word)
  -- The default case: `thread_exit()`
  | unknown (number : Word)
  deriving DecidableEq, Repr

def usrPtrCheck (space : AddressSpace) (ptr : Addr) : Bool :=
  !(ptr == 0 || !isUserVaddr ptr || (pagedirGetPage space.pagedir ptr).isNone)

/-- The loop of `str_check`. Past the last user address `usr_ptr_check` fails, so
`2 ^ 32` rounds are never used up. -/
def strCheckLoop (space : AddressSpace) : Nat → Addr → Except Ended Bool
  | 0, _ => return false
  | rounds + 1, str =>
      if usrPtrCheck space str then do
        if (← load space str) = 0 then return true
        strCheckLoop space rounds (str + 1#32)
      else return false

def strCheck (space : AddressSpace) (str : Addr) : Except Ended Bool :=
  strCheckLoop space (2 ^ 32) str

/-- The loop of `buf_check` from `buf_idx` on. It makes no more than
`max size 1` rounds. -/
def bufCheckLoop (space : AddressSpace) (buffer : Addr) (size : Nat) : Nat → Nat → Bool
  | 0, _ => false
  | rounds + 1, bufIdx =>
      if usrPtrCheck space (buffer + BitVec.ofNat 32 bufIdx) then
        if size = 0 ∨ bufIdx = size - 1 then true
        else bufCheckLoop space buffer size rounds (bufIdx + 1)
      else false

def bufCheck (space : AddressSpace) (buffer : Addr) (size : Word) : Bool :=
  bufCheckLoop space buffer size.toNat (size.toNat + 1) 0

/-- A check of the handler: `sys_exit(-1)` unless it succeeded. -/
def require (ok : Bool) : Except Ended Unit :=
  if ok then .ok () else .error (.exited (-1))

/-- The cases with one scalar argument. -/
def fetchWord (space : AddressSpace) (esp : Addr) (call : Word → Call) : Except Ended Call := do
  require (usrPtrCheck space (esp + 4#32))
  return call (← loadWord space (esp + 4#32))

/-- The cases with one string argument. -/
def fetchPath (space : AddressSpace) (esp : Addr) (call : Addr → Call) : Except Ended Call := do
  require (usrPtrCheck space (esp + 4#32))
  require (← strCheck space (← loadWord space (esp + 4#32)))
  return call (← loadWord space (esp + 4#32))

def fetchCreate (space : AddressSpace) (esp : Addr) : Except Ended Call := do
  require (usrPtrCheck space (esp + 4#32))
  require (usrPtrCheck space (esp + 8#32))
  require (← strCheck space (← loadWord space (esp + 4#32)))
  return .create (← loadWord space (esp + 4#32)) (← loadWord space (esp + 8#32))

/-- The cases with a descriptor and a buffer. -/
def fetchBuffer (space : AddressSpace) (esp : Addr) (call : Word → Addr → Word → Call) :
    Except Ended Call := do
  require (usrPtrCheck space (esp + 4#32))
  require (usrPtrCheck space (esp + 8#32))
  require (usrPtrCheck space (esp + 12#32))
  require (bufCheck space (← loadWord space (esp + 8#32)) (← loadWord space (esp + 12#32)))
  return call (← loadWord space (esp + 4#32)) (← loadWord space (esp + 8#32))
    (← loadWord space (esp + 12#32))

def fetchSeek (space : AddressSpace) (esp : Addr) : Except Ended Call := do
  require (usrPtrCheck space (esp + 4#32))
  require (usrPtrCheck space (esp + 8#32))
  return .seek (← loadWord space (esp + 4#32)) (← loadWord space (esp + 8#32))

/-- `syscall_handler` up to the calls of the `sys_*` functions. -/
def fetchCall (space : AddressSpace) (esp : Addr) : Except Ended Call := do
  require (usrPtrCheck space esp)
  let number ← loadWord space esp
  match SyscallNr.ofWord number with
  | some .halt => return .halt
  | some .exit => fetchWord space esp .exit
  | some .exec => fetchPath space esp .exec
  | some .wait => fetchWord space esp .wait
  | some .create => fetchCreate space esp
  | some .remove => fetchPath space esp .remove
  | some .open => fetchPath space esp .open
  | some .filesize => fetchWord space esp .filesize
  | some .read => fetchBuffer space esp .read
  | some .write => fetchBuffer space esp .write
  | some .seek => fetchSeek space esp
  | some .tell => fetchWord space esp .tell
  | some .close => fetchWord space esp .close
  | none => return .unknown number

section Checks

variable {space : AddressSpace}

theorem usr_ptr_check_iff {ptr : Addr} :
    usrPtrCheck space ptr = true ↔ ptr ≠ 0 ∧ readable space ptr = true := by
  simp only [usrPtrCheck, readable]
  cases isUserVaddr ptr <;> cases pagedirGetPage space.pagedir ptr <;> simp

theorem usr_ptr_check_readable {ptr : Addr} (passed : usrPtrCheck space ptr = true) :
    readable space ptr = true := (usr_ptr_check_iff.mp passed).2

/-- A NUL-terminated string all of whose bytes, the NUL included, are readable. -/
def IsString (space : AddressSpace) (str : Addr) : Prop :=
  ∃ length : Nat, space.contents (str + BitVec.ofNat 32 length) = 0 ∧
    ∀ index ≤ length, readable space (str + BitVec.ofNat 32 index) = true

theorem add_one_add (str : Addr) (index : Nat) :
    str + 1#32 + BitVec.ofNat 32 index = str + BitVec.ofNat 32 (index + 1) := by
  rw [BitVec.add_assoc, ← BitVec.ofNat_add, Nat.add_comm]

theorem is_string_cons {str : Addr} (first : readable space str = true)
    (rest : IsString space (str + 1#32)) : IsString space str := by
  obtain ⟨length, ending, mapped⟩ := rest
  rw [add_one_add] at ending
  refine ⟨length + 1, ending, ?_⟩
  intro index bound
  cases index with
  | zero => simpa using first
  | succ index =>
      rw [← add_one_add]
      exact mapped index (by omega)

/-- `str_check` reads only bytes it has checked, and accepts only strings. -/
theorem str_check_loop_spec (rounds : Nat) (str : Addr) :
    ∃ accepted, strCheckLoop space rounds str = .ok accepted ∧
      (accepted = true → IsString space str) := by
  induction rounds generalizing str with
  | zero => exact ⟨false, rfl, by simp⟩
  | succ rounds induction =>
      by_cases passed : usrPtrCheck space str = true
      · have first := usr_ptr_check_readable passed
        by_cases ending : space.contents str = 0
        · refine ⟨true, ?_, ?_⟩
          · simp only [strCheckLoop, passed, load_readable first, ending]
            rfl
          · intro _
            refine ⟨0, by simpa using ending, ?_⟩
            intro index bound
            have zero : index = 0 := by omega
            simpa [zero] using first
        · obtain ⟨accepted, result, sound⟩ := induction (str + 1#32)
          refine ⟨accepted, ?_, ?_⟩
          · simp only [strCheckLoop, passed, load_readable first, ↓reduceIte]
            change (if space.contents str = 0 then pure true else _) = _
            rw [if_neg ending, result]
          · intro held
            exact is_string_cons first (sound held)
      · refine ⟨false, ?_, by simp⟩
        simp only [strCheckLoop, passed]
        rfl

theorem str_check_spec (str : Addr) :
    ∃ accepted, strCheck space str = .ok accepted ∧ (accepted = true → IsString space str) :=
  str_check_loop_spec (2 ^ 32) str

/-- Every byte from `buf_idx` to the end of the buffer has been looked at. -/
theorem buf_check_loop_sound (buffer : Addr) (size rounds bufIdx : Nat)
    (passed : bufCheckLoop space buffer size rounds bufIdx = true) (index : Nat)
    (lower : bufIdx ≤ index) (upper : index < size) :
    readable space (buffer + BitVec.ofNat 32 index) = true := by
  induction rounds generalizing bufIdx with
  | zero => simp [bufCheckLoop] at passed
  | succ rounds induction =>
      rw [bufCheckLoop] at passed
      split at passed
      · next checked =>
        by_cases here : index = bufIdx
        · rw [here]
          exact usr_ptr_check_readable checked
        · split at passed
          · omega
          · exact induction (bufIdx + 1) passed (by omega)
      · cases passed

theorem buf_check_sound {buffer : Addr} {size : Word}
    (passed : bufCheck space buffer size = true) (index : Nat) (upper : index < size.toNat) :
    readable space (buffer + BitVec.ofNat 32 index) = true :=
  buf_check_loop_sound buffer size.toNat (size.toNat + 1) 0 passed index (Nat.zero_le _) upper

end Checks

/-- The user bytes that the `sys_*` function and what it calls may read. -/
def PassesOn (space : AddressSpace) : Call → Addr → Prop
  | .exec path, uaddr | .create path _, uaddr | .remove path, uaddr | .open path, uaddr =>
      ∃ offset : Nat, uaddr = path + BitVec.ofNat 32 offset ∧
        ∀ index < offset, space.contents (path + BitVec.ofNat 32 index) ≠ 0
  | .write _ buffer size, uaddr =>
      ∃ index < size.toNat, uaddr = buffer + BitVec.ofNat 32 index
  | _, _ => False

/-- No byte outside the process's readable memory has been touched or is passed on,
and whoever is stopped is stopped by `sys_exit(-1)`. -/
def OnlyReadable (space : AddressSpace) : Except Ended Call → Prop
  | .ok call => ∀ uaddr, PassesOn space call uaddr → readable space uaddr = true
  | .error ended => ended = .exited (-1)

/-- The number of argument words of each call. -/
def argWords : SyscallNr → Nat
  | .halt => 0
  | .exit | .exec | .wait | .remove | .open | .filesize | .tell | .close => 1
  | .create | .seek => 2
  | .read | .write => 3

/-- Where the handler reads the number, the number's last byte is readable; where all
argument words have passed `usr_ptr_check`, so is the last byte of the last of them.
`SYS_CREATE` reads its second word only after `str_check` has accepted the first. -/
def LastBytesMapped (space : AddressSpace) (esp : Addr) : Prop :=
  usrPtrCheck space esp = true →
    readable space (esp + 3#32) = true ∧
      ∀ number, SyscallNr.ofWord (word space esp) = some number →
        (∀ index, 1 ≤ index → index ≤ argWords number →
          usrPtrCheck space (esp + BitVec.ofNat 32 (4 * index)) = true) →
        (number = .create → strCheck space (word space (esp + 4#32)) = .ok true) →
        readable space (esp + BitVec.ofNat 32 (4 * argWords number + 3)) = true

section Fetches

variable {space : AddressSpace}

theorem only_readable_require {passed : Bool} {next : Unit → Except Ended Call} :
    OnlyReadable space (require passed >>= next) ↔
      (passed = true → OnlyReadable space (next ())) := by
  cases passed with
  | false => exact ⟨fun _ impossible => Bool.noConfusion impossible, fun _ => rfl⟩
  | true => exact ⟨fun sound _ => sound, fun sound => sound rfl⟩

theorem only_readable_load_word {uaddr : Addr} {next : Word → Except Ended Call}
    (first : readable space uaddr = true) :
    OnlyReadable space (loadWord space uaddr >>= next) ↔
      readable space (uaddr + 3#32) = true ∧ OnlyReadable space (next (word space uaddr)) := by
  cases last : readable space (uaddr + 3#32) with
  | true =>
      rw [load_word_readable first last]
      simp [bind, Except.bind]
  | false =>
      obtain ⟨fault, failed⟩ := load_word_unreadable last
      rw [failed]
      simp [bind, Except.bind, OnlyReadable]

theorem offset_add (uaddr : Addr) (first second : Nat) :
    uaddr + BitVec.ofNat 32 first + BitVec.ofNat 32 second =
      uaddr + BitVec.ofNat 32 (first + second) := by
  rw [BitVec.add_assoc, ← BitVec.ofNat_add]

/-- The last byte of a word lies between its first byte and the next word's. -/
theorem last_byte_readable {uaddr : Addr} (here : usrPtrCheck space uaddr = true)
    (next : usrPtrCheck space (uaddr + 4#32) = true) :
    readable space (uaddr + 3#32) = true :=
  @readable_between space uaddr 3 4 (usr_ptr_check_readable here) (by decide)
    (usr_ptr_check_readable next) (by decide)

theorem string_passes_on {path uaddr : Addr} (isString : IsString space path) (offset : Nat)
    (here : uaddr = path + BitVec.ofNat 32 offset)
    (before : ∀ index < offset, space.contents (path + BitVec.ofNat 32 index) ≠ 0) :
    readable space uaddr = true := by
  obtain ⟨length, ending, mapped⟩ := isString
  rw [here]
  apply mapped
  by_contra later
  exact before length (by omega) ending

theorem fetch_word_only_readable (esp : Addr) (call : Word → Call)
    (scalar : ∀ value uaddr, ¬PassesOn space (call value) uaddr) :
    OnlyReadable space (fetchWord space esp call) ↔
      (usrPtrCheck space (esp + 4#32) = true → readable space (esp + 7#32) = true) := by
  unfold fetchWord
  rw [only_readable_require]
  apply imp_congr_right
  intro passed
  rw [only_readable_load_word (usr_ptr_check_readable passed), offset_add]
  apply and_iff_left
  intro uaddr reads
  exact absurd reads (scalar _ _)

theorem fetch_path_only_readable (esp : Addr) (call : Addr → Call)
    (reads : ∀ path uaddr, PassesOn space (call path) uaddr → IsString space path →
      readable space uaddr = true) :
    OnlyReadable space (fetchPath space esp call) ↔
      (usrPtrCheck space (esp + 4#32) = true → readable space (esp + 7#32) = true) := by
  unfold fetchPath
  rw [only_readable_require]
  apply imp_congr_right
  intro passed
  have first := usr_ptr_check_readable passed
  rw [only_readable_load_word first, offset_add]
  apply and_iff_left_of_imp
  intro last
  obtain ⟨accepted, result, sound⟩ := @str_check_spec space (word space (esp + 4#32))
  rw [result]
  change OnlyReadable space (require accepted >>= _)
  rw [only_readable_require]
  intro held
  rw [only_readable_load_word first, offset_add]
  exact ⟨last, fun uaddr passes => reads _ _ passes (sound held)⟩

theorem fetch_create_only_readable (esp : Addr) :
    OnlyReadable space (fetchCreate space esp) ↔
      (usrPtrCheck space (esp + 4#32) = true → usrPtrCheck space (esp + 8#32) = true →
        strCheck space (word space (esp + 4#32)) = .ok true →
          readable space (esp + 11#32) = true) := by
  unfold fetchCreate
  rw [only_readable_require]
  apply imp_congr_right
  intro first
  rw [only_readable_require]
  apply imp_congr_right
  intro second
  have last : readable space (esp + 4#32 + 3#32) = true := by
    apply last_byte_readable first
    rw [offset_add]
    exact second
  rw [only_readable_load_word (usr_ptr_check_readable first), and_iff_right last]
  obtain ⟨accepted, result, sound⟩ := @str_check_spec space (word space (esp + 4#32))
  rw [result]
  change OnlyReadable space (require accepted >>= _) ↔ _
  rw [only_readable_require, Except.ok.injEq]
  apply imp_congr_right
  intro held
  rw [only_readable_load_word (usr_ptr_check_readable first), and_iff_right last,
    only_readable_load_word (usr_ptr_check_readable second), offset_add]
  apply and_iff_left
  rintro uaddr ⟨offset, here, before⟩
  exact string_passes_on (sound held) offset here before

theorem fetch_seek_only_readable (esp : Addr) :
    OnlyReadable space (fetchSeek space esp) ↔
      (usrPtrCheck space (esp + 4#32) = true → usrPtrCheck space (esp + 8#32) = true →
        readable space (esp + 11#32) = true) := by
  unfold fetchSeek
  rw [only_readable_require]
  apply imp_congr_right
  intro first
  rw [only_readable_require]
  apply imp_congr_right
  intro second
  have last : readable space (esp + 4#32 + 3#32) = true := by
    apply last_byte_readable first
    rw [offset_add]
    exact second
  rw [only_readable_load_word (usr_ptr_check_readable first), and_iff_right last,
    only_readable_load_word (usr_ptr_check_readable second), offset_add]
  apply and_iff_left
  intro uaddr reads
  exact reads.elim

theorem fetch_buffer_only_readable (esp : Addr) (call : Word → Addr → Word → Call)
    (reads : ∀ fd buffer size uaddr, PassesOn space (call fd buffer size) uaddr →
      bufCheck space buffer size = true → readable space uaddr = true) :
    OnlyReadable space (fetchBuffer space esp call) ↔
      (usrPtrCheck space (esp + 4#32) = true → usrPtrCheck space (esp + 8#32) = true →
        usrPtrCheck space (esp + 12#32) = true → readable space (esp + 15#32) = true) := by
  unfold fetchBuffer
  rw [only_readable_require]
  apply imp_congr_right
  intro first
  rw [only_readable_require]
  apply imp_congr_right
  intro second
  rw [only_readable_require]
  apply imp_congr_right
  intro third
  have firstLast : readable space (esp + 4#32 + 3#32) = true := by
    apply last_byte_readable first
    rw [offset_add]
    exact second
  have secondLast : readable space (esp + 8#32 + 3#32) = true := by
    apply last_byte_readable second
    rw [offset_add]
    exact third
  rw [only_readable_load_word (usr_ptr_check_readable second), and_iff_right secondLast,
    only_readable_load_word (usr_ptr_check_readable third), offset_add]
  apply and_iff_left_of_imp
  intro last
  rw [only_readable_require]
  intro checked
  rw [only_readable_load_word (usr_ptr_check_readable first), and_iff_right firstLast,
    only_readable_load_word (usr_ptr_check_readable second), and_iff_right secondLast,
    only_readable_load_word (usr_ptr_check_readable third), offset_add]
  exact ⟨last, fun uaddr passes => reads _ _ _ _ passes checked⟩

end Fetches

section Fetched

variable {space : AddressSpace} {esp uaddr : Addr}

theorem load_ok {byte : Byte} (loaded : load space uaddr = .ok byte) :
    byte = space.contents uaddr := by
  unfold load at loaded
  split at loaded
  · cases loaded
    rfl
  · cases loaded

theorem load_word_ok {value : Word} (loaded : loadWord space uaddr = .ok value) :
    value = word space uaddr := by
  obtain ⟨byte0, first, loaded⟩ := except_bind_ok loaded
  obtain ⟨byte1, second, loaded⟩ := except_bind_ok loaded
  obtain ⟨byte2, third, loaded⟩ := except_bind_ok loaded
  obtain ⟨byte3, fourth, loaded⟩ := except_bind_ok loaded
  cases loaded
  rw [load_ok first, load_ok second, load_ok third, load_ok fourth]
  rfl

theorem fetch_word_ok {call : Word → Call} {result : Call}
    (fetched : fetchWord space esp call = .ok result) : result = call (word space (esp + 4#32)) := by
  obtain ⟨_, _, fetched⟩ := except_bind_ok fetched
  obtain ⟨value, loaded, fetched⟩ := except_bind_ok fetched
  cases fetched
  rw [load_word_ok loaded]

theorem fetch_path_ok {call : Addr → Call} {result : Call}
    (fetched : fetchPath space esp call = .ok result) : result = call (word space (esp + 4#32)) := by
  obtain ⟨_, _, fetched⟩ := except_bind_ok fetched
  obtain ⟨_, _, fetched⟩ := except_bind_ok fetched
  obtain ⟨_, _, fetched⟩ := except_bind_ok fetched
  obtain ⟨_, _, fetched⟩ := except_bind_ok fetched
  obtain ⟨path, loaded, fetched⟩ := except_bind_ok fetched
  cases fetched
  rw [load_word_ok loaded]

theorem fetch_create_ok {result : Call} (fetched : fetchCreate space esp = .ok result) :
    result = .create (word space (esp + 4#32)) (word space (esp + 8#32)) := by
  obtain ⟨_, _, fetched⟩ := except_bind_ok fetched
  obtain ⟨_, _, fetched⟩ := except_bind_ok fetched
  obtain ⟨_, _, fetched⟩ := except_bind_ok fetched
  obtain ⟨_, _, fetched⟩ := except_bind_ok fetched
  obtain ⟨_, _, fetched⟩ := except_bind_ok fetched
  obtain ⟨file, first, fetched⟩ := except_bind_ok fetched
  obtain ⟨size, second, fetched⟩ := except_bind_ok fetched
  cases fetched
  rw [load_word_ok first, load_word_ok second]

theorem fetch_seek_ok {result : Call} (fetched : fetchSeek space esp = .ok result) :
    result = .seek (word space (esp + 4#32)) (word space (esp + 8#32)) := by
  obtain ⟨_, _, fetched⟩ := except_bind_ok fetched
  obtain ⟨_, _, fetched⟩ := except_bind_ok fetched
  obtain ⟨fd, first, fetched⟩ := except_bind_ok fetched
  obtain ⟨position, second, fetched⟩ := except_bind_ok fetched
  cases fetched
  rw [load_word_ok first, load_word_ok second]

theorem fetch_buffer_ok {call : Word → Addr → Word → Call} {result : Call}
    (fetched : fetchBuffer space esp call = .ok result) :
    result = call (word space (esp + 4#32)) (word space (esp + 8#32)) (word space (esp + 12#32)) := by
  obtain ⟨_, _, fetched⟩ := except_bind_ok fetched
  obtain ⟨_, _, fetched⟩ := except_bind_ok fetched
  obtain ⟨_, _, fetched⟩ := except_bind_ok fetched
  obtain ⟨_, _, fetched⟩ := except_bind_ok fetched
  obtain ⟨_, _, fetched⟩ := except_bind_ok fetched
  obtain ⟨_, _, fetched⟩ := except_bind_ok fetched
  obtain ⟨fd, first, fetched⟩ := except_bind_ok fetched
  obtain ⟨buffer, second, fetched⟩ := except_bind_ok fetched
  obtain ⟨size, third, fetched⟩ := except_bind_ok fetched
  cases fetched
  rw [load_word_ok first, load_word_ok second, load_word_ok third]

/-- The call that the words at the stack pointer spell. -/
def callAt (space : AddressSpace) (esp : Addr) : Call :=
  match SyscallNr.ofWord (word space esp) with
  | some .halt => .halt
  | some .exit => .exit (word space (esp + 4#32))
  | some .exec => .exec (word space (esp + 4#32))
  | some .wait => .wait (word space (esp + 4#32))
  | some .create => .create (word space (esp + 4#32)) (word space (esp + 8#32))
  | some .remove => .remove (word space (esp + 4#32))
  | some .open => .open (word space (esp + 4#32))
  | some .filesize => .filesize (word space (esp + 4#32))
  | some .read =>
      .read (word space (esp + 4#32)) (word space (esp + 8#32)) (word space (esp + 12#32))
  | some .write =>
      .write (word space (esp + 4#32)) (word space (esp + 8#32)) (word space (esp + 12#32))
  | some .seek => .seek (word space (esp + 4#32)) (word space (esp + 8#32))
  | some .tell => .tell (word space (esp + 4#32))
  | some .close => .close (word space (esp + 4#32))
  | none => .unknown (word space esp)

/-- What the handler lets through is what the words spell. -/
theorem fetch_call_ok {result : Call} (fetched : fetchCall space esp = .ok result) :
    result = callAt space esp := by
  obtain ⟨_, _, fetched⟩ := except_bind_ok fetched
  obtain ⟨number, loaded, fetched⟩ := except_bind_ok fetched
  rw [load_word_ok loaded] at fetched
  unfold callAt
  cases found : SyscallNr.ofWord (word space esp) with
  | none =>
      rw [found] at fetched
      cases fetched
      rfl
  | some number =>
      rw [found] at fetched
      cases number with
      | halt =>
          cases fetched
          rfl
      | exit | wait | filesize | tell | close => exact fetch_word_ok fetched
      | exec | remove | «open» => exact fetch_path_ok fetched
      | create => exact fetch_create_ok fetched
      | seek => exact fetch_seek_ok fetched
      | read | write => exact fetch_buffer_ok fetched

end Fetched

section Arguments

variable {property : Nat → Prop}

theorem forall_to_zero : (∀ index, 1 ≤ index → index ≤ 0 → property index) ↔ True := by
  refine iff_true_intro ?_
  intro index lower upper
  omega

theorem forall_to_succ (count : Nat) :
    (∀ index, 1 ≤ index → index ≤ count + 1 → property index) ↔
      (∀ index, 1 ≤ index → index ≤ count → property index) ∧ property (count + 1) := by
  constructor
  · intro each
    exact ⟨fun index lower upper => each index lower (by omega), each (count + 1) (by omega) le_rfl⟩
  · rintro ⟨before, final⟩ index lower upper
    by_cases here : index = count + 1
    · rw [here]
      exact final
    · exact before index lower (by omega)

end Arguments

/-- The handler touches and passes on readable bytes only, and otherwise ends the process
by `sys_exit(-1)`, exactly when the last byte of the last word is mapped wherever the
first bytes of all words are. -/
theorem reads_only_readable_iff (space : AddressSpace) (esp : Addr) :
    OnlyReadable space (fetchCall space esp) ↔ LastBytesMapped space esp := by
  unfold fetchCall LastBytesMapped
  rw [only_readable_require]
  apply imp_congr_right
  intro passed
  rw [only_readable_load_word (usr_ptr_check_readable passed)]
  apply and_congr_right
  intro last
  cases SyscallNr.ofWord (word space esp) with
  | none => simp [OnlyReadable, PassesOn, pure, Except.pure]
  | some number =>
      have unwrap : ∀ {rest : SyscallNr → Prop},
          (∀ other, some number = some other → rest other) ↔ rest number := by simp
      rw [unwrap]
      cases number with
      | halt =>
          have reads : OnlyReadable space (.ok .halt) := fun _ impossible => impossible.elim
          exact ⟨fun _ _ _ => last, fun _ => reads⟩
      | exit | wait | filesize | tell | close =>
          simp only [argWords, forall_to_succ, forall_to_zero, true_and, reduceCtorEq, false_implies,
            true_implies]
          exact fetch_word_only_readable esp _ (fun _ _ impossible => impossible)
      | exec | remove | «open» =>
          simp only [argWords, forall_to_succ, forall_to_zero, true_and, reduceCtorEq, false_implies,
            true_implies]
          apply fetch_path_only_readable
          rintro path uaddr ⟨offset, here, before⟩ isString
          exact string_passes_on isString offset here before
      | create =>
          simp only [argWords, forall_to_succ, forall_to_zero, true_and, true_implies, and_imp]
          exact fetch_create_only_readable esp
      | seek =>
          simp only [argWords, forall_to_succ, forall_to_zero, true_and, reduceCtorEq, false_implies,
            true_implies, and_imp]
          exact fetch_seek_only_readable esp
      | read =>
          simp only [argWords, forall_to_succ, forall_to_zero, true_and, reduceCtorEq, false_implies,
            true_implies, and_imp]
          exact fetch_buffer_only_readable esp _ (fun _ _ _ _ impossible => False.elim impossible)
      | write =>
          simp only [argWords, forall_to_succ, forall_to_zero, true_and, reduceCtorEq, false_implies,
            true_implies, and_imp]
          apply fetch_buffer_only_readable
          rintro fd buffer size uaddr ⟨index, upper, here⟩ checked
          rw [here]
          exact buf_check_sound checked index upper

/-- Only the stack page below `PHYS_BASE` is mapped. -/
def stackOnly : AddressSpace where
  pagedir := fun directory =>
    if directory = 767 then
      some fun table => if table = 1023 then pteCreateUser 0x00100000 true else 0
    else none
  contents := fun _ => 0

/-- With the stack pointer on the last user byte, the call number's other three bytes
are the kernel's. -/
theorem reads_past_phys_base :
    fetchCall stackOnly 0xBFFFFFFF#32 = .error (.readFault 0xC0000000#32) ∧
      ¬OnlyReadable stackOnly (fetchCall stackOnly 0xBFFFFFFF#32) := by
  have fault : fetchCall stackOnly 0xBFFFFFFF#32 = .error (.readFault 0xC0000000#32) := rfl
  refine ⟨fault, ?_⟩
  rw [fault]
  simp [OnlyReadable]

end UtSystems.Userprog.SyscallFetch

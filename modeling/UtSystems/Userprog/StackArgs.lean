import Mathlib.Algebra.GroupWithZero.Nat
import UtSystems.Lib.MemoryWords
import UtSystems.Libc.Strings
import UtSystems.Userprog.Elf

/-!
# The arguments on the user stack

`load` and `format_stack_args` copy the command into local arrays of 100 bytes and split it there.
`format_stack_args` then builds the frame of `main` downwards from `PHYS_BASE`: the strings, below
them a null pointer and the pointers to the strings, `argv`, `argc` and a return address.
-/

namespace UtSystems.Userprog.StackArgs

open Lib.Bytes Lib.MemoryWords Lib.Tokens Libc.Strings Userprog.Elf

set_option autoImplicit false

/-- A store to the one page of the stack. -/
def store (memory : Memory) (address : Nat) (bytes : List Byte) : Except Fault Memory :=
  if physBase - pgSize ≤ address ∧ address + bytes.length ≤ physBase then
    .ok (overwrite memory address bytes)
  else .error .unmapped

def storeUint32 (memory : Memory) (address value : Nat) : Except Fault Memory :=
  store memory address (wordBytes (BitVec.ofNat 32 value))

/-- `char cmdStrCpy[100] = {0}`, after the command is copied to it. -/
def localCopy (cmdStr : List Byte) : Except Fault (List Byte) :=
  strlcpy (List.replicate 100 0) cmdStr (cmdStr.length + 1)

/-- The first loop of `format_stack_args`; the first argument bounds its rounds. -/
def countArgs : Nat → List Byte → Option Nat → Nat → Nat → Nat → Except Fault (Nat × Nat)
  | _, _, none, _, argc, byteCount => .ok (argc, byteCount)
  | 0, _, some _, _, _, _ => .error .endless
  | rounds + 1, buf, some token, save, argc, byteCount => do
      let word ← readString buf token
      let (token, buf, save) ← strtokR [0x20] buf save
      countArgs rounds buf token save (argc + 1) (byteCount + (word.length + 1))

/-- The loop over the padding, which advances `esp_data` while it indexes from it. -/
def clearPadding : Nat → Nat → Memory → Nat → Except Fault (Memory × Nat)
  | 0, _, memory, espData => .ok (memory, espData)
  | rounds + 1, i, memory, espData => do
      let memory ← store memory (espData + i) [0]
      clearPadding rounds (i + 1) memory (espData + 1)

/-- The last loop, from argument `i` on. -/
def copyArgs (espWord : Nat) :
    Nat → Nat → List Byte → Option Nat → Nat → Memory → Nat → Except Fault Memory
  | 0, _, _, _, _, memory, _ => .ok memory
  | rounds + 1, i, buf, token, save, memory, espData => do
      let memory ← storeUint32 memory (espWord + 4 * (3 + i)) espData
      match token with
      -- `strlen` asserts that its argument is not null
      | none => .error .null
      | some token =>
          let word ← readString buf token
          let memory ← store memory espData (word ++ [0])
          let espData := espData + word.length
          let memory ← store memory espData [0]
          let (token, buf, save) ← strtokR [0x20] buf save
          copyArgs espWord rounds (i + 1) buf token save memory (espData + 1)

/-- The memory and the new `*esp`. -/
def formatStackArgs (cmdStr : List Byte) (memory : Memory) (esp : Nat) :
    Except Fault (Memory × Nat) := do
  let cmdStrCpy1 ← localCopy cmdStr
  let cmdStrCpy2 ← localCopy cmdStr
  let (token, cmdStrCpy1, save) ← strtokR [0x20] cmdStrCpy1 0
  let (argc, byteCount) ← countArgs 100 cmdStrCpy1 token save 0 0
  let padding := if byteCount % 4 ≠ 0 then 4 - byteCount % 4 else 0
  let espData := esp - (byteCount + padding)
  let espWord := espData - 4 * (argc + 4)
  let memory ← storeUint32 memory espWord 0
  let memory ← storeUint32 memory (espWord + 4) argc
  let memory ← storeUint32 memory (espWord + 8) (espWord + 12)
  let (memory, espData) ← clearPadding padding 0 memory espData
  let (token, cmdStrCpy2, save) ← strtokR [0x20] cmdStrCpy2 0
  let memory ← copyArgs espWord argc 0 cmdStrCpy2 token save memory espData
  .ok (memory, espWord)

/-- `setup_stack` when it has obtained and installed its page. -/
def setupStack (cmdstr : List Byte) (memory : Memory) : Except Fault (Memory × Nat) :=
  formatStackArgs cmdstr memory physBase

/-- The arguments that a command has. -/
def argsOf (cmdStr : List Byte) : List (List Byte) := tokens (separates [0x20]) cmdStr

/-- The bytes of the strings with their null bytes. -/
def sizeOf (args : List (List Byte)) : Nat := (args.map fun arg => arg.length + 1).sum

theorem size_cons (arg : List Byte) (args : List (List Byte)) :
    sizeOf (arg :: args) = arg.length + 1 + sizeOf args := rfl

theorem tokens_size (cmdStr : List Byte) :
    sizeOf (argsOf cmdStr) ≤ cmdStr.length + 1 ∧
      2 * (argsOf cmdStr).length ≤ sizeOf (argsOf cmdStr) := by
  induction length : cmdStr.length using Nat.strong_induction_on generalizing cmdStr with
  | _ n ih =>
      subst length
      unfold argsOf
      cases tokens_cases (separates [0x20]) cmdStr with
      | inl none =>
          rw [none.2]
          exact ⟨Nat.zero_le _, Nat.zero_le _⟩
      | inr some =>
          obtain ⟨gap, word, rest, split, _, nonempty, _, ends⟩ := some
          have positive := List.length_pos_of_ne_nil nonempty
          have lengths := congrArg List.length split
          rw [List.length_append, List.length_append] at lengths
          cases ends with
          | inl last =>
              rw [last.2, size_cons, List.length_singleton]
              change word.length + 1 + 0 ≤ _ ∧ _ ≤ word.length + 1 + 0
              omega
          | inr cut =>
              obtain ⟨d, later, isRest, _, all⟩ := cut
              rw [isRest, List.length_cons] at lengths
              have before := ih later.length (by omega) later rfl
              unfold argsOf at before
              rw [all, size_cons, List.length_cons]
              omega

theorem local_copy {cmdStr : List Byte} (noNul : (0 : Byte) ∉ cmdStr)
    (short : cmdStr.length ≤ 99) :
    ∃ buf, localCopy cmdStr = .ok buf ∧ HasString buf 0 cmdStr := by
  have fits : cmdStr.length < (List.replicate 100 (0 : Byte)).length := by
    rw [List.length_replicate]
    omega
  exact ⟨_, strlcpy_whole fits, noNul, _, rfl⟩

theorem local_copy_overrun {cmdStr : List Byte} (long : 100 ≤ cmdStr.length) :
    localCopy cmdStr = .error .overrun := by
  apply strlcpy_overrun
  rw [List.length_replicate]
  exact long

theorem count_args {text : List Byte} (rounds : Nat) {buf : List Byte} {s argc byteCount : Nat}
    (has : HasString buf s text) (enough : (argsOf text).length ≤ rounds) :
    (strtokR [0x20] buf s >>= fun next =>
      countArgs rounds next.2.1 next.1 next.2.2 argc byteCount) =
    .ok (argc + (argsOf text).length, byteCount + sizeOf (argsOf text)) := by
  induction rounds generalizing text buf s argc byteCount with
  | zero =>
      cases @strtok_next [0x20] _ _ _ has with
      | inl none =>
          obtain ⟨all, save, called⟩ := none
          rw [called, argsOf, all]
          rfl
      | inr some =>
          obtain ⟨word, more, token, after, save, later, all, _⟩ := some
          rw [argsOf, all, List.length_cons] at enough
          exact absurd enough (Nat.not_succ_le_zero _)
  | succ rounds ih =>
      cases @strtok_next [0x20] _ _ _ has with
      | inl none =>
          obtain ⟨all, save, called⟩ := none
          rw [called, argsOf, all]
          rfl
      | inr some =>
          obtain ⟨word, more, token, after, save, later, all, called, stands, remains, rest⟩ := some
          have fewer : (argsOf later).length ≤ rounds := by
            rw [argsOf, all, List.length_cons] at enough
            rw [argsOf, rest]
            omega
          rw [called]
          change (readString after token >>= _) = _
          rw [read_string stands]
          refine (ih remains fewer).trans ?_
          rw [argsOf, argsOf, all, rest, size_cons, List.length_cons]
          congr 2
          · omega
          · omega

section Copying

variable {espWord i d x : Nat} {args : List (List Byte)} {memory : Memory} {bytes : List Byte}

theorem store_ok {address : Nat} (low : physBase - pgSize ≤ address)
    (high : address + bytes.length ≤ physBase) :
    store memory address bytes = .ok (overwrite memory address bytes) :=
  if_pos ⟨low, high⟩

/-- The memory after the last loop. -/
def placed (espWord : Nat) : Nat → Nat → List (List Byte) → Memory → Memory
  | _, _, [], memory => memory
  | i, d, arg :: args, memory =>
      placed espWord (i + 1) (d + arg.length + 1) args
        (overwrite (overwrite (storeWord memory (espWord + 4 * (3 + i)) d) d (arg ++ [0]))
          (d + arg.length) [0])

theorem copy_args {text buf : List Byte} {s : Nat} (has : HasString buf s text)
    (low : physBase - pgSize ≤ espWord)
    (words : espWord + 4 * (3 + i + (argsOf text).length) ≤ d)
    (high : d + sizeOf (argsOf text) ≤ physBase) :
    (strtokR [0x20] buf s >>= fun next =>
      copyArgs espWord (argsOf text).length i next.2.1 next.1 next.2.2 memory d) =
    .ok (placed espWord i d (argsOf text) memory) := by
  induction args : argsOf text generalizing text buf s i d memory with
  | nil =>
      cases @strtok_next [0x20] _ _ _ has with
      | inl none =>
          obtain ⟨_, save, called⟩ := none
          rw [called]
          rfl
      | inr some =>
          obtain ⟨word, more, token, after, save, later, all, _⟩ := some
          rw [argsOf, all] at args
          cases args
  | cons arg others ih =>
      cases @strtok_next [0x20] _ _ _ has with
      | inl none =>
          rw [argsOf, none.1] at args
          cases args
      | inr some =>
          obtain ⟨word, more, token, after, save, later, all, called, stands, remains, rest⟩ := some
          rw [argsOf, all] at args
          cases args
          rw [argsOf, all, List.length_cons] at words
          rw [argsOf, all, size_cons] at high
          have textSize : (arg ++ [(0 : Byte)]).length = arg.length + 1 := by
            rw [List.length_append, List.length_singleton]
          have pointer : storeUint32 memory (espWord + 4 * (3 + i)) d =
              .ok (storeWord memory (espWord + 4 * (3 + i)) d) := by
            apply store_ok
            · omega
            · rw [word_bytes_length]
              omega
          have copied : store (storeWord memory (espWord + 4 * (3 + i)) d) d (arg ++ [0]) =
              .ok (overwrite (storeWord memory (espWord + 4 * (3 + i)) d) d (arg ++ [0])) := by
            apply store_ok
            · omega
            · rw [textSize]
              omega
          have ended : store (overwrite (storeWord memory (espWord + 4 * (3 + i)) d) d
                (arg ++ [0])) (d + arg.length) [0] =
              .ok (overwrite (overwrite (storeWord memory (espWord + 4 * (3 + i)) d) d
                (arg ++ [0])) (d + arg.length) [0]) := by
            apply store_ok
            · omega
            · rw [List.length_singleton]
              omega
          rw [called]
          change (storeUint32 memory (espWord + 4 * (3 + i)) d >>= _) = _
          rw [pointer]
          change (readString after token >>= _) = _
          rw [read_string stands]
          change (store _ d (arg ++ [0]) >>= _) = _
          rw [copied]
          change (store _ (d + arg.length) [0] >>= _) = _
          rw [ended]
          have wordsLeft : espWord + 4 * (3 + (i + 1) + (argsOf later).length) ≤
              d + arg.length + 1 := by
            rw [argsOf, rest]
            omega
          have highLeft : d + arg.length + 1 + sizeOf (argsOf later) ≤ physBase := by
            rw [argsOf, rest]
            omega
          exact ih remains wordsLeft highLeft rest

theorem placed_outside (words : x < espWord + 4 * (3 + i) ∨ espWord + 4 * (3 + i + args.length) ≤ x)
    (strings : x < d ∨ d + sizeOf args ≤ x) : placed espWord i d args memory x = memory x := by
  induction args generalizing i d memory with
  | nil => rfl
  | cons arg args ih =>
      rw [List.length_cons] at words
      rw [size_cons] at strings
      rw [placed, ih (by omega) (by omega)]
      have textSize : (arg ++ [(0 : Byte)]).length = arg.length + 1 := by
        rw [List.length_append, List.length_singleton]
      rw [overwrite_outside (by rw [List.length_singleton]; omega),
        overwrite_outside (by rw [textSize]; omega), store_word_outside (by omega)]

theorem placed_pointer {k : Nat} (bound : k < args.length)
    (words : espWord + 4 * (3 + i + args.length) ≤ d) (fits : d + sizeOf args ≤ physBase) :
    loadWord (placed espWord i d args memory) (espWord + 4 * (3 + i + k)) =
      d + sizeOf (args.take k) := by
  induction args generalizing i d k memory with
  | nil => exact absurd bound (Nat.not_lt_zero k)
  | cons arg args ih =>
      rw [List.length_cons] at words bound
      rw [size_cons] at fits
      rw [placed]
      cases k with
      | zero =>
          have textSize : (arg ++ [(0 : Byte)]).length = arg.length + 1 := by
            rw [List.length_append, List.length_singleton]
          have kept : ∀ y, espWord + 4 * (3 + i) ≤ y → y < espWord + 4 * (3 + i) + 4 →
              placed espWord (i + 1) (d + arg.length + 1) args
                (overwrite (overwrite (storeWord memory (espWord + 4 * (3 + i)) d) d
                  (arg ++ [0])) (d + arg.length) [0]) y =
              storeWord memory (espWord + 4 * (3 + i)) d y := by
            intro y above below
            rw [placed_outside (by omega) (by omega),
              overwrite_outside (by rw [List.length_singleton]; omega),
              overwrite_outside (by rw [textSize]; omega)]
          have small : physBase < 2 ^ 32 := by decide
          change loadWord _ (espWord + 4 * (3 + i)) = d
          rw [load_word_congr kept, load_store_same (by omega)]
      | succ k =>
          have shifted : espWord + 4 * (3 + i + (k + 1)) = espWord + 4 * (3 + (i + 1) + k) := by
            omega
          rw [shifted, ih (by omega) (by omega) (by omega), List.take_succ_cons, size_cons]
          omega

theorem placed_string {k : Nat} (bound : k < args.length)
    (words : espWord + 4 * (3 + i + args.length) ≤ d) :
    slice (placed espWord i d args memory) (d + sizeOf (args.take k)) (args[k].length + 1) =
      args[k] ++ [0] := by
  induction args generalizing i d k memory with
  | nil => exact absurd bound (Nat.not_lt_zero k)
  | cons arg args ih =>
      rw [List.length_cons] at words bound
      rw [placed]
      cases k with
      | zero =>
          have textSize : (arg ++ [(0 : Byte)]).length = arg.length + 1 := by
            rw [List.length_append, List.length_singleton]
          have kept : ∀ index < arg.length + 1,
              placed espWord (i + 1) (d + arg.length + 1) args
                (overwrite (overwrite (storeWord memory (espWord + 4 * (3 + i)) d) d
                  (arg ++ [0])) (d + arg.length) [0]) (d + index) =
              overwrite (storeWord memory (espWord + 4 * (3 + i)) d) d (arg ++ [0]) (d + index) := by
            intro index inside
            rw [placed_outside (by omega) (by omega)]
            by_cases last : index = arg.length
            · rw [last]
              have inArg : arg.length < (arg ++ [(0 : Byte)]).length := by omega
              have isEnd : (arg ++ [(0 : Byte)])[arg.length] = 0 :=
                List.getElem_concat_length rfl _
              have here := @overwrite_inside _ (storeWord memory (espWord + 4 * (3 + i)) d) d
                (arg ++ [0]) arg.length inArg
              rw [here, isEnd]
              exact @overwrite_inside _ _ (d + arg.length) [0] 0 (by decide)
            · rw [overwrite_outside (by omega)]
          change slice _ d (arg.length + 1) = arg ++ [0]
          rw [slice_congr kept, ← textSize, slice_overwrite]
      | succ k =>
          have before : d + sizeOf ((arg :: args).take (k + 1)) =
              d + arg.length + 1 + sizeOf (args.take k) := by
            rw [List.take_succ_cons, size_cons]
            omega
          rw [before]
          exact ih (by omega) (by omega)

theorem size_take {k : Nat} (bound : k < args.length) :
    sizeOf (args.take k) + (args[k].length + 1) = sizeOf (args.take (k + 1)) := by
  induction args generalizing k with
  | nil => exact absurd bound (Nat.not_lt_zero k)
  | cons arg args ih =>
      cases k with
      | zero => exact Nat.zero_add _
      | succ k =>
          rw [List.length_cons] at bound
          rw [List.take_succ_cons, List.take_succ_cons, size_cons, size_cons, List.getElem_cons_succ,
            ← ih (by omega)]
          omega

theorem size_take_mono {j k : Nat} (le : j ≤ k) : sizeOf (args.take j) ≤ sizeOf (args.take k) := by
  induction args generalizing j k with
  | nil =>
      rw [List.take_nil, List.take_nil]
  | cons arg args ih =>
      cases j with
      | zero => exact Nat.zero_le _
      | succ j =>
          cases k with
          | zero => exact absurd le (Nat.not_succ_le_zero j)
          | succ k =>
              rw [List.take_succ_cons, List.take_succ_cons, size_cons, size_cons]
              have rest := @ih j k (Nat.le_of_succ_le_succ le)
              omega

/-- Each store of the padding loop is two bytes behind the one before. -/
theorem clear_padding (rounds : Nat) {espData : Nat} (low : physBase - pgSize ≤ espData)
    (high : espData + i + 2 * rounds ≤ physBase + 1) :
    ∃ after, clearPadding rounds i memory espData = .ok (after, espData + rounds) ∧
      (∀ y, y < espData → after y = memory y) ∧ (∀ y, physBase ≤ y → after y = memory y) := by
  induction rounds generalizing i memory espData with
  | zero => exact ⟨memory, rfl, fun _ _ => rfl, fun _ _ => rfl⟩
  | succ rounds ih =>
      have stored : store memory (espData + i) [0] = .ok (overwrite memory (espData + i) [0]) := by
        apply store_ok
        · omega
        · rw [List.length_singleton]
          omega
      obtain ⟨after, rest, below, above⟩ := @ih (i + 1) (overwrite memory (espData + i) [0])
        (espData + 1) (by omega) (by omega)
      refine ⟨after, ?_, ?_, ?_⟩
      · rw [clearPadding, stored]
        refine rest.trans ?_
        rw [Nat.add_assoc, Nat.add_comm 1]
      · intro y lower
        rw [below y (by omega), overwrite_outside (by omega)]
      · intro y higher
        rw [above y higher, overwrite_outside (by rw [List.length_singleton]; omega)]

end Copying

/-- `argv[i]`. -/
def argAt (memory : Memory) (esp i : Nat) : Nat := loadWord memory (esp + 12 + 4 * i)

/-- The frame that `main` finds, and the strings above it. -/
structure Laid (memory : Memory) (esp : Nat) (args : List (List Byte)) : Prop where
  aligned : esp % 4 = 0
  low : physBase - pgSize ≤ esp
  ret : loadWord memory esp = 0
  argc : loadWord memory (esp + 4) = args.length
  argv : loadWord memory (esp + 8) = esp + 12
  strings : ∀ i (bound : i < args.length),
    slice memory (argAt memory esp i) (args[i].length + 1) = args[i] ++ [0]
  null : loadWord memory (esp + 12 + 4 * args.length) = 0
  above : ∀ i, i < args.length → esp + 16 + 4 * args.length ≤ argAt memory esp i
  apart : ∀ i j (before : i < j) (bound : j < args.length),
    argAt memory esp i + (args[i].length + 1) ≤ argAt memory esp j
  high : ∀ i (bound : i < args.length),
    argAt memory esp i + (args[i].length + 1) ≤ physBase

/-- How far below `PHYS_BASE` the strings begin. -/
def blockOf (args : List (List Byte)) : Nat :=
  sizeOf args + if sizeOf args % 4 ≠ 0 then 4 - sizeOf args % 4 else 0

theorem block_bounds {cmdStr : List Byte} (short : cmdStr.length ≤ 99) :
    blockOf (argsOf cmdStr) % 4 = 0 ∧ sizeOf (argsOf cmdStr) ≤ blockOf (argsOf cmdStr) ∧
      blockOf (argsOf cmdStr) ≤ 103 ∧ (argsOf cmdStr).length ≤ 50 ∧
      2 * (blockOf (argsOf cmdStr) - sizeOf (argsOf cmdStr)) ≤ blockOf (argsOf cmdStr) + 1 := by
  obtain ⟨size, count⟩ := tokens_size cmdStr
  have none : (argsOf cmdStr).length = 0 → sizeOf (argsOf cmdStr) = 0 := by
    intro zero
    rw [List.length_eq_zero_iff.mp zero]
    rfl
  unfold blockOf
  split
  · omega
  · omega

section Frame

variable {memory cleared after : Memory} {esp : Nat} {args : List (List Byte)}

/-- The three words that are stored before the loops. -/
def header (memory : Memory) (esp argc : Nat) : Memory :=
  storeWord (storeWord (storeWord memory esp 0) (esp + 4) argc) (esp + 8) (esp + 12)

theorem header_outside {memory : Memory} {esp argc y : Nat} (outside : y < esp ∨ esp + 12 ≤ y) :
    header memory esp argc y = memory y := by
  unfold header
  rw [store_word_outside (by omega), store_word_outside (by omega), store_word_outside (by omega)]

theorem load_zero_word {address : Nat} (zero : ∀ y, address ≤ y → y < address + 4 → memory y = 0) :
    loadWord memory address = 0 := by
  have bytes : slice (fun _ => (0 : Byte)) address 4 = [0, 0, 0, 0] := rfl
  have same := @load_word_congr (fun _ => (0 : Byte)) memory address zero
  rw [same, loadWord, bytes]
  decide

/-- What the steps of `format_stack_args` leave is the frame. -/
theorem frame_laid (zeroed : ∀ y, physBase - pgSize ≤ y → y < physBase → memory y = 0)
    (aligned : esp % 4 = 0) (low : physBase - pgSize ≤ esp)
    (fits : esp + 4 * (args.length + 4) + blockOf args = physBase)
    (few : args.length ≤ 50)
    (block : sizeOf args ≤ blockOf args)
    (below : ∀ y, y < esp + 4 * (args.length + 4) → cleared y = header memory esp args.length y)
    (placing : after =
      placed esp 0 (physBase - sizeOf args) args cleared) :
    Laid after esp args := by
  have small : physBase < 2 ^ 32 := by decide
  have words : esp + 4 * (3 + 0 + args.length) ≤ physBase - sizeOf args := by omega
  have kept : ∀ y, y < esp + 12 ∨ esp + 12 + 4 * args.length ≤ y →
      y < esp + 4 * (args.length + 4) → after y = header memory esp args.length y := by
    intro y outside under
    rw [placing, placed_outside (by omega) (by omega), below y under]
  have pointer : ∀ i, i < args.length →
      argAt after esp i = physBase - sizeOf args + sizeOf (args.take i) := by
    intro i bound
    have place := @placed_pointer esp 0 (physBase - sizeOf args) args cleared i bound words
      (by omega)
    unfold argAt
    rw [placing, ← place]
    congr 1
    omega
  have within : ∀ i (bound : i < args.length),
      sizeOf (args.take i) + (args[i].length + 1) ≤ sizeOf args := by
    intro i bound
    rw [size_take bound]
    have whole := @size_take_mono args (i + 1) args.length bound
    rw [List.take_length] at whole
    exact whole
  exact {
    aligned := aligned
    low := low
    ret := by
      rw [load_word_congr fun y above under => kept y (by omega) (by omega)]
      unfold header
      rw [load_store_apart (by omega), load_store_apart (by omega), load_store_same (by omega)]
    argc := by
      rw [load_word_congr fun y above under => kept y (by omega) (by omega)]
      unfold header
      rw [load_store_apart (by omega), load_store_same (by omega)]
    argv := by
      rw [load_word_congr fun y above under => kept y (by omega) (by omega)]
      unfold header
      rw [load_store_same (by omega)]
    strings := by
      intro i bound
      rw [pointer i bound, placing]
      exact placed_string bound words
    null := by
      apply load_zero_word
      intro y above under
      rw [kept y (by omega) (by omega), header_outside (by omega)]
      exact zeroed y (by omega) (by omega)
    above := by
      intro i bound
      rw [pointer i bound]
      omega
    apart := by
      intro i j before bound
      rw [pointer i (by omega), pointer j bound, Nat.add_assoc, size_take (by omega)]
      exact Nat.add_le_add_left (size_take_mono before) _
    high := by
      intro i bound
      rw [pointer i bound]
      have inside := within i bound
      omega }

end Frame

/-- All the stores lie in the page, and this is what they leave. -/
theorem format_stack_args {cmdStr : List Byte} {args : List (List Byte)} {esp : Nat}
    (memory : Memory) (noNul : (0 : Byte) ∉ cmdStr) (short : cmdStr.length ≤ 99)
    (isArgs : argsOf cmdStr = args)
    (isEsp : physBase - blockOf args - 4 * (args.length + 4) = esp) :
    ∃ cleared, formatStackArgs cmdStr memory physBase =
        .ok (placed esp 0 (physBase - sizeOf args) args cleared, esp) ∧
      (∀ y, y < physBase - blockOf args → cleared y = header memory esp args.length y) ∧
      ∀ y, physBase ≤ y → cleared y = memory y := by
  obtain ⟨buf, copied, has⟩ := local_copy noNul short
  obtain ⟨_, size, block, few, steps⟩ := block_bounds short
  rw [isArgs] at size block few steps
  have room : 4096 ≤ physBase := by decide
  have page : pgSize = 4096 := rfl
  have enough : (argsOf cmdStr).length ≤ 100 := by
    rw [isArgs]
    omega
  have counted := @count_args cmdStr 100 buf 0 0 0 has enough
  rw [isArgs, Nat.zero_add, Nat.zero_add] at counted
  have padding : (if sizeOf args % 4 ≠ 0 then 4 - sizeOf args % 4 else 0) =
      blockOf args - sizeOf args := by
    unfold blockOf
    rw [Nat.add_sub_cancel_left]
  have first : storeUint32 memory esp 0 = .ok (storeWord memory esp 0) := by
    apply store_ok
    · omega
    · rw [word_bytes_length]
      omega
  have second : storeUint32 (storeWord memory esp 0) (esp + 4) args.length =
      .ok (storeWord (storeWord memory esp 0) (esp + 4) args.length) := by
    apply store_ok
    · omega
    · rw [word_bytes_length]
      omega
  have third : storeUint32 (storeWord (storeWord memory esp 0) (esp + 4) args.length) (esp + 8)
      (esp + 12) = .ok (header memory esp args.length) := by
    apply store_ok
    · omega
    · rw [word_bytes_length]
      omega
  obtain ⟨cleared, clearing, below, above⟩ := @clear_padding 0 (header memory esp args.length)
    (blockOf args - sizeOf args) (physBase - blockOf args) (by omega) (by omega)
  have strings : physBase - blockOf args + (blockOf args - sizeOf args) =
      physBase - sizeOf args := by omega
  rw [strings] at clearing
  have placing := @copy_args esp 0 (physBase - sizeOf args) cleared cmdStr buf 0 has (by omega)
    (by rw [isArgs]; omega) (by rw [isArgs]; omega)
  rw [isArgs] at placing
  refine ⟨cleared, ?_, below, ?_⟩
  · cases called : strtokR [0x20] buf 0 with
    | error fault =>
        rw [called] at counted
        cases counted
    | ok next =>
        obtain ⟨token, rest, save⟩ := next
        rw [called] at counted placing
        change countArgs 100 rest token save 0 0 = _ at counted
        change copyArgs esp args.length 0 rest token save cleared _ = _ at placing
        unfold formatStackArgs
        rw [copied]
        simp only [bind, Except.bind, called, counted, padding, Nat.add_sub_cancel' size, isEsp,
          first, second, third, clearing, placing]
  · intro y high
    rw [above y high, header_outside (by omega)]

theorem arguments_are_laid_out (cmdStr : List Byte) (memory : Memory)
    (noNul : (0 : Byte) ∉ cmdStr) (short : cmdStr.length ≤ 99)
    (zeroed : ∀ y, physBase - pgSize ≤ y → y < physBase → memory y = 0) :
    ∃ after esp, setupStack cmdStr memory = .ok (after, esp) ∧ Laid after esp (argsOf cmdStr) ∧
      SameOutside (Set.Ico (physBase - pgSize) physBase) memory after := by
  obtain ⟨aligned, size, block, few, _⟩ := block_bounds short
  have room : 4096 ≤ physBase := by decide
  have page : pgSize = 4096 := rfl
  have even : physBase % 4 = 0 := by decide
  obtain ⟨cleared, called, below, above⟩ := format_stack_args memory noNul short rfl rfl
  refine ⟨_, _, called, ?_, ?_⟩
  · apply frame_laid zeroed (by omega) (by omega) (by omega) few size _ rfl
    intro y under
    exact below y (by omega)
  · intro y outside
    rw [Set.mem_Ico] at outside
    by_cases high : physBase ≤ y
    · rw [placed_outside (by omega) (by omega), above y high]
    · rw [placed_outside (by omega) (by omega), below y (by omega), header_outside (by omega)]

/-- `arg  a` -/
theorem arguments_are_laid_out_two :
    ∃ after esp, setupStack [0x61, 0x72, 0x67, 0x20, 0x20, 0x61] (fun _ => 0) = .ok (after, esp) ∧
      Laid after esp [[0x61, 0x72, 0x67], [0x61]] := by
  obtain ⟨after, esp, called, laid, _⟩ := arguments_are_laid_out
    [0x61, 0x72, 0x67, 0x20, 0x20, 0x61] (fun _ => 0) (by decide) (by decide) fun _ _ _ => rfl
  exact ⟨after, esp, called, laid⟩

end UtSystems.Userprog.StackArgs

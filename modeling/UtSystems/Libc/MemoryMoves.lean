import UtSystems.Lib.AddressRanges
import UtSystems.Libc.Strings

/-!
# Copies between overlapping ranges

`memmove` of `lib/string.c` on the bytes of a 32-bit memory. Its cursor `dst` is also what it
returns.
-/

namespace UtSystems.Libc.MemoryMoves

open Lib.Bytes Lib.AddressRanges Libc.Strings

set_option autoImplicit false

/-- The loop with `*dst++ = *src++`: the memory and `dst` behind it. -/
def copyUp : Nat → Memory → Addr → Addr → Memory × Addr
  | 0, memory, dst, _ => (memory, dst)
  | size + 1, memory, dst, src =>
      copyUp size (Function.update memory dst (memory src)) (dst + 1) (src + 1)

/-- The loop with `*--dst = *--src`. -/
def copyDown : Nat → Memory → Addr → Addr → Memory × Addr
  | 0, memory, dst, _ => (memory, dst)
  | size + 1, memory, dst, src =>
      copyDown size (Function.update memory (dst - 1) (memory (src - 1))) (dst - 1) (src - 1)

/-- The memory and the value returned. -/
def memmove (memory : Memory) (dst src : Addr) (size : Word) : Except Fault (Memory × Addr) :=
  if ¬(dst ≠ 0 ∨ size = 0) then .error .null
  else if ¬(src ≠ 0 ∨ size = 0) then .error .null
  else if dst < src then .ok (copyUp size.toNat memory dst src)
  else .ok (copyDown size.toNat memory (dst + size) (src + size))

/-- The bytes that were at `src` are at `dst`, and all others are where they were. -/
structure Moved (memory after : Memory) (dst src : Addr) (size : Nat) : Prop where
  copied : ∀ i < size, after (offset dst i) = memory (offset src i)
  others : ∀ x, (∀ i < size, x ≠ offset dst i) → after x = memory x

section Loops

variable {memory : Memory} {dst src : Addr} {size : Nat}

theorem fits_next (fits : Fits dst (size + 1)) : Fits (dst + 1) size := by
  unfold Fits at fits ⊢
  rw [BitVec.toNat_add]
  have one : (1 : Addr).toNat = 1 := rfl
  omega

theorem offset_next (p : Addr) (i : Nat) : offset (p + 1) i = offset p (i + 1) := by
  rw [← offset_one, offset_offset, Nat.add_comm]

/-- A source byte that is still to be read lies above the byte that is written. -/
theorem copy_up_moves (dstFits : Fits dst size) (srcFits : Fits src size) (below : dst ≤ src) :
    Moved memory (copyUp size memory dst src).1 dst src size ∧
      (copyUp size memory dst src).2 = offset dst size := by
  induction size generalizing memory dst src with
  | zero =>
      refine ⟨⟨?_, fun _ _ => rfl⟩, offset_zero.symm⟩
      intro i inside
      exact absurd inside (Nat.not_lt_zero i)
  | succ size ih =>
      have order : dst.toNat ≤ src.toNat := below
      have apart : ∀ i < size, offset (src + 1) i ≠ dst := by
        intro i inside same
        have value := congrArg BitVec.toNat same
        rw [offset_next, offset_to_nat srcFits (by omega)] at value
        omega
      have later : ∀ i < size, dst ≠ offset (dst + 1) i := by
        intro i inside same
        rw [offset_next] at same
        have zero : offset dst 0 = offset dst (i + 1) := offset_zero.trans same
        have index := offset_injective dstFits (Nat.succ_pos _) (Nat.succ_lt_succ inside) zero
        omega
      cases size with
      | zero =>
          refine ⟨⟨?_, ?_⟩, rfl⟩
          · intro i inside
            obtain rfl : i = 0 := by omega
            rw [offset_zero, offset_zero]
            exact Function.update_self ..
          · intro x outside
            have notDst := outside 0 (Nat.succ_pos _)
            rw [offset_zero] at notDst
            exact Function.update_of_ne notDst ..
      | succ size =>
          have up : dst + 1 ≤ src + 1 := by
            have dstNext := offset_to_nat dstFits (show 1 < size + 1 + 1 by omega)
            have srcNext := offset_to_nat srcFits (show 1 < size + 1 + 1 by omega)
            rw [offset_one] at dstNext srcNext
            rw [BitVec.le_def, dstNext, srcNext]
            omega
          obtain ⟨⟨copied, others⟩, last⟩ := @ih (Function.update memory dst (memory src)) _ _
            (fits_next dstFits) (fits_next srcFits) up
          refine ⟨⟨?_, ?_⟩, ?_⟩
          · intro i inside
            cases i with
            | zero =>
                rw [offset_zero, offset_zero]
                exact (others dst later).trans (Function.update_self ..)
            | succ i =>
                rw [← offset_next, ← offset_next]
                exact (copied i (by omega)).trans
                  (Function.update_of_ne (apart i (by omega)) ..)
          · intro x outside
            have notDst := outside 0 (Nat.succ_pos _)
            rw [offset_zero] at notDst
            refine (others x ?_).trans (Function.update_of_ne notDst ..)
            intro i inside
            rw [offset_next]
            exact outside (i + 1) (by omega)
          · exact last.trans (offset_next dst _)

/-- A source byte that is still to be read lies below the byte that is written. -/
theorem copy_down_moves (dstFits : Fits dst size) (srcFits : Fits src size) (above : src ≤ dst) :
    Moved memory (copyDown size memory (offset dst size) (offset src size)).1 dst src size ∧
      (copyDown size memory (offset dst size) (offset src size)).2 = dst := by
  induction size generalizing memory with
  | zero =>
      refine ⟨⟨?_, fun _ _ => rfl⟩, offset_zero⟩
      intro i inside
      exact absurd inside (Nat.not_lt_zero i)
  | succ size ih =>
      have order : src.toNat ≤ dst.toNat := above
      have apart : ∀ i < size, offset src i ≠ offset dst size := by
        intro i inside same
        have value := congrArg BitVec.toNat same
        rw [offset_to_nat srcFits (by omega), offset_to_nat dstFits (by omega)] at value
        omega
      have earlier : ∀ i < size, offset dst size ≠ offset dst i := by
        intro i inside same
        have index := offset_injective dstFits (Nat.lt_succ_self _) (by omega) same
        omega
      rw [copyDown, offset_pred, offset_pred]
      obtain ⟨⟨copied, others⟩, last⟩ :=
        @ih (Function.update memory (offset dst size) (memory (offset src size)))
          (Nat.le_of_succ_le dstFits) (Nat.le_of_succ_le srcFits)
      refine ⟨⟨?_, ?_⟩, last⟩
      · intro i inside
        by_cases isLast : i = size
        · subst isLast
          exact (others _ earlier).trans (Function.update_self ..)
        · exact (copied i (by omega)).trans (Function.update_of_ne (apart i (by omega)) ..)
      · intro x outside
        refine (others x ?_).trans (Function.update_of_ne (outside size (by omega)) ..)
        intro i inside
        exact outside i (by omega)

end Loops

section Calls

variable {memory : Memory} {dst src : Addr} {size : Word}

theorem word_offset (p : Addr) (size : Word) : p + size = offset p size.toNat := by
  unfold offset
  rw [BitVec.ofNat_toNat, BitVec.setWidth_eq]

/-- The bytes are moved whatever the overlap. -/
theorem memmove_moves (dstFits : Fits dst size.toNat) (srcFits : Fits src size.toNat)
    (nonnull : size = 0 ∨ dst ≠ 0 ∧ src ≠ 0) :
    ∃ after, memmove memory dst src size =
        .ok (after, if dst < src then offset dst size.toNat else dst) ∧
      Moved memory after dst src size.toNat := by
  have dstOk : ¬¬(dst ≠ 0 ∨ size = 0) := not_not.mpr (nonnull.elim .inr fun both => .inl both.1)
  have srcOk : ¬¬(src ≠ 0 ∨ size = 0) := not_not.mpr (nonnull.elim .inr fun both => .inl both.2)
  unfold memmove
  rw [if_neg dstOk, if_neg srcOk]
  by_cases up : dst < src
  · obtain ⟨moved, last⟩ := @copy_up_moves memory _ _ _ dstFits srcFits (BitVec.le_of_lt up)
    rw [if_pos up, if_pos up]
    exact ⟨_, congrArg Except.ok (Prod.ext rfl last), moved⟩
  · obtain ⟨moved, last⟩ := @copy_down_moves memory _ _ _ dstFits srcFits (BitVec.not_lt.mp up)
    rw [if_neg up, if_neg up, word_offset, word_offset]
    exact ⟨_, congrArg Except.ok (Prod.ext rfl last), moved⟩

/-- `memmove` moves the bytes and returns `dst`. -/
def Moves (memory : Memory) (dst src : Addr) (size : Word) : Prop :=
  ∃ after, memmove memory dst src size = .ok (after, dst) ∧ Moved memory after dst src size.toNat

end Calls

/-- `memmove` does what it says exactly for an empty range and where it copies down. -/
theorem memmove_returns_dst_iff (memory : Memory) (dst src : Addr) (size : Word)
    (dstFits : Fits dst size.toNat) (srcFits : Fits src size.toNat) :
    Moves memory dst src size ↔ size = 0 ∨ dst ≠ 0 ∧ src ≠ 0 ∧ src ≤ dst := by
  constructor
  · intro moves
    obtain ⟨after, returned, _⟩ := moves
    by_cases empty : size = 0
    · exact .inl empty
    · have dstOk : dst ≠ 0 := by
        intro null
        unfold memmove at returned
        rw [if_pos fun either => either.elim (fun nonnull => nonnull null) empty] at returned
        cases returned
      have srcOk : src ≠ 0 := by
        intro null
        unfold memmove at returned
        rw [if_neg (not_not.mpr (.inl dstOk)),
          if_pos fun either => either.elim (fun nonnull => nonnull null) empty] at returned
        cases returned
      refine .inr ⟨dstOk, srcOk, ?_⟩
      by_contra notAbove
      have up : dst < src := BitVec.not_le.mp notAbove
      obtain ⟨_, moved, _⟩ := @memmove_moves memory dst src size dstFits srcFits
        (.inr ⟨dstOk, srcOk⟩)
      rw [moved, if_pos up, ← word_offset] at returned
      have same : dst + size = dst := (Prod.ext_iff.mp (Except.ok.inj returned)).2
      exact empty (BitVec.add_right_eq_self.mp same)
  · intro accepted
    have nonnull : size = 0 ∨ dst ≠ 0 ∧ src ≠ 0 :=
      accepted.imp id fun both => ⟨both.1, both.2.1⟩
    obtain ⟨after, moved, isMoved⟩ := @memmove_moves memory dst src size dstFits srcFits nonnull
    have same : (if dst < src then offset dst size.toNat else dst) = dst := by
      rcases accepted with empty | ⟨_, _, above⟩
      · have none_ : size.toNat = 0 := by
          rw [empty]
          rfl
        rw [none_, offset_zero, ite_self]
      · rw [if_neg (BitVec.not_lt.mpr above)]
    rw [same] at moved
    exact ⟨after, moved, isMoved⟩

theorem memmove_returns_dst_iff_overlap :
    Moves (fun _ => 0) 0x1001 0x1000 0x10 ↔
      (0x10 : Word) = 0 ∨ (0x1001 : Addr) ≠ 0 ∧ (0x1000 : Addr) ≠ 0 ∧ (0x1000 : Addr) ≤ 0x1001 :=
  memmove_returns_dst_iff (fun _ => 0) 0x1001 0x1000 0x10 (by unfold Fits; decide)
    (by unfold Fits; decide)

/-- A move of one byte by one address down returns the source. -/
theorem memmove_returns_source :
    ∃ after, memmove (fun _ => 0) 0x1000 0x1001 1 = .ok (after, 0x1001) ∧
      ¬Moves (fun _ => 0) 0x1000 0x1001 1 := by
  refine ⟨_, rfl, ?_⟩
  intro moves
  obtain ⟨after, returned, _⟩ := moves
  have same : (0x1001 : Addr) = 0x1000 := (Prod.ext_iff.mp (Except.ok.inj returned)).2
  exact absurd same (by decide)

end UtSystems.Libc.MemoryMoves

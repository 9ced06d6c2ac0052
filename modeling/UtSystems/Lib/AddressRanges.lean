import UtSystems.Lib.Bytes

/-!
# Ranges of 32-bit addresses

Pointer arithmetic wraps at 32 bits. The addresses of a range that ends at or before the last
address are apart.
-/

namespace UtSystems.Lib.AddressRanges

open Lib.Bytes

set_option autoImplicit false

abbrev Addr := BitVec 32

/-- A memory of which every byte can be read and written. -/
abbrev Memory := Addr → Byte

variable {p : Addr} {count i j : Nat}

/-- The range of `count` bytes from `p` on does not wrap. -/
def Fits (p : Addr) (count : Nat) : Prop := p.toNat + count ≤ 2 ^ 32

def offset (p : Addr) (i : Nat) : Addr := p + BitVec.ofNat 32 i

@[simp] theorem offset_zero : offset p 0 = p := BitVec.add_zero p

theorem offset_offset : offset (offset p i) j = offset p (i + j) := by
  unfold offset
  rw [BitVec.add_assoc, ← BitVec.ofNat_add]

theorem offset_one : offset p 1 = p + 1 := rfl

theorem offset_succ : offset p (i + 1) = offset p i + 1 := by
  rw [← offset_offset]
  rfl

/-- The next address back. -/
theorem offset_pred : offset p (i + 1) - 1 = offset p i := by
  rw [offset_succ, BitVec.add_sub_cancel]

theorem offset_to_nat (fits : Fits p count) (inside : i < count) :
    (offset p i).toNat = p.toNat + i := by
  unfold Fits at fits
  unfold offset
  rw [BitVec.toNat_add, BitVec.toNat_ofNat]
  omega

theorem offset_injective (fits : Fits p count) (first : i < count) (second : j < count)
    (same : offset p i = offset p j) : i = j := by
  have values := congrArg BitVec.toNat same
  rw [offset_to_nat fits first, offset_to_nat fits second] at values
  omega

/-- What stands in the range. -/
def range (memory : Memory) (p : Addr) (count : Nat) : List Byte :=
  (List.range count).map fun i => memory (offset p i)

@[simp] theorem range_length {memory : Memory} : (range memory p count).length = count := by
  simp [range]

end UtSystems.Lib.AddressRanges

import UtSystems.Lib.Bytes

/-!
# Single bits of a word

What a mask with one bit does to the others, and the mask of the bits below one.
-/

namespace UtSystems.Lib.BitMasks

open Lib.Bytes

set_option autoImplicit false

variable {word : Word} {place other : Nat}

/-- The word in which only the bit at `place` is set. -/
def oneBit (place : Nat) : Word := 1 <<< place

theorem one_bit_get (inside : place < 32) : (oneBit place).getLsbD other = decide (other = place) := by
  have table : ∀ place < 32, ∀ other < 32,
      (oneBit place).getLsbD other = decide (other = place) := by decide +kernel
  by_cases small : other < 32
  · exact table place inside other small
  · rw [BitVec.getLsbD_of_ge _ _ (by omega)]
    exact (decide_eq_false (by omega)).symm

theorem or_bit_get (inside : place < 32) :
    (word ||| oneBit place).getLsbD other = if other = place then true else word.getLsbD other := by
  rw [BitVec.getLsbD_or, one_bit_get inside]
  split <;> simp [*]

theorem and_not_bit_get (inside : place < 32) (small : other < 32) :
    (word &&& ~~~oneBit place).getLsbD other =
      if other = place then false else word.getLsbD other := by
  rw [BitVec.getLsbD_and, BitVec.getLsbD_not, one_bit_get inside]
  split <;> simp [*]

theorem xor_bit_get (inside : place < 32) :
    (word ^^^ oneBit place).getLsbD other =
      if other = place then !word.getLsbD other else word.getLsbD other := by
  rw [BitVec.getLsbD_xor, one_bit_get inside]
  split <;> simp [*]

/-- A masked word is not zero when its bit is set. -/
theorem and_bit_ne_zero (inside : place < 32) :
    decide (word &&& oneBit place ≠ 0) = word.getLsbD place := by
  have here : (word &&& oneBit place).getLsbD place = word.getLsbD place := by
    rw [BitVec.getLsbD_and, one_bit_get inside]
    simp
  cases bit : word.getLsbD place with
  | true =>
      apply decide_eq_true
      intro zero
      rw [zero, bit] at here
      simp at here
  | false =>
      apply decide_eq_false
      rw [not_not]
      apply BitVec.eq_of_getLsbD_eq
      intro other _
      rw [BitVec.getLsbD_and, one_bit_get inside]
      by_cases same : other = place
      · rw [same, bit]
        simp
      · simp [same]

/-- The word in which the bits below `place` are set. -/
def bitsBelow (place : Nat) : Word := oneBit place - 1

theorem and_below_get (inside : place < 32) (below : other < place) :
    (word &&& bitsBelow place).getLsbD other = word.getLsbD other := by
  have table : ∀ place < 32, ∀ other < place, (bitsBelow place).getLsbD other = true := by
    decide +kernel
  rw [BitVec.getLsbD_and, table place inside other below, Bool.and_true]

end UtSystems.Lib.BitMasks

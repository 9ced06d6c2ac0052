import Mathlib.Algebra.Group.Nat.Defs
import Mathlib.Tactic.Common

/-!
# Numerals of a fixed width

`digits base width value` is `value` in `base`, the high digit first. Reading the digits one
after another gives the value back as long as it fits.
-/

namespace UtSystems.Lib.Numerals

set_option autoImplicit false

variable {base width value : Nat}

def digits (base : Nat) : Nat → Nat → List Nat
  | 0, _ => []
  | width + 1, value => digits base width (value / base) ++ [value % base]

def readDigits (base : Nat) (initial : Nat) (numeral : List Nat) : Nat :=
  numeral.foldl (fun value digit => value * base + digit) initial

@[simp] theorem digits_length : (digits base width value).length = width := by
  induction width generalizing value with
  | zero => rfl
  | succ width induction => simp [digits, induction]

theorem digit_lt (positive : 0 < base) {digit : Nat} (member : digit ∈ digits base width value) :
    digit < base := by
  induction width generalizing value with
  | zero => simp [digits] at member
  | succ width induction =>
      rw [digits, List.mem_append, List.mem_singleton] at member
      cases member with
      | inl high => exact induction high
      | inr low =>
          rw [low]
          exact Nat.mod_lt _ positive

@[simp] theorem read_digits_cons (initial digit : Nat) (rest : List Nat) :
    readDigits base initial (digit :: rest) = readDigits base (initial * base + digit) rest := rfl

theorem read_digits_append (initial : Nat) (front back : List Nat) :
    readDigits base initial (front ++ back) = readDigits base (readDigits base initial front) back :=
  List.foldl_append

theorem read_digits (fits : value < base ^ width) :
    readDigits base 0 (digits base width value) = value := by
  induction width generalizing value with
  | zero =>
      have zero : value = 0 := by simpa using fits
      rw [zero]
      rfl
  | succ width induction =>
      have high : value / base < base ^ width := by
        apply Nat.div_lt_of_lt_mul
        rw [Nat.mul_comm, ← Nat.pow_succ]
        exact fits
      rw [digits, read_digits_append, induction high, read_digits_cons, Nat.div_add_mod']
      rfl

/-- The value read so far never exceeds the value of the whole numeral. -/
theorem read_digits_mono (positive : 0 < base) (initial : Nat) (numeral : List Nat) :
    initial ≤ readDigits base initial numeral := by
  induction numeral generalizing initial with
  | nil => exact Nat.le_refl _
  | cons digit rest induction =>
      have grows : initial ≤ initial * base + digit :=
        Nat.le_trans (Nat.le_mul_of_pos_right _ positive) (Nat.le_add_right _ _)
      exact Nat.le_trans grows (induction _)

end UtSystems.Lib.Numerals

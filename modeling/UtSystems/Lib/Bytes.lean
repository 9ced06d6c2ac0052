import Mathlib.Algebra.Group.Nat.Defs
import Mathlib.Data.List.Basic
import Mathlib.Tactic.Common

/-!
# Slices of a byte memory and little-endian words

A memory is a function on addresses. `slice` copies a range out of it, `overwrite`
copies a list into it and `splice` copies a list into another list. A word of 32
bits is stored as four bytes, the low one first.
-/

namespace UtSystems.Lib.Bytes

set_option autoImplicit false

abbrev Byte := BitVec 8
abbrev Word := BitVec 32

def joinWord (byte0 byte1 byte2 byte3 : Byte) : Word := byte3 ++ byte2 ++ byte1 ++ byte0

def wordByte (word : Word) (index : Nat) : Byte := word.extractLsb' (8 * index) 8

def wordBytes (word : Word) : List Byte :=
  [wordByte word 0, wordByte word 1, wordByte word 2, wordByte word 3]

/-- The first four bytes of a list as a word; missing bytes count as zero. -/
def readWord (bytes : List Byte) : Word :=
  joinWord (bytes.getD 0 0) (bytes.getD 1 0) (bytes.getD 2 0) (bytes.getD 3 0)

theorem join_word_bytes (word : Word) :
    joinWord (wordByte word 0) (wordByte word 1) (wordByte word 2) (wordByte word 3) = word := by
  apply BitVec.eq_of_getLsbD_eq
  intro index bound
  simp only [joinWord, wordByte, BitVec.getLsbD_append, BitVec.getLsbD_extractLsb']
  by_cases first : index < 8
  · simp [first]
  · by_cases second : index - 8 < 8
    · simp [first, second, show 8 * 1 + (index - 8) = index by omega]
    · by_cases third : index - 8 - 8 < 8
      · simp [first, second, third, show 8 * 2 + (index - 8 - 8) = index by omega]
      · simp [first, second, third, show 8 * 3 + (index - 8 - 8 - 8) = index by omega,
          show index - 8 - 8 - 8 < 8 by omega]

theorem word_byte_join (byte : Nat → Byte) {index : Nat} (inside : index < 4) :
    wordByte (joinWord (byte 0) (byte 1) (byte 2) (byte 3)) index = byte index := by
  have cases_ : index = 0 ∨ index = 1 ∨ index = 2 ∨ index = 3 := by omega
  apply BitVec.eq_of_getLsbD_eq
  intro bit bound
  simp only [joinWord, wordByte, BitVec.getLsbD_append, BitVec.getLsbD_extractLsb', bound,
    decide_true, Bool.true_and]
  rcases cases_ with rfl | rfl | rfl | rfl
  · simp [bound]
  · rw [if_neg (by omega), if_pos (by omega), show 8 * 1 + bit - 8 = bit by omega]
  · rw [if_neg (by omega), if_neg (by omega), if_pos (by omega),
      show 8 * 2 + bit - 8 - 8 = bit by omega]
  · rw [if_neg (by omega), if_neg (by omega), if_neg (by omega),
      show 8 * 3 + bit - 8 - 8 - 8 = bit by omega]

theorem read_word_bytes (word : Word) (rest : List Byte) :
    readWord (wordBytes word ++ rest) = word := by
  simp only [readWord, wordBytes, List.cons_append, List.nil_append, List.getD_cons_zero,
    List.getD_cons_succ]
  exact join_word_bytes word

theorem word_bytes_length (word : Word) : (wordBytes word).length = 4 := rfl

/-- The words from `2 ^ 31` on are negative as numbers of type `int`. -/
theorem word_negative (word : Word) : word.toInt < 0 ↔ ¬word.toNat < 2 ^ 31 := by
  have bound := word.isLt
  rw [BitVec.toInt_eq_toNat_cond]
  split
  · omega
  · omega

/-- Eight bits as a byte, the first one lowest. -/
def packBits (bit : Nat → Bool) : Byte :=
  BitVec.ofBool (bit 7) ++ BitVec.ofBool (bit 6) ++ BitVec.ofBool (bit 5) ++
    BitVec.ofBool (bit 4) ++ BitVec.ofBool (bit 3) ++ BitVec.ofBool (bit 2) ++
    BitVec.ofBool (bit 1) ++ BitVec.ofBool (bit 0)

theorem pack_bits_get (bit : Nat → Bool) {index : Nat} (inside : index < 8) :
    (packBits bit).getLsbD index = bit index := by
  have cases_ : index = 0 ∨ index = 1 ∨ index = 2 ∨ index = 3 ∨ index = 4 ∨ index = 5 ∨
      index = 6 ∨ index = 7 := by omega
  rcases cases_ with rfl | rfl | rfl | rfl | rfl | rfl | rfl | rfl <;>
    simp only [packBits, BitVec.getLsbD_append, BitVec.getLsbD_ofBool] <;> simp

section Slices

variable {Cell : Type*}

def slice (memory : Nat → Cell) (base count : Nat) : List Cell :=
  (List.range count).map fun index => memory (base + index)

def overwrite (memory : Nat → Cell) (base : Nat) (cells : List Cell) : Nat → Cell :=
  fun address =>
    if base ≤ address then (cells[address - base]?).getD (memory address) else memory address

def splice (target : List Cell) (offset : Nat) (source : List Cell) : List Cell :=
  target.take offset ++ source ++ target.drop (offset + source.length)

variable {memory other : Nat → Cell} {base count offset : Nat} {cells : List Cell}

@[simp] theorem slice_length : (slice memory base count).length = count := by
  simp [slice]

@[simp] theorem slice_zero : slice memory base 0 = [] := rfl

theorem slice_get {index : Nat} (inside : index < count) :
    (slice memory base count)[index]? = some (memory (base + index)) := by
  simp [slice, inside]

theorem slice_get_of_ge {index : Nat} (outside : count ≤ index) :
    (slice memory base count)[index]? = none := by
  simp [slice, outside]

theorem slice_congr (same : ∀ index < count, memory (base + index) = other (base + index)) :
    slice memory base count = slice other base count := by
  apply List.map_congr_left
  intro index member
  exact same index (List.mem_range.mp member)

theorem slice_append (first second : Nat) :
    slice memory base (first + second) =
      slice memory base first ++ slice memory (base + first) second := by
  simp only [slice, List.range_add, List.map_append, List.map_map]
  congr 1
  apply List.map_congr_left
  intro index _
  simp [Nat.add_assoc]

/-- Both parts of a list that stands in memory. -/
theorem slice_parts {front back : List Cell}
    (whole : slice memory base (front ++ back).length = front ++ back) :
    slice memory base front.length = front ∧
      slice memory (base + front.length) back.length = back := by
  rw [List.length_append, slice_append] at whole
  exact List.append_inj whole slice_length

theorem slice_drop_take {skip size : Nat} (fits : skip + size ≤ count) :
    ((slice memory base count).drop skip).take size = slice memory (base + skip) size := by
  apply List.ext_getElem?
  intro index
  by_cases inside : index < size
  · rw [List.getElem?_take_of_lt inside, List.getElem?_drop, slice_get (by omega), slice_get inside,
      Nat.add_assoc]
  · rw [List.getElem?_take_eq_none (by omega), slice_get_of_ge (by omega)]

@[simp] theorem overwrite_nil : overwrite memory base [] = memory := by
  funext address
  simp [overwrite]

theorem overwrite_inside {index : Nat} (inside : index < cells.length) :
    overwrite memory base cells (base + index) = cells[index] := by
  simp [overwrite, inside]

theorem overwrite_outside {address : Nat}
    (outside : address < base ∨ base + cells.length ≤ address) :
    overwrite memory base cells address = memory address := by
  unfold overwrite
  split
  · next above =>
    have beyond : cells.length ≤ address - base := by omega
    rw [List.getElem?_eq_none beyond]
    rfl
  · rfl

/-- Writing two adjacent pieces writes their concatenation. -/
theorem overwrite_append (first second : List Cell) :
    overwrite (overwrite memory base first) (base + first.length) second =
      overwrite memory base (first ++ second) := by
  funext address
  by_cases above : base ≤ address
  · by_cases early : address - base < first.length
    · rw [overwrite_outside (by omega)]
      unfold overwrite
      rw [if_pos above, if_pos above, List.getElem?_append_left early]
    · have late : base + first.length ≤ address := by omega
      have past : first[address - base]? = none := List.getElem?_eq_none (by omega)
      unfold overwrite
      rw [if_pos late, if_pos above, if_pos above, past, List.getElem?_append_right (by omega)]
      simp [Nat.sub_sub]
  · rw [overwrite_outside (by omega), overwrite_outside (by omega), overwrite_outside (by omega)]

/-- Writing back a range of which only a part has changed writes that part. -/
theorem overwrite_splice (fits : offset + cells.length ≤ count) :
    overwrite memory base (splice (slice memory base count) offset cells) =
      overwrite memory (base + offset) cells := by
  funext address
  have size : (splice (slice memory base count) offset cells).length = count := by
    simp [splice]
    omega
  by_cases outside : address < base ∨ base + count ≤ address
  · rw [overwrite_outside (by omega), overwrite_outside (by omega)]
  · obtain ⟨index, rfl⟩ : ∃ index, address = base + index := ⟨address - base, by omega⟩
    rw [overwrite_inside (by omega)]
    apply Option.some.inj
    rw [← List.getElem?_eq_getElem]
    unfold splice
    by_cases before : index < offset
    · rw [overwrite_outside (by omega), List.append_assoc,
        List.getElem?_append_left (by simp; omega), List.getElem?_take_of_lt before,
        slice_get (by omega)]
    · have head : ((slice memory base count).take offset).length = offset := by
        simp
        omega
      by_cases within : index < offset + cells.length
      · rw [List.getElem?_append_left (by rw [List.length_append, head]; omega),
          List.getElem?_append_right (by omega), head, List.getElem?_eq_getElem (by omega)]
        have place : base + index = base + offset + (index - offset) := by omega
        rw [place, overwrite_inside (by omega)]
      · rw [overwrite_outside (by omega),
          List.getElem?_append_right (by rw [List.length_append, head]; omega),
          List.length_append, head, List.getElem?_drop, slice_get (by omega)]
        congr 2
        omega

theorem slice_overwrite : slice (overwrite memory base cells) base cells.length = cells := by
  apply List.ext_getElem?
  intro index
  by_cases inside : index < cells.length
  · rw [slice_get inside, overwrite_inside inside, List.getElem?_eq_getElem inside]
  · rw [slice_get_of_ge (by omega), List.getElem?_eq_none (by omega)]

/-- A range of which a part is overwritten. -/
theorem slice_overwrite_part (fits : offset + cells.length ≤ count) :
    slice (overwrite memory (base + offset) cells) base count =
      splice (slice memory base count) offset cells := by
  have size : (splice (slice memory base count) offset cells).length = count := by
    simp [splice]
    omega
  have whole := @slice_overwrite _ memory base (splice (slice memory base count) offset cells)
  rw [size, overwrite_splice fits] at whole
  exact whole

end Slices

end UtSystems.Lib.Bytes

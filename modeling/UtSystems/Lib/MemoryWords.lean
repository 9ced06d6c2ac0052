import Mathlib.Order.Interval.Set.Defs
import UtSystems.Lib.Bytes
import UtSystems.Lib.LinkedList

/-!
# Words and links in a byte memory

A word of 32 bits stands in the four bytes from its address on. `SameOutside cells` says that
two memories differ at most on some addresses. A list element is two adjacent words, its links
to the element before it and to the one behind it.
-/

namespace UtSystems.Lib.MemoryWords

open Lib.Bytes Lib.LinkedList

set_option autoImplicit false

abbrev Memory := Nat → Byte

def loadWord (memory : Memory) (address : Nat) : Nat := (readWord (slice memory address 4)).toNat

def storeWord (memory : Memory) (address value : Nat) : Memory :=
  overwrite memory address (wordBytes (BitVec.ofNat 32 value))

variable {memory other third : Memory} {address place value : Nat}

theorem load_word_lt : loadWord memory address < 2 ^ 32 := BitVec.isLt _

theorem store_word_outside (outside : place < address ∨ address + 4 ≤ place) :
    storeWord memory address value place = memory place :=
  overwrite_outside outside

theorem load_word_congr (same : ∀ x, address ≤ x → x < address + 4 → other x = memory x) :
    loadWord other address = loadWord memory address := by
  unfold loadWord
  rw [slice_congr fun index inside => same (address + index) (by omega) (by omega)]

theorem load_store_same (fits : value < 2 ^ 32) :
    loadWord (storeWord memory address value) address = value := by
  have bytes : slice (storeWord memory address value) address 4 =
      wordBytes (BitVec.ofNat 32 value) := slice_overwrite
  have back := read_word_bytes (BitVec.ofNat 32 value) []
  rw [List.append_nil] at back
  unfold loadWord
  rw [bytes, back, BitVec.toNat_ofNat, Nat.mod_eq_of_lt fits]

theorem load_store_apart (apart : address + 4 ≤ place ∨ place + 4 ≤ address) :
    loadWord (storeWord memory address value) place = loadWord memory place := by
  apply load_word_congr
  intro x above below
  exact store_word_outside (by omega)

section Frames

variable {cells more : Set Nat}

def SameOutside (cells : Set Nat) (memory other : Memory) : Prop :=
  ∀ x, x ∉ cells → other x = memory x

theorem same_outside_refl : SameOutside cells memory memory := fun _ _ => rfl

theorem same_outside_trans (first : SameOutside cells memory other)
    (second : SameOutside cells other third) : SameOutside cells memory third := by
  intro x outside
  rw [second x outside, first x outside]

theorem same_outside_mono (same : SameOutside cells memory other) (grown : cells ⊆ more) :
    SameOutside more memory other :=
  fun x outside => same x fun inside => outside (grown inside)

theorem store_same_outside :
    SameOutside (Set.Ico address (address + 4)) memory (storeWord memory address value) := by
  intro x outside
  rw [Set.mem_Ico] at outside
  exact store_word_outside (by omega)

theorem load_same_outside (same : SameOutside cells memory other)
    (apart : ∀ x ∈ cells, x < address ∨ address + 4 ≤ x) :
    loadWord other address = loadWord memory address := by
  apply load_word_congr
  intro x above below
  apply same
  intro inside
  have := apart x inside
  omega

end Frames

section Elements

/-- The elements fit in memory and do not overlap. -/
structure Spaced (elems : Set Nat) : Prop where
  fits : ∀ x ∈ elems, x + 8 ≤ 2 ^ 32
  apart : ∀ x ∈ elems, ∀ y ∈ elems, x ≠ y → x + 8 ≤ y ∨ y + 8 ≤ x

/-- The addresses of the links of the elements. -/
def linkCells (elems : Set Nat) : Set Nat := {x | ∃ elem ∈ elems, elem ≤ x ∧ x < elem + 8}

def linksOf (memory : Memory) : Links Nat where
  prev := loadWord memory
  next := fun elem => loadWord memory (elem + 4)

/-- The links of these elements are as in `l`. -/
def ReadsAs (elems : Set Nat) (memory : Memory) (l : Links Nat) : Prop :=
  ∀ x ∈ elems, loadWord memory x = l.prev x ∧ loadWord memory (x + 4) = l.next x

variable {elems fewer : Set Nat} {l : Links Nat} {elem : Nat}

theorem reads_as_links : ReadsAs elems memory (linksOf memory) := fun _ _ => ⟨rfl, rfl⟩

theorem link_cells_mono (less : fewer ⊆ elems) : linkCells fewer ⊆ linkCells elems := by
  intro x ⟨elem, member, inside⟩
  exact ⟨elem, less member, inside⟩

theorem reads_set_prev (spaced : Spaced elems) (reads : ReadsAs elems memory l)
    (member : elem ∈ elems) (fits : value < 2 ^ 32) :
    ReadsAs elems (storeWord memory elem value)
      { l with prev := Function.update l.prev elem value } := by
  intro x inside
  constructor
  · by_cases same : x = elem
    · subst same
      rw [load_store_same fits]
      exact (Function.update_self x value l.prev).symm
    · have apart := spaced.apart x inside elem member same
      rw [load_store_apart (by omega), (reads x inside).1]
      exact (Function.update_of_ne same value l.prev).symm
  · have apart : x = elem ∨ x + 8 ≤ elem ∨ elem + 8 ≤ x := by
      by_cases same : x = elem
      · exact .inl same
      · exact .inr (spaced.apart x inside elem member same)
    rw [load_store_apart (by omega)]
    exact (reads x inside).2

theorem reads_set_next (spaced : Spaced elems) (reads : ReadsAs elems memory l)
    (member : elem ∈ elems) (fits : value < 2 ^ 32) :
    ReadsAs elems (storeWord memory (elem + 4) value)
      { l with next := Function.update l.next elem value } := by
  intro x inside
  constructor
  · have apart : x = elem ∨ x + 8 ≤ elem ∨ elem + 8 ≤ x := by
      by_cases same : x = elem
      · exact .inl same
      · exact .inr (spaced.apart x inside elem member same)
    rw [load_store_apart (by omega)]
    exact (reads x inside).1
  · by_cases same : x = elem
    · subst same
      rw [load_store_same fits]
      exact (Function.update_self x value l.next).symm
    · have apart := spaced.apart x inside elem member same
      rw [load_store_apart (by omega), (reads x inside).2]
      exact (Function.update_of_ne same value l.next).symm

/-- A list in links that the memory agrees with is a list in the memory. -/
theorem is_list_reads {null head tail : Nat} {inside : List Nat}
    (list : IsList l null head tail inside) (reads : ReadsAs elems memory l)
    (within : ∀ x ∈ head :: (inside ++ [tail]), x ∈ elems) :
    IsList (linksOf memory) null head tail inside :=
  is_list_congr list (fun x member => (reads x (within x member)).1)
    fun x member => (reads x (within x member)).2

/-- A list stays where it is as long as nobody writes to its links. -/
theorem is_list_same_outside {cells : Set Nat} {null head tail : Nat} {inside : List Nat}
    (list : IsList (linksOf memory) null head tail inside)
    (same : SameOutside cells memory other)
    (apart : ∀ elem ∈ head :: (inside ++ [tail]), ∀ x ∈ cells, x < elem ∨ elem + 8 ≤ x) :
    IsList (linksOf other) null head tail inside := by
  apply is_list_congr list
  · intro elem member
    apply load_same_outside same
    intro x within
    have := apart elem member x within
    omega
  · intro elem member
    apply load_same_outside same
    intro x within
    have := apart elem member x within
    omega

end Elements

end UtSystems.Lib.MemoryWords

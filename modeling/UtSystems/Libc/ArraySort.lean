import UtSystems.Lib.AddressRanges
import UtSystems.Lib.Heaps

/-!
# Sorting and searching an array

`sort` and `binary_search` of `lib/stdlib.c` on elements of `size` bytes each in a 32-bit memory.
Elements are numbered from 1 on, and the number of a child is a 32-bit product.
-/

namespace UtSystems.Libc.ArraySort

open Lib.Bytes Lib.AddressRanges Lib.Heaps

set_option autoImplicit false

inductive Fault where
  | assertion
  -- a loop does not come to its end
  | endless
deriving DecidableEq, Repr

/-- The bytes of one element. -/
abbrev Element (size : Nat) := { bytes : List Byte // bytes.length = size }

def element (memory : Memory) (p : Addr) (size : Nat) : Element size :=
  ⟨range memory p size, range_length⟩

def elementPtr (array : Addr) (idx size : Word) : Addr := array + (idx - 1) * size

def swapByte (a b : Addr) (memory : Memory) (i : Nat) : Memory :=
  Function.update (Function.update memory (offset a i) (memory (offset b i))) (offset b i)
    (memory (offset a i))

def doSwap (memory : Memory) (array : Addr) (aIdx bIdx size : Word) : Memory :=
  (List.range size.toNat).foldl
    (swapByte (elementPtr array aIdx size) (elementPtr array bIdx size)) memory

section Code

variable (array : Addr) (size : Word)
  (compare : Element size.toNat → Element size.toNat → Int)

def doCompare (memory : Memory) (aIdx bIdx : Word) : Int :=
  compare (element memory (elementPtr array aIdx size) size.toNat)
    (element memory (elementPtr array bIdx size) size.toNat)

/-- The larger of `idx` and its child `next`, when it has one. -/
def largerChild (memory : Memory) (cnt idx next : Word) : Word :=
  if next ≤ cnt ∧ doCompare array size compare memory next idx > 0 then next else idx

def heapify : Nat → Memory → Word → Word → Except Fault Memory
  | 0, _, _, _ => .error .endless
  | fuel + 1, memory, i, cnt =>
      let left := 2 * i
      let right := 2 * i + 1
      let max := largerChild array size compare memory cnt i left
      let max := largerChild array size compare memory cnt max right
      if max = i then .ok memory
      else heapify fuel (doSwap memory array i max size) max cnt

/-- The loop that counts `i` down to 1. -/
def buildHeap (fuel : Nat) (cnt : Word) : Nat → Memory → Except Fault Memory
  | 0, memory => .ok memory
  | i + 1, memory => do
      let memory ← heapify array size compare fuel memory (BitVec.ofNat 32 (i + 1)) cnt
      buildHeap fuel cnt i memory

/-- The loop that counts `i` down to 2. -/
def sortHeap (fuel : Nat) : Nat → Memory → Except Fault Memory
  | i + 2, memory => do
      let memory := doSwap memory array 1 (BitVec.ofNat 32 (i + 2)) size
      let memory ← heapify array size compare fuel memory 1 (BitVec.ofNat 32 (i + 1))
      sortHeap fuel (i + 1) memory
  | _, memory => .ok memory

def sort (fuel : Nat) (memory : Memory) (cnt : Word) : Except Fault Memory :=
  if ¬(array ≠ 0 ∨ cnt = 0) then .error .assertion
  else if ¬size > 0 then .error .assertion
  else do
    let memory ← buildHeap array size compare fuel cnt (cnt / 2).toNat memory
    sortHeap array size compare fuel cnt.toNat memory

/-- The loop of `binary_search`; the result is a pointer. -/
def searchLoop (memory : Memory) (key : Addr) : Nat → Addr → Addr → Except Fault Addr
  | 0, _, _ => .error .endless
  | fuel + 1, first, last =>
      if first < last then
        let range := (last - first) / size
        let middle := first + range / 2 * size
        let cmp := compare (element memory key size.toNat) (element memory middle size.toNat)
        if cmp < 0 then searchLoop memory key fuel first middle
        else if cmp > 0 then searchLoop memory key fuel (middle + size) last
        else .ok middle
      else .ok 0

def binarySearch (fuel : Nat) (memory : Memory) (key : Addr) (cnt : Word) : Except Fault Addr :=
  searchLoop size compare memory key fuel array (array + size * cnt)

end Code

/-! ## Elements -/

/-- Element `k` of the array. -/
def entry (memory : Memory) (array : Addr) (size : Word) (k : Nat) : Element size.toNat :=
  element memory (offset array ((k - 1) * size.toNat)) size.toNat

section Places

variable {memory after : Memory} {array : Addr} {size : Word} {n i j k : Nat}

theorem element_ptr_eq {idx : Word} (positive : 1 ≤ idx.toNat) :
    elementPtr array idx size = offset array ((idx.toNat - 1) * size.toNat) := by
  have one : (1 : Word).toNat = 1 := rfl
  have product : (idx - 1) * size = BitVec.ofNat 32 ((idx.toNat - 1) * size.toNat) := by
    apply BitVec.eq_of_toNat_eq
    rw [BitVec.toNat_mul, BitVec.toNat_sub_of_le (by rw [BitVec.le_def, one]; exact positive), one,
      BitVec.toNat_ofNat]
  unfold elementPtr offset
  rw [product]

theorem element_place (positive : 1 ≤ k) (small : k < 2 ^ 32) :
    elementPtr array (BitVec.ofNat 32 k) size = offset array ((k - 1) * size.toNat) := by
  have value : (BitVec.ofNat 32 k).toNat = k := by
    rw [BitVec.toNat_ofNat]
    exact Nat.mod_eq_of_lt small
  rw [element_ptr_eq (by rw [value]; exact positive), value]

theorem element_at (positive : 1 ≤ k) (small : k < 2 ^ 32) :
    element memory (elementPtr array (BitVec.ofNat 32 k) size) size.toNat =
      entry memory array size k := by
  rw [element_place positive small]
  rfl

/-- A byte of an element is a byte of the array. -/
theorem place_lt (inside : k ≤ n) (positive : 1 ≤ k) {byte : Nat} (small : byte < size.toNat) :
    (k - 1) * size.toNat + byte < n * size.toNat := by
  have most : (k - 1 + 1) * size.toNat ≤ n * size.toNat := Nat.mul_le_mul_right _ (by omega)
  rw [Nat.add_mul] at most
  omega

/-- Different elements have no byte in common. -/
theorem place_apart (firstPositive : 1 ≤ i) (secondPositive : 1 ≤ j) (other : i ≠ j)
    {byte next : Nat} (small : byte < size.toNat) (nextSmall : next < size.toNat) :
    (i - 1) * size.toNat + byte ≠ (j - 1) * size.toNat + next := by
  intro same
  have positive : 0 < size.toNat := by omega
  have first : ((i - 1) * size.toNat + byte) / size.toNat = i - 1 := by
    rw [Nat.mul_comm, Nat.mul_add_div positive, Nat.div_eq_of_lt small, Nat.add_zero]
  have second : ((j - 1) * size.toNat + next) / size.toNat = j - 1 := by
    rw [Nat.mul_comm, Nat.mul_add_div positive, Nat.div_eq_of_lt nextSmall, Nat.add_zero]
  rw [same, second] at first
  omega

theorem element_fits (fits : Fits array (n * size.toNat)) (positive : 1 ≤ k) (inside : k ≤ n) :
    Fits (offset array ((k - 1) * size.toNat)) size.toNat := by
  by_cases empty : size.toNat = 0
  · rw [empty]
    exact Nat.le_of_lt (BitVec.isLt _)
  · have place := place_lt inside positive (Nat.pos_of_ne_zero empty)
    have whole : (k - 1 + 1) * size.toNat ≤ n * size.toNat := Nat.mul_le_mul_right _ (by omega)
    rw [Nat.add_mul] at whole
    unfold Fits at fits ⊢
    rw [offset_to_nat fits (by omega)]
    omega

theorem elements_apart (fits : Fits array (n * size.toNat)) (first : 1 ≤ i ∧ i ≤ n)
    (second : 1 ≤ j ∧ j ≤ n) (other : i ≠ j) {byte next : Nat} (small : byte < size.toNat)
    (nextSmall : next < size.toNat) :
    offset array ((i - 1) * size.toNat + byte) ≠
      offset (offset array ((j - 1) * size.toNat)) next := by
  intro same
  rw [offset_offset] at same
  exact place_apart first.1 second.1 other small nextSmall
    (offset_injective fits (place_lt first.2 first.1 small)
      (place_lt second.2 second.1 nextSmall) same)

theorem entry_congr (same : ∀ byte < size.toNat,
    after (offset array ((j - 1) * size.toNat + byte)) =
      memory (offset array ((i - 1) * size.toNat + byte))) :
    entry after array size j = entry memory array size i := by
  apply Subtype.ext
  apply List.map_congr_left
  intro byte member
  rw [offset_offset, offset_offset]
  exact same byte (List.mem_range.mp member)

end Places

section Swaps

variable {memory : Memory} {a b : Addr} {count : Nat}

theorem swap_byte_eq (i : Nat) :
    swapByte a b memory i = Function.update
      (Function.update memory (offset a i) (memory (offset b i))) (offset b i)
      (memory (offset a i)) := rfl

/-- The first `rounds` bytes have been exchanged. -/
theorem swap_bytes (aFits : Fits a count) (bFits : Fits b count)
    (apart : ∀ i < count, ∀ j < count, offset a i ≠ offset b j) {rounds : Nat}
    (few : rounds ≤ count) :
    (∀ i < count, (List.range rounds).foldl (swapByte a b) memory (offset a i) =
      if i < rounds then memory (offset b i) else memory (offset a i)) ∧
    (∀ i < count, (List.range rounds).foldl (swapByte a b) memory (offset b i) =
      if i < rounds then memory (offset a i) else memory (offset b i)) ∧
    ∀ x, (∀ i < count, x ≠ offset a i) → (∀ i < count, x ≠ offset b i) →
      (List.range rounds).foldl (swapByte a b) memory x = memory x := by
  induction rounds with
  | zero => exact ⟨fun _ _ => rfl, fun _ _ => rfl, fun _ _ _ => rfl⟩
  | succ rounds ih =>
      obtain ⟨first, second, others⟩ := ih (by omega)
      rw [List.range_succ, List.foldl_append, List.foldl_cons, List.foldl_nil, swap_byte_eq]
      refine ⟨?_, ?_, ?_⟩
      · intro i inside
        rw [Function.update_of_ne (apart i inside rounds few)]
        by_cases here : i = rounds
        · rw [here, Function.update_self, if_pos (by omega), second rounds few,
            if_neg (Nat.lt_irrefl _)]
        · have elsewhere : offset a i ≠ offset a rounds :=
            fun same => here (offset_injective aFits inside few same)
          rw [Function.update_of_ne elsewhere, first i inside]
          congr 1
          apply propext
          omega
      · intro i inside
        by_cases here : i = rounds
        · rw [here, Function.update_self, if_pos (by omega), first rounds few,
            if_neg (Nat.lt_irrefl _)]
        · have elsewhere : offset b i ≠ offset b rounds :=
            fun same => here (offset_injective bFits inside few same)
          rw [Function.update_of_ne elsewhere,
            Function.update_of_ne (apart rounds few i inside).symm, second i inside]
          congr 1
          apply propext
          omega
      · intro x notA notB
        rw [Function.update_of_ne (notB rounds few), Function.update_of_ne (notA rounds few)]
        exact others x notA notB

end Swaps

/-- The first `n` elements are in another order; nothing else has changed. -/
structure Rearranged (memory after : Memory) (array : Addr) (size : Word) (n : Nat) : Prop where
  perm : (entries (entry after array size) n).Perm (entries (entry memory array size) n)
  kept : ∀ x, (∀ place < n * size.toNat, x ≠ offset array place) → after x = memory x

section Rearranging

variable {memory middle after : Memory} {array : Addr} {size : Word} {n i j k cnt : Nat}

theorem rearranged_refl : Rearranged memory memory array size n := ⟨.refl _, fun _ _ => rfl⟩

theorem rearranged_trans (first : Rearranged memory middle array size n)
    (second : Rearranged middle after array size n) : Rearranged memory after array size n :=
  ⟨second.perm.trans first.perm,
    fun x outside => (second.kept x outside).trans (first.kept x outside)⟩

/-- The elements behind the rearranged ones are where they were. -/
theorem rearranged_behind (fits : Fits array (cnt * size.toNat))
    (change : Rearranged memory after array size n) (few : n ≤ cnt) (behind : n < k)
    (inside : k ≤ cnt) : entry after array size k = entry memory array size k := by
  apply entry_congr
  intro byte small
  apply change.kept
  intro place below same
  have index := offset_injective fits (place_lt inside (by omega) small)
    (Nat.lt_of_lt_of_le below (Nat.mul_le_mul_right _ few)) same
  have start : n * size.toNat ≤ (k - 1) * size.toNat := Nat.mul_le_mul_right _ (by omega)
  omega

theorem rearranged_more (fits : Fits array (cnt * size.toNat))
    (change : Rearranged memory after array size n) (few : n ≤ cnt) :
    Rearranged memory after array size cnt := by
  refine ⟨?_, ?_⟩
  · exact entries_perm_more few change.perm fun k behind inside =>
      rearranged_behind fits change few behind inside
  · intro x outside
    exact change.kept x fun place below =>
      outside place (Nat.lt_of_lt_of_le below (Nat.mul_le_mul_right _ few))

/-- `do_swap` exchanges two elements. -/
theorem do_swap_swaps (fits : Fits array (n * size.toNat)) (small : n < 2 ^ 32)
    (first : 1 ≤ i ∧ i ≤ n) (second : 1 ≤ j ∧ j ≤ n) (other : i ≠ j) :
    Swapped (entry memory array size)
        (entry (doSwap memory array (BitVec.ofNat 32 i) (BitVec.ofNat 32 j) size) array size) n i j ∧
      Rearranged memory (doSwap memory array (BitVec.ofNat 32 i) (BitVec.ofNat 32 j) size) array
        size n := by
  have apart : ∀ byte < size.toNat, ∀ next < size.toNat,
      offset (offset array ((i - 1) * size.toNat)) byte ≠
        offset (offset array ((j - 1) * size.toNat)) next := by
    intro byte small next nextSmall
    rw [offset_offset]
    exact elements_apart fits first second other small nextSmall
  have bytes := @swap_bytes memory _ _ size.toNat (element_fits fits first.1 first.2)
    (element_fits fits second.1 second.2) apart size.toNat (Nat.le_refl _)
  have moved : doSwap memory array (BitVec.ofNat 32 i) (BitVec.ofNat 32 j) size =
      (List.range size.toNat).foldl (swapByte (offset array ((i - 1) * size.toNat))
        (offset array ((j - 1) * size.toNat))) memory := by
    unfold doSwap
    rw [element_place first.1 (by omega), element_place second.1 (by omega)]
  rw [moved]
  obtain ⟨atFirst, atSecond, others⟩ := bytes
  have swapped : Swapped (entry memory array size) (entry ((List.range size.toNat).foldl
      (swapByte (offset array ((i - 1) * size.toNat)) (offset array ((j - 1) * size.toNat)))
      memory) array size) n i j := by
    refine ⟨?_, ?_, ?_⟩
    · apply entry_congr
      intro byte small
      have here := atFirst byte small
      rw [if_pos small, offset_offset, offset_offset] at here
      exact here
    · apply entry_congr
      intro byte small
      have here := atSecond byte small
      rw [if_pos small, offset_offset, offset_offset] at here
      exact here
    · intro k positive inside notFirst notSecond
      apply entry_congr
      intro byte small
      apply others
      · intro next nextSmall
        exact elements_apart fits ⟨positive, inside⟩ first notFirst small nextSmall
      · intro next nextSmall
        exact elements_apart fits ⟨positive, inside⟩ second notSecond small nextSmall
  refine ⟨swapped, swapped_perm swapped first second, ?_⟩
  intro x outside
  apply others
  · intro byte small same
    rw [offset_offset] at same
    exact outside _ (place_lt first.2 first.1 small) same
  · intro byte small same
    rw [offset_offset] at same
    exact outside _ (place_lt second.2 second.1 small) same

end Rearranging

/-! ## The loops -/

section Loops

variable {array : Addr} {size : Word} {compare : Element size.toNat → Element size.toNat → Int}
  {memory : Memory} {cnt n i lo fuel : Nat}

theorem larger_child_eq {idx next : Nat} (idxPlace : 1 ≤ idx ∧ idx < 2 ^ 32)
    (nextPlace : 1 ≤ next ∧ next < 2 ^ 32) (small : n < 2 ^ 32) :
    largerChild array size compare memory (BitVec.ofNat 32 n) (BitVec.ofNat 32 idx)
        (BitVec.ofNat 32 next) =
      BitVec.ofNat 32 (larger compare (entry memory array size) n idx next) := by
  have order : BitVec.ofNat 32 next ≤ BitVec.ofNat 32 n ↔ next ≤ n := by
    rw [BitVec.le_def, BitVec.toNat_ofNat, BitVec.toNat_ofNat, Nat.mod_eq_of_lt nextPlace.2,
      Nat.mod_eq_of_lt small]
  unfold largerChild larger doCompare
  rw [element_at idxPlace.1 idxPlace.2, element_at nextPlace.1 nextPlace.2, apply_ite
    (BitVec.ofNat 32)]
  simp only [order]

/-- The two comparisons of one round find the largest of a node and its children. -/
theorem heapify_round (small : n < 2 ^ 31) (positive : 1 ≤ i) (inside : i ≤ n) (fuel : Nat) :
    heapify array size compare (fuel + 1) memory (BitVec.ofNat 32 i) (BitVec.ofNat 32 n) =
      if largest compare (entry memory array size) n i = i then .ok memory
      else heapify array size compare fuel (doSwap memory array (BitVec.ofNat 32 i)
        (BitVec.ofNat 32 (largest compare (entry memory array size) n i)) size)
        (BitVec.ofNat 32 (largest compare (entry memory array size) n i)) (BitVec.ofNat 32 n) := by
  have left : 2 * BitVec.ofNat 32 i = BitVec.ofNat 32 (2 * i) := by
    rw [BitVec.ofNat_mul]
    rfl
  have right : 2 * BitVec.ofNat 32 i + 1 = BitVec.ofNat 32 (2 * i + 1) := by
    rw [left, BitVec.ofNat_add]
    rfl
  have leftPlace := @larger_inside _ (entry memory array size) n compare i (2 * i)
    ⟨positive, inside⟩ (by omega)
  have whole : largest compare (entry memory array size) n i ≤ n :=
    (larger_inside leftPlace (by omega)).2
  have first := @larger_child_eq array size compare memory n i (2 * i) ⟨positive, by omega⟩
    ⟨by omega, by omega⟩ (by omega)
  have second := @larger_child_eq array size compare memory n _ (2 * i + 1)
    ⟨leftPlace.1, by omega⟩ ⟨by omega, by omega⟩ (by omega)
  have same : BitVec.ofNat 32 (largest compare (entry memory array size) n i) =
      BitVec.ofNat 32 i ↔ largest compare (entry memory array size) n i = i := by
    constructor
    · intro equal
      have values := congrArg BitVec.toNat equal
      rw [BitVec.toNat_ofNat, BitVec.toNat_ofNat,
        Nat.mod_eq_of_lt (Nat.lt_of_le_of_lt whole (by omega)),
        Nat.mod_eq_of_lt (show i < 2 ^ 32 by omega)] at values
      exact values
    · intro equal
      rw [equal]
  rw [heapify]
  simp only [right]
  simp only [left, first, second]
  change (if BitVec.ofNat 32 (largest compare (entry memory array size) n i) = BitVec.ofNat 32 i
    then _ else _) = _
  simp only [same]
  rfl

/-- `heapify` makes a heap of one but for its node. -/
theorem heapify_ok (order : TotalPreorder compare) (fits : Fits array (n * size.toNat))
    (small : n < 2 ^ 31) (positive : 1 ≤ lo) (from_ : lo ≤ i) (inside : i ≤ n)
    (heap : HeapBut (NotAbove compare) (entry memory array size) lo n i) (enough : n - i < fuel) :
    ∃ after, heapify array size compare fuel memory (BitVec.ofNat 32 i) (BitVec.ofNat 32 n) =
        .ok after ∧
      Heap (NotAbove compare) (entry after array size) lo n ∧
      Rearranged memory after array size n := by
  induction fuel generalizing memory i with
  | zero => omega
  | succ fuel ih =>
      obtain ⟨place, above, children⟩ :=
        @largest_cases _ (entry memory array size) n _ order i
      rw [heapify_round small (by omega) inside]
      by_cases done : largest compare (entry memory array size) n i = i
      · rw [done] at children
        rw [if_pos done]
        exact ⟨memory, rfl, heap_of_but heap children, rearranged_refl⟩
      · rw [if_neg done]
        obtain ⟨_, isChild, childInside⟩ := place.resolve_left done
        obtain ⟨swapped, rearranged⟩ := @do_swap_swaps memory array size n i _ fits (by omega)
          ⟨by omega, inside⟩ ⟨by omega, childInside⟩ (Ne.symm done)
        obtain ⟨after, ran, heapAfter, change⟩ := ih (by omega) childInside
          (heap_but_sinks heap positive from_ isChild childInside children above swapped) (by omega)
        exact ⟨after, ran, heapAfter, rearranged_trans rearranged change⟩

theorem build_heap_ok (order : TotalPreorder compare) (fits : Fits array (n * size.toNat))
    (small : n < 2 ^ 31) (enough : n ≤ fuel) (inside : i ≤ n)
    (heap : Heap (NotAbove compare) (entry memory array size) (i + 1) n) :
    ∃ after, buildHeap array size compare fuel (BitVec.ofNat 32 n) i memory = .ok after ∧
      Heap (NotAbove compare) (entry after array size) 1 n ∧
      Rearranged memory after array size n := by
  induction i generalizing memory with
  | zero => exact ⟨memory, rfl, heap, rearranged_refl⟩
  | succ i ih =>
      obtain ⟨middle, ran, heapMiddle, first⟩ := heapify_ok order fits small (Nat.succ_pos i)
        (Nat.le_refl _) inside (heap_but_start (Nat.succ_pos i) heap)
        (show n - (i + 1) < fuel by omega)
      obtain ⟨after, rest, heapAfter, second⟩ := ih (by omega) heapMiddle
      refine ⟨after, ?_, heapAfter, rearranged_trans first second⟩
      rw [buildHeap, ran]
      exact rest

theorem sort_heap_ok (order : TotalPreorder compare) (fits : Fits array (n * size.toNat))
    (small : n < 2 ^ 31) (enough : n ≤ fuel) (inside : i ≤ n)
    (settled : Settled (NotAbove compare) (entry memory array size) i n) :
    ∃ after, sortHeap array size compare fuel i memory = .ok after ∧
      (entries (entry after array size) n).Pairwise (NotAbove compare) ∧
      Rearranged memory after array size n := by
  induction i generalizing memory with
  | zero => exact ⟨memory, rfl, settled_sorted (settled_empty settled), rearranged_refl⟩
  | succ i ih =>
      cases i with
      | zero => exact ⟨memory, rfl, settled_sorted settled, rearranged_refl⟩
      | succ i =>
          obtain ⟨swapped, first⟩ := @do_swap_swaps memory array size n 1 (i + 2) fits (by omega)
            ⟨Nat.le_refl _, by omega⟩ ⟨by omega, inside⟩ (by omega)
          have few : (i + 1) * size.toNat ≤ n * size.toNat := Nat.mul_le_mul_right _ (by omega)
          have fewer : Fits array ((i + 1) * size.toNat) :=
            Nat.le_trans (Nat.add_le_add_left few _) fits
          obtain ⟨after, ran, heapAfter, second⟩ := @heapify_ok array size compare
            (doSwap memory array 1 (BitVec.ofNat 32 (i + 2)) size) (i + 1) 1 1 fuel order fewer
            (by omega) (Nat.le_refl _) (Nat.le_refl _) (by omega)
            (heap_but_start Nat.one_pos (settled_swapped settled inside swapped)) (by omega)
          have same : ∀ k, i + 1 < k → k ≤ n → entry after array size k =
              entry (doSwap memory array 1 (BitVec.ofNat 32 (i + 2)) size) array size k :=
            fun k behind within => rearranged_behind fits second (by omega) behind within
          obtain ⟨last, rest, sorted, third⟩ := ih (by omega) (settled_step
            (not_above_refl order) order.trans settled (by omega) inside swapped heapAfter
            second.perm same)
          refine ⟨last, ?_, sorted, rearranged_trans first
            (rearranged_trans (rearranged_more fits second (by omega)) third)⟩
          rw [sortHeap]
          exact (congrArg (· >>= _) ran).trans rest

/-- For fewer than `2 ^ 31` elements `sort` ends, and sorts. -/
theorem sort_ok {cnt : Word} (order : TotalPreorder compare) (there : array ≠ 0 ∨ cnt = 0)
    (sized : 0 < size) (fits : Fits array (cnt.toNat * size.toNat)) (small : cnt.toNat < 2 ^ 31)
    (enough : cnt.toNat ≤ fuel) :
    ∃ after, sort array size compare fuel memory cnt = .ok after ∧
      (entries (entry after array size) cnt.toNat).Pairwise (NotAbove compare) ∧
      Rearranged memory after array size cnt.toNat := by
  have half : (cnt / 2).toNat = cnt.toNat / 2 := BitVec.toNat_udiv
  have same : BitVec.ofNat 32 cnt.toNat = cnt := BitVec.eq_of_toNat_eq (by
    rw [BitVec.toNat_ofNat]
    exact Nat.mod_eq_of_lt cnt.isLt)
  have leaves : Heap (NotAbove compare) (entry memory array size) (cnt.toNat / 2 + 1) cnt.toNat := by
    intro k inside parent
    omega
  obtain ⟨middle, built, heap, first⟩ := @build_heap_ok array size compare memory cnt.toNat
    (cnt.toNat / 2) fuel order fits small enough (by omega) leaves
  obtain ⟨after, ran, sorted, second⟩ := sort_heap_ok order fits small enough (Nat.le_refl _)
    (settled_start heap)
  refine ⟨after, ?_, sorted, rearranged_trans first second⟩
  unfold sort
  rw [if_neg (not_not.mpr there), if_neg (not_not.mpr sized), half, ← same, BitVec.toNat_ofNat,
    Nat.mod_eq_of_lt cnt.isLt, built]
  exact ran

end Loops

end UtSystems.Libc.ArraySort

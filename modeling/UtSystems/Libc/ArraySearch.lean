import UtSystems.Lib.Effects
import UtSystems.Libc.ArraySort

/-!
# The search of a sorted array, and arrays of too many elements

`binary_search` keeps the element it looks for between two pointers. From `2 ^ 31` elements on the
number of a child wraps to 0, and `sort` exchanges an element with the byte before the array.
-/

namespace UtSystems.Libc.ArraySearch

open Lib.Bytes Lib.AddressRanges
open Lib.Effects (except_bind_ok)
open Lib.Heaps Libc.ArraySort

set_option autoImplicit false

/-- A pointer to an element that is equal to the key, and null when there is none. -/
structure Answers {size : Word} (compare : Element size.toNat → Element size.toNat → Int)
    (memory : Memory) (array : Addr) (n : Nat) (key : Element size.toNat) (result : Addr) :
    Prop where
  found : (∃ k, 1 ≤ k ∧ k ≤ n ∧ compare key (entry memory array size k) = 0) →
    result ≠ 0 ∧ ∃ k, 1 ≤ k ∧ k ≤ n ∧ result = offset array ((k - 1) * size.toNat) ∧
      compare key (entry memory array size k) = 0
  missing : (∀ k, 1 ≤ k → k ≤ n → compare key (entry memory array size k) ≠ 0) → result = 0

section Search

variable {array key : Addr} {size : Word} {compare : Element size.toNat → Element size.toNat → Int}
  {memory : Memory} {n lo hi fuel : Nat}

/-- A pointer between elements, as a number. -/
theorem pointer_to_nat (fits : Fits array (n * size.toNat + 1)) (inside : lo ≤ n) :
    (offset array (lo * size.toNat)).toNat = array.toNat + lo * size.toNat := by
  have most : lo * size.toNat ≤ n * size.toNat := Nat.mul_le_mul_right _ inside
  exact offset_to_nat fits (by omega)

theorem pointer_lt_iff (fits : Fits array (n * size.toNat + 1)) (sized : 0 < size.toNat)
    (low : lo ≤ n) (high : hi ≤ n) :
    offset array (lo * size.toNat) < offset array (hi * size.toNat) ↔ lo < hi := by
  rw [BitVec.lt_def, pointer_to_nat fits low, pointer_to_nat fits high, Nat.add_lt_add_iff_left,
    Nat.mul_lt_mul_right sized]

/-- The pointer in the middle is that of an element. -/
theorem middle_eq (fits : Fits array (n * size.toNat + 1)) (sized : 0 < size.toNat)
    (order : lo < hi) (high : hi ≤ n) :
    offset array (lo * size.toNat) +
        (offset array (hi * size.toNat) - offset array (lo * size.toNat)) / size / 2 * size =
      offset array ((lo + (hi - lo) / 2) * size.toNat) := by
  have lowValue := @pointer_to_nat array size n lo fits (by omega)
  have highValue := pointer_to_nat fits high
  have below : lo * size.toNat ≤ hi * size.toNat := Nat.mul_le_mul_right _ (by omega)
  have two : (2 : Word).toNat = 2 := rfl
  have count : ((offset array (hi * size.toNat) - offset array (lo * size.toNat)) / size / 2).toNat =
      (hi - lo) / 2 := by
    rw [BitVec.toNat_udiv, BitVec.toNat_udiv, two,
      BitVec.toNat_sub_of_le (by rw [BitVec.le_def]; omega), lowValue, highValue,
      Nat.add_sub_add_left, ← Nat.sub_mul, Nat.mul_div_cancel _ sized]
  have step : (offset array (hi * size.toNat) - offset array (lo * size.toNat)) / size / 2 * size =
      BitVec.ofNat 32 ((hi - lo) / 2 * size.toNat) := by
    apply BitVec.eq_of_toNat_eq
    rw [BitVec.toNat_mul, count, BitVec.toNat_ofNat]
  rw [step]
  change offset (offset array (lo * size.toNat)) ((hi - lo) / 2 * size.toNat) = _
  rw [offset_offset, Nat.add_mul]

/-- What is left of the array lies between the pointers. -/
theorem search_loop_ok (order : TotalPreorder compare) (present : array ≠ 0 ∨ n = 0)
    (fits : Fits array (n * size.toNat + 1)) (sized : 0 < size.toNat)
    (sorted : (entries (entry memory array size) n).Pairwise (NotAbove compare))
    (bounds : lo ≤ hi) (high : hi ≤ n)
    (before : ∀ k, 1 ≤ k → k ≤ lo →
      0 < compare (element memory key size.toNat) (entry memory array size k))
    (behind : ∀ k, hi < k → k ≤ n →
      compare (element memory key size.toNat) (entry memory array size k) < 0)
    (enough : hi - lo < fuel) :
    ∃ result, searchLoop size compare memory key fuel (offset array (lo * size.toNat))
        (offset array (hi * size.toNat)) = .ok result ∧
      Answers compare memory array n (element memory key size.toNat) result := by
  rw [pairwise_entries] at sorted
  induction fuel generalizing lo hi with
  | zero => omega
  | succ fuel ih =>
      rw [searchLoop]
      by_cases more : lo < hi
      · rw [if_pos ((pointer_lt_iff fits sized (by omega) high).mpr more)]
        have middleInside : lo + (hi - lo) / 2 < hi := by omega
        generalize half : lo + (hi - lo) / 2 = middle at middleInside
        simp only [middle_eq fits sized more high, half]
        have here : element memory (offset array (middle * size.toNat)) size.toNat =
            entry memory array size (middle + 1) := rfl
        rw [here]
        by_cases less : compare (element memory key size.toNat)
            (entry memory array size (middle + 1)) < 0
        · rw [if_pos less]
          apply ih (by omega) (by omega) before _ (by omega)
          intro k lower upper
          by_cases first : k = middle + 1
          · rw [first]
            exact less
          · exact below_of_not_above order less (sorted _ k (by omega) (by omega) upper)
        · rw [if_neg less]
          by_cases greater : compare (element memory key size.toNat)
              (entry memory array size (middle + 1)) > 0
          · have next : offset array (middle * size.toNat) + size =
                offset array ((middle + 1) * size.toNat) := by
              rw [Nat.add_mul, Nat.one_mul, ← offset_offset]
              unfold offset
              rw [BitVec.ofNat_toNat, BitVec.setWidth_eq]
            rw [if_pos greater, next]
            apply ih (by omega) high _ behind (by omega)
            intro k lower upper
            by_cases last : k = middle + 1
            · rw [last]
              exact greater
            · exact above_of_not_above order greater (sorted k _ lower (by omega) (by omega))
          · rw [if_neg greater]
            have equal : compare (element memory key size.toNat)
                (entry memory array size (middle + 1)) = 0 := by omega
            refine ⟨_, rfl, ?_, fun none_ => absurd equal (none_ _ (by omega) (by omega))⟩
            intro _
            refine ⟨?_, middle + 1, by omega, by omega, rfl, equal⟩
            intro null
            have value := @pointer_to_nat array size n middle fits (by omega)
            have zero : (0 : Addr).toNat = 0 := rfl
            rw [null, zero] at value
            cases present with
            | inl address =>
                apply address
                apply BitVec.eq_of_toNat_eq
                omega
            | inr empty => omega
      · rw [if_neg fun less => more ((pointer_lt_iff fits sized (by omega) high).mp less)]
        refine ⟨0, rfl, ?_, fun _ => rfl⟩
        intro ⟨k, lower, upper, equal⟩
        by_cases early : k ≤ lo
        · have above := before k lower early
          omega
        · have below := behind k (by omega) upper
          omega

theorem binary_search_ok {cnt : Word} (order : TotalPreorder compare)
    (present : array ≠ 0 ∨ cnt = 0) (fits : Fits array (cnt.toNat * size.toNat + 1))
    (sized : 0 < size)
    (sorted : (entries (entry memory array size) cnt.toNat).Pairwise (NotAbove compare))
    (enough : cnt.toNat < fuel) :
    ∃ result, binarySearch array size compare fuel memory key cnt = .ok result ∧
      Answers compare memory array cnt.toNat (element memory key size.toNat) result := by
  have last : array + size * cnt = offset array (cnt.toNat * size.toNat) := by
    have product : size * cnt = BitVec.ofNat 32 (cnt.toNat * size.toNat) := by
      rw [BitVec.ofNat_mul, BitVec.ofNat_toNat, BitVec.ofNat_toNat, BitVec.setWidth_eq,
        BitVec.setWidth_eq, BitVec.mul_comm]
    rw [product]
    rfl
  have first : offset array (0 * size.toNat) = array := by
    rw [Nat.zero_mul, offset_zero]
  have there : array ≠ 0 ∨ cnt.toNat = 0 := present.imp_right (congrArg BitVec.toNat)
  have searched := @search_loop_ok array key size compare memory cnt.toNat 0 cnt.toNat fuel order
    there fits sized sorted (Nat.zero_le _) (Nat.le_refl _) (fun k lower upper => by omega)
    (fun k lower upper => by omega) (by omega)
  rw [first] at searched
  unfold binarySearch
  rw [last]
  exact searched

end Search

/-! ## A child whose number wraps -/

/-- One byte, by its value. -/
def byteValue (x : Element (1 : Word).toNat) : Nat := (x.val.headD 0).toNat

def compareBytes (x y : Element (1 : Word).toNat) : Int := byteValue x - byteValue y

theorem compare_bytes_order : TotalPreorder compareBytes := by
  unfold compareBytes
  constructor
  · intro x y
    omega
  · intro x y z first second
    omega

section Bytes

variable {memory after : Memory} {n idx next cnt : Word} {i fuel : Nat}

theorem byte_value_element (p : Addr) :
    byteValue (element memory p (1 : Word).toNat) = (memory p).toNat := by
  have one : (1 : Word).toNat = 1 := rfl
  unfold byteValue element
  simp only [one, range, List.range_one, List.map_cons, offset_zero]
  rfl

theorem element_ptr_byte (idx : Word) : elementPtr 1 idx 1 = idx := by
  unfold elementPtr
  have product : (idx - 1) * (1 : Word) = idx - 1 := BitVec.mul_one _
  rw [product, BitVec.add_comm, BitVec.sub_add_cancel]

/-- In an array of bytes at address 1 the elements are numbered by their addresses. -/
theorem larger_child_byte :
    largerChild 1 1 compareBytes memory n idx next =
      if next ≤ n ∧ memory idx < memory next then next else idx := by
  unfold largerChild doCompare compareBytes
  rw [element_ptr_byte, element_ptr_byte, byte_value_element, byte_value_element]
  have order : ((memory next).toNat : Int) - (memory idx).toNat > 0 ↔ memory idx < memory next := by
    rw [BitVec.lt_def]
    omega
  simp only [order]

theorem do_swap_byte (a b : Word) : doSwap memory 1 a b 1 = swapByte a b memory 0 := by
  unfold doSwap
  rw [element_ptr_byte, element_ptr_byte]
  rfl

theorem swap_byte_get (a b x : Word) : swapByte a b memory 0 x =
    if x = b then memory a else if x = a then memory b else memory x := by
  rw [swap_byte_eq, offset_zero, offset_zero, Function.update_apply, Function.update_apply]

/-- The byte before the array is the least there is, and one that was not in the array is. -/
structure Lost (memory : Memory) (cnt : Word) : Prop where
  before : memory 0 = 0
  inside : ∃ place, place ≠ 0 ∧ place ≤ cnt ∧ memory place = 2

/-- An exchange within the array does not bring the byte back. -/
theorem lost_swap {a b : Word} (lost : Lost memory cnt) (first : a ≠ 0 ∧ a ≤ cnt)
    (second : b ≠ 0 ∧ b ≤ cnt) : Lost (doSwap memory 1 a b 1) cnt := by
  rw [do_swap_byte]
  constructor
  · rw [swap_byte_get, if_neg (Ne.symm second.1), if_neg (Ne.symm first.1)]
    exact lost.before
  · obtain ⟨place, positive, within, value⟩ := lost.inside
    by_cases atFirst : place = a
    · refine ⟨b, second.1, second.2, ?_⟩
      rw [swap_byte_get, if_pos rfl, ← atFirst]
      exact value
    · by_cases atSecond : place = b
      · by_cases same : a = b
        · exact absurd (atSecond.trans same.symm) atFirst
        · refine ⟨a, first.1, first.2, ?_⟩
          rw [swap_byte_get, if_neg same, if_pos rfl, ← atSecond]
          exact value
      · refine ⟨place, positive, within, ?_⟩
        rw [swap_byte_get, if_neg atSecond, if_neg atFirst]
        exact value

/-- Nothing is below the byte before the array, so it is not chosen again. -/
theorem larger_child_lost (lost : Lost memory cnt) (within : n ≤ cnt) (here : idx ≠ 0 ∧ idx ≤ cnt) :
    largerChild 1 1 compareBytes memory n idx next ≠ 0 ∧
      largerChild 1 1 compareBytes memory n idx next ≤ cnt := by
  rw [larger_child_byte]
  split
  · next larger =>
      refine ⟨?_, BitVec.le_trans larger.1 within⟩
      intro zero
      have above := larger.2
      rw [zero, lost.before, BitVec.lt_def] at above
      exact Nat.not_lt_zero _ above
  · exact here

theorem heapify_lost (lost : Lost memory cnt) (within : n ≤ cnt) (here : idx ≠ 0 ∧ idx ≤ cnt)
    (ran : heapify 1 1 compareBytes fuel memory idx n = .ok after) : Lost after cnt := by
  induction fuel generalizing memory idx with
  | zero => cases ran
  | succ fuel ih =>
      rw [heapify] at ran
      have place := @larger_child_lost memory n _ (2 * idx + 1) cnt lost within
        (@larger_child_lost memory n idx (2 * idx) cnt lost within here)
      split at ran
      · cases ran
        exact lost
      · exact ih (lost_swap lost here place) place ran

theorem number_inside {number : Nat} (positive : 1 ≤ number) (few : number ≤ cnt.toNat) :
    BitVec.ofNat 32 number ≠ 0 ∧ BitVec.ofNat 32 number ≤ cnt := by
  have value : (BitVec.ofNat 32 number).toNat = number := by
    rw [BitVec.toNat_ofNat]
    exact Nat.mod_eq_of_lt (Nat.lt_of_le_of_lt few cnt.isLt)
  constructor
  · intro zero
    have none_ := congrArg BitVec.toNat zero
    rw [value] at none_
    have nothing : (0 : Word).toNat = 0 := rfl
    omega
  · rw [BitVec.le_def, value]
    exact few

theorem build_heap_lost (lost : Lost memory cnt) (few : i ≤ cnt.toNat)
    (ran : buildHeap 1 1 compareBytes fuel cnt i memory = .ok after) : Lost after cnt := by
  induction i generalizing memory with
  | zero =>
      cases ran
      exact lost
  | succ i ih =>
      rw [buildHeap] at ran
      obtain ⟨middle, first, rest⟩ := except_bind_ok ran
      exact ih (heapify_lost lost (BitVec.le_refl _) (number_inside (Nat.succ_pos i) few) first)
        (by omega) rest

theorem sort_heap_lost (lost : Lost memory cnt) (few : i ≤ cnt.toNat)
    (ran : sortHeap 1 1 compareBytes fuel i memory = .ok after) : Lost after cnt := by
  induction i generalizing memory with
  | zero =>
      cases ran
      exact lost
  | succ i ih =>
      cases i with
      | zero =>
          cases ran
          exact lost
      | succ i =>
          rw [sortHeap] at ran
          obtain ⟨middle, first, rest⟩ := except_bind_ok ran
          have root : (1 : Word) ≠ 0 ∧ 1 ≤ cnt := @number_inside cnt 1 (Nat.le_refl 1) (by omega)
          have last := @number_inside cnt (i + 2) (by omega) few
          have inner := @number_inside cnt (i + 1) (by omega) (by omega)
          exact ih (heapify_lost (lost_swap lost root last) inner.2 root first) (by omega) rest

/-- All bytes of the array are zero but for byte `2 ^ 31`, which is below the byte before it. -/
def loseFirst : Memory := fun x => if x = 0 then 2 else if x = 2147483648 then 1 else 0

theorem lose_first_get {x : Word} (positive : x ≠ 0) (other : x ≠ 2147483648) : loseFirst x = 0 := by
  unfold loseFirst
  rw [if_neg positive, if_neg other]

/-- A child that is not above its parent is passed by. -/
theorem larger_child_zero (low : memory next = 0) :
    largerChild 1 1 compareBytes memory n idx next = idx := by
  rw [larger_child_byte, if_neg]
  intro larger
  have above := larger.2
  rw [low, BitVec.lt_def] at above
  exact Nat.not_lt_zero _ above

theorem heapify_stays (low : 2 ^ 30 < idx.toNat) (high : idx.toNat < 2 ^ 31)
    (ran : heapify 1 1 compareBytes fuel loseFirst idx cnt = .ok after) : after = loseFirst := by
  have two : (2 : Word).toNat = 2 := rfl
  have one : (1 : Word).toNat = 1 := rfl
  have zero : (0 : Word).toNat = 0 := rfl
  have middle : (2147483648 : Word).toNat = 2147483648 := rfl
  have left : (2 * idx).toNat = 2 * idx.toNat := by
    rw [BitVec.toNat_mul, two]
    omega
  have right : (2 * idx + 1).toNat = 2 * idx.toNat + 1 := by
    rw [BitVec.toNat_add, left, one]
    omega
  have apart : ∀ child : Word, 2 ^ 31 < child.toNat → loseFirst child = 0 := by
    intro child above
    apply lose_first_get
    · intro same
      rw [same, zero] at above
      omega
    · intro same
      rw [same, middle] at above
      omega
  cases fuel with
  | zero => cases ran
  | succ fuel =>
      rw [heapify] at ran
      simp only [larger_child_zero (apart (2 * idx) (by omega)),
        larger_child_zero (apart (2 * idx + 1) (by omega)), if_true] at ran
      cases ran
      rfl

/-- Node `2 ^ 30` sinks to `2 ^ 31`, and from there to the byte before the array. -/
theorem heapify_loses (many : 2147483648 ≤ cnt)
    (ran : heapify 1 1 compareBytes fuel loseFirst 1073741824 cnt = .ok after) :
    Lost after cnt := by
  have first : doSwap loseFirst 1 1073741824 2147483648 1 =
      swapByte 1073741824 2147483648 loseFirst 0 := do_swap_byte _ _
  generalize sunk : doSwap loseFirst 1 1073741824 2147483648 1 = middle at first
  have middleBefore : middle 0 = 2 := by
    rw [first, swap_byte_get]
    rfl
  have middleLast : middle 2147483648 = 0 := by
    rw [first, swap_byte_get]
    rfl
  have middleRoot : middle 1 = 0 := by
    rw [first, swap_byte_get]
    rfl
  have second : doSwap middle 1 2147483648 0 1 = swapByte 2147483648 0 middle 0 := do_swap_byte _ _
  generalize gone : doSwap middle 1 2147483648 0 1 = last at second
  have lastBefore : last 0 = 0 := by
    rw [second, swap_byte_get, if_pos rfl, middleLast]
  have lastPlace : last 2147483648 = 2 := by
    rw [second, swap_byte_get, if_neg (by decide), if_pos rfl, middleBefore]
  have lastRoot : last 1 = 0 := by
    rw [second, swap_byte_get, if_neg (by decide), if_neg (by decide), middleRoot]
  have toLeft : largerChild 1 1 compareBytes loseFirst cnt 1073741824 2147483648 = 2147483648 := by
    rw [larger_child_byte, if_pos ⟨many, by decide⟩]
  have stays : largerChild 1 1 compareBytes loseFirst cnt 2147483648 2147483649 = 2147483648 :=
    larger_child_zero (by decide)
  have toBefore : largerChild 1 1 compareBytes middle cnt 2147483648 0 = 0 := by
    rw [larger_child_byte, if_pos]
    refine ⟨?_, ?_⟩
    · rw [BitVec.le_def]
      exact Nat.zero_le _
    · rw [middleBefore, middleLast]
      decide
  have before : largerChild 1 1 compareBytes middle cnt 0 1 = 0 := larger_child_zero middleRoot
  have lastLeft : largerChild 1 1 compareBytes last cnt 0 0 = 0 := larger_child_zero lastBefore
  have lastRight : largerChild 1 1 compareBytes last cnt 0 1 = 0 := larger_child_zero lastRoot
  have nodes : (2 * 1073741824 : Word) = 2147483648 ∧ (2147483648 + 1 : Word) = 2147483649 ∧
      (2 * 2147483648 : Word) = 0 ∧ (0 + 1 : Word) = 1 ∧ (2 * 0 : Word) = 0 := by decide
  have lost : Lost last cnt := ⟨lastBefore, 2147483648, by decide, many, lastPlace⟩
  cases fuel with
  | zero => cases ran
  | succ fuel =>
      rw [heapify, nodes.1, nodes.2.1, toLeft, stays, if_neg (by decide), sunk] at ran
      cases fuel with
      | zero => cases ran
      | succ fuel =>
          rw [heapify, nodes.2.2.1, nodes.2.2.2.1, toBefore, before, if_neg (by decide), gone]
            at ran
          cases fuel with
          | zero => cases ran
          | succ fuel =>
              rw [heapify, nodes.2.2.2.2, nodes.2.2.2.1, lastLeft, lastRight, if_pos rfl] at ran
              cases ran
              exact lost

theorem build_heap_loses (many : 2147483648 ≤ cnt) {above : Nat}
    (inside : 2 ^ 30 + above ≤ cnt.toNat / 2)
    (ran : buildHeap 1 1 compareBytes fuel cnt (2 ^ 30 + above) loseFirst = .ok after) :
    Lost after cnt := by
  have bound := cnt.isLt
  induction above with
  | zero =>
      obtain ⟨below, number⟩ : ∃ below, 2 ^ 30 = below + 1 := ⟨2 ^ 30 - 1, rfl⟩
      have word : BitVec.ofNat 32 (below + 1) = 1073741824 := by
        rw [← number]
        rfl
      rw [Nat.add_zero, number, buildHeap, word] at ran
      obtain ⟨middle, first, rest⟩ := except_bind_ok ran
      exact build_heap_lost (heapify_loses many first) (by omega) rest
  | succ above ih =>
      have value : (BitVec.ofNat 32 (2 ^ 30 + above + 1)).toNat = 2 ^ 30 + above + 1 := by
        rw [BitVec.toNat_ofNat]
        omega
      rw [← Nat.add_assoc, buildHeap] at ran
      obtain ⟨middle, first, rest⟩ := except_bind_ok ran
      rw [heapify_stays (by rw [value]; omega) (by rw [value]; omega) first] at rest
      exact ih (by omega) rest

/-- The byte before the array ends up in it. -/
theorem sort_loses (many : 2147483648 ≤ cnt)
    (ran : sort 1 1 compareBytes fuel loseFirst cnt = .ok after) : Lost after cnt := by
  have count : 2147483648 ≤ cnt.toNat := many
  have half : (cnt / 2).toNat = cnt.toNat / 2 := BitVec.toNat_udiv
  obtain ⟨above, number⟩ := Nat.exists_eq_add_of_le (show 2 ^ 30 ≤ cnt.toNat / 2 by omega)
  unfold sort at ran
  rw [if_neg (not_not.mpr (.inl (by decide))), if_neg (by decide), half, number] at ran
  obtain ⟨middle, first, rest⟩ := except_bind_ok ran
  exact sort_heap_lost (build_heap_loses many (Nat.le_of_eq number.symm) first) (Nat.le_refl _) rest

/-- What has been lost is not a rearrangement. -/
theorem lost_not_perm (lost : Lost after cnt) :
    ¬(entries (entry after 1 1) cnt.toNat).Perm (entries (entry loseFirst 1 1) cnt.toNat) := by
  intro perm
  have one : (1 : Word).toNat = 1 := rfl
  have byte : ∀ (memory : Memory) (k : Nat), 1 ≤ k → k ≤ cnt.toNat →
      byteValue (entry memory 1 1 k) = (memory (BitVec.ofNat 32 k)).toNat := by
    intro memory k positive inside
    have bound := cnt.isLt
    rw [← element_at positive (by omega), byte_value_element, element_ptr_byte]
  obtain ⟨place, positive, inside, value⟩ := lost.inside
  have word : BitVec.ofNat 32 place.toNat = place := by
    rw [BitVec.ofNat_toNat, BitVec.setWidth_eq]
  have least : 1 ≤ place.toNat := by
    by_contra zero
    apply positive
    apply BitVec.eq_of_toNat_eq
    have nothing : (0 : Word).toNat = 0 := rfl
    omega
  have member : entry after 1 1 place.toNat ∈ entries (entry loseFirst 1 1) cnt.toNat :=
    perm.mem_iff.mp (mem_entries.mpr ⟨_, least, inside, rfl⟩)
  obtain ⟨k, lower, upper, same⟩ := mem_entries.mp member
  have values := congrArg byteValue same
  rw [byte _ k lower upper, byte _ _ least inside, word, value] at values
  have bound := cnt.isLt
  have number := @number_inside cnt k lower upper
  by_cases middle : BitVec.ofNat 32 k = 2147483648
  · rw [middle] at values
    exact absurd values (by decide)
  · rw [lose_first_get number.1 middle] at values
    exact absurd values (by decide)

end Bytes

/-- What `sort` and `binary_search` do with `cnt` elements of `size` bytes. -/
structure SortsAndSearches (cnt size : Word) : Prop where
  sorts : ∀ (compare : Element size.toNat → Element size.toNat → Int), TotalPreorder compare →
    ∀ (memory : Memory) (array : Addr), array ≠ 0 ∨ cnt = 0 →
    Fits array (cnt.toNat * size.toNat) → ∀ fuel ≥ cnt.toNat,
    ∃ after, sort array size compare fuel memory cnt = .ok after ∧
      (entries (entry after array size) cnt.toNat).Pairwise (NotAbove compare) ∧
      Rearranged memory after array size cnt.toNat
  searches : ∀ (compare : Element size.toNat → Element size.toNat → Int), TotalPreorder compare →
    ∀ (memory : Memory) (array key : Addr), array ≠ 0 ∨ cnt = 0 →
    Fits array (cnt.toNat * size.toNat + 1) →
    (entries (entry memory array size) cnt.toNat).Pairwise (NotAbove compare) →
    ∀ fuel > cnt.toNat,
    ∃ result, binarySearch array size compare fuel memory key cnt = .ok result ∧
      Answers compare memory array cnt.toNat (element memory key size.toNat) result

/-- Arrays are sorted and searched as they should be exactly when they have fewer than `2 ^ 31`
elements. -/
theorem sorts_and_searches_iff {cnt size : Word} (sized : 0 < size)
    (total : cnt.toNat * size.toNat < 2 ^ 32) :
    SortsAndSearches cnt size ↔ cnt.toNat < 2 ^ 31 := by
  constructor
  · intro works
    by_contra many
    have bytes : size = 1 := by
      have positive : 0 < size.toNat := sized
      have one : (1 : Word).toNat = 1 := rfl
      by_contra other
      have two : 2 ≤ size.toNat := by
        by_contra small
        apply other
        apply BitVec.eq_of_toNat_eq
        omega
      have most : cnt.toNat * 2 ≤ cnt.toNat * size.toNat := Nat.mul_le_mul_left _ two
      omega
    subst bytes
    have fits : Fits 1 (cnt.toNat * (1 : Word).toNat) := by
      have one : (1 : Word).toNat = 1 := rfl
      have bound := cnt.isLt
      unfold Fits
      rw [one]
      omega
    obtain ⟨after, ran, _, rearranged⟩ := works.sorts compareBytes compare_bytes_order loseFirst 1
      (.inl (by decide)) fits cnt.toNat (Nat.le_refl _)
    exact lost_not_perm (sort_loses (Nat.not_lt.mp many) ran) rearranged.perm
  · intro few
    constructor
    · intro compare order memory array present fits fuel enough
      exact sort_ok order present sized fits few enough
    · intro compare order memory array key present fits sorted fuel enough
      exact binary_search_ok order present fits sized sorted enough

/-- Three elements of four bytes. -/
theorem sorts_and_searches_three : SortsAndSearches 3 4 ↔ (3 : Word).toNat < 2 ^ 31 :=
  sorts_and_searches_iff (by decide) (by decide)

/-- An array of `2 ^ 31` bytes at address 1 is not left with the bytes it had. -/
theorem sort_loses_byte :
    ¬SortsAndSearches 2147483648 1 ∧ ∀ (fuel : Nat) (after : Memory),
      sort 1 1 compareBytes fuel loseFirst 2147483648 = .ok after →
      ¬(entries (entry after 1 1) 2147483648).Perm (entries (entry loseFirst 1 1) 2147483648) := by
  have lost : ∀ (fuel : Nat) (after : Memory),
      sort 1 1 compareBytes fuel loseFirst 2147483648 = .ok after →
      ¬(entries (entry after 1 1) 2147483648).Perm (entries (entry loseFirst 1 1) 2147483648) :=
    fun fuel after ran => lost_not_perm (sort_loses (BitVec.le_refl _) ran)
  refine ⟨?_, lost⟩
  intro works
  have fits : Fits 1 ((2147483648 : Word).toNat * (1 : Word).toNat) := by
    unfold Fits
    decide
  obtain ⟨after, ran, _, rearranged⟩ := works.sorts compareBytes compare_bytes_order loseFirst 1
    (.inl (by decide)) fits (2147483648 : Word).toNat (Nat.le_refl _)
  exact lost _ after ran rearranged.perm

end UtSystems.Libc.ArraySearch

import Mathlib.Data.List.Perm.Basic
import Mathlib.Data.List.Nodup
import Mathlib.Logic.Equiv.Basic
import Mathlib.Tactic.Common

/-!
# Heaps in an array and what sorting with one needs

The nodes are numbered from 1 on, the children of node `i` are `2 * i` and `2 * i + 1`. `HeapBut`
is a heap with a node that may be smaller than its children; where it is swapped with the larger
child, only that child may be. `Settled` is a heap with what has been taken out of it in order
behind it.
-/

namespace UtSystems.Lib.Heaps

set_option autoImplicit false

variable {α : Type*} {le : α → α → Prop} {a b : Nat → α} {lo n hole child i j : Nat}

/-- The nodes from `lo` to `n` that have their parent among them are not above it. -/
def Heap (le : α → α → Prop) (a : Nat → α) (lo n : Nat) : Prop :=
  ∀ k ≤ n, lo ≤ k / 2 → le (a k) (a (k / 2))

structure HeapBut (le : α → α → Prop) (a : Nat → α) (lo n hole : Nat) : Prop where
  nodes : ∀ k ≤ n, lo ≤ k / 2 → k / 2 ≠ hole → le (a k) (a (k / 2))
  around : ∀ k ≤ n, k / 2 = hole → lo ≤ hole / 2 → le (a k) (a (hole / 2))

/-- What is at `i` and what is at `j` are exchanged, of the places from 1 to `n`. -/
structure Swapped (a b : Nat → α) (n i j : Nat) : Prop where
  first : b i = a j
  second : b j = a i
  others : ∀ k, 1 ≤ k → k ≤ n → k ≠ i → k ≠ j → b k = a k

/-- What stands at the places from 1 to `n`. -/
def entries (a : Nat → α) (n : Nat) : List α := (List.range' 1 n).map a

theorem mem_entries {x : α} : x ∈ entries a n ↔ ∃ k, 1 ≤ k ∧ k ≤ n ∧ a k = x := by
  unfold entries
  rw [List.mem_map]
  constructor
  · intro ⟨k, member, value⟩
    rw [List.mem_range'_1] at member
    exact ⟨k, member.1, by omega, value⟩
  · intro ⟨k, lower, upper, value⟩
    exact ⟨k, List.mem_range'_1.mpr ⟨lower, by omega⟩, value⟩

theorem pairwise_entries {r : α → α → Prop} :
    (entries a n).Pairwise r ↔ ∀ j k, 1 ≤ j → j < k → k ≤ n → r (a j) (a k) := by
  rw [List.pairwise_iff_getElem]
  have size : (entries a n).length = n := by simp [entries]
  have value : ∀ (place : Nat) (inside : place < (entries a n).length),
      (entries a n)[place] = a (1 + place) := by
    intro place inside
    simp [entries]
  constructor
  · intro ordered j k positive order inside
    have here := ordered (j - 1) (k - 1) (by omega) (by omega) (by omega)
    rw [value, value, show 1 + (j - 1) = j by omega, show 1 + (k - 1) = k by omega] at here
    exact here
  · intro ordered j k jInside kInside order
    rw [value, value]
    exact ordered _ _ (by omega) (by omega) (by omega)

theorem entries_append (count : Nat) :
    entries a (n + count) = entries a n ++ (List.range' (n + 1) count).map a := by
  unfold entries
  rw [← List.map_append, Nat.add_comm n 1, List.range'_append_1]

/-- A rearrangement of the first places is one of them all. -/
theorem entries_perm_more {m : Nat} (few : m ≤ n) (perm : (entries b m).Perm (entries a m))
    (same : ∀ k, m < k → k ≤ n → b k = a k) : (entries b n).Perm (entries a n) := by
  obtain ⟨count, rfl⟩ := Nat.exists_eq_add_of_le few
  rw [entries_append, entries_append]
  have rest : (List.range' (m + 1) count).map b = (List.range' (m + 1) count).map a := by
    apply List.map_congr_left
    intro k member
    rw [List.mem_range'_1] at member
    exact same k (by omega) (by omega)
  rw [rest]
  exact perm.append_right _

/-- Exchanging two places rearranges the entries. -/
theorem swapped_perm (swapped : Swapped a b n i j) (first : 1 ≤ i ∧ i ≤ n)
    (second : 1 ≤ j ∧ j ≤ n) : (entries b n).Perm (entries a n) := by
  have composed : entries b n = ((List.range' 1 n).map (Equiv.swap i j)).map a := by
    rw [List.map_map]
    apply List.map_congr_left
    intro k member
    rw [List.mem_range'_1] at member
    rw [Function.comp_apply]
    by_cases isFirst : k = i
    · rw [isFirst, Equiv.swap_apply_left]
      exact swapped.first
    · by_cases isSecond : k = j
      · rw [isSecond, Equiv.swap_apply_right]
        exact swapped.second
      · rw [Equiv.swap_apply_of_ne_of_ne isFirst isSecond]
        exact swapped.others k member.1 (by omega) isFirst isSecond
  rw [composed]
  apply List.Perm.map
  rw [List.perm_ext_iff_of_nodup
    (List.Nodup.map (Equiv.injective _) List.nodup_range') List.nodup_range']
  intro k
  rw [List.mem_map]
  constructor
  · rintro ⟨place, member, rfl⟩
    rw [List.mem_range'_1] at member ⊢
    rw [Equiv.swap_apply_def]
    split
    · omega
    · split <;> omega
  · intro member
    rw [List.mem_range'_1] at member
    refine ⟨Equiv.swap i j k, ?_, Equiv.swap_apply_self i j k⟩
    rw [List.mem_range'_1, Equiv.swap_apply_def]
    split
    · omega
    · split <;> omega

/-- A comparison whose results are those of a total preorder, in the manner of `strcmp`. -/
structure TotalPreorder (compare : α → α → Int) : Prop where
  flips : ∀ x y, compare x y < 0 ↔ 0 < compare y x
  trans : ∀ x y z, compare x y ≤ 0 → compare y z ≤ 0 → compare x z ≤ 0

def NotAbove (compare : α → α → Int) (x y : α) : Prop := compare x y ≤ 0

section Comparisons

variable {compare : α → α → Int} {x y z : α}

theorem not_above_refl (order : TotalPreorder compare) (x : α) : NotAbove compare x x := by
  have flips := order.flips x x
  unfold NotAbove
  omega

theorem not_above_of_lt (order : TotalPreorder compare) (above : 0 < compare x y) :
    NotAbove compare y x := by
  have flips := order.flips y x
  unfold NotAbove
  omega

theorem below_of_not_above (order : TotalPreorder compare) (first : compare x y < 0)
    (second : NotAbove compare y z) : compare x z < 0 := by
  have start := order.flips x y
  have flips := order.flips x z
  by_contra above
  have back := order.trans y z x second (by omega)
  omega

theorem above_of_not_above (order : TotalPreorder compare) (first : 0 < compare x y)
    (second : NotAbove compare z y) : 0 < compare x z := by
  by_contra below
  have back := order.trans x z y (by omega) second
  omega

end Comparisons

/-! ## Sinking one node -/

theorem heap_but_start (positive : 0 < lo) (heap : Heap le a (lo + 1) n) :
    HeapBut le a lo n lo := by
  constructor
  · intro k inside lower other
    exact heap k inside (by omega)
  · intro k _ _ lower
    omega

/-- A node that is not below its children completes the heap. -/
theorem heap_of_but (heap : HeapBut le a lo n hole)
    (children : ∀ k ≤ n, k / 2 = hole → le (a k) (a hole)) : Heap le a lo n := by
  intro k inside lower
  by_cases here : k / 2 = hole
  · rw [here]
    exact children k inside here
  · exact heap.nodes k inside lower here

/-- After the exchange with its larger child, the node is below its children at most there. -/
theorem heap_but_sinks (heap : HeapBut le a lo n hole) (positive : 0 < lo) (from_ : lo ≤ hole)
    (isChild : child / 2 = hole) (inside : child ≤ n)
    (largest : ∀ k ≤ n, k / 2 = hole → le (a k) (a child)) (above : le (a hole) (a child))
    (swapped : Swapped a b n hole child) : HeapBut le b lo n child := by
  constructor
  · intro k within lower other
    by_cases parent : k / 2 = hole
    · rw [parent, swapped.first]
      by_cases same : k = child
      · rw [same, swapped.second]
        exact above
      · rw [swapped.others k (by omega) within (by omega) same]
        exact largest k within parent
    · by_cases top : k = hole
      · have parentSame := swapped.others (hole / 2) (by omega) (by omega) (by omega) (by omega)
        rw [top, parentSame, swapped.first]
        exact heap.around child inside isChild (by omega)
      · have notChild : k ≠ child := fun same => parent (same ▸ isChild)
        rw [swapped.others (k / 2) (by omega) (by omega) parent other,
          swapped.others k (by omega) within top notChild]
        exact heap.nodes k within lower parent
  · intro k within parent _
    rw [isChild, swapped.first, swapped.others k (by omega) within (by omega) (by omega)]
    have below := heap.nodes k within (by omega) (by omega)
    rw [parent] at below
    exact below

/-- The larger of a node and one of its children, when it has it. -/
def larger (compare : α → α → Int) (a : Nat → α) (n idx next : Nat) : Nat :=
  if next ≤ n ∧ compare (a next) (a idx) > 0 then next else idx

def largest (compare : α → α → Int) (a : Nat → α) (n i : Nat) : Nat :=
  larger compare a n (larger compare a n i (2 * i)) (2 * i + 1)

theorem larger_inside {compare : α → α → Int} {idx next : Nat} (inside : 1 ≤ idx ∧ idx ≤ n)
    (positive : 1 ≤ next) : 1 ≤ larger compare a n idx next ∧ larger compare a n idx next ≤ n := by
  unfold larger
  split
  · next there => exact ⟨positive, there.1⟩
  · exact inside

theorem larger_cases {compare : α → α → Int} (order : TotalPreorder compare) (idx next : Nat) :
    (larger compare a n idx next = idx ∨ larger compare a n idx next = next ∧ next ≤ n) ∧
      NotAbove compare (a idx) (a (larger compare a n idx next)) ∧
      (next ≤ n → NotAbove compare (a next) (a (larger compare a n idx next))) := by
  unfold larger
  split
  · next above =>
      exact ⟨.inr ⟨rfl, above.1⟩, not_above_of_lt order above.2, fun _ => not_above_refl order _⟩
  · next below =>
      refine ⟨.inl rfl, not_above_refl order _, ?_⟩
      intro inside
      have low : ¬compare (a next) (a idx) > 0 := fun above => below ⟨inside, above⟩
      exact Int.not_lt.mp low

/-- The largest of a node and its children. -/
theorem largest_cases {compare : α → α → Int} (order : TotalPreorder compare) (i : Nat) :
    (largest compare a n i = i ∨
      largest compare a n i ≠ i ∧ largest compare a n i / 2 = i ∧ largest compare a n i ≤ n) ∧
    NotAbove compare (a i) (a (largest compare a n i)) ∧
    ∀ k ≤ n, k / 2 = i → NotAbove compare (a k) (a (largest compare a n i)) := by
  obtain ⟨left, aboveNode, aboveLeft⟩ := @larger_cases _ a n _ order i (2 * i)
  obtain ⟨right, aboveFirst, aboveRight⟩ :=
    @larger_cases _ a n _ order (larger compare a n i (2 * i)) (2 * i + 1)
  refine ⟨?_, order.trans _ _ _ aboveNode aboveFirst, ?_⟩
  · unfold largest
    omega
  · intro k inside parent
    have child : k = 2 * i ∨ k = 2 * i + 1 := by omega
    cases child with
    | inl isLeft =>
        rw [isLeft] at inside ⊢
        exact order.trans _ _ _ (aboveLeft inside) aboveFirst
    | inr isRight =>
        rw [isRight] at inside ⊢
        exact aboveRight inside

/-- Nothing in a heap is above its root. -/
theorem heap_root (refl : ∀ x, le x x) (trans : ∀ x y z, le x y → le y z → le x z)
    (heap : Heap le a 1 n) {k : Nat} (lower : 1 ≤ k) (upper : k ≤ n) : le (a k) (a 1) := by
  induction k using Nat.strongRecOn with
  | ind k ih =>
      by_cases root : k = 1
      · rw [root]
        exact refl _
      · exact trans _ _ _ (heap k upper (by omega)) (ih (k / 2) (by omega) (by omega) (by omega))

/-! ## Taking the root out -/

structure Settled (le : α → α → Prop) (a : Nat → α) (i n : Nat) : Prop where
  heap : Heap le a 1 i
  above : ∀ j k, 1 ≤ j → j ≤ i → i < k → k ≤ n → le (a j) (a k)
  sorted : ∀ j k, i < j → j < k → k ≤ n → le (a j) (a k)

theorem settled_start (heap : Heap le a 1 n) : Settled le a n n := by
  refine ⟨heap, ?_, ?_⟩
  · intro j k _ _ outside inside
    omega
  · intro j k outside order inside
    omega

/-- A heap of no nodes is one of one node. -/
theorem settled_empty (settled : Settled le a 0 n) : Settled le a 1 n := by
  refine ⟨?_, ?_, ?_⟩
  · intro k inside parent
    omega
  · intro j k lower upper outside inside
    exact settled.sorted j k lower (by omega) inside
  · intro j k outside order inside
    exact settled.sorted j k (by omega) order inside

/-- Below the root the nodes are in order when it has been exchanged with the last one. -/
theorem settled_swapped (settled : Settled le a (i + 1) n) (few : i + 1 ≤ n)
    (swapped : Swapped a b n 1 (i + 1)) : Heap le b 2 i := by
  intro k inside parent
  rw [swapped.others k (by omega) (by omega) (by omega) (by omega),
    swapped.others (k / 2) (by omega) (by omega) (by omega) (by omega)]
  exact settled.heap k (by omega) (by omega)

/-- The root is exchanged with the last node, and the rest is made a heap again. -/
theorem settled_step {c : Nat → α} (refl : ∀ x, le x x)
    (trans : ∀ x y z, le x y → le y z → le x z) (settled : Settled le a (i + 1) n)
    (positive : 1 ≤ i) (few : i + 1 ≤ n) (swapped : Swapped a b n 1 (i + 1)) (heap : Heap le c 1 i)
    (perm : (entries c i).Perm (entries b i)) (same : ∀ k, i < k → k ≤ n → c k = b k) :
    Settled le c i n := by
  have was : ∀ j, 1 ≤ j → j ≤ i → ∃ k, 1 ≤ k ∧ k ≤ i + 1 ∧ c j = a k := by
    intro j lower upper
    have member : c j ∈ entries b i := perm.mem_iff.mp (mem_entries.mpr ⟨j, lower, upper, rfl⟩)
    obtain ⟨k, kLower, kUpper, value⟩ := mem_entries.mp member
    by_cases first : k = 1
    · refine ⟨i + 1, by omega, Nat.le_refl _, ?_⟩
      rw [← value, first, swapped.first]
    · exact ⟨k, kLower, by omega,
        value.symm.trans (swapped.others k kLower (by omega) first (by omega))⟩
  have last : c (i + 1) = a 1 := (same _ (by omega) few).trans swapped.second
  have rest : ∀ k, i + 1 < k → k ≤ n → c k = a k := by
    intro k lower upper
    rw [same k (by omega) upper]
    exact swapped.others k (by omega) upper (by omega) (by omega)
  refine ⟨heap, ?_, ?_⟩
  · intro j k jLower jUpper kLower kUpper
    obtain ⟨place, lower, upper, value⟩ := was j jLower jUpper
    rw [value]
    by_cases next : k = i + 1
    · rw [next, last]
      exact heap_root refl trans settled.heap lower upper
    · rw [rest k (by omega) kUpper]
      exact settled.above place k lower upper (by omega) kUpper
  · intro j k jLower order kUpper
    rw [rest k (by omega) kUpper]
    by_cases next : j = i + 1
    · rw [next, last]
      exact settled.above 1 k (by omega) (by omega) (by omega) kUpper
    · rw [rest j (by omega) (by omega)]
      exact settled.sorted j k (by omega) order kUpper

theorem settled_sorted (settled : Settled le a 1 n) : (entries a n).Pairwise le := by
  rw [pairwise_entries]
  intro j k positive order inside
  by_cases first : j = 1
  · exact settled.above j k positive (by omega) (by omega) inside
  · exact settled.sorted j k (by omega) order inside

end UtSystems.Lib.Heaps

import Mathlib.Logic.Function.Basic
import Mathlib.Data.List.Basic

/-!
# Ring buffers that keep a slot free

`head` is where the next item goes and `tail` where the oldest one is; between them, one slot stays
free, so that an empty buffer differs from a full one. The positions are below the size by their
type.
-/

namespace UtSystems.Lib.RingBuffer

set_option autoImplicit false

variable {α : Type*} {n : Nat}

structure Ring (α : Type*) (n : Nat) where
  buf : Fin n → α
  head : Fin n
  tail : Fin n

/-- The position `i` places behind `pos`. -/
def behind (pos : Fin n) (i : Nat) : Fin n :=
  ⟨(pos + i) % n, Nat.mod_lt _ (Nat.zero_lt_of_lt pos.isLt)⟩

def next (pos : Fin n) : Fin n := behind pos 1

def Ring.Empty (ring : Ring α n) : Prop := ring.head = ring.tail

def Ring.Full (ring : Ring α n) : Prop := next ring.head = ring.tail

instance (ring : Ring α n) : Decidable ring.Empty :=
  inferInstanceAs (Decidable (ring.head = ring.tail))

instance (ring : Ring α n) : Decidable ring.Full :=
  inferInstanceAs (Decidable (next ring.head = ring.tail))

/-- The item at the tail, and the ring without it. -/
def Ring.get (ring : Ring α n) : α × Ring α n :=
  (ring.buf ring.tail, { ring with tail := next ring.tail })

def Ring.put (ring : Ring α n) (item : α) : Ring α n :=
  { ring with buf := Function.update ring.buf ring.head item, head := next ring.head }

/-- How many items there are. -/
def Ring.count (ring : Ring α n) : Nat :=
  if ring.tail.val ≤ ring.head.val then ring.head - ring.tail else ring.head + n - ring.tail

/-- The items, the oldest first. -/
def Ring.contents (ring : Ring α n) : List α :=
  (List.range ring.count).map fun i => ring.buf (behind ring.tail i)

theorem behind_val {pos : Fin n} {i : Nat} (small : i < n) :
    (behind pos i).val = if pos.val + i < n then pos.val + i else pos.val + i - n := by
  have bound := pos.isLt
  unfold behind
  dsimp only
  by_cases inside : pos.val + i < n
  · rw [if_pos inside, Nat.mod_eq_of_lt inside]
  · rw [if_neg inside, Nat.mod_eq_sub_mod (Nat.le_of_not_lt inside), Nat.mod_eq_of_lt (by omega)]

theorem next_cases (pos : Fin n) :
    pos.val + 1 < n ∧ (next pos).val = pos.val + 1 ∨ pos.val + 1 = n ∧ (next pos).val = 0 := by
  have bound := pos.isLt
  have val : (next pos).val = (pos.val + 1) % n := rfl
  by_cases inside : pos.val + 1 < n
  · exact .inl ⟨inside, by rw [val, Nat.mod_eq_of_lt inside]⟩
  · have last : pos.val + 1 = n := by omega
    exact .inr ⟨last, by rw [val, last, Nat.mod_self]⟩

theorem behind_next {pos : Fin n} {i : Nat} : behind (next pos) i = behind pos (i + 1) := by
  apply Fin.ext
  unfold next behind
  dsimp only
  rw [Nat.mod_add_mod, Nat.add_assoc, Nat.add_comm 1]

section Rings

variable {ring : Ring α n} {item : α}

theorem count_lt : ring.count < n := by
  have head := ring.head.isLt
  have tail := ring.tail.isLt
  unfold Ring.count
  split <;> omega

theorem contents_length : ring.contents.length = ring.count := by
  rw [Ring.contents, List.length_map, List.length_range]

theorem empty_iff_count : ring.Empty ↔ ring.count = 0 := by
  have head := ring.head.isLt
  have tail := ring.tail.isLt
  unfold Ring.Empty Ring.count
  rw [Fin.ext_iff]
  split <;> omega

theorem empty_iff_contents : ring.Empty ↔ ring.contents = [] := by
  rw [empty_iff_count, ← contents_length, List.length_eq_zero_iff]

/-- The head is behind the last item. -/
theorem behind_count : behind ring.tail ring.count = ring.head := by
  have head := ring.head.isLt
  have tail := ring.tail.isLt
  apply Fin.ext
  rw [behind_val count_lt]
  unfold Ring.count
  split <;> split <;> omega

theorem count_put (room : ¬ring.Full) : (ring.put item).count = ring.count + 1 := by
  have head := ring.head.isLt
  have tail := ring.tail.isLt
  unfold Ring.Full at room
  rw [Fin.ext_iff] at room
  unfold Ring.put Ring.count
  dsimp only
  rcases next_cases ring.head with ⟨inside, after⟩ | ⟨last, after⟩
  · rw [after] at room ⊢
    split <;> split <;> omega
  · rw [after] at room ⊢
    split <;> split <;> omega

theorem count_get (some_ : ¬ring.Empty) : ring.count = ring.get.2.count + 1 := by
  have head := ring.head.isLt
  have tail := ring.tail.isLt
  unfold Ring.Empty at some_
  rw [Fin.ext_iff] at some_
  unfold Ring.get Ring.count
  dsimp only
  rcases next_cases ring.tail with ⟨inside, after⟩ | ⟨last, after⟩
  · rw [after]
    split <;> split <;> omega
  · rw [after]
    split <;> split <;> omega

theorem full_count (full : ring.Full) : ring.count + 1 = n := by
  have head := ring.head.isLt
  have tail := ring.tail.isLt
  unfold Ring.Full at full
  rw [Fin.ext_iff] at full
  unfold Ring.count
  rcases next_cases ring.head with ⟨inside, after⟩ | ⟨last, after⟩
  · rw [after] at full
    split <;> omega
  · rw [after] at full
    split <;> omega

theorem full_iff_contents : ring.Full ↔ ring.contents.length + 1 = n := by
  rw [contents_length]
  constructor
  · exact full_count
  · intro all
    by_contra room
    -- one more item would fill all slots
    have more := @count_put _ _ ring (ring.buf ring.tail) room
    have bound := @count_lt _ _ (ring.put (ring.buf ring.tail))
    omega

theorem contents_put (room : ¬ring.Full) : (ring.put item).contents = ring.contents ++ [item] := by
  unfold Ring.contents
  rw [count_put room, List.range_succ, List.map_append, List.map_singleton]
  dsimp only [Ring.put]
  congr 1
  · apply List.map_congr_left
    intro i inside
    -- the slot that is written is behind the items
    apply Function.update_of_ne
    intro same
    have small : i < ring.count := List.mem_range.mp inside
    have bound := @count_lt _ _ ring
    rw [← behind_count, Fin.ext_iff, behind_val (by omega), behind_val bound] at same
    have tail := ring.tail.isLt
    split at same <;> split at same <;> omega
  · rw [behind_count, Function.update_self]

theorem contents_get (some_ : ¬ring.Empty) :
    ring.contents = ring.get.1 :: ring.get.2.contents := by
  unfold Ring.contents
  rw [count_get some_, List.range_succ_eq_map, List.map_cons, List.map_map]
  dsimp only [Ring.get]
  congr 1
  · congr 1
    apply Fin.ext
    exact Nat.mod_eq_of_lt ring.tail.isLt
  · apply List.map_congr_left
    intro i _
    dsimp only [Function.comp]
    rw [behind_next]

end Rings

end UtSystems.Lib.RingBuffer

import Mathlib.Data.List.Nodup
import UtSystems.Threads.Malloc

/-!
# Arenas and their blocks

An arena is a page with blocks of one of seven sizes, or some pages with one big block. The
shape of the heap says where the arenas are, what their headers and the descriptors hold, and
that the free lists have the blocks that are not live.
-/

namespace UtSystems.Threads.MallocArenas

open Lib.MemoryWords Threads.KernelLists Threads.Malloc Threads.PageAllocator

set_option autoImplicit false

abbrev SizeClass := Fin 7

def classSize (c : SizeClass) : Nat := 16 * 2 ^ c.val

def classBlocks (c : SizeClass) : Nat := (pgsize - arenaSize) / classSize c

structure Arena where
  start : Nat
  pages : Nat
  -- none for a big block
  cls : Option SizeClass
deriving DecidableEq

/-- The addresses of its blocks. -/
def Arena.slots (ar : Arena) : List Nat :=
  match ar.cls with
  | none => [ar.start + arenaSize]
  | some c => (List.range (classBlocks c)).map fun idx => ar.start + arenaSize + idx * classSize c

/-- The bytes of each of its blocks. -/
def Arena.room (ar : Arena) : Nat :=
  match ar.cls with
  | none => pgsize * ar.pages - arenaSize
  | some c => classSize c

def Arena.desc (descs : Nat) (ar : Arena) : Nat :=
  match ar.cls with
  | none => 0
  | some c => descAt descs c

def Arena.group (ar : Arena) : Group := ⟨ar.start, ar.pages, false⟩

abbrev FreeLists := SizeClass → List Nat

/-- What the arena's `free_cnt` is to be. -/
def Arena.count (frees : FreeLists) (ar : Arena) : Nat :=
  match ar.cls with
  | none => ar.pages
  | some c => (frees c).countP fun b => pgRoundDown b == ar.start

structure Placed (descs : Nat) (ar : Arena) : Prop where
  aligned : ar.start % pgsize = 0
  above : descs + 10 * descSize ≤ ar.start
  positive : 0 < ar.pages
  single : ar.cls ≠ none → ar.pages = 1
  fits : ar.start + pgsize * ar.pages ≤ 2 ^ 32

/-- The pages of two arenas. -/
def Apart (first second : Arena) : Prop :=
  first.start + pgsize * first.pages ≤ second.start ∨
    second.start + pgsize * second.pages ≤ first.start

/-- Where the descriptors and the arenas are. -/
structure Geometry (descs : Nat) (arenas : Set Arena) : Prop where
  nonnull : 0 < descs
  low : descs + 10 * descSize ≤ 2 ^ 32
  placed : ∀ ar ∈ arenas, Placed descs ar
  apart : ∀ first ∈ arenas, ∀ second ∈ arenas, first ≠ second → Apart first second

/-- What the headers and the descriptors hold. -/
structure Words (descs : Nat) (m : Memory) (arenas : Set Arena) (counts : Arena → Nat) : Prop where
  geometry : Geometry descs arenas
  magic : ∀ ar ∈ arenas, magic m ar.start = arenaMagic
  desc : ∀ ar ∈ arenas, descOf m ar.start = ar.desc descs
  count : ∀ ar ∈ arenas, freeCnt m ar.start = counts ar
  size : ∀ c : SizeClass, blockSizeOf m (descAt descs c) = classSize c
  blocks : ∀ c : SizeClass, blocksPerArena m (descAt descs c) = classBlocks c

structure Shape (descs : Nat) (m : Memory) (arenas : Set Arena) (frees : FreeLists)
    (live : Set Nat) : Prop where
  words : Words descs m arenas (Arena.count frees)
  lists : ∀ c : SizeClass, HasElems m (freeList (descAt descs c)) (frees c)
  free : ∀ c b, b ∈ frees c ↔ ∃ ar ∈ arenas, ar.cls = some c ∧ b ∈ ar.slots ∧ b ∉ live
  live : ∀ b ∈ live, ∃ ar ∈ arenas, b ∈ ar.slots

section Classes

theorem class_bounds (c : SizeClass) : 16 ≤ classSize c ∧ classSize c ≤ 1024 ∧
    0 < classBlocks c ∧ classBlocks c < 256 ∧
    arenaSize + classBlocks c * classSize c ≤ pgsize := by
  revert c
  decide

theorem class_size_pos (c : SizeClass) : 0 < classSize c := by
  have := (class_bounds c).1
  omega

theorem class_bytes_small (c : SizeClass) {idx : Nat} (inside : idx < classBlocks c) :
    idx * classSize c + classSize c + arenaSize ≤ pgsize := by
  have fits := (class_bounds c).2.2.2.2
  have step : (idx + 1) * classSize c ≤ classBlocks c * classSize c :=
    Nat.mul_le_mul_right _ inside
  rw [Nat.succ_mul] at step
  omega

theorem desc_fits (descs : Nat) (c : SizeClass) :
    descs ≤ descAt descs c ∧ descAt descs c + descSize ≤ descs + 10 * descSize := by
  have := c.isLt
  unfold descAt descSize
  omega

theorem descs_apart (descs : Nat) {c d : SizeClass} (different : c ≠ d) :
    descAt descs c + descSize ≤ descAt descs d ∨ descAt descs d + descSize ≤ descAt descs c := by
  have := Fin.val_ne_of_ne different
  unfold descAt descSize
  omega

end Classes

section Slots

variable {descs : Nat} {ar other : Arena} {b : Nat} {c : SizeClass}

theorem mem_slots (isClass : ar.cls = some c) :
    b ∈ ar.slots ↔ ∃ idx < classBlocks c, b = ar.start + arenaSize + idx * classSize c := by
  unfold Arena.slots
  rw [isClass]
  simp only [List.mem_map, List.mem_range]
  constructor
  · intro ⟨idx, inside, here⟩
    exact ⟨idx, inside, here.symm⟩
  · intro ⟨idx, inside, here⟩
    exact ⟨idx, inside, here.symm⟩

theorem mem_big_slots (big : ar.cls = none) : b ∈ ar.slots ↔ b = ar.start + arenaSize := by
  unfold Arena.slots
  rw [big]
  exact List.mem_singleton

theorem room_class (isClass : ar.cls = some c) : ar.room = classSize c := by
  unfold Arena.room
  rw [isClass]

theorem room_big (big : ar.cls = none) : ar.room = pgsize * ar.pages - arenaSize := by
  unfold Arena.room
  rw [big]

/-- A block begins in the first page of its arena, behind the header. -/
theorem slot_bounds (placed : Placed descs ar) (member : b ∈ ar.slots) :
    ar.start + arenaSize ≤ b ∧ b < ar.start + pgsize ∧
      b + ar.room ≤ ar.start + pgsize * ar.pages ∧ 16 ≤ ar.room := by
  cases cls : ar.cls with
  | none =>
      rw [mem_big_slots cls] at member
      rw [member, room_big cls]
      have positive := placed.positive
      unfold arenaSize pgsize at *
      omega
  | some c =>
      obtain ⟨idx, inside, here⟩ := (mem_slots cls).mp member
      have single := placed.single (by rw [cls]; exact Option.some_ne_none c)
      have small := class_bytes_small c inside
      have least := (class_bounds c).1
      rw [room_class cls, single, here]
      unfold arenaSize pgsize at *
      omega

theorem slot_page (placed : Placed descs ar) (member : b ∈ ar.slots) :
    pgRoundDown b = ar.start := by
  obtain ⟨above, below, _, _⟩ := slot_bounds placed member
  have aligned := placed.aligned
  unfold pgRoundDown pgOfs pgsize arenaSize at *
  omega

theorem slots_apart {other : Nat} (member : b ∈ ar.slots) (otherMember : other ∈ ar.slots)
    (different : b ≠ other) : b + ar.room ≤ other ∨ other + ar.room ≤ b := by
  cases cls : ar.cls with
  | none =>
      rw [mem_big_slots cls] at member otherMember
      exact absurd (member.trans otherMember.symm) different
  | some c =>
      obtain ⟨first, _, here⟩ := (mem_slots cls).mp member
      obtain ⟨second, _, there⟩ := (mem_slots cls).mp otherMember
      rw [room_class cls, here, there]
      rcases Nat.lt_trichotomy first second with less | same | more
      · have step : (first + 1) * classSize c ≤ second * classSize c :=
          Nat.mul_le_mul_right _ less
        rw [Nat.succ_mul] at step
        omega
      · rw [here, there, same] at different
        exact absurd rfl different
      · have step : (second + 1) * classSize c ≤ first * classSize c :=
          Nat.mul_le_mul_right _ more
        rw [Nat.succ_mul] at step
        omega

theorem slots_length (isClass : ar.cls = some c) : ar.slots.length = classBlocks c := by
  unfold Arena.slots
  rw [isClass, List.length_map, List.length_range]

theorem slots_nodup : ar.slots.Nodup := by
  cases cls : ar.cls with
  | none =>
      unfold Arena.slots
      rw [cls]
      exact List.pairwise_singleton _ _
  | some c =>
      unfold Arena.slots
      rw [cls]
      refine List.Nodup.map ?_ List.nodup_range
      intro first second same
      have equal : first * classSize c = second * classSize c := Nat.add_left_cancel same
      exact Nat.eq_of_mul_eq_mul_right (class_size_pos c) equal

end Slots

section Space

variable {descs : Nat} {arenas : Set Arena} {ar other : Arena} {b x : Nat} {c d : SizeClass}

/-- A block belongs to one arena. -/
theorem slot_unique (geometry : Geometry descs arenas) (here : ar ∈ arenas)
    (there : other ∈ arenas) (member : b ∈ ar.slots) (otherMember : b ∈ other.slots) :
    ar = other := by
  by_contra different
  have apart := geometry.apart ar here other there different
  obtain ⟨above, below, _, _⟩ := slot_bounds (geometry.placed ar here) member
  obtain ⟨otherAbove, otherBelow, _, _⟩ := slot_bounds (geometry.placed other there) otherMember
  have positive := (geometry.placed ar here).positive
  have otherPositive := (geometry.placed other there).positive
  unfold Apart pgsize arenaSize at *
  omega

theorem start_unique (geometry : Geometry descs arenas) (here : ar ∈ arenas)
    (there : other ∈ arenas) (same : ar.start = other.start) : ar = other := by
  by_contra different
  have apart := geometry.apart ar here other there different
  have positive := (geometry.placed ar here).positive
  have otherPositive := (geometry.placed other there).positive
  unfold Apart pgsize at *
  omega

/-- The bytes of two blocks. -/
theorem blocks_apart (geometry : Geometry descs arenas) (here : ar ∈ arenas)
    (there : other ∈ arenas) (member : b ∈ ar.slots) (otherMember : x ∈ other.slots)
    (different : b ≠ x) : b + ar.room ≤ x ∨ x + other.room ≤ b := by
  by_cases same : ar = other
  · subst same
    exact slots_apart member otherMember different
  · have apart := geometry.apart ar here other there same
    obtain ⟨above, below, ends, _⟩ := slot_bounds (geometry.placed ar here) member
    obtain ⟨otherAbove, otherBelow, otherEnds, _⟩ :=
      slot_bounds (geometry.placed other there) otherMember
    unfold Apart at apart
    omega

/-- The sentinels of the free list and all blocks of that size. -/
def classSpace (descs : Nat) (arenas : Set Arena) (c : SizeClass) : Set Nat :=
  {x | x = headOf (freeList (descAt descs c)) ∨ x = tailOf (freeList (descAt descs c)) ∨
    ∃ ar ∈ arenas, ar.cls = some c ∧ x ∈ ar.slots}

/-- An address in the links of a block or sentinel: in a descriptor or behind a header. -/
theorem class_cells (inside : x ∈ linkCells (classSpace descs arenas c)) :
    (descAt descs c + 8 ≤ x ∧ x < descAt descs c + 24) ∨
      ∃ ar ∈ arenas, ar.cls = some c ∧ ∃ b ∈ ar.slots, b ≤ x ∧ x < b + 8 := by
  obtain ⟨elem, member, above, below⟩ := inside
  rcases member with isHead | isTail_ | ⟨ar, here, isClass, slot⟩
  · left
    unfold headOf freeList at isHead
    omega
  · left
    unfold tailOf freeList at isTail_
    omega
  · exact .inr ⟨ar, here, isClass, elem, slot, above, below⟩

theorem class_spaced (geometry : Geometry descs arenas) : Spaced (classSpace descs arenas c) := by
  have low := geometry.low
  have place := desc_fits descs c
  constructor
  · intro x member
    rcases member with isHead | isTail_ | ⟨ar, here, isClass, slot⟩
    · unfold headOf freeList descSize at *
      omega
    · unfold tailOf freeList descSize at *
      omega
    · have placed := geometry.placed ar here
      have fits := placed.fits
      obtain ⟨_, _, ends, least⟩ := slot_bounds placed slot
      omega
  · have outside : ∀ ar ∈ arenas, ∀ b ∈ ar.slots, descAt descs c + descSize ≤ b := by
      intro ar here b slot
      have placed := geometry.placed ar here
      have above := placed.above
      have begins := (slot_bounds placed slot).1
      omega
    intro x xMember y yMember different
    rcases xMember with xHead | xTail | ⟨xArena, xHere, xClass, xSlot⟩
    · rcases yMember with yHead | yTail | ⟨yArena, yHere, yClass, ySlot⟩
      · exact absurd (xHead.trans yHead.symm) different
      · unfold headOf tailOf freeList at *
        omega
      · have := outside yArena yHere y ySlot
        unfold headOf freeList descSize at *
        omega
    · rcases yMember with yHead | yTail | ⟨yArena, yHere, yClass, ySlot⟩
      · unfold headOf tailOf freeList at *
        omega
      · exact absurd (xTail.trans yTail.symm) different
      · have := outside yArena yHere y ySlot
        unfold tailOf freeList descSize at *
        omega
    · have xBounds := slot_bounds (geometry.placed xArena xHere) xSlot
      rcases yMember with yHead | yTail | ⟨yArena, yHere, yClass, ySlot⟩
      · have := outside xArena xHere x xSlot
        unfold headOf freeList descSize at *
        omega
      · have := outside xArena xHere x xSlot
        unfold tailOf freeList descSize at *
        omega
      · have yBounds := slot_bounds (geometry.placed yArena yHere) ySlot
        have apart := blocks_apart geometry xHere yHere xSlot ySlot different
        omega

theorem class_cells_header (geometry : Geometry descs arenas)
    (inside : x ∈ linkCells (classSpace descs arenas c)) (here : ar ∈ arenas) :
    x < ar.start ∨ ar.start + arenaSize ≤ x := by
  have place := desc_fits descs c
  have placed := geometry.placed ar here
  have above := placed.above
  rcases class_cells inside with ⟨_, below⟩ | ⟨other, there, _, b, slot, after, before⟩
  · unfold descSize at *
    omega
  · obtain ⟨begins, _, ends, least⟩ := slot_bounds (geometry.placed other there) slot
    by_cases same : ar = other
    · subst same
      omega
    · have apart := geometry.apart ar here other there same
      have positive := placed.positive
      unfold Apart arenaSize pgsize at *
      omega

theorem class_cells_desc (geometry : Geometry descs arenas)
    (inside : x ∈ linkCells (classSpace descs arenas c)) (d : SizeClass) :
    x < descAt descs d ∨ descAt descs d + 8 ≤ x := by
  have place := desc_fits descs d
  rcases class_cells inside with ⟨above, below⟩ | ⟨other, there, _, b, slot, after, before⟩
  · by_cases same : c = d
    · subst same
      omega
    · have apart := descs_apart descs same
      unfold descSize at *
      omega
  · have begins := (slot_bounds (geometry.placed other there) slot).1
    have above := (geometry.placed other there).above
    unfold descSize at *
    omega

/-- The links of two classes. -/
theorem class_cells_other (geometry : Geometry descs arenas) (different : c ≠ d)
    (inside : x ∈ linkCells (classSpace descs arenas c)) :
    x ∉ linkCells (classSpace descs arenas d) := by
  intro ⟨b, member, low, high⟩
  have place := desc_fits descs c
  have otherPlace := desc_fits descs d
  have descs := descs_apart descs different
  rcases class_cells inside with ⟨above, below⟩ | ⟨ar, here, isClass, slot, slotIn, after, before⟩
  · rcases member with isHead | isTail_ | ⟨other, there, _, otherIn⟩
    · unfold headOf freeList descSize at *
      omega
    · unfold tailOf freeList descSize at *
      omega
    · have begins := (slot_bounds (geometry.placed other there) otherIn).1
      have above := (geometry.placed other there).above
      unfold descSize at *
      omega
  · have bounds := slot_bounds (geometry.placed ar here) slotIn
    have arenaAbove := (geometry.placed ar here).above
    rcases member with isHead | isTail_ | ⟨other, there, otherClass, otherIn⟩
    · unfold headOf freeList descSize at *
      omega
    · unfold tailOf freeList descSize at *
      omega
    · have otherBounds := slot_bounds (geometry.placed other there) otherIn
      have notSame : slot ≠ b := by
        intro same
        have unique := slot_unique geometry here there slotIn (same ▸ otherIn)
        rw [unique, otherClass] at isClass
        exact different (Option.some.inj isClass).symm
      have apart := blocks_apart geometry here there slotIn otherIn notSame
      omega

end Space

section Words

variable {descs : Nat} {m after : Memory} {arenas fewer : Set Arena} {counts more : Arena → Nat}
  {ar : Arena} {b idx cnt : Nat} {c : SizeClass} {cells : Set Nat}

theorem words_frame (words : Words descs m arenas counts) (same : SameOutside cells m after)
    (headers : ∀ ar ∈ arenas, ∀ x ∈ cells, x < ar.start ∨ ar.start + arenaSize ≤ x)
    (descriptors : ∀ c : SizeClass, ∀ x ∈ cells, x < descAt descs c ∨ descAt descs c + 8 ≤ x) :
    Words descs after arenas counts := by
  have header : ∀ ar ∈ arenas, ∀ offset, offset + 4 ≤ arenaSize →
      loadWord after (ar.start + offset) = loadWord m (ar.start + offset) := by
    intro ar here offset fits
    apply load_same_outside same
    intro x inside
    have := headers ar here x inside
    omega
  have descriptor : ∀ c : SizeClass, ∀ offset, offset + 4 ≤ 8 →
      loadWord after (descAt descs c + offset) = loadWord m (descAt descs c + offset) := by
    intro c offset fits
    apply load_same_outside same
    intro x inside
    have := descriptors c x inside
    omega
  exact {
    geometry := words.geometry
    magic := fun ar here => (header ar here 0 (by decide)).trans (words.magic ar here)
    desc := fun ar here => (header ar here 4 (by decide)).trans (words.desc ar here)
    count := fun ar here => (header ar here 8 (by decide)).trans (words.count ar here)
    size := fun c => (descriptor c 0 (by decide)).trans (words.size c)
    blocks := fun c => (descriptor c 4 (by decide)).trans (words.blocks c) }

theorem words_class (words : Words descs m arenas counts)
    (same : SameOutside (linkCells (classSpace descs arenas c)) m after) :
    Words descs after arenas counts :=
  words_frame words same (fun _ here _ inside => class_cells_header words.geometry inside here)
    fun d _ inside => class_cells_desc words.geometry inside d

theorem words_counts (words : Words descs m arenas counts)
    (same : ∀ ar ∈ arenas, counts ar = more ar) : Words descs m arenas more where
  geometry := words.geometry
  magic := words.magic
  desc := words.desc
  count := fun ar here => (words.count ar here).trans (same ar here)
  size := words.size
  blocks := words.blocks

theorem geometry_fewer (geometry : Geometry descs arenas) (less : fewer ⊆ arenas) :
    Geometry descs fewer where
  nonnull := geometry.nonnull
  low := geometry.low
  placed := fun ar here => geometry.placed ar (less here)
  apart := fun first here second there => geometry.apart first (less here) second (less there)

theorem words_fewer (words : Words descs m arenas counts) (less : fewer ⊆ arenas) :
    Words descs m fewer counts where
  geometry := geometry_fewer words.geometry less
  magic := fun ar here => words.magic ar (less here)
  desc := fun ar here => words.desc ar (less here)
  count := fun ar here => words.count ar (less here)
  size := words.size
  blocks := words.blocks

theorem start_pos (geometry : Geometry descs arenas) (here : ar ∈ arenas) : ar.start ≠ 0 := by
  have above := (geometry.placed ar here).above
  have nonnull := geometry.nonnull
  unfold descSize at above
  omega

theorem desc_nonnull (geometry : Geometry descs arenas) (c : SizeClass) : descAt descs c ≠ 0 := by
  have place := (desc_fits descs c).1
  have nonnull := geometry.nonnull
  omega

theorem desc_class (isClass : ar.cls = some c) : ar.desc descs = descAt descs c := by
  unfold Arena.desc
  rw [isClass]

theorem desc_big (big : ar.cls = none) : ar.desc descs = 0 := by
  unfold Arena.desc
  rw [big]

/-- A block passes the checks of `block_to_arena`. -/
theorem block_to_arena_ok (words : Words descs m arenas counts) (here : ar ∈ arenas)
    (slot : b ∈ ar.slots) : blockToArena m b = .ok ar.start := by
  have placed := words.geometry.placed ar here
  have page := slot_page placed slot
  have aligned := placed.aligned
  unfold blockToArena
  simp only [page]
  rw [if_neg (start_pos words.geometry here), if_neg (not_not.mpr (words.magic ar here)),
    words.desc ar here]
  cases cls : ar.cls with
  | none =>
      have isNull := @desc_big descs ar cls
      have offset : pgOfs b = arenaSize := by
        rw [(mem_big_slots cls).mp slot]
        unfold pgOfs arenaSize pgsize at *
        omega
      rw [isNull, if_neg (not_not.mpr (.inl rfl)), if_neg (not_not.mpr (.inr offset))]
  | some c =>
      have isDesc := @desc_class descs ar c cls
      obtain ⟨idx, inside, place⟩ := (mem_slots cls).mp slot
      have small := class_bytes_small c inside
      have positive := class_size_pos c
      have offset : pgOfs b = arenaSize + idx * classSize c := by
        rw [place]
        unfold pgOfs arenaSize pgsize at *
        omega
      have multiple : (pgOfs b + 2 ^ 32 - arenaSize) % 2 ^ 32 % classSize c = 0 := by
        have fits : idx * classSize c % 2 ^ 32 = idx * classSize c := by
          apply Nat.mod_eq_of_lt
          unfold pgsize at small
          omega
        rw [offset, show arenaSize + idx * classSize c + 2 ^ 32 - arenaSize =
          idx * classSize c + 2 ^ 32 by omega, Nat.add_mod_right, fits]
        exact Nat.mul_mod_left idx (classSize c)
      rw [isDesc, words.size c, if_neg (not_not.mpr (.inr multiple)),
        if_neg (not_not.mpr (.inl (desc_nonnull words.geometry c)))]

/-- An arena passes the checks of `arena_to_block`. -/
theorem arena_to_block_ok (words : Words descs m arenas counts) (here : ar ∈ arenas)
    (isClass : ar.cls = some c) (inside : idx < classBlocks c) :
    arenaToBlock m ar.start idx = .ok (ar.start + arenaSize + idx * classSize c) := by
  unfold arenaToBlock
  rw [if_neg (start_pos words.geometry here), if_neg (not_not.mpr (words.magic ar here)),
    words.desc ar here, desc_class isClass, words.blocks c, if_neg (not_not.mpr inside),
    words.size c]

theorem words_set_cnt (words : Words descs m arenas counts) (here : ar ∈ arenas)
    (fits : cnt < 2 ^ 32) (rest : ∀ other ∈ arenas, other ≠ ar → more other = counts other)
    (same : more ar = cnt) : Words descs (setFreeCnt m ar.start cnt) arenas more := by
  have placed := words.geometry.placed ar here
  have header : ∀ other ∈ arenas, ∀ offset, offset + 4 ≤ arenaSize →
      (other = ar → offset + 4 ≤ 8) →
      loadWord (setFreeCnt m ar.start cnt) (other.start + offset) =
        loadWord m (other.start + offset) := by
    intro other there offset fits early
    apply load_store_apart
    by_cases isSame : other = ar
    · have := early isSame
      rw [isSame]
      omega
    · have apart := words.geometry.apart other there ar here isSame
      have positive := placed.positive
      have otherPositive := (words.geometry.placed other there).positive
      unfold Apart arenaSize pgsize at *
      omega
  have descriptor : ∀ c : SizeClass, ∀ offset, offset + 4 ≤ 8 →
      loadWord (setFreeCnt m ar.start cnt) (descAt descs c + offset) =
        loadWord m (descAt descs c + offset) := by
    intro c offset fits
    apply load_store_apart
    have above := placed.above
    have place := desc_fits descs c
    unfold descSize at *
    omega
  exact {
    geometry := words.geometry
    magic := fun other there =>
      (header other there 0 (by decide) (fun _ => by decide)).trans (words.magic other there)
    desc := fun other there =>
      (header other there 4 (by decide) (fun _ => by decide)).trans (words.desc other there)
    count := by
      intro other there
      by_cases isSame : other = ar
      · rw [isSame, same]
        exact load_store_same fits
      · rw [rest other there isSame, ← words.count other there]
        exact header other there 8 (by decide) fun impossible => absurd impossible isSame
    size := fun c => (descriptor c 0 (by decide)).trans (words.size c)
    blocks := fun c => (descriptor c 4 (by decide)).trans (words.blocks c) }

theorem set_arena_same_outside {a desc : Nat} :
    SameOutside (Set.Ico a (a + arenaSize)) m (setArena m a desc cnt) := by
  have cells : ∀ offset, offset + 4 ≤ arenaSize →
      Set.Ico (a + offset) (a + offset + 4) ⊆ Set.Ico a (a + arenaSize) := by
    intro offset fits x inside
    rw [Set.mem_Ico] at inside ⊢
    omega
  apply same_outside_trans (same_outside_mono store_same_outside (cells 0 (by decide)))
  apply same_outside_trans (same_outside_mono store_same_outside (cells 4 (by decide)))
  exact same_outside_mono store_same_outside (cells 8 (by decide))

/-- The header of a new arena. -/
theorem words_new (words : Words descs m arenas counts) (placed : Placed descs ar)
    (apart : ∀ other ∈ arenas, Apart ar other) (descFits : ar.desc descs < 2 ^ 32)
    (fits : cnt < 2 ^ 32) (rest : ∀ other ∈ arenas, more other = counts other)
    (same : more ar = cnt) :
    Words descs (setArena m ar.start (ar.desc descs) cnt) (insert ar arenas) more := by
  have positive := placed.positive
  have kept : Words descs (setArena m ar.start (ar.desc descs) cnt) arenas counts := by
    apply words_frame words set_arena_same_outside
    · intro other there x inside
      rw [Set.mem_Ico] at inside
      have away := apart other there
      have otherPositive := (words.geometry.placed other there).positive
      unfold Apart arenaSize pgsize at *
      omega
    · intro c x inside
      rw [Set.mem_Ico] at inside
      have above := placed.above
      have place := desc_fits descs c
      unfold descSize at *
      omega
  have magicWord : magic (setArena m ar.start (ar.desc descs) cnt) ar.start = arenaMagic := by
    unfold magic setArena
    rw [load_store_apart (by omega), load_store_apart (by omega), load_store_same (by decide)]
  have descWord : descOf (setArena m ar.start (ar.desc descs) cnt) ar.start = ar.desc descs := by
    unfold descOf setArena
    rw [load_store_apart (by omega), load_store_same descFits]
  have cntWord : freeCnt (setArena m ar.start (ar.desc descs) cnt) ar.start = cnt := by
    unfold freeCnt setArena
    rw [load_store_same fits]
  exact {
    geometry := {
      nonnull := words.geometry.nonnull
      low := words.geometry.low
      placed := by
        intro other there
        rcases Set.mem_insert_iff.mp there with isNew | old
        · rw [isNew]
          exact placed
        · exact words.geometry.placed other old
      apart := by
        intro first here second there different
        rcases Set.mem_insert_iff.mp here with firstNew | firstOld
        · rcases Set.mem_insert_iff.mp there with secondNew | secondOld
          · exact absurd (firstNew.trans secondNew.symm) different
          · rw [firstNew]
            exact apart second secondOld
        · rcases Set.mem_insert_iff.mp there with secondNew | secondOld
          · rw [secondNew]
            exact (apart first firstOld).symm
          · exact words.geometry.apart first firstOld second secondOld different }
    magic := by
      intro other there
      rcases Set.mem_insert_iff.mp there with isNew | old
      · rw [isNew]
        exact magicWord
      · exact kept.magic other old
    desc := by
      intro other there
      rcases Set.mem_insert_iff.mp there with isNew | old
      · rw [isNew]
        exact descWord
      · exact kept.desc other old
    count := by
      intro other there
      rcases Set.mem_insert_iff.mp there with isNew | old
      · rw [isNew, same]
        exact cntWord
      · rw [rest other old]
        exact kept.count other old
    size := kept.size
    blocks := kept.blocks }

/-- `malloc` finds a descriptor whose blocks are large enough, if the size is 1024 or less. -/
theorem find_desc_cases {h : Heap} (words : Words descs h.memory arenas counts)
    (seven : h.descCnt = 7) (size : Nat) :
    (∃ c : SizeClass, findDesc descs h size = some c.val ∧ size ≤ classSize c) ∨
      findDesc descs h size = none ∧ 1024 < size := by
  cases found : findDesc descs h size with
  | some index =>
      left
      unfold findDesc at found
      have below := List.mem_of_find?_eq_some found
      rw [seven, List.mem_range] at below
      have large := List.find?_some found
      simp only [decide_eq_true_eq] at large
      refine ⟨⟨index, below⟩, rfl, ?_⟩
      rw [← words.size ⟨index, below⟩]
      exact large
  | none =>
      right
      unfold findDesc at found
      have last := List.find?_eq_none.mp found 6 (by rw [seven, List.mem_range]; decide)
      have large := words.size 6
      change blockSizeOf h.memory (descAt descs 6) = 1024 at large
      rw [large, decide_eq_true_iff] at last
      exact ⟨rfl, Nat.lt_of_not_le last⟩

end Words

end UtSystems.Threads.MallocArenas

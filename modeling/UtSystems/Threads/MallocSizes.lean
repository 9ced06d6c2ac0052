import UtSystems.Threads.MallocRuns

/-!
# How much a block holds

`size + sizeof *a` and what `DIV_ROUND_UP` adds to it are computed modulo 2^32. Where the sum is
rounded up past 2^32 no page is asked for, and none is given; where the sum itself is past 2^32, one
page is.
-/

namespace UtSystems.Threads.MallocSizes

open Lib.MemoryWords Threads.Malloc Threads.MallocArenas Threads.MallocCalls Threads.MallocPages
open Threads.MallocRuns Threads.MallocSteps Threads.PageAllocator

set_option autoImplicit false

/-- The kernel image is mapped above `PHYS_BASE`. -/
structure InKernel (descs : Nat) : Prop extends InImage descs where
  mapped : physBase ≤ descs

/-- The size and the header of its arena fit in 32 bits. -/
def Fits (size : Nat) : Prop := size + arenaSize ≤ 2 ^ 32

/-- The block has this usable length, and this is enough if and only if the size fits. -/
def Sized (m : Memory) (p size : Nat) : Prop :=
  ∃ room, blockSize m p = .ok room ∧ (size ≤ room ↔ Fits size)

section Requests

variable {descs : Nat} {h : Heap} {others : List Group} {arenas : Set Arena}
  {frees : FreeLists} {live : Set Nat} {size p : Nat} {ar : Arena}

theorem room_bound (placed : Placed descs ar) : Fits ar.room := by
  have fits := placed.fits
  have positive := placed.positive
  unfold Fits
  cases cls : ar.cls with
  | none =>
      rw [room_big cls]
      unfold arenaSize pgsize at *
      omega
  | some c =>
      have bounds := class_bounds c
      rw [room_class cls]
      unfold arenaSize pgsize at *
      omega

theorem big_room (placed : Placed descs ar) (big : ar.cls = none)
    (pages : ar.pages = pageCntOf size) (bound : size < 2 ^ 32) :
    size ≤ ar.room ↔ Fits size := by
  have positive := placed.positive
  rw [pages] at positive
  rw [room_big big, pages]
  unfold pageCntOf Fits arenaSize pgsize at *
  omega

/-- The arena in which `malloc` has found the block. -/
structure Found (descs : Nat) (others : List Group) (size p : Nat) (next : Heap)
    (arenas : Set Arena) (frees : FreeLists) (live : Set Nat) (ar : Arena) : Prop where
  good : Good descs next others arenas frees live
  here : ar ∈ arenas
  slot : p ∈ ar.slots
  enough : size ≤ ar.room ↔ Fits size

theorem malloc_big (good : Good descs h others arenas frees live) (large : 1024 < size) :
    malloc descs size h = bigBlock size h := by
  unfold malloc
  rw [if_neg (by omega)]
  rcases find_desc_cases good.shape.words good.seven size with ⟨c, _, small⟩ | ⟨none_, _⟩
  · have bounds := (class_bounds c).2.1
    omega
  · rw [none_]

theorem malloc_found (good : Good descs h others arenas frees live) (bound : size < 2 ^ 32) :
    malloc descs size h = .ok (0, h) ∨
      ∃ p next more moreFrees moreLive ar, malloc descs size h = .ok (p, next) ∧
        Found descs others size p next more moreFrees moreLive ar := by
  by_cases small : size ≤ 1024
  · have fits : Fits size := by
      unfold Fits arenaSize
      omega
    have moderate : size + 2 * pgsize ≤ 2 ^ 32 := by
      unfold pgsize
      omega
    rcases malloc_ok good moderate with refused | ⟨p, next, returned, given⟩
    · exact Or.inl refused
    · right
      obtain ⟨more, moreFrees, after, _, ar, here, slot, large⟩ := given.good
      exact ⟨p, next, more, moreFrees, _, ar, returned, after, here, slot,
        fun _ => fits, fun _ => large⟩
  · rw [malloc_big good (Nat.lt_of_not_le small)]
    rcases big_block_cases good size with refused | ⟨a, next, taken, after, _⟩
    · exact Or.inl refused
    · right
      have placed := after.shape.words.geometry.placed _ (Set.mem_insert _ _)
      exact ⟨a + arenaSize, next, _, frees, _, _, taken, after, Set.mem_insert _ _,
        (mem_big_slots rfl).mpr rfl, big_room placed rfl rfl bound⟩

theorem found_size {next : Heap} (found : Found descs others size p next arenas frees live ar)
    {m : Memory} {count : Nat} (same : SameOutside (Set.Ico p (p + count)) next.memory m) :
    blockSize m p = .ok ar.room := by
  have words := found.good.shape.words
  have placed := words.geometry.placed ar found.here
  have inside := (slot_bounds placed found.slot).1
  have alone : ({ar} : Set Arena) ⊆ arenas := Set.singleton_subset_iff.mpr found.here
  have after : Words descs m {ar} (Arena.count frees) := by
    apply words_frame (words_fewer words alone) same
    · intro other there x within
      rw [Set.mem_singleton_iff.mp there]
      rw [Set.mem_Ico] at within
      omega
    · intro c x within
      have above := placed.above
      have fits := desc_fits descs c
      rw [Set.mem_Ico] at within
      unfold descSize at *
      omega
  exact block_size_ok after (Set.mem_singleton ar) found.slot count_big

theorem malloc_sized (good : Good descs h others arenas frees live) (bound : size < 2 ^ 32)
    {next : Heap} (returned : malloc descs size h = .ok (p, next)) (nonnull : p ≠ 0) :
    Sized next.memory p size := by
  rcases malloc_found good bound with refused | ⟨q, after, more, moreFrees, moreLive, ar, given, found⟩
  · rw [refused] at returned
    cases returned
    exact absurd rfl nonnull
  · rw [given] at returned
    cases returned
    have same : SameOutside (Set.Ico p (p + 0)) next.memory next.memory := same_outside_refl
    exact ⟨ar.room, found_size found same, found.enough⟩

theorem calloc_sized (good : Good descs h others arenas frees live) {a b : Nat} {next : Heap}
    (returned : calloc descs a b h = .ok (p, next)) (nonnull : p ≠ 0) :
    Sized next.memory p (a * b) := by
  have bound : a * b % 2 ^ 32 < 2 ^ 32 := Nat.mod_lt _ (by decide)
  unfold calloc at returned
  simp only at returned
  split at returned
  · cases returned
    exact absurd rfl nonnull
  · rcases malloc_found good bound with
      refused | ⟨q, middle, more, moreFrees, moreLive, ar, given, found⟩
    · rw [refused] at returned
      cases returned
      exact absurd rfl nonnull
    · rw [given] at returned
      have placed := found.good.shape.words.geometry.placed ar found.here
      have positive := slot_nonnull found.good.shape.words.geometry found.here found.slot
      change (if q ≠ 0 then _ else _) = _ at returned
      rw [if_pos positive] at returned
      cases returned
      refine ⟨ar.room, found_size found memset_same_outside, ?_⟩
      have enough := found.enough
      have most := room_bound placed
      unfold Fits arenaSize at *
      omega

/-- These requests would need all pages but one of the address space, or none. -/
theorem large_refused (good : Good descs h others arenas frees live) (mapped : physBase ≤ descs)
    (large : ¬Moderate size) (fits : Fits size) : malloc descs size h = .ok (0, h) := by
  unfold Moderate at large
  unfold Fits at fits
  rw [malloc_big good (by unfold pgsize at large; omega)]
  rcases big_block_cases good size with refused | ⟨a, next, taken, after, _⟩
  · exact refused
  · have placed := after.shape.words.geometry.placed _ (Set.mem_insert _ _)
    have positive := placed.positive
    have above := placed.above
    have below := placed.fits
    dsimp only at positive above below
    unfold pageCntOf physBase descSize arenaSize pgsize at *
    omega

end Requests

/-- What `malloc` and `calloc` return is large enough if and only if the size fits, for all sizes;
and the sizes that fit and are not `Moderate` are refused, so that no run needs them. -/
theorem blocks_are_large_enough_iff (ax : BitVec 16) (userPageLimit descs : Nat)
    (image : InKernel descs) (s : System) (run : Reached descs (initRamPages ax) userPageLimit s) :
    (∀ (size : BitVec 32) (p : Nat) (next : Heap),
      malloc descs size.toNat s.heap = .ok (p, next) → p ≠ 0 →
        Sized next.memory p size.toNat) ∧
    (∀ (a b : BitVec 32) (p : Nat) (next : Heap),
      calloc descs a.toNat b.toNat s.heap = .ok (p, next) → p ≠ 0 →
        Sized next.memory p (a.toNat * b.toNat)) ∧
    ∀ size, ¬Moderate size → Fits size → malloc descs size s.heap = .ok (0, s.heap) := by
  obtain ⟨arenas, frees, keeps⟩ := reached_keeps image.toInImage run
  refine ⟨?_, ?_, ?_⟩
  · intro size p next returned nonnull
    exact malloc_sized keeps.good size.isLt returned nonnull
  · intro a b p next returned nonnull
    exact calloc_sized keeps.good returned nonnull
  · intro size large fits
    exact large_refused keeps.good image.mapped large fits

/-- The descriptors of the example: one page into the kernel. -/
def exampleDescs : Nat := physBase + pgsize

theorem example_in_kernel : InKernel exampleDescs where
  nonnull := by decide
  below := by
    rw [free_start_pages]
    decide
  mapped := by decide

/-- After `malloc_init`, with one page in the kernel pool. -/
theorem example_big {size : Nat} (large : 1024 < size) (one : pageCntOf size = 1) :
    ∃ s next, Reached exampleDescs (initRamPages 16#16) 2 s ∧
      malloc exampleDescs size s.heap = .ok (0xc010100c, next) := by
  have none_ : Ready exampleDescs (fun _ => 0) 0 := by
    constructor
    · exact fun c impossible => absurd impossible (Nat.not_lt_zero _)
    · exact fun c impossible => absurd impossible (Nat.not_lt_zero _)
    · exact fun c impossible => absurd impossible (Nat.not_lt_zero _)
  obtain ⟨after, looped, _⟩ := malloc_init_loop example_in_kernel.nonnull (by decide)
    (Nat.zero_le 7) (Nat.zero_add 10) none_
  have inited : mallocInit exampleDescs (fourPages false false) = .ok
      { allocator := { fourPages false false with memory := after }, descCnt := 7, held := [] } := by
    unfold mallocInit
    change (mallocInitFrom exampleDescs 10 (16 * 2 ^ 0) 0 (fun _ => 0) >>= _) = _
    rw [looped]
    rfl
  have run := Reached.init four_pages_init inited
  obtain ⟨arenas, frees, keeps⟩ := reached_keeps example_in_kernel.toInImage run
  refine ⟨_, {
    allocator := { fourPages true false with memory := setArena after 0xc0101000 0 1 }
    descCnt := 7
    held := [⟨0xc0101000, 1, false⟩] }, run, ?_⟩
  rw [malloc_big keeps.good large]
  unfold bigBlock
  rw [one]
  rfl

theorem blocks_are_large_enough_page :
    ∃ s p next, Reached exampleDescs (initRamPages 16#16) 2 s ∧
      malloc exampleDescs 2000 s.heap = .ok (p, next) ∧ Sized next.memory p 2000 := by
  have large : 1024 < 2000 := by decide
  obtain ⟨s, next, run, returned⟩ := example_big large (by decide)
  exact ⟨s, _, next, run, returned,
    (blocks_are_large_enough_iff 16#16 2 exampleDescs example_in_kernel s run).1 2000#32 _ next
      returned (by decide)⟩

/-- `malloc (-4)`: the block of one page is shorter by far. -/
theorem wrapped_size_gets_a_page :
    ∃ s p next room, Reached exampleDescs (initRamPages 16#16) 2 s ∧
      malloc exampleDescs (2 ^ 32 - 4) s.heap = .ok (p, next) ∧ p ≠ 0 ∧
      blockSize next.memory p = .ok room ∧ room < 2 ^ 32 - 4 := by
  have large : 1024 < 2 ^ 32 - 4 := by decide
  obtain ⟨s, next, run, returned⟩ := example_big large (by decide)
  obtain ⟨arenas, frees, keeps⟩ := reached_keeps example_in_kernel.toInImage run
  obtain ⟨room, holds, enough⟩ := malloc_sized keeps.good (by decide) returned (by decide)
  refine ⟨s, _, next, room, run, returned, by decide, holds, ?_⟩
  have short : ¬Fits (2 ^ 32 - 4) := by
    unfold Fits arenaSize
    decide
  exact Nat.lt_of_not_le fun long => short (enough.mp long)

end UtSystems.Threads.MallocSizes

import UtSystems.Threads.MallocTurnover

/-!
# Calls of the heap

`malloc`, `calloc`, `realloc` and `free` keep the heap good, when only live blocks are freed, and
leave the bytes of the other live blocks alone.
-/

namespace UtSystems.Threads.MallocCalls

open Lib.Bytes Lib.MemoryWords Threads.KernelLists Threads.Malloc Threads.MallocArenas
open Threads.MallocPages Threads.MallocSteps Threads.MallocTurnover Threads.PageAllocator

set_option autoImplicit false

structure Good (descs : Nat) (h : Heap) (others : List Group) (arenas : Set Arena)
    (frees : FreeLists) (live : Set Nat) : Prop where
  owned : Owned descs h others arenas
  shape : Shape descs h.memory arenas frees live
  -- no arena without a live block
  busy : ∀ ar ∈ arenas, ∃ b ∈ ar.slots, b ∈ live
  seven : h.descCnt = 7

/-- A new block `p` of at least `size` bytes, in an arena that was there or is new. -/
structure Given (descs : Nat) (h : Heap) (others : List Group) (arenas : Set Arena)
    (live : Set Nat) (size p : Nat) (next : Heap) : Prop where
  fresh : p ∉ live
  good : ∃ more frees, Good descs next others more frees (insert p live) ∧ arenas ⊆ more ∧
    ∃ ar ∈ more, p ∈ ar.slots ∧ size ≤ ar.room
  kept : ∀ x ∈ payload arenas live, next.memory x = h.memory x

section Giving

variable {descs : Nat} {h : Heap} {others : List Group} {arenas : Set Arena}
  {frees : FreeLists} {live : Set Nat} {size b : Nat} {ar : Arena} {c : SizeClass}

theorem page_cnt_room (bound : size + 2 * pgsize ≤ 2 ^ 32) :
    size ≤ pgsize * pageCntOf size - arenaSize := by
  unfold pageCntOf arenaSize pgsize at *
  omega

theorem busy_insert (busy : ∀ ar ∈ arenas, ∃ b ∈ ar.slots, b ∈ live) :
    ∀ ar ∈ arenas, ∃ y ∈ ar.slots, y ∈ insert b live := by
  intro ar here
  obtain ⟨y, slot, isLive⟩ := busy ar here
  exact ⟨y, slot, Set.mem_insert_of_mem _ isLive⟩

theorem busy_new (busy : ∀ ar ∈ arenas, ∃ b ∈ ar.slots, b ∈ live) (slot : b ∈ ar.slots) :
    ∀ other ∈ insert ar arenas, ∃ y ∈ other.slots, y ∈ insert b live := by
  intro other there
  rcases Set.mem_insert_iff.mp there with isNew | old
  · exact ⟨b, isNew ▸ slot, Set.mem_insert _ _⟩
  · exact busy_insert busy other old

/-- The free list has a block. -/
theorem take_given (good : Good descs h others arenas frees live) (large : size ≤ classSize c)
    {rest : List Nat} (some_ : frees c = b :: rest) :
    ∃ next, takeBlock (descAt descs c) h = .ok (b, next) ∧
      Given descs h others arenas live size b next := by
  obtain ⟨m, taken, fresh, ⟨ar, here, isClass, slot⟩, shape, kept⟩ := take_block_ok good.shape some_
  refine ⟨h.setMemory m, taken, ?_⟩
  exact {
    fresh := fresh
    good := by
      refine ⟨arenas, Function.update frees c rest, ?_, Set.Subset.rfl, ar, here, slot, ?_⟩
      · exact ⟨owned_memory good.owned m, shape, busy_insert good.busy, good.seven⟩
      · rw [room_class isClass]
        exact large
    kept := kept }

theorem blocks_set_arena {m : Memory} {desc cnt : Nat} (placed : Placed descs ar) :
    blocksPerArena (setArena m ar.start desc cnt) (descAt descs c) =
      blocksPerArena m (descAt descs c) := by
  apply load_same_outside set_arena_same_outside
  intro x inside
  rw [Set.mem_Ico] at inside
  have above := placed.above
  have place := desc_fits descs c
  unfold descSize at *
  omega

/-- A new page makes a free list that has a block. -/
theorem new_given (good : Good descs h others arenas frees live) (large : size ≤ classSize c)
    (empty : frees c = []) :
    newArena (descAt descs c) h = .ok (false, h) ∨
      ∃ middle p next, newArena (descAt descs c) h = .ok (true, middle) ∧
        takeBlock (descAt descs c) middle = .ok (p, next) ∧
        Given descs h others arenas live size p next := by
  have blocks := good.shape.words.blocks c
  rcases get_pages_cases good.owned 1 with refused | ⟨a, got, taken, nonnull, memory, cnt, rest⟩
  · left
    unfold newArena
    rw [refused]
    rfl
  · right
    let ar : Arena := ⟨a, 1, some c⟩
    obtain ⟨placed, apart, owned⟩ := rest (some c) (fun _ => rfl)
    have isClass : ar.cls = some c := rfl
    obtain ⟨m1, looped, shape, kept⟩ := new_arena_ok good.shape placed apart isClass empty
    have same : blocksPerArena (setArena h.memory a (descAt descs c) (classBlocks c))
        (descAt descs c) = classBlocks c :=
      (@blocks_set_arena descs ar c h.memory _ _ placed).trans blocks
    let middle := got.setMemory m1
    have goodMiddle : Owned descs middle others (insert ar arenas) := owned_memory owned m1
    obtain ⟨first, rest, isFirst⟩ : ∃ first rest, ar.slots = first :: rest :=
      List.exists_cons_of_ne_nil (by
        intro none
        have length := slots_length isClass
        have positive := (class_bounds c).2.2.1
        rw [none] at length
        rw [← length] at positive
        exact absurd positive (Nat.lt_irrefl 0))
    have listed : Function.update frees c ar.slots c = first :: rest := by
      rw [Function.update_self, isFirst]
    obtain ⟨m2, took, fresh, ⟨other, there, otherClass, slot⟩, shape2, kept2⟩ :=
      @take_block_ok descs middle (insert ar arenas) _ live first rest c shape listed
    have inNew : first ∈ ar.slots := by
      rw [isFirst]
      exact List.mem_cons_self
    refine ⟨middle, first, middle.setMemory m2, ?_, took, ?_⟩
    · unfold newArena
      rw [taken]
      change (if a = 0 then Except.ok (false, got) else _) = _
      rw [if_neg nonnull, memory, blocks]
      rw [same, looped]
      rfl
    · exact {
        fresh := fresh
        good := by
          refine ⟨insert ar arenas, _, ⟨owned_memory goodMiddle m2, shape2,
            busy_new good.busy inNew, cnt.trans good.seven⟩, Set.subset_insert _ _, ar,
            Set.mem_insert _ _, inNew, ?_⟩
          rw [room_class isClass]
          exact large
        kept := by
          intro x inside
          have grown : x ∈ payload (insert ar arenas) live := by
            obtain ⟨arena, here, y, isSlot⟩ := inside
            exact ⟨arena, Set.mem_insert_of_mem _ here, y, isSlot⟩
          exact (kept2 x grown).trans (kept x inside) }

/-- The arena of a request that no descriptor serves. -/
theorem big_block_cases (good : Good descs h others arenas frees live) (size : Nat) :
    bigBlock size h = .ok (0, h) ∨
      ∃ a next, bigBlock size h = .ok (a + arenaSize, next) ∧
        Good descs next others (insert ⟨a, pageCntOf size, none⟩ arenas) frees
          (insert (a + arenaSize) live) ∧
        a + arenaSize ∉ live ∧ ∀ x ∈ payload arenas live, next.memory x = h.memory x := by
  rcases get_pages_cases good.owned (pageCntOf size) with
    refused | ⟨a, got, taken, nonnull, memory, cnt, rest⟩
  · left
    change (getPages (pageCntOf size) h >>= _) = _
    rw [refused]
    rfl
  · right
    let ar : Arena := ⟨a, pageCntOf size, none⟩
    obtain ⟨placed, apart, owned⟩ := rest none fun impossible => absurd rfl impossible
    obtain ⟨shape, fresh, kept⟩ := big_arena_ok good.shape placed apart rfl
    have slot : a + arenaSize ∈ ar.slots := (mem_big_slots rfl).mpr rfl
    refine ⟨a, got.setMemory (setArena h.memory a 0 (pageCntOf size)), ?_, ?_, fresh, kept⟩
    · change (getPages (pageCntOf size) h >>= _) = _
      rw [taken]
      change (if a = 0 then Except.ok (0, got) else _) = _
      rw [if_neg nonnull, memory]
      rfl
    · exact ⟨owned_memory owned _, shape, busy_new good.busy slot, cnt.trans good.seven⟩

theorem big_given (good : Good descs h others arenas frees live)
    (bound : size + 2 * pgsize ≤ 2 ^ 32) :
    bigBlock size h = .ok (0, h) ∨
      ∃ p next, bigBlock size h = .ok (p, next) ∧
        Given descs h others arenas live size p next := by
  rcases big_block_cases good size with refused | ⟨a, next, taken, after, fresh, kept⟩
  · exact Or.inl refused
  · right
    have slot : a + arenaSize ∈ (⟨a, pageCntOf size, none⟩ : Arena).slots :=
      (mem_big_slots rfl).mpr rfl
    exact ⟨a + arenaSize, next, taken, {
      fresh := fresh
      good := ⟨_, frees, after, Set.subset_insert _ _, _, Set.mem_insert _ _, slot,
        page_cnt_room bound⟩
      kept := kept }⟩

theorem malloc_ok (good : Good descs h others arenas frees live)
    (bound : size + 2 * pgsize ≤ 2 ^ 32) :
    malloc descs size h = .ok (0, h) ∨
      ∃ p next, malloc descs size h = .ok (p, next) ∧
        Given descs h others arenas live size p next := by
  unfold malloc
  by_cases zero : size = 0
  · left
    exact if_pos zero
  · rw [if_neg zero]
    rcases find_desc_cases good.shape.words good.seven size with ⟨c, found, large⟩ | ⟨none, _⟩
    · rw [found]
      have empty := list_empty_iff (good.shape.lists c)
      simp only [empty]
      cases listed : frees c with
      | nil =>
          rcases new_given good large listed with refused | ⟨middle, p, next, made, took, given⟩
          · left
            change (newArena (descAt descs c) h >>= _) = _
            rw [refused]
            rfl
          · right
            refine ⟨p, next, ?_, given⟩
            change (newArena (descAt descs c) h >>= _) = _
            rw [made]
            exact took
      | cons first rest =>
          right
          obtain ⟨next, took, given⟩ := take_given good large listed
          exact ⟨first, next, took, given⟩
    · rw [none]
      exact big_given good bound

end Giving

section Freeing

variable {descs : Nat} {h : Heap} {m : Memory} {others : List Group} {arenas : Set Arena}
  {frees : FreeLists} {counts : Arena → Nat} {live : Set Nat} {p : Nat} {ar : Arena} {c : SizeClass}

/-- The heap without the block `p`, whose arena may be gone. -/
structure Taken (descs : Nat) (h : Heap) (others : List Group) (arenas : Set Arena)
    (live : Set Nat) (p : Nat) (next : Heap) : Prop where
  good : ∃ less frees, Good descs next others less frees (live \ {p}) ∧ less ⊆ arenas
  kept : ∀ x ∈ payload arenas (live \ {p}), next.memory x = h.memory x

theorem block_size_ok (words : Words descs m arenas counts) (here : ar ∈ arenas)
    (slot : p ∈ ar.slots) (count : ar.cls = none → counts ar = ar.pages) :
    blockSize m p = .ok ar.room := by
  unfold blockSize
  rw [block_to_arena_ok words here slot]
  change Except.ok (if descOf m ar.start ≠ 0 then blockSizeOf m (descOf m ar.start)
    else (pgsize * freeCnt m ar.start + 2 ^ 32 - pgOfs p) % 2 ^ 32) = _
  rw [words.desc ar here]
  cases cls : ar.cls with
  | none =>
      have placed := words.geometry.placed ar here
      have aligned := placed.aligned
      have fits := placed.fits
      have positive := placed.positive
      have begins := start_pos words.geometry here
      have offset : pgOfs p = arenaSize := by
        rw [(mem_big_slots cls).mp slot]
        unfold pgOfs arenaSize pgsize at *
        omega
      rw [desc_big cls, if_neg (not_not.mpr rfl), words.count ar here, count cls, offset,
        room_big cls]
      have large : arenaSize ≤ pgsize * ar.pages := by
        unfold arenaSize pgsize
        omega
      have small : pgsize * ar.pages - arenaSize < 2 ^ 32 := by omega
      rw [Nat.sub_add_comm large, Nat.add_mod_right, Nat.mod_eq_of_lt small]
  | some c =>
      rw [desc_class cls, if_pos (desc_nonnull words.geometry c), words.size c, room_class cls]

/-- Every other arena keeps its live blocks. -/
theorem busy_elsewhere (good : Good descs h others arenas frees live) (here : ar ∈ arenas)
    (slot : p ∈ ar.slots) :
    ∀ other ∈ arenas, other ≠ ar → ∃ b ∈ other.slots, b ∈ live \ {p} := by
  intro other there different
  obtain ⟨b, otherSlot, isLive⟩ := good.busy other there
  refine ⟨b, otherSlot, isLive, ?_⟩
  intro isP
  rw [Set.mem_singleton_iff.mp isP] at otherSlot
  exact different (slot_unique good.shape.words.geometry there here otherSlot slot)

theorem free_small (good : Good descs h others arenas frees live) (here : ar ∈ arenas)
    (isClass : ar.cls = some c) (slot : p ∈ ar.slots) (isLive : p ∈ live) :
    ∃ next, free p h = .ok next ∧ Taken descs h others arenas live p next := by
  have words := good.shape.words
  have geometry := words.geometry
  obtain ⟨m1, put, shape, kept⟩ := put_block_ok good.shape here isClass slot isLive
  have desc : descOf h.memory ar.start = descAt descs c :=
    (words.desc ar here).trans (desc_class isClass)
  have blocks := shape.words.blocks c
  have count := shape.words.count ar here
  have least := count_le shape here isClass
  have full := count_full shape here isClass
  have start : free p h = (do
      if blocksPerArena m1 (descAt descs c) ≤ freeCnt m1 ar.start then
        if freeCnt m1 ar.start ≠ blocksPerArena m1 (descAt descs c) then throw .assertion
        else do
          let m ← (List.range (blocksPerArena m1 (descAt descs c))).foldlM
            (removeBlock ar.start) m1
          freePages ar.start 1 (h.setMemory m)
      else return h.setMemory m1) := by
    unfold free
    rw [if_neg (slot_nonnull geometry here slot), block_to_arena_ok words here slot]
    change (if descOf h.memory ar.start ≠ 0 then _ else _) = _
    rw [desc, if_pos (desc_nonnull geometry c)]
    rw [put]
    rfl
  rw [start, blocks, count]
  by_cases isFull : ar.count (Function.update frees c (p :: frees c)) = classBlocks c
  · have noLive := full.mp isFull
    obtain ⟨m2, looped, later⟩ := drop_arena_ok shape here isClass noLive
    obtain ⟨next, freed, cnt, same, owned⟩ :=
      free_pages_ok (owned_memory good.owned m2) geometry here
    have single := (geometry.placed ar here).single (by rw [isClass]; exact Option.some_ne_none c)
    obtain ⟨shape2, kept2⟩ := later next.memory same
    refine ⟨next, ?_, ?_⟩
    · rw [isFull, if_pos (Nat.le_refl _), if_neg (not_not.mpr rfl), looped]
      rw [single] at freed
      exact freed
    · exact {
        good := ⟨arenas \ {ar}, _, ⟨owned, shape2,
          fun other there => busy_elsewhere good here slot other there.1 there.2,
          cnt.trans good.seven⟩, Set.sdiff_subset⟩
        kept := fun x inside => (kept2 x inside).trans (kept x inside) }
  · refine ⟨h.setMemory m1, ?_, ?_⟩
    · rw [if_neg (by omega)]
      rfl
    · have busy : ∃ b ∈ ar.slots, b ∈ live \ {p} := by
        by_contra none
        apply isFull
        apply full.mpr
        intro b isSlot alive
        exact none ⟨b, isSlot, alive⟩
      exact {
        good := by
          refine ⟨arenas, _, ⟨owned_memory good.owned m1, shape, ?_, good.seven⟩, Set.Subset.rfl⟩
          intro other there
          by_cases same : other = ar
          · rw [same]
            exact busy
          · exact busy_elsewhere good here slot other there same
        kept := kept }

theorem free_big (good : Good descs h others arenas frees live) (here : ar ∈ arenas)
    (big : ar.cls = none) (slot : p ∈ ar.slots) :
    ∃ next, free p h = .ok next ∧ Taken descs h others arenas live p next := by
  have words := good.shape.words
  have geometry := words.geometry
  have isP : p = ar.start + arenaSize := (mem_big_slots big).mp slot
  obtain ⟨next, freed, cnt, same, owned⟩ := free_pages_ok good.owned geometry here
  obtain ⟨shape, kept⟩ := drop_big_ok good.shape here big same
  rw [← isP] at shape kept
  refine ⟨next, ?_, ?_⟩
  · unfold free
    rw [if_neg (slot_nonnull geometry here slot), block_to_arena_ok words here slot]
    change (if descOf h.memory ar.start ≠ 0 then _ else
      freePages ar.start (freeCnt h.memory ar.start) h) = _
    rw [words.desc ar here, desc_big big, if_neg (not_not.mpr rfl), words.count ar here,
      count_big big]
    exact freed
  · exact {
      good := ⟨arenas \ {ar}, frees, ⟨owned, shape,
        fun other there => busy_elsewhere good here slot other there.1 there.2,
        cnt.trans good.seven⟩, Set.sdiff_subset⟩
      kept := kept }

theorem free_ok (good : Good descs h others arenas frees live) (isLive : p ∈ live) :
    ∃ next, free p h = .ok next ∧ Taken descs h others arenas live p next := by
  obtain ⟨ar, here, slot⟩ := good.shape.live p isLive
  cases cls : ar.cls with
  | none => exact free_big good here cls slot
  | some c => exact free_small good here cls slot isLive

end Freeing

section Filling

variable {descs : Nat} {h next : Heap} {m : Memory} {others : List Group} {arenas : Set Arena}
  {frees : FreeLists} {live : Set Nat} {size count p old a b : Nat}

theorem memcpy_same_outside :
    SameOutside (Set.Ico p (p + count)) m (memcpy m p old count) := by
  intro x outside
  rw [Set.mem_Ico] at outside
  apply overwrite_outside
  rw [slice_length]
  omega

theorem memcpy_copied {idx : Nat} (inside : idx < count) :
    memcpy m p old count (p + idx) = m (old + idx) := by
  have fits : idx < (slice m old count).length := by
    rw [slice_length]
    exact inside
  have copied : memcpy m p old count (p + idx) = (slice m old count)[idx] := overwrite_inside fits
  have source := @slice_get _ m old count idx inside
  rw [List.getElem?_eq_getElem fits] at source
  exact copied.trans (Option.some.inj source)

theorem memset_filled {value : Byte} {idx : Nat} (inside : idx < count) :
    memset m p value count (p + idx) = value := by
  unfold memset
  rw [if_pos (by omega)]

/-- The caller may fill a new block. -/
theorem given_fill (given : Given descs h others arenas live size p next) (few : count ≤ size)
    (same : SameOutside (Set.Ico p (p + count)) next.memory m) :
    Given descs h others arenas live size p (next.setMemory m) := by
  obtain ⟨more, frees, good, grown, ar, here, slot, large⟩ := given.good
  have geometry := good.shape.words.geometry
  refine ⟨given.fresh, ⟨more, frees, ?_, grown, ar, here, slot, large⟩, ?_⟩
  · have inBlock : Set.Ico p (p + count) ⊆ Writable descs more (insert p live) := by
      intro x inside
      rw [Set.mem_Ico] at inside
      exact .inl ⟨ar, here, p, slot, Set.mem_insert _ _, inside.1, by omega⟩
    exact ⟨owned_memory good.owned m, shape_write good.shape (same_outside_mono same inBlock),
      good.busy, good.seven⟩
  · intro x inside
    have off : x ∉ Set.Ico p (p + count) := by
      intro within
      rw [Set.mem_Ico] at within
      obtain ⟨other, there, y, otherSlot, isLive, low, high⟩ := inside
      have different : p ≠ y := by
        intro equal
        exact given.fresh (equal ▸ isLive)
      have apart := blocks_apart geometry here (grown there) slot otherSlot different
      omega
    exact (same x off).trans (given.kept x inside)

theorem given_nonnull (given : Given descs h others arenas live size p next) : p ≠ 0 := by
  obtain ⟨more, frees, good, _, ar, here, slot, _⟩ := given.good
  exact slot_nonnull good.shape.words.geometry here slot

theorem calloc_ok (good : Good descs h others arenas frees live)
    (bound : a * b % 2 ^ 32 + 2 * pgsize ≤ 2 ^ 32) :
    calloc descs a b h = .ok (0, h) ∨
      ∃ p next, calloc descs a b h = .ok (p, next) ∧
        Given descs h others arenas live (a * b % 2 ^ 32) p next ∧
        ∀ idx < a * b % 2 ^ 32, next.memory (p + idx) = 0 := by
  unfold calloc
  by_cases wraps : a * b % 2 ^ 32 < a ∨ a * b % 2 ^ 32 < b
  · left
    exact if_pos wraps
  · simp only [if_neg wraps]
    rcases malloc_ok good bound with refused | ⟨p, middle, given_, given⟩
    · left
      rw [refused]
      rfl
    · right
      refine ⟨p, middle.setMemory (memset middle.memory p 0 (a * b % 2 ^ 32)), ?_,
        given_fill given (Nat.le_refl _) memset_same_outside, fun _ inside => memset_filled inside⟩
      rw [given_]
      change (if p ≠ 0 then _ else _) = _
      rw [if_pos (given_nonnull given)]
      rfl

/-- `realloc` has moved the block `old` to `p`. -/
structure Moved (descs : Nat) (h : Heap) (others : List Group) (arenas : Set Arena)
    (live : Set Nat) (old size p : Nat) (next : Heap) : Prop where
  fresh : p ∉ live
  good : ∃ more frees, Good descs next others more frees (insert p (live \ {old})) ∧
    (∃ ar ∈ more, p ∈ ar.slots ∧ size ≤ ar.room) ∧
    ∀ ar ∈ arenas, ∀ b ∈ ar.slots, b ∈ live \ {old} → ar ∈ more
  kept : ∀ x ∈ payload arenas (live \ {old}), next.memory x = h.memory x
  copied : ∀ oldSize, blockSize h.memory old = .ok oldSize →
    ∀ idx < min size oldSize, next.memory (p + idx) = h.memory (old + idx)

theorem moved_ok (good : Good descs h others arenas frees live) (isLive : old ∈ live)
    (given : Given descs h others arenas live size p next) :
    ∃ oldSize after, blockSize next.memory old = .ok oldSize ∧
      free old (next.setMemory (memcpy next.memory p old (min size oldSize))) = .ok after ∧
      Moved descs h others arenas live old size p after := by
  obtain ⟨ar, here, slot⟩ := good.shape.live old isLive
  have room := block_size_ok good.shape.words here slot count_big
  have copySame : SameOutside (Set.Ico p (p + min size ar.room)) next.memory
      (memcpy next.memory p old (min size ar.room)) := memcpy_same_outside
  have filled := given_fill given (Nat.min_le_left size ar.room) copySame
  have nextRoom : blockSize next.memory old = .ok ar.room := by
    obtain ⟨more, _, goodNext, grown, _⟩ := given.good
    exact block_size_ok goodNext.shape.words (grown here) slot count_big
  obtain ⟨more, _, goodFilled, grown, newArena, newHere, newSlot, large⟩ := filled.good
  have geometry := goodFilled.shape.words.geometry
  have different : p ≠ old := by
    intro same
    exact given.fresh (same ▸ isLive)
  have rest : insert p live \ {old} = insert p (live \ {old}) :=
    Set.insert_sdiff_of_notMem _ different
  obtain ⟨after, freed, taken⟩ := free_ok goodFilled (Set.mem_insert_of_mem p isLive)
  have kept := taken.kept
  obtain ⟨less, lessFrees, goodAfter, fewer⟩ := taken.good
  rw [rest] at goodAfter kept
  have notOld : p ∈ insert p (live \ {old}) := Set.mem_insert _ _
  refine ⟨ar.room, after, nextRoom, freed, ?_, ⟨less, lessFrees, goodAfter, ?_⟩, ?_, ?_⟩
  · exact given.fresh
  · constructor
    · obtain ⟨arena, inLess, isSlot⟩ := goodAfter.shape.live p notOld
      refine ⟨arena, inLess, isSlot, ?_⟩
      rw [slot_unique geometry (fewer inLess) newHere isSlot newSlot]
      exact large
    · intro other there b otherSlot alive
      obtain ⟨arena, inLess, isSlot⟩ := goodAfter.shape.live b (Set.mem_insert_of_mem p alive)
      rw [slot_unique geometry (grown there) (fewer inLess) otherSlot isSlot]
      exact inLess
  · intro x inside
    obtain ⟨arena, inArenas, y, ySlot, yLive, low, high⟩ := inside
    have before : x ∈ payload arenas live := ⟨arena, inArenas, y, ySlot, yLive.1, low, high⟩
    have now : x ∈ payload more (insert p (live \ {old})) :=
      ⟨arena, grown inArenas, y, ySlot, Set.mem_insert_of_mem p yLive, low, high⟩
    exact (kept x now).trans (filled.kept x before)
  · intro oldSize isSize idx inside
    rw [room] at isSize
    cases isSize
    have inOld : old + idx ∈ payload arenas live :=
      ⟨ar, here, old, slot, isLive, by omega, by omega⟩
    have inNew : p + idx ∈ payload more (insert p (live \ {old})) :=
      ⟨newArena, newHere, p, newSlot, notOld, by omega, by omega⟩
    have copied : memcpy next.memory p old (min size ar.room) (p + idx) = next.memory (old + idx) :=
      memcpy_copied inside
    exact (kept _ inNew).trans (copied.trans (given.kept _ inOld))

/-- What a `realloc` of nothing or of a live block comes to. -/
inductive Realloced (descs : Nat) (h : Heap) (others : List Group) (arenas : Set Arena)
    (live : Set Nat) (old size : Nat) : Nat → Heap → Prop where
  | kept : (size = 0 → old = 0) → Realloced descs h others arenas live old size 0 h
  | given {p : Nat} {next : Heap} : old = 0 → size ≠ 0 →
      Given descs h others arenas live size p next →
      Realloced descs h others arenas live old size p next
  | taken {next : Heap} : size = 0 → old ∈ live → Taken descs h others arenas live old next →
      Realloced descs h others arenas live old size 0 next
  | moved {p : Nat} {next : Heap} : size ≠ 0 → old ∈ live →
      Moved descs h others arenas live old size p next →
      Realloced descs h others arenas live old size p next

theorem realloc_ok (good : Good descs h others arenas frees live) (held : old = 0 ∨ old ∈ live)
    (bound : size + 2 * pgsize ≤ 2 ^ 32) :
    ∃ p next, realloc descs old size h = .ok (p, next) ∧
      Realloced descs h others arenas live old size p next := by
  unfold realloc
  by_cases zero : size = 0
  · rw [if_pos zero]
    rcases held with none | isLive
    · refine ⟨0, h, ?_, .kept fun _ => none⟩
      rw [none]
      rfl
    · obtain ⟨next, freed, taken⟩ := free_ok good isLive
      refine ⟨0, next, ?_, .taken zero isLive taken⟩
      rw [freed]
      rfl
  · rw [if_neg zero]
    rcases malloc_ok good bound with refused | ⟨p, next, allocated, given⟩
    · refine ⟨0, h, ?_, .kept fun impossible => absurd impossible zero⟩
      rw [refused]
      change (if old ≠ 0 ∧ 0 ≠ 0 then _ else _) = _
      rw [if_neg fun both => both.2 rfl]
      rfl
    · have nonnull := given_nonnull given
      rcases held with none | isLive
      · refine ⟨p, next, ?_, .given none zero given⟩
        rw [allocated]
        change (if old ≠ 0 ∧ p ≠ 0 then _ else _) = _
        rw [if_neg fun both => both.1 none]
        rfl
      · obtain ⟨oldSize, after, isSize, freed, moved⟩ := moved_ok good isLive given
        obtain ⟨ar, here, slot⟩ := good.shape.live old isLive
        have oldNonnull := slot_nonnull good.shape.words.geometry here slot
        refine ⟨p, after, ?_, .moved zero isLive moved⟩
        rw [allocated]
        change (if old ≠ 0 ∧ p ≠ 0 then _ else _) = _
        rw [if_pos ⟨oldNonnull, nonnull⟩, isSize]
        change (free old _ >>= _) = _
        rw [freed]
        rfl

end Filling

end UtSystems.Threads.MallocCalls

import Mathlib.Data.List.Perm.Subperm
import UtSystems.Threads.MallocPages

/-!
# Steps of the heap

What taking a block from a free list and putting it back do to the shape of the heap. Both leave
alone the bytes of the blocks that stay live.
-/

namespace UtSystems.Threads.MallocSteps

open Lib.MemoryWords Threads.KernelLists Threads.Malloc Threads.MallocArenas Threads.MallocPages
open Threads.PageAllocator

set_option autoImplicit false

/-- The bytes of the live blocks. -/
def payload (arenas : Set Arena) (live : Set Nat) : Set Nat :=
  {x | ∃ ar ∈ arenas, ∃ b ∈ ar.slots, b ∈ live ∧ b ≤ x ∧ x < b + ar.room}

section Shapes

variable {descs : Nat} {m after : Memory} {arenas : Set Arena} {frees : FreeLists}
  {live fewer : Set Nat} {ar other : Arena} {b x : Nat} {c d : SizeClass}

theorem payload_mono (less : fewer ⊆ live) : payload arenas fewer ⊆ payload arenas live := by
  intro x ⟨ar, here, b, slot, isLive, inside⟩
  exact ⟨ar, here, b, slot, less isLive, inside⟩

/-- The members of a free list. -/
def listMembers (descs : Nat) (frees : FreeLists) (c : SizeClass) : Set Nat :=
  members (freeList (descAt descs c)) (frees c)

theorem list_members_space (shape : Shape descs m arenas frees live) (c : SizeClass) :
    listMembers descs frees c ⊆ classSpace descs arenas c := by
  intro x member
  rcases member_cases member with isHead | inside | isTail_
  · exact .inl isHead
  · obtain ⟨ar, here, isClass, slot, _⟩ := (shape.free c x).mp inside
    exact .inr (.inr ⟨ar, here, isClass, slot⟩)
  · exact .inr (.inl isTail_)

theorem frees_nodup (shape : Shape descs m arenas frees live) (c : SizeClass) : (frees c).Nodup :=
  (List.nodup_append.mp (List.nodup_cons.mp (shape.lists c).distinct).2).1

theorem slot_nonnull (geometry : Geometry descs arenas) (here : ar ∈ arenas)
    (slot : b ∈ ar.slots) : b ≠ 0 := by
  have nonnull := start_pos geometry here
  have begins := (slot_bounds (geometry.placed ar here) slot).1
  omega

/-- No block is a sentinel. -/
theorem slot_fresh {elems : List Nat} (geometry : Geometry descs arenas) (here : ar ∈ arenas)
    (slot : b ∈ ar.slots) (notIn : b ∉ elems) :
    b ∉ members (freeList (descAt descs c)) elems := by
  intro member
  have begins := (slot_bounds (geometry.placed ar here) slot).1
  have high := (geometry.placed ar here).above
  have place := desc_fits descs c
  rcases member_cases member with isHead | inside | isTail_
  · unfold headOf freeList descSize at *
    omega
  · exact notIn inside
  · unfold tailOf freeList descSize at *
    omega

/-- The links of a free list are in no live block. -/
theorem links_off_payload (shape : Shape descs m arenas frees live)
    (inside : x ∈ linkCells (listMembers descs frees c)) : x ∉ payload arenas live := by
  intro ⟨ar, here, b, slot, isLive, above, below⟩
  have geometry := shape.words.geometry
  have bounds := slot_bounds (geometry.placed ar here) slot
  have high := (geometry.placed ar here).above
  have place := desc_fits descs c
  obtain ⟨elem, member, low, high⟩ := inside
  rcases member_cases member with isHead | isFree | isTail_
  · unfold headOf freeList descSize at *
    omega
  · obtain ⟨other, there, _, otherSlot, notLive⟩ := (shape.free c elem).mp isFree
    have otherBounds := slot_bounds (geometry.placed other there) otherSlot
    have different : elem ≠ b := by
      intro same
      exact notLive (same ▸ isLive)
    have apart := blocks_apart geometry there here otherSlot slot different
    omega
  · unfold tailOf freeList descSize at *
    omega

theorem header_off_payload (geometry : Geometry descs arenas) (here : ar ∈ arenas)
    (above : ar.start ≤ x) (below : x < ar.start + arenaSize) : x ∉ payload arenas live := by
  intro ⟨other, there, b, slot, _, low, high⟩
  have placed := geometry.placed ar here
  have positive := placed.positive
  have bounds := slot_bounds (geometry.placed other there) slot
  by_cases same : ar = other
  · subst same
    omega
  · have apart := geometry.apart ar here other there same
    unfold Apart arenaSize pgsize at *
    omega

theorem lists_frame {cells : Set Nat} (shape : Shape descs m arenas frees live)
    (same : SameOutside cells m after)
    (apart : ∀ c, ∀ x ∈ cells, x ∉ linkCells (listMembers descs frees c)) (c : SizeClass) :
    HasElems after (freeList (descAt descs c)) (frees c) :=
  has_elems_frame (shape.lists c) same (apart c)

theorem count_class (isClass : ar.cls = some c) :
    ar.count frees = (frees c).countP fun b => pgRoundDown b == ar.start := by
  unfold Arena.count
  rw [isClass]

theorem count_big (big : ar.cls = none) : ar.count frees = ar.pages := by
  unfold Arena.count
  rw [big]

/-- The free blocks of an arena. -/
theorem free_here (shape : Shape descs m arenas frees live) (here : ar ∈ arenas) :
    b ∈ (frees c).filter (fun b => pgRoundDown b == ar.start) ↔
      ar.cls = some c ∧ b ∈ ar.slots ∧ b ∉ live := by
  rw [List.mem_filter, beq_iff_eq, shape.free c b]
  constructor
  · intro ⟨⟨other, there, isClass, slot, notLive⟩, page⟩
    have geometry := shape.words.geometry
    have otherPage := slot_page (geometry.placed other there) slot
    have same := start_unique geometry here there (page.symm.trans otherPage)
    rw [same]
    exact ⟨isClass, slot, notLive⟩
  · intro ⟨isClass, slot, notLive⟩
    exact ⟨⟨ar, here, isClass, slot, notLive⟩,
      slot_page (shape.words.geometry.placed ar here) slot⟩

theorem count_le (shape : Shape descs m arenas frees live) (here : ar ∈ arenas)
    (isClass : ar.cls = some c) : ar.count frees ≤ classBlocks c := by
  rw [count_class isClass, List.countP_eq_length_filter, ← slots_length isClass]
  apply List.Subperm.length_le
  apply List.subperm_of_subset ((frees_nodup shape c).filter _)
  intro b member
  exact ((free_here shape here).mp member).2.1

/-- The count is full if and only if no block of the arena is live. -/
theorem count_full (shape : Shape descs m arenas frees live) (here : ar ∈ arenas)
    (isClass : ar.cls = some c) :
    ar.count frees = classBlocks c ↔ ∀ b ∈ ar.slots, b ∉ live := by
  have least := count_le shape here isClass
  have subperm : ((frees c).filter fun b => pgRoundDown b == ar.start).Subperm ar.slots := by
    apply List.subperm_of_subset ((frees_nodup shape c).filter _)
    intro b member
    exact ((free_here shape here).mp member).2.1
  rw [count_class isClass, List.countP_eq_length_filter, ← slots_length isClass] at least ⊢
  constructor
  · intro full b slot
    have perm := subperm.perm_of_length_le (Nat.le_of_eq full.symm)
    exact ((free_here shape here).mp (perm.mem_iff.mpr slot)).2.2
  · intro none
    apply Nat.le_antisymm least
    apply List.Subperm.length_le
    apply List.subperm_of_subset slots_nodup
    intro b slot
    exact (free_here shape here).mpr ⟨isClass, slot, none b slot⟩

/-- Where other code may write: into live blocks, and outside of the heap and its descriptors. -/
def Writable (descs : Nat) (arenas : Set Arena) (live : Set Nat) : Set Nat :=
  {x | x ∈ payload arenas live ∨ ((x < descs ∨ descs + 10 * descSize ≤ x) ∧
    ∀ ar ∈ arenas, x < ar.start ∨ ar.start + pgsize * ar.pages ≤ x)}

theorem writable_header (geometry : Geometry descs arenas) (inside : x ∈ Writable descs arenas live)
    (here : ar ∈ arenas) : x < ar.start ∨ ar.start + arenaSize ≤ x := by
  rcases inside with isPayload | ⟨_, outside⟩
  · by_contra within
    exact header_off_payload geometry here (by omega) (by omega) isPayload
  · have away := outside ar here
    have positive := (geometry.placed ar here).positive
    unfold arenaSize pgsize at *
    omega

theorem writable_desc (geometry : Geometry descs arenas) (inside : x ∈ Writable descs arenas live)
    (c : SizeClass) : x < descAt descs c ∨ descAt descs c + descSize ≤ x := by
  have place := desc_fits descs c
  rcases inside with ⟨ar, here, b, slot, _, above, _⟩ | ⟨outside, _⟩
  · have high := (geometry.placed ar here).above
    have bounds := slot_bounds (geometry.placed ar here) slot
    omega
  · omega

theorem writable_links (shape : Shape descs m arenas frees live)
    (inside : x ∈ Writable descs arenas live) (c : SizeClass) :
    x ∉ linkCells (listMembers descs frees c) := by
  intro isLink
  have geometry := shape.words.geometry
  have offDesc := writable_desc geometry inside c
  rcases class_cells (link_cells_mono (list_members_space shape c) isLink) with
    ⟨above, below⟩ | ⟨ar, here, _, b, slot, above, below⟩
  · unfold descSize at offDesc
    omega
  · rcases inside with isPayload | ⟨_, outside⟩
    · exact links_off_payload shape isLink isPayload
    · have away := outside ar here
      have bounds := slot_bounds (geometry.placed ar here) slot
      omega

/-- Other code keeps the shape of the heap. -/
theorem shape_write (shape : Shape descs m arenas frees live)
    (same : SameOutside (Writable descs arenas live) m after) :
    Shape descs after arenas frees live where
  words := by
    apply words_frame shape.words same
    · intro ar here x inside
      exact writable_header shape.words.geometry inside here
    · intro c x inside
      have := writable_desc shape.words.geometry inside c
      unfold descSize at this
      omega
  lists := lists_frame shape same fun c _ inside => writable_links shape inside c
  free := shape.free
  live := shape.live

end Shapes

section Taking

variable {descs : Nat} {h : Heap} {m after : Memory} {arenas : Set Arena} {frees more : FreeLists}
  {live : Set Nat} {ar other : Arena} {b : Nat} {rest : List Nat} {c : SizeClass}

/-- A block at the front of a free list counts in its arena and nowhere else. -/
theorem count_moved {less full : FreeLists} (geometry : Geometry descs arenas) (here : ar ∈ arenas)
    (isClass : ar.cls = some c) (slot : b ∈ ar.slots) (cons : full c = b :: less c)
    (rest : ∀ d, d ≠ c → full d = less d) (there : other ∈ arenas) :
    other.count full = other.count less + if other = ar then 1 else 0 := by
  cases otherClass : other.cls with
  | none =>
      have different : other ≠ ar := by
        intro same
        rw [same, isClass] at otherClass
        cases otherClass
      rw [count_big otherClass, count_big otherClass, if_neg different]
      rfl
  | some d =>
      rw [count_class otherClass, count_class otherClass]
      by_cases isC : d = c
      · subst isC
        rw [cons, List.countP_cons, slot_page (geometry.placed ar here) slot]
        by_cases same : other = ar
        · rw [same, if_pos (beq_self_eq_true _), if_pos rfl]
        · have starts : ar.start ≠ other.start := by
            intro equal
            exact same (start_unique geometry there here equal.symm)
          rw [if_neg same, beq_false_of_ne starts, if_neg Bool.false_ne_true]
      · have different : other ≠ ar := by
          intro same
          rw [same, isClass] at otherClass
          exact isC (Option.some.inj otherClass).symm
        rw [rest d isC, if_neg different]
        rfl

/-- Setting the `free_cnt` of an arena, when the lists have changed already. -/
theorem shape_set_cnt {counts : Arena → Nat} (words : Words descs m arenas counts)
    (here : ar ∈ arenas)
    (lists : ∀ c : SizeClass, HasElems m (freeList (descAt descs c)) (more c))
    (free : ∀ c b, b ∈ more c ↔ ∃ ar ∈ arenas, ar.cls = some c ∧ b ∈ ar.slots ∧ b ∉ live)
    (isLive : ∀ b ∈ live, ∃ ar ∈ arenas, b ∈ ar.slots)
    (rest : ∀ other ∈ arenas, other ≠ ar → other.count more = counts other)
    (small : ar.count more < 2 ^ 32) :
    Shape descs (setFreeCnt m ar.start (ar.count more)) arenas more live where
  words := words_set_cnt words here small rest rfl
  lists := by
    intro c
    have same : SameOutside (Set.Ico (ar.start + 8) (ar.start + 8 + 4)) m
        (setFreeCnt m ar.start (ar.count more)) := store_same_outside
    apply has_elems_frame (lists c) same
    intro x inside isLink
    rw [Set.mem_Ico] at inside
    have space : members (freeList (descAt descs c)) (more c) ⊆ classSpace descs arenas c := by
      intro y member
      rcases member_cases member with isHead | isFree | isTail_
      · exact .inl isHead
      · obtain ⟨other, there, isClass, slot, _⟩ := (free c y).mp isFree
        exact .inr (.inr ⟨other, there, isClass, slot⟩)
      · exact .inr (.inl isTail_)
    have away := class_cells_header words.geometry (link_cells_mono space isLink) here
    unfold arenaSize at away
    omega
  free := free
  live := isLive

theorem set_cnt_same_outside {cnt : Nat} :
    SameOutside (Set.Ico ar.start (ar.start + arenaSize)) m (setFreeCnt m ar.start cnt) := by
  apply same_outside_mono store_same_outside
  intro x inside
  rw [Set.mem_Ico] at inside ⊢
  unfold arenaSize
  omega

theorem count_small (shape : Shape descs m arenas frees live) (here : ar ∈ arenas) :
    ar.count frees < 2 ^ 32 := by
  rw [← shape.words.count ar here]
  exact load_word_lt

/-- Operations on the list of one class leave the lists of the other classes alone. -/
theorem lists_update (shape : Shape descs m arenas frees live)
    (same : SameOutside (linkCells (classSpace descs arenas c)) m after)
    (has : HasElems after (freeList (descAt descs c)) rest) (d : SizeClass) :
    HasElems after (freeList (descAt descs d)) (Function.update frees c rest d) := by
  by_cases isC : d = c
  · subst isC
    rw [Function.update_self]
    exact has
  · rw [Function.update_of_ne isC]
    apply has_elems_frame (shape.lists d) same
    intro x inside isLink
    exact class_cells_other shape.words.geometry (Ne.symm isC) inside
      (link_cells_mono (list_members_space shape d) isLink)

/-- `malloc` takes the first block of a free list that has one. -/
theorem take_block_ok (shape : Shape descs h.memory arenas frees live)
    (some_ : frees c = b :: rest) :
    ∃ m, takeBlock (descAt descs c) h = .ok (b, h.setMemory m) ∧ b ∉ live ∧
      (∃ ar ∈ arenas, ar.cls = some c ∧ b ∈ ar.slots) ∧
      Shape descs m arenas (Function.update frees c rest) (insert b live) ∧
      ∀ x ∈ payload arenas live, m x = h.memory x := by
  have geometry := shape.words.geometry
  have space := list_members_space shape c
  have has := shape.lists c
  unfold listMembers at space
  rw [some_] at has space
  have firstFree : b ∈ frees c := by
    rw [some_]
    exact List.mem_cons_self
  obtain ⟨ar, here, isClass, slot, notLive⟩ := (shape.free c b).mp firstFree
  have nodup := frees_nodup shape c
  rw [some_] at nodup
  obtain ⟨m1, popped, left, same⟩ := list_pop_front_ok (class_spaced geometry) space has
  have classSame : SameOutside (linkCells (classSpace descs arenas c)) h.memory m1 :=
    same_outside_mono same (link_cells_mono space)
  have words := words_class shape.words classSame
  let more := Function.update frees c rest
  have listed := lists_update shape classSame left
  have free : ∀ d y, y ∈ more d ↔
      ∃ ar ∈ arenas, ar.cls = some d ∧ y ∈ ar.slots ∧ y ∉ insert b live := by
    intro d y
    have before := shape.free d y
    rw [Set.mem_insert_iff, not_or]
    by_cases isC : d = c
    · subst isC
      change y ∈ Function.update frees d rest d ↔ _
      rw [Function.update_self]
      rw [some_, List.mem_cons] at before
      constructor
      · intro inRest
        obtain ⟨other, there, otherClass, otherSlot, otherFree⟩ := before.mp (.inr inRest)
        refine ⟨other, there, otherClass, otherSlot, ?_, otherFree⟩
        intro isFirst
        exact (List.nodup_cons.mp nodup).1 (isFirst ▸ inRest)
      · intro ⟨other, there, otherClass, otherSlot, notFirst, otherFree⟩
        exact (before.mpr ⟨other, there, otherClass, otherSlot, otherFree⟩).resolve_left notFirst
    · change y ∈ Function.update frees c rest d ↔ _
      rw [Function.update_of_ne isC, before]
      constructor
      · intro ⟨other, there, otherClass, otherSlot, otherFree⟩
        refine ⟨other, there, otherClass, otherSlot, ?_, otherFree⟩
        intro isFirst
        rw [isFirst] at otherSlot
        rw [slot_unique geometry there here otherSlot slot, isClass] at otherClass
        exact isC (Option.some.inj otherClass).symm
      · intro ⟨other, there, otherClass, otherSlot, _, otherFree⟩
        exact ⟨other, there, otherClass, otherSlot, otherFree⟩
  have moved : ∀ other ∈ arenas,
      other.count frees = other.count more + if other = ar then 1 else 0 := by
    intro other there
    apply count_moved geometry here isClass slot _ _ there
    · rw [some_]
      exact congrArg (List.cons b) (Function.update_self c rest frees).symm
    · intro d isC
      exact (Function.update_of_ne isC rest frees).symm
  have counted := moved ar here
  rw [if_pos rfl] at counted
  have kept : ∀ other ∈ arenas, other ≠ ar → other.count more = other.count frees := by
    intro other there different
    rw [moved other there, if_neg different, Nat.add_zero]
  have small := count_small shape here
  have fits : ar.count more < 2 ^ 32 := by omega
  have shape' := shape_set_cnt words here listed free
    (by
      intro y isLive
      rcases Set.mem_insert_iff.mp isLive with isFirst | old
      · exact ⟨ar, here, isFirst ▸ slot⟩
      · exact shape.live y old) kept fits
  have count : (freeCnt m1 ar.start + 2 ^ 32 - 1) % 2 ^ 32 = ar.count more := by
    rw [words.count ar here, counted]
    omega
  refine ⟨setFreeCnt m1 ar.start (ar.count more), ?_, notLive, ⟨ar, here, isClass, slot⟩, shape',
    ?_⟩
  · unfold takeBlock
    rw [popped]
    change (blockToArena m1 b >>= _) = _
    rw [block_to_arena_ok words here slot]
    change Except.ok (b, h.setMemory (setFreeCnt m1 ar.start
      ((freeCnt m1 ar.start + 2 ^ 32 - 1) % 2 ^ 32))) = _
    rw [count]
  · intro x inside
    have offHeader : x ∉ Set.Ico ar.start (ar.start + arenaSize) := by
      intro within
      rw [Set.mem_Ico] at within
      exact header_off_payload geometry here within.1 within.2 inside
    have offLinks : x ∉ linkCells (members (freeList (descAt descs c)) (b :: rest)) := by
      intro within
      rw [← some_] at within
      exact links_off_payload shape within inside
    exact (set_cnt_same_outside x offHeader).trans (same x offLinks)

end Taking

section Putting

variable {descs : Nat} {h : Heap} {m after : Memory} {arenas : Set Arena} {frees : FreeLists}
  {live : Set Nat} {ar : Arena} {b : Nat} {c : SizeClass}

theorem put_block_ok (shape : Shape descs m arenas frees live) (here : ar ∈ arenas)
    (isClass : ar.cls = some c) (slot : b ∈ ar.slots) (isLive : b ∈ live) :
    ∃ after, putBlock m (descAt descs c) ar.start b = .ok after ∧
      Shape descs after arenas (Function.update frees c (b :: frees c)) (live \ {b}) ∧
      ∀ x ∈ payload arenas (live \ {b}), after x = m x := by
  have geometry := shape.words.geometry
  have size : blockSizeOf m (descAt descs c) = ar.room :=
    (shape.words.size c).trans (room_class isClass).symm
  let m1 := memset m b 0xcc (blockSizeOf m (descAt descs c))
  have cleared : SameOutside (Set.Ico b (b + ar.room)) m m1 := by
    rw [← size]
    exact memset_same_outside
  have inBlock : Set.Ico b (b + ar.room) ⊆ Writable descs arenas live := by
    intro x inside
    rw [Set.mem_Ico] at inside
    exact .inl ⟨ar, here, b, slot, isLive, inside.1, inside.2⟩
  have shape1 : Shape descs m1 arenas frees live := shape_write shape (same_outside_mono cleared inBlock)
  have space := list_members_space shape1 c
  have inSpace : b ∈ classSpace descs arenas c := .inr (.inr ⟨ar, here, isClass, slot⟩)
  have notFree : b ∉ frees c := by
    intro isFree
    obtain ⟨_, _, _, _, notLive⟩ := (shape.free c b).mp isFree
    exact notLive isLive
  obtain ⟨m2, pushed, has, same⟩ := list_push_front_ok (class_spaced geometry) space
    (shape1.lists c) inSpace (slot_nonnull geometry here slot)
    (slot_fresh geometry here slot notFree)
  have grown : members (freeList (descAt descs c)) (b :: frees c) ⊆ classSpace descs arenas c :=
    members_grown space inSpace fun _ => List.mem_cons
  have classSame : SameOutside (linkCells (classSpace descs arenas c)) m1 m2 :=
    same_outside_mono same (link_cells_mono grown)
  have words := words_class shape1.words classSame
  have listed := lists_update shape1 classSame has
  let more := Function.update frees c (b :: frees c)
  have free : ∀ d y, y ∈ more d ↔
      ∃ ar ∈ arenas, ar.cls = some d ∧ y ∈ ar.slots ∧ y ∉ live \ {b} := by
    intro d y
    have before := shape.free d y
    rw [Set.mem_sdiff, Set.mem_singleton_iff, not_and_not_right]
    by_cases isC : d = c
    · subst isC
      change y ∈ Function.update frees d (b :: frees d) d ↔ _
      rw [Function.update_self, List.mem_cons, before]
      constructor
      · intro member
        rcases member with isB | ⟨other, there, otherClass, otherSlot, notLive⟩
        · exact ⟨ar, here, isClass, isB ▸ slot, fun _ => isB⟩
        · exact ⟨other, there, otherClass, otherSlot, fun impossible => absurd impossible notLive⟩
      · intro ⟨other, there, otherClass, otherSlot, only⟩
        by_cases isB : y = b
        · exact .inl isB
        · exact .inr ⟨other, there, otherClass, otherSlot, fun alive => isB (only alive)⟩
    · change y ∈ Function.update frees c (b :: frees c) d ↔ _
      rw [Function.update_of_ne isC, before]
      constructor
      · intro ⟨other, there, otherClass, otherSlot, notLive⟩
        exact ⟨other, there, otherClass, otherSlot, fun impossible => absurd impossible notLive⟩
      · intro ⟨other, there, otherClass, otherSlot, only⟩
        refine ⟨other, there, otherClass, otherSlot, ?_⟩
        intro alive
        have isB := only alive
        rw [isB] at otherSlot
        rw [slot_unique geometry there here otherSlot slot, isClass] at otherClass
        exact isC (Option.some.inj otherClass).symm
  have moved : ∀ other ∈ arenas,
      other.count more = other.count frees + if other = ar then 1 else 0 := by
    intro other there
    apply count_moved geometry here isClass slot _ _ there
    · exact Function.update_self c (b :: frees c) frees
    · intro d isC
      exact Function.update_of_ne isC (b :: frees c) frees
  have counted := moved ar here
  rw [if_pos rfl] at counted
  have kept : ∀ other ∈ arenas, other ≠ ar → other.count more = other.count frees := by
    intro other there different
    rw [moved other there, if_neg different, Nat.add_zero]
  have least := count_le shape here isClass
  have few := (class_bounds c).2.2.2.1
  have fits : ar.count more < 2 ^ 32 := by omega
  have shape2 := shape_set_cnt words here listed free
    (fun y inside => shape.live y inside.1) kept fits
  have count : (freeCnt m2 ar.start + 1) % 2 ^ 32 = ar.count more := by
    rw [words.count ar here, counted]
    omega
  refine ⟨setFreeCnt m2 ar.start (ar.count more), ?_, shape2, ?_⟩
  · unfold putBlock
    change (listPushFront m1 (freeList (descAt descs c)) b >>= _) = _
    rw [pushed]
    change Except.ok (setFreeCnt m2 ar.start ((freeCnt m2 ar.start + 1) % 2 ^ 32)) = _
    rw [count]
  · intro x inside
    have offHeader : x ∉ Set.Ico ar.start (ar.start + arenaSize) := by
      intro within
      rw [Set.mem_Ico] at within
      exact header_off_payload geometry here within.1 within.2 inside
    have offBlock : x ∉ Set.Ico b (b + ar.room) := by
      intro within
      rw [Set.mem_Ico] at within
      obtain ⟨other, there, y, otherSlot, ⟨_, notB⟩, low, high⟩ := inside
      have apart := blocks_apart geometry here there slot otherSlot (fun same => notB same.symm)
      omega
    have offLinks : x ∉ linkCells (members (freeList (descAt descs c)) (b :: frees c)) := by
      intro ⟨elem, member, low, high⟩
      rcases member_cases member with isHead | isFree | isTail_
      · exact links_off_payload shape ⟨elem, isHead ▸ head_member, low, high⟩
          (payload_mono Set.sdiff_subset inside)
      · rcases List.mem_cons.mp isFree with isB | older
        · apply offBlock
          have least := (slot_bounds (geometry.placed ar here) slot).2.2.2
          rw [Set.mem_Ico]
          omega
        · exact links_off_payload shape ⟨elem, elem_member older, low, high⟩
            (payload_mono Set.sdiff_subset inside)
      · exact links_off_payload shape ⟨elem, isTail_ ▸ tail_member, low, high⟩
          (payload_mono Set.sdiff_subset inside)
    exact (set_cnt_same_outside x offHeader).trans ((same x offLinks).trans (cleared x offBlock))

end Putting

end UtSystems.Threads.MallocSteps

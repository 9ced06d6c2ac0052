import UtSystems.Threads.MallocSteps

/-!
# Arenas that come and go

A class without a free block gets a new arena, all of whose blocks go to the free list, and an
arena without a live block goes back to the page allocator after they have left it. A big block
comes and goes with its arena.
-/

namespace UtSystems.Threads.MallocTurnover

open Lib.MemoryWords Threads.KernelLists Threads.Malloc Threads.MallocArenas Threads.MallocSteps
open Threads.PageAllocator

set_option autoImplicit false

section Loops

variable {descs : Nat} {arenas : Set Arena} {counts : Arena → Nat} {ar : Arena} {c : SizeClass}

/-- The address of a block. -/
def slotAt (ar : Arena) (c : SizeClass) (idx : Nat) : Nat := ar.start + arenaSize + idx * classSize c

theorem slots_eq (isClass : ar.cls = some c) :
    ar.slots = (List.range (classBlocks c)).map (slotAt ar c) := by
  unfold Arena.slots
  rw [isClass]
  rfl

theorem slot_at_mem (isClass : ar.cls = some c) {idx : Nat} (inside : idx < classBlocks c) :
    slotAt ar c idx ∈ ar.slots :=
  (mem_slots isClass).mpr ⟨idx, inside, rfl⟩

theorem slot_at_injective {first second : Nat} (same : slotAt ar c first = slotAt ar c second) :
    first = second :=
  Nat.eq_of_mul_eq_mul_right (class_size_pos c) (Nat.add_left_cancel same)

/-- The loop of `free` that takes all blocks of an arena from the free list. -/
theorem remove_blocks_ok (here : ar ∈ arenas) (isClass : ar.cls = some c) (idxs : List Nat)
    (nodup : idxs.Nodup) (bounds : ∀ idx ∈ idxs, idx < classBlocks c) (m : Memory)
    (elems : List Nat) (words : Words descs m arenas counts)
    (has : HasElems m (freeList (descAt descs c)) elems)
    (space : members (freeList (descAt descs c)) elems ⊆ classSpace descs arenas c)
    (listed : ∀ idx ∈ idxs, slotAt ar c idx ∈ elems) :
    ∃ after, idxs.foldlM (removeBlock ar.start) m = .ok after ∧
      HasElems after (freeList (descAt descs c)) (elems.diff (idxs.map (slotAt ar c))) ∧
      SameOutside (linkCells (members (freeList (descAt descs c)) elems)) m after := by
  induction idxs generalizing m elems with
  | nil => exact ⟨m, rfl, has, same_outside_refl⟩
  | cons idx idxs ih =>
      obtain ⟨fresh, once⟩ := List.nodup_cons.mp nodup
      obtain ⟨m1, removed, left, same⟩ := list_remove_ok (class_spaced words.geometry) space has
        (listed idx List.mem_cons_self)
      have fewer : members (freeList (descAt descs c)) (elems.erase (slotAt ar c idx)) ⊆
          members (freeList (descAt descs c)) elems :=
        members_mono fun _ => List.mem_of_mem_erase
      obtain ⟨after, looped, all, sameLater⟩ := ih once
        (fun other inside => bounds other (List.mem_cons_of_mem _ inside)) m1
        (elems.erase (slotAt ar c idx))
        (words_class words (same_outside_mono same (link_cells_mono space))) left
        (fewer.trans space)
        (by
          intro other inside
          apply (List.mem_erase_of_ne _).mpr (listed other (List.mem_cons_of_mem _ inside))
          intro equal
          exact fresh (slot_at_injective equal ▸ inside))
      refine ⟨after, ?_, ?_, ?_⟩
      · rw [List.foldlM_cons]
        unfold removeBlock
        rw [arena_to_block_ok words here isClass (bounds idx List.mem_cons_self)]
        change ((listRemove m (slotAt ar c idx) >>= fun result => Except.ok result.2) >>= _) = _
        rw [removed]
        exact looped
      · rw [List.map_cons, List.diff_cons]
        exact all
      · exact same_outside_trans same (same_outside_mono sameLater (link_cells_mono fewer))

/-- The loop of `malloc` that puts all blocks of a new arena on the free list. -/
theorem add_blocks_ok (here : ar ∈ arenas) (isClass : ar.cls = some c) (idxs : List Nat)
    (nodup : idxs.Nodup) (bounds : ∀ idx ∈ idxs, idx < classBlocks c) (m : Memory)
    (elems : List Nat) (words : Words descs m arenas counts)
    (has : HasElems m (freeList (descAt descs c)) elems)
    (space : members (freeList (descAt descs c)) elems ⊆ classSpace descs arenas c)
    (fresh : ∀ idx ∈ idxs, slotAt ar c idx ∉ elems) :
    ∃ after, idxs.foldlM (addBlock (descAt descs c) ar.start) m = .ok after ∧
      HasElems after (freeList (descAt descs c)) (elems ++ idxs.map (slotAt ar c)) ∧
      SameOutside (linkCells (members (freeList (descAt descs c))
        (elems ++ idxs.map (slotAt ar c)))) m after := by
  induction idxs generalizing m elems with
  | nil =>
      rw [List.map_nil, List.append_nil]
      exact ⟨m, rfl, has, same_outside_refl⟩
  | cons idx idxs ih =>
      obtain ⟨notLater, once⟩ := List.nodup_cons.mp nodup
      have geometry := words.geometry
      have slot := slot_at_mem isClass (bounds idx List.mem_cons_self)
      have inSpace : slotAt ar c idx ∈ classSpace descs arenas c :=
        .inr (.inr ⟨ar, here, isClass, slot⟩)
      obtain ⟨m1, pushed, more, same⟩ := list_push_back_ok (class_spaced geometry) space has inSpace
        (slot_nonnull geometry here slot)
        (slot_fresh geometry here slot (fresh idx List.mem_cons_self))
      have grown : members (freeList (descAt descs c)) (elems ++ [slotAt ar c idx]) ⊆
          classSpace descs arenas c := by
        apply members_grown space inSpace
        intro x
        rw [List.mem_append, List.mem_singleton, or_comm]
      obtain ⟨after, looped, all, sameLater⟩ := ih once
        (fun other inside => bounds other (List.mem_cons_of_mem _ inside)) m1
        (elems ++ [slotAt ar c idx])
        (words_class words (same_outside_mono same (link_cells_mono grown))) more grown
        (by
          intro other inside
          rw [List.mem_append, List.mem_singleton, not_or]
          refine ⟨fresh other (List.mem_cons_of_mem _ inside), ?_⟩
          intro equal
          exact notLater (slot_at_injective equal ▸ inside))
      rw [List.append_assoc, List.singleton_append] at all sameLater
      refine ⟨after, ?_, all, ?_⟩
      · rw [List.foldlM_cons]
        unfold addBlock
        rw [arena_to_block_ok words here isClass (bounds idx List.mem_cons_self)]
        change (listPushBack m (freeList (descAt descs c)) (slotAt ar c idx) >>= _) = _
        rw [pushed]
        exact looped
      · apply same_outside_trans (same_outside_mono same _) sameLater
        apply link_cells_mono
        apply members_mono
        intro x inside
        rcases List.mem_append.mp inside with older | isSlot
        · exact List.mem_append_left _ older
        · rw [List.mem_singleton.mp isSlot]
          exact List.mem_append_right _ List.mem_cons_self

end Loops

section Arenas

variable {descs : Nat} {m after : Memory} {arenas : Set Arena} {frees : FreeLists}
  {live : Set Nat} {ar other : Arena} {b x : Nat} {c : SizeClass}

/-- The lists do not know an arena that is not there. -/
theorem header_off_links (shape : Shape descs m arenas frees live) (placed : Placed descs ar)
    (apart : ∀ other ∈ arenas, Apart ar other) (inside : x ∈ Set.Ico ar.start (ar.start + arenaSize))
    (c : SizeClass) : x ∉ linkCells (listMembers descs frees c) := by
  intro isLink
  rw [Set.mem_Ico] at inside
  have above := placed.above
  have positive := placed.positive
  have place := desc_fits descs c
  rcases class_cells (link_cells_mono (list_members_space shape c) isLink) with
    ⟨_, below⟩ | ⟨other, there, _, b, slot, low, high⟩
  · unfold descSize at *
    omega
  · have away := apart other there
    have bounds := slot_bounds (shape.words.geometry.placed other there) slot
    unfold Apart arenaSize pgsize at *
    omega

theorem header_off_others (geometry : Geometry descs arenas) (placed : Placed descs ar)
    (apart : ∀ other ∈ arenas, Apart ar other) (inside : x ∈ Set.Ico ar.start (ar.start + arenaSize)) :
    x ∉ payload arenas live := by
  intro ⟨other, there, b, slot, _, low, high⟩
  rw [Set.mem_Ico] at inside
  have positive := placed.positive
  have away := apart other there
  have bounds := slot_bounds (geometry.placed other there) slot
  unfold Apart arenaSize pgsize at *
  omega

theorem page_elsewhere (geometry : Geometry descs arenas) (placed : Placed descs ar)
    (apart : Apart ar other) (there : other ∈ arenas) (slot : b ∈ other.slots) :
    b ∉ ar.slots := by
  intro here
  have mine := slot_bounds placed here
  have theirs := slot_bounds (geometry.placed other there) slot
  unfold Apart at apart
  omega

/-- `malloc` gives a big block pages of its own. -/
theorem big_arena_ok (shape : Shape descs m arenas frees live) (placed : Placed descs ar)
    (apart : ∀ other ∈ arenas, Apart ar other) (big : ar.cls = none) :
    Shape descs (setArena m ar.start 0 ar.pages) (insert ar arenas) frees
      (insert (ar.start + arenaSize) live) ∧
      ar.start + arenaSize ∉ live ∧
      ∀ x ∈ payload arenas live, setArena m ar.start 0 ar.pages x = m x := by
  have geometry := shape.words.geometry
  have slot : ar.start + arenaSize ∈ ar.slots := (mem_big_slots big).mpr rfl
  have few : ar.pages < 2 ^ 32 := by
    have fits := placed.fits
    unfold pgsize at fits
    omega
  have words := words_new shape.words placed apart
    (by rw [desc_big big]; decide : ar.desc descs < 2 ^ 32) few (fun _ _ => rfl) (count_big big)
  rw [desc_big big] at words
  have fresh : ar.start + arenaSize ∉ live := by
    intro isLive
    obtain ⟨other, there, otherSlot⟩ := shape.live _ isLive
    exact page_elsewhere geometry placed (apart other there) there otherSlot slot
  refine ⟨?_, fresh, ?_⟩
  · exact {
      words := words
      lists := lists_frame shape set_arena_same_outside
        fun c _ inside => header_off_links shape placed apart inside c
      free := by
        intro c b
        rw [shape.free c b]
        constructor
        · intro ⟨other, there, isClass, otherSlot, notLive⟩
          refine ⟨other, Set.mem_insert_of_mem _ there, isClass, otherSlot, ?_⟩
          rw [Set.mem_insert_iff, not_or]
          refine ⟨?_, notLive⟩
          intro isNew
          rw [isNew] at otherSlot
          exact page_elsewhere geometry placed (apart other there) there otherSlot slot
        · intro ⟨other, there, isClass, otherSlot, notLive⟩
          rw [Set.mem_insert_iff, not_or] at notLive
          rcases Set.mem_insert_iff.mp there with isNew | old
          · rw [isNew, big] at isClass
            cases isClass
          · exact ⟨other, old, isClass, otherSlot, notLive.2⟩
      live := by
        intro b isLive
        rcases Set.mem_insert_iff.mp isLive with isNew | old
        · exact ⟨ar, Set.mem_insert _ _, isNew ▸ slot⟩
        · obtain ⟨other, there, otherSlot⟩ := shape.live b old
          exact ⟨other, Set.mem_insert_of_mem _ there, otherSlot⟩ }
  · intro x inside
    apply set_arena_same_outside
    intro within
    exact header_off_others geometry placed apart within inside

/-- `malloc` divides a new page into blocks of a class that has no free block. -/
theorem new_arena_ok (shape : Shape descs m arenas frees live) (placed : Placed descs ar)
    (apart : ∀ other ∈ arenas, Apart ar other) (isClass : ar.cls = some c)
    (empty : frees c = []) :
    ∃ after,
      (List.range (classBlocks c)).foldlM (addBlock (descAt descs c) ar.start)
        (setArena m ar.start (descAt descs c) (classBlocks c)) = .ok after ∧
      Shape descs after (insert ar arenas) (Function.update frees c ar.slots) live ∧
      ∀ x ∈ payload arenas live, after x = m x := by
  have geometry := shape.words.geometry
  let m1 := setArena m ar.start (descAt descs c) (classBlocks c)
  let more := Function.update frees c ar.slots
  have descFits : ar.desc descs < 2 ^ 32 := by
    have place := desc_fits descs c
    have low := geometry.low
    rw [desc_class isClass]
    unfold descSize at *
    omega
  have few := (class_bounds c).2.2.2.1
  have inMore : more c = ar.slots := Function.update_self c ar.slots frees
  have notLive : ∀ b ∈ ar.slots, b ∉ live := by
    intro b slot isLive
    obtain ⟨other, there, otherSlot⟩ := shape.live b isLive
    exact page_elsewhere geometry placed (apart other there) there otherSlot slot
  have here : ar ∈ insert ar arenas := Set.mem_insert _ _
  have newCount : ar.count more = classBlocks c := by
    rw [count_class isClass, inMore, ← slots_length isClass, List.countP_eq_length]
    intro b slot
    exact beq_iff_eq.mpr (slot_page placed slot)
  have oldCount : ∀ other ∈ arenas, other.count more = other.count frees := by
    intro other there
    cases otherClass : other.cls with
    | none => rw [count_big otherClass, count_big otherClass]
    | some d =>
        rw [count_class otherClass, count_class otherClass]
        by_cases isC : d = c
        · subst isC
          rw [inMore, empty, List.countP_nil, List.countP_eq_zero]
          intro b slot page
          have starts := (slot_page placed slot).symm.trans (beq_iff_eq.mp page)
          have away := apart other there
          have positive := placed.positive
          have otherPositive := (geometry.placed other there).positive
          unfold Apart pgsize at away
          omega
        · change List.countP _ (Function.update frees c ar.slots d) = _
          rw [Function.update_of_ne isC]
  have words : Words descs m1 (insert ar arenas) (Arena.count more) := by
    have all := words_new shape.words placed apart descFits
      (by omega : classBlocks c < 2 ^ 32) oldCount newCount
    rw [desc_class isClass] at all
    exact all
  have headed : ∀ d : SizeClass, HasElems m1 (freeList (descAt descs d)) (frees d) :=
    lists_frame shape set_arena_same_outside
      fun d _ inside => header_off_links shape placed apart inside d
  have hasNone := headed c
  rw [empty] at hasNone
  have space : members (freeList (descAt descs c)) [] ⊆ classSpace descs (insert ar arenas) c := by
    intro x member
    rcases member_cases member with isHead | inside | isTail_
    · exact .inl isHead
    · cases inside
    · exact .inr (.inl isTail_)
  obtain ⟨m2, looped, has, same⟩ := add_blocks_ok here isClass (List.range (classBlocks c))
    List.nodup_range (fun idx inside => List.mem_range.mp inside) m1 [] words hasNone space
    fun _ _ => List.not_mem_nil
  rw [List.nil_append, ← slots_eq isClass] at has same
  have grown : members (freeList (descAt descs c)) ar.slots ⊆
      classSpace descs (insert ar arenas) c := by
    intro x member
    rcases member_cases member with isHead | slot | isTail_
    · exact .inl isHead
    · exact .inr (.inr ⟨ar, here, isClass, slot⟩)
    · exact .inr (.inl isTail_)
  have classSame : SameOutside (linkCells (classSpace descs (insert ar arenas) c)) m1 m2 :=
    same_outside_mono same (link_cells_mono grown)
  refine ⟨m2, looped, ?_, ?_⟩
  · exact {
      words := words_class words classSame
      lists := by
        intro d
        by_cases isC : d = c
        · subst isC
          rw [Function.update_self]
          exact has
        · rw [Function.update_of_ne isC]
          apply has_elems_frame (headed d) classSame
          intro x inside isLink
          apply class_cells_other words.geometry (Ne.symm isC) inside
          apply link_cells_mono _ (link_cells_mono (list_members_space shape d) isLink)
          intro y member
          rcases member with isHead | isTail_ | ⟨other, there, otherClass, slot⟩
          · exact .inl isHead
          · exact .inr (.inl isTail_)
          · exact .inr (.inr ⟨other, Set.mem_insert_of_mem _ there, otherClass, slot⟩)
      free := by
        intro d b
        have before := shape.free d b
        by_cases isC : d = c
        · subst isC
          rw [Function.update_self]
          rw [empty] at before
          constructor
          · exact fun slot => ⟨ar, here, isClass, slot, notLive b slot⟩
          · intro ⟨other, there, otherClass, slot, free⟩
            rcases Set.mem_insert_iff.mp there with isNew | old
            · exact isNew ▸ slot
            · exact absurd (before.mpr ⟨other, old, otherClass, slot, free⟩) List.not_mem_nil
        · rw [Function.update_of_ne isC, before]
          constructor
          · intro ⟨other, there, rest⟩
            exact ⟨other, Set.mem_insert_of_mem _ there, rest⟩
          · intro ⟨other, there, otherClass, rest⟩
            rcases Set.mem_insert_iff.mp there with isNew | old
            · rw [isNew, isClass] at otherClass
              exact absurd (Option.some.inj otherClass).symm isC
            · exact ⟨other, old, otherClass, rest⟩
      live := by
        intro b isLive
        obtain ⟨other, there, slot⟩ := shape.live b isLive
        exact ⟨other, Set.mem_insert_of_mem _ there, slot⟩ }
  · intro x inside
    have offHeader : x ∉ Set.Ico ar.start (ar.start + arenaSize) :=
      fun within => header_off_others geometry placed apart within inside
    have offLinks : x ∉ linkCells (members (freeList (descAt descs c)) ar.slots) := by
      intro ⟨elem, member, low, high⟩
      rcases member_cases member with isHead | slot | isTail_
      · exact links_off_payload shape ⟨elem, isHead ▸ head_member, low, high⟩ inside
      · obtain ⟨other, there, y, otherSlot, _, above, below⟩ := inside
        have mine := slot_bounds placed slot
        have theirs := slot_bounds (geometry.placed other there) otherSlot
        have away := apart other there
        unfold Apart at away
        omega
      · exact links_off_payload shape ⟨elem, isTail_ ▸ tail_member, low, high⟩ inside
    exact (same x offLinks).trans (set_arena_same_outside x offHeader)

/-- The pages of an arena. -/
def pagesOf (ar : Arena) : Set Nat := Set.Ico ar.start (ar.start + pgsize * ar.pages)

theorem pages_off_payload (geometry : Geometry descs arenas) (here : ar ∈ arenas)
    (noLive : ∀ b ∈ ar.slots, b ∉ live) (inside : x ∈ pagesOf ar) : x ∉ payload arenas live := by
  intro ⟨other, there, b, slot, isLive, low, high⟩
  have different : other ≠ ar := by
    intro same
    exact noLive b (same ▸ slot) isLive
  have away := geometry.apart other there ar here different
  have bounds := slot_bounds (geometry.placed other there) slot
  unfold pagesOf at inside
  rw [Set.mem_Ico] at inside
  unfold Apart at away
  omega

/-- An arena whose blocks are on no list and not live may go with its pages. -/
theorem drop_arena {counts : Arena → Nat} {more : FreeLists} {fewer : Set Nat}
    (words : Words descs m arenas counts) (here : ar ∈ arenas)
    (lists : ∀ c : SizeClass, HasElems m (freeList (descAt descs c)) (more c))
    (free : ∀ c b, b ∈ more c ↔
      ∃ other ∈ arenas \ {ar}, other.cls = some c ∧ b ∈ other.slots ∧ b ∉ fewer)
    (isLive : ∀ b ∈ fewer, ∃ other ∈ arenas \ {ar}, b ∈ other.slots)
    (count : ∀ other ∈ arenas \ {ar}, counts other = other.count more)
    (same : SameOutside (pagesOf ar) m after) :
    Shape descs after (arenas \ {ar}) more fewer := by
  have less : arenas \ {ar} ⊆ arenas := Set.sdiff_subset
  have geometry := words.geometry
  have placed := geometry.placed ar here
  exact {
    words := by
      apply words_frame (words_counts (words_fewer words less) count) same
      · intro other there x inside
        have away := geometry.apart other there.1 ar here there.2
        have positive := (geometry.placed other there.1).positive
        unfold pagesOf at inside
        rw [Set.mem_Ico] at inside
        unfold Apart arenaSize pgsize at *
        omega
      · intro c x inside
        have above := placed.above
        have place := desc_fits descs c
        unfold pagesOf at inside
        rw [Set.mem_Ico] at inside
        unfold descSize at *
        omega
    lists := by
      intro c
      apply has_elems_frame (lists c) same
      intro x inside isLink
      unfold pagesOf at inside
      rw [Set.mem_Ico] at inside
      have space : members (freeList (descAt descs c)) (more c) ⊆
          classSpace descs (arenas \ {ar}) c := by
        intro y member
        rcases member_cases member with isHead | isFree | isTail_
        · exact .inl isHead
        · obtain ⟨other, there, isClass, slot, _⟩ := (free c y).mp isFree
          exact .inr (.inr ⟨other, there, isClass, slot⟩)
        · exact .inr (.inl isTail_)
      have above := placed.above
      have place := desc_fits descs c
      rcases class_cells (link_cells_mono space isLink) with
        ⟨_, below⟩ | ⟨other, there, _, b, slot, low, high⟩
      · unfold descSize at *
        omega
      · have away := geometry.apart other there.1 ar here there.2
        have bounds := slot_bounds (geometry.placed other there.1) slot
        unfold Apart at away
        omega
    free := free
    live := isLive }

/-- `free` gives the pages of a big block back. -/
theorem drop_big_ok (shape : Shape descs m arenas frees live) (here : ar ∈ arenas)
    (big : ar.cls = none) (same : SameOutside (pagesOf ar) m after) :
    Shape descs after (arenas \ {ar}) frees (live \ {ar.start + arenaSize}) ∧
      ∀ x ∈ payload arenas (live \ {ar.start + arenaSize}), after x = m x := by
  have geometry := shape.words.geometry
  have slot : ar.start + arenaSize ∈ ar.slots := (mem_big_slots big).mpr rfl
  constructor
  · apply drop_arena shape.words here shape.lists _ _ (fun _ _ => rfl) same
    · intro c b
      rw [shape.free c b]
      constructor
      · intro ⟨other, there, isClass, otherSlot, notLive⟩
        have different : other ≠ ar := by
          intro isBig
          rw [isBig, big] at isClass
          cases isClass
        exact ⟨other, ⟨there, different⟩, isClass, otherSlot, fun alive => notLive alive.1⟩
      · intro ⟨other, there, isClass, otherSlot, notLive⟩
        refine ⟨other, there.1, isClass, otherSlot, ?_⟩
        intro alive
        apply notLive
        refine ⟨alive, ?_⟩
        intro isBlock
        rw [Set.mem_singleton_iff.mp isBlock] at otherSlot
        exact there.2 (slot_unique geometry there.1 here otherSlot slot)
    · intro b alive
      obtain ⟨other, there, otherSlot⟩ := shape.live b alive.1
      refine ⟨other, ⟨there, ?_⟩, otherSlot⟩
      intro isBig
      rw [Set.mem_singleton_iff.mp isBig] at otherSlot
      exact alive.2 ((mem_big_slots big).mp otherSlot)
  · intro x inside
    apply same
    intro within
    apply pages_off_payload geometry here _ within inside
    intro b isSlot alive
    exact alive.2 ((mem_big_slots big).mp isSlot)

/-- `free` takes the blocks of an arena off the free list before its page goes back. -/
theorem drop_arena_ok (shape : Shape descs m arenas frees live) (here : ar ∈ arenas)
    (isClass : ar.cls = some c) (noLive : ∀ b ∈ ar.slots, b ∉ live) :
    ∃ m1, (List.range (classBlocks c)).foldlM (removeBlock ar.start) m = .ok m1 ∧
      ∀ after, SameOutside (pagesOf ar) m1 after →
        Shape descs after (arenas \ {ar}) (Function.update frees c ((frees c).diff ar.slots)) live ∧
        ∀ x ∈ payload arenas live, after x = m x := by
  have geometry := shape.words.geometry
  have space := list_members_space shape c
  have nodup := frees_nodup shape c
  obtain ⟨m1, looped, has, same⟩ := remove_blocks_ok here isClass (List.range (classBlocks c))
    List.nodup_range (fun idx inside => List.mem_range.mp inside) m (frees c) shape.words
    (shape.lists c) space (by
      intro idx inside
      have slot := slot_at_mem isClass (List.mem_range.mp inside)
      exact (shape.free c _).mpr ⟨ar, here, isClass, slot, noLive _ slot⟩)
  rw [← slots_eq isClass] at has
  have classSame : SameOutside (linkCells (classSpace descs arenas c)) m m1 :=
    same_outside_mono same (link_cells_mono space)
  refine ⟨m1, looped, ?_⟩
  intro after freed
  constructor
  · apply drop_arena (words_class shape.words classSame) here (lists_update shape classSame has) _ _
      _ freed
    · intro d b
      have before := shape.free d b
      by_cases isC : d = c
      · subst isC
        rw [Function.update_self, nodup.mem_sdiff_iff, before]
        constructor
        · intro ⟨⟨other, there, otherClass, slot, notLive⟩, notSlot⟩
          have different : other ≠ ar := by
            intro isAr
            exact notSlot (isAr ▸ slot)
          exact ⟨other, ⟨there, different⟩, otherClass, slot, notLive⟩
        · intro ⟨other, there, otherClass, slot, notLive⟩
          refine ⟨⟨other, there.1, otherClass, slot, notLive⟩, ?_⟩
          intro mine
          exact there.2 (slot_unique geometry there.1 here slot mine)
      · rw [Function.update_of_ne isC, before]
        constructor
        · intro ⟨other, there, otherClass, rest⟩
          have different : other ≠ ar := by
            intro isAr
            rw [isAr, isClass] at otherClass
            exact isC (Option.some.inj otherClass).symm
          exact ⟨other, ⟨there, different⟩, otherClass, rest⟩
        · intro ⟨other, there, rest⟩
          exact ⟨other, there.1, rest⟩
    · intro b alive
      obtain ⟨other, there, slot⟩ := shape.live b alive
      refine ⟨other, ⟨there, ?_⟩, slot⟩
      intro isAr
      rw [Set.mem_singleton_iff.mp isAr] at slot
      exact noLive b slot alive
    · intro other there
      cases otherClass : other.cls with
      | none => rw [count_big otherClass, count_big otherClass]
      | some d =>
          rw [count_class otherClass, count_class otherClass]
          by_cases isC : d = c
          · subst isC
            rw [Function.update_self, nodup.sdiff_eq_filter, List.countP_filter]
            apply List.countP_congr
            intro b isFree
            rw [Bool.and_eq_true, decide_eq_true_iff]
            constructor
            · intro page
              refine ⟨page, ?_⟩
              intro mine
              have starts := (slot_page (geometry.placed ar here) mine).symm.trans
                (beq_iff_eq.mp page)
              exact there.2 (start_unique geometry there.1 here starts.symm)
            · exact fun both => both.1
          · rw [Function.update_of_ne isC]
  · intro x inside
    have offPages : x ∉ pagesOf ar := fun within => pages_off_payload geometry here noLive within inside
    have offLinks : x ∉ linkCells (listMembers descs frees c) :=
      fun within => links_off_payload shape within inside
    exact (freed x offPages).trans (same x offLinks)

end Arenas

end UtSystems.Threads.MallocTurnover

import UtSystems.Threads.MallocCalls

/-!
# Runs of the heap

Calls of the heap in any order, among calls of the page allocator by the rest of the kernel and
writes to memory that the heap does not use. The rest of the kernel frees and reallocates only
live blocks.
-/

namespace UtSystems.Threads.MallocRuns

open Lib.MemoryWords Threads.KernelLists Threads.Malloc Threads.MallocArenas Threads.MallocCalls
open Threads.MallocPages Threads.MallocSteps Threads.PageAllocator

set_option autoImplicit false

section Init

variable {descs : Nat} {m after : Memory} {cnt room : Nat}

/-- The kernel image, with the descriptors in it, is below the free memory. -/
structure InImage (descs : Nat) : Prop where
  nonnull : 0 < descs
  below : descs + 10 * descSize ≤ freeStart

/-- The first descriptors are initialised. -/
structure Ready (descs : Nat) (m : Memory) (cnt : Nat) : Prop where
  size : ∀ c : SizeClass, c.val < cnt → blockSizeOf m (descAt descs c) = classSize c
  blocks : ∀ c : SizeClass, c.val < cnt → blocksPerArena m (descAt descs c) = classBlocks c
  lists : ∀ c : SizeClass, c.val < cnt → HasElems m (freeList (descAt descs c)) []

theorem ready_frame {c : SizeClass} (ready : Ready descs m c.val)
    (same : SameOutside (Set.Ico (descAt descs c) (descAt descs c + 24)) m after) :
    Ready descs after c.val := by
  have apart : ∀ d : SizeClass, d.val < c.val → ∀ x ∈ Set.Ico (descAt descs c) (descAt descs c + 24),
      x < descAt descs d ∨ descAt descs d + descSize ≤ x := by
    intro d less x inside
    rw [Set.mem_Ico] at inside
    unfold descAt descSize at *
    omega
  constructor
  · intro d less
    rw [← ready.size d less]
    apply load_same_outside same
    intro x inside
    have := apart d less x inside
    unfold descSize at this
    omega
  · intro d less
    rw [← ready.blocks d less]
    apply load_same_outside same
    intro x inside
    have := apart d less x inside
    unfold descSize at this
    omega
  · intro d less
    apply has_elems_frame (ready.lists d less) same
    intro x inside ⟨elem, member, low, high⟩
    have := apart d less x inside
    rcases member_cases member with isHead | none | isTail_
    · unfold headOf freeList descSize at *
      omega
    · cases none
    · unfold tailOf freeList descSize at *
      omega

theorem init_desc {c : SizeClass} (nonnull : 0 < descs) (low : descs + 10 * descSize ≤ 2 ^ 32)
    (ready : Ready descs m c.val) :
    ∃ after, listInit (storeWord (storeWord m (descAt descs c) (classSize c))
        (descAt descs c + 4) (classBlocks c)) (freeList (descAt descs c)) = .ok after ∧
      Ready descs after (c.val + 1) := by
  have place := desc_fits descs c
  have bounds := class_bounds c
  let d := descAt descs c
  let m1 := storeWord m d (classSize c)
  let m2 := storeWord m1 (d + 4) (classBlocks c)
  obtain ⟨after, inited, has, same⟩ := @list_init_ok m2 (freeList d)
    (by unfold freeList; omega) (by unfold freeList descSize at *; omega)
  have grown : ∀ base, d ≤ base → base + 4 ≤ d + 8 →
      Set.Ico base (base + 4) ⊆ Set.Ico d (d + 24) := by
    intro base above below x inside
    rw [Set.mem_Ico] at inside ⊢
    omega
  have whole : SameOutside (Set.Ico d (d + 24)) m after := by
    have first : SameOutside (Set.Ico d (d + 24)) m m1 :=
      same_outside_mono store_same_outside (grown d (by omega) (by omega))
    have second : SameOutside (Set.Ico d (d + 24)) m1 m2 :=
      same_outside_mono store_same_outside (grown (d + 4) (by omega) (by omega))
    have third : SameOutside (Set.Ico d (d + 24)) m2 after := by
      apply same_outside_mono same
      intro x inside
      unfold freeList at inside
      rw [Set.mem_Ico] at inside ⊢
      omega
    exact same_outside_trans first (same_outside_trans second third)
  have older := ready_frame ready whole
  have kept : ∀ offset, offset + 4 ≤ 8 → loadWord after (d + offset) = loadWord m2 (d + offset) := by
    intro offset fits
    apply load_same_outside same
    intro x inside
    unfold freeList at inside
    rw [Set.mem_Ico] at inside
    omega
  have split : ∀ e : SizeClass, e.val < c.val + 1 → e = c ∨ e.val < c.val := by
    intro e less
    rw [Fin.ext_iff]
    omega
  refine ⟨after, inited, ?_, ?_, ?_⟩
  · intro e less
    rcases split e less with isC | older_
    · rw [isC]
      have read : loadWord m2 d = classSize c := by
        have apart : loadWord m2 d = loadWord m1 d := load_store_apart (by omega)
        rw [apart]
        exact load_store_same (by omega)
      exact (kept 0 (by omega)).trans read
    · exact older.size e older_
  · intro e less
    rcases split e less with isC | older_
    · rw [isC]
      have read : loadWord m2 (d + 4) = classBlocks c := load_store_same (by omega)
      exact (kept 4 (by omega)).trans read
    · exact older.blocks e older_
  · intro e less
    rcases split e less with isC | older_
    · rw [isC]
      exact has
    · exact older.lists e older_

theorem malloc_init_loop (nonnull : 0 < descs) (low : descs + 10 * descSize ≤ 2 ^ 32)
    (few : cnt ≤ 7) (total : cnt + room = 10) (ready : Ready descs m cnt) :
    ∃ after, mallocInitFrom descs room (16 * 2 ^ cnt) cnt m = .ok (7, after) ∧
      Ready descs after 7 := by
  induction room generalizing cnt m with
  | zero => omega
  | succ room ih =>
      unfold mallocInitFrom
      by_cases last : cnt = 7
      · subst last
        refine ⟨m, ?_, ready⟩
        rw [if_neg (by decide)]
      · let c : SizeClass := ⟨cnt, by omega⟩
        have bounds := class_bounds c
        have isSize : classSize c = 16 * 2 ^ cnt := rfl
        have isBlocks : classBlocks c = (pgsize - arenaSize) / (16 * 2 ^ cnt) := rfl
        have below : 16 * 2 ^ cnt < pgsize / 2 := by
          rw [← isSize]
          unfold pgsize
          omega
        obtain ⟨m1, inited, ready1⟩ := @init_desc descs m c nonnull low ready
        rw [isSize, isBlocks] at inited
        obtain ⟨after, looped, readyAll⟩ := @ih m1 (cnt + 1) (by omega) (by omega) ready1
        refine ⟨after, ?_, readyAll⟩
        rw [if_pos below]
        change (listInit _ _ >>= _) = _
        rw [inited]
        rw [Nat.pow_succ, ← Nat.mul_assoc] at looped
        exact looped

theorem init_good {ax : BitVec 16} {userPageLimit : Nat} {memory : Memory} {a : Allocator}
    {h : Heap} (image : InImage descs)
    (pages : pallocInit (initRamPages ax) userPageLimit memory = .ok a)
    (inited : mallocInit descs a = .ok h) :
    Good descs h [] ∅ (fun _ => []) ∅ := by
  have bounds := ram_pages_bounds ax
  have inv := init_inv bounds pages
  obtain ⟨kernelPages, _, kernel, _⟩ := palloc_init_ok bounds pages
  obtain ⟨bmPages, _, _, base, _⟩ := init_pool_ok kernel
  have below := image.below
  have low : descs + 10 * descSize ≤ 2 ^ 32 := by
    rw [free_start_pages] at below
    unfold pgsize at below
    omega
  have none : Ready descs a.memory 0 := by
    constructor
    · exact fun c impossible => absurd impossible (Nat.not_lt_zero _)
    · exact fun c impossible => absurd impossible (Nat.not_lt_zero _)
    · exact fun c impossible => absurd impossible (Nat.not_lt_zero _)
  obtain ⟨after, looped, ready⟩ := malloc_init_loop image.nonnull low (Nat.zero_le 7)
    (Nat.zero_add 10) none
  have isHeap : h = { allocator := { a with memory := after }, descCnt := 7, held := [] } := by
    unfold mallocInit at inited
    rw [show 16 * 2 ^ 0 = 16 from rfl] at looped
    rw [looped] at inited
    exact (Except.ok.inj inited).symm
  rw [isHeap]
  exact {
    owned := {
      inv := inv_memory inv after
      held := by
        intro g
        constructor
        · exact fun impossible => absurd impossible List.not_mem_nil
        · intro ⟨ar, here, _⟩
          exact absurd here (Set.notMem_empty ar)
      above := by
        change descs + 10 * descSize ≤ a.kernelPool.base
        rw [base]
        exact Nat.le_trans below (Nat.le_add_right _ _) }
    shape := {
      words := {
        geometry := {
          nonnull := image.nonnull
          low := low
          placed := fun ar here => absurd here (Set.notMem_empty ar)
          apart := fun ar here => absurd here (Set.notMem_empty ar) }
        magic := fun ar here => absurd here (Set.notMem_empty ar)
        desc := fun ar here => absurd here (Set.notMem_empty ar)
        count := fun ar here => absurd here (Set.notMem_empty ar)
        size := fun c => ready.size c c.isLt
        blocks := fun c => ready.blocks c c.isLt }
      lists := fun c => ready.lists c c.isLt
      free := by
        intro c b
        constructor
        · exact fun impossible => absurd impossible List.not_mem_nil
        · intro ⟨ar, here, _⟩
          exact absurd here (Set.notMem_empty ar)
      live := fun b impossible => absurd impossible (Set.notMem_empty b) }
    busy := fun ar here => absurd here (Set.notMem_empty ar)
    seven := rfl }

end Init

/-- The heap, the page groups of the rest of the kernel, and the live blocks with the sizes asked
for. -/
structure System where
  heap : Heap
  others : List Group
  blocks : List (Nat × Nat)

def System.memory (s : System) : Memory := s.heap.memory

def gave (p size : Nat) (blocks : List (Nat × Nat)) : List (Nat × Nat) :=
  if p = 0 then blocks else (p, size) :: blocks

def forget (p : Nat) (blocks : List (Nat × Nat)) : List (Nat × Nat) :=
  blocks.filter fun b => b.1 != p

/-- What `realloc` has freed. -/
def released (old size p : Nat) (blocks : List (Nat × Nat)) : List (Nat × Nat) :=
  if size = 0 ∨ p ≠ 0 then forget old blocks else blocks

/-- A live block, or the null pointer. -/
def Held (s : System) (p : Nat) : Prop := p = 0 ∨ ∃ size, (p, size) ∈ s.blocks

/-- No size within two pages of 2^32. -/
def Moderate (size : Nat) : Prop := size + 2 * pgsize ≤ 2 ^ 32

/-- Where the rest of the kernel may write: what was asked for in a live block, and what is neither
a descriptor nor a page of the heap. -/
def Foreign (descs : Nat) (s : System) : Set Nat :=
  {x | (∃ b ∈ s.blocks, b.1 ≤ x ∧ x < b.1 + b.2) ∨
    ((x < descs ∨ descs + 10 * descSize ≤ x) ∧
      ∀ g ∈ s.heap.held, x < g.pages ∨ g.pages + pgsize * g.count ≤ x)}

inductive Reached (descs ramPages userPageLimit : Nat) : System → Prop where
  | init {memory : Memory} {a : Allocator} {h : Heap}
      (pages : pallocInit ramPages userPageLimit memory = .ok a)
      (inited : mallocInit descs a = .ok h) :
      Reached descs ramPages userPageLimit { heap := h, others := [], blocks := [] }
  | malloc {s : System} {size p : Nat} {next : Heap}
      (prior : Reached descs ramPages userPageLimit s) (moderate : Moderate size)
      (returned : malloc descs size s.heap = .ok (p, next)) :
      Reached descs ramPages userPageLimit
        { s with heap := next, blocks := gave p size s.blocks }
  | calloc {s : System} {a b p : Nat} {next : Heap}
      (prior : Reached descs ramPages userPageLimit s) (moderate : Moderate (a * b % 2 ^ 32))
      (returned : calloc descs a b s.heap = .ok (p, next)) :
      Reached descs ramPages userPageLimit
        { s with heap := next, blocks := gave p (a * b % 2 ^ 32) s.blocks }
  | realloc {s : System} {old size p : Nat} {next : Heap}
      (prior : Reached descs ramPages userPageLimit s) (held : Held s old)
      (moderate : Moderate size) (returned : realloc descs old size s.heap = .ok (p, next)) :
      Reached descs ramPages userPageLimit
        { s with heap := next, blocks := gave p size (released old size p s.blocks) }
  | free {s : System} {p : Nat} {next : Heap}
      (prior : Reached descs ramPages userPageLimit s) (held : Held s p)
      (returned : free p s.heap = .ok next) :
      Reached descs ramPages userPageLimit
        { s with heap := next, blocks := forget p s.blocks }
  | otherGot {s : System} {flags : Flags} {pageCnt pages : Nat} {b : Allocator}
      (prior : Reached descs ramPages userPageLimit s)
      (returned : pallocGetMultiple flags pageCnt s.heap.allocator = .ok (pages, b)) :
      Reached descs ramPages userPageLimit
        { s with
          heap := { s.heap with allocator := b }
          others := if pages = 0 then s.others else ⟨pages, pageCnt, flags.palUser⟩ :: s.others }
  | otherFreed {s : System} {g : Group} {b : Allocator}
      (prior : Reached descs ramPages userPageLimit s) (outstanding : g ∈ s.others)
      (returned : pallocFreeMultiple g.pages g.count s.heap.allocator = .ok b) :
      Reached descs ramPages userPageLimit
        { s with heap := { s.heap with allocator := b }, others := s.others.erase g }
  | write {s : System} {m : Memory} (prior : Reached descs ramPages userPageLimit s)
      (foreign : SameOutside (Foreign descs s) s.memory m) :
      Reached descs ramPages userPageLimit { s with heap := s.heap.setMemory m }

section Runs

variable {descs : Nat} {s : System} {arenas more : Set Arena} {frees : FreeLists}
  {blocks fewer : List (Nat × Nat)} {p old size : Nat}

/-- The addresses of the live blocks. -/
def live (blocks : List (Nat × Nat)) : Set Nat := {p | ∃ size, (p, size) ∈ blocks}

/-- Every live block has the bytes that were asked for. -/
def Roomy (arenas : Set Arena) (blocks : List (Nat × Nat)) : Prop :=
  ∀ b ∈ blocks, ∃ ar ∈ arenas, b.1 ∈ ar.slots ∧ b.2 ≤ ar.room

structure Keeps (descs : Nat) (s : System) (arenas : Set Arena) (frees : FreeLists) : Prop where
  good : Good descs s.heap s.others arenas frees (live s.blocks)
  distinct : (s.blocks.map Prod.fst).Nodup
  roomy : Roomy arenas s.blocks

theorem live_cons : live ((p, size) :: blocks) = insert p (live blocks) := by
  apply Set.ext
  intro x
  rw [Set.mem_insert_iff]
  constructor
  · intro ⟨n, member⟩
    rcases List.mem_cons.mp member with isNew | older
    · exact .inl (congrArg Prod.fst isNew)
    · exact .inr ⟨n, older⟩
  · intro member
    rcases member with isNew | ⟨n, older⟩
    · exact ⟨size, isNew ▸ List.mem_cons_self⟩
    · exact ⟨n, List.mem_cons_of_mem _ older⟩

theorem mem_forget {b : Nat × Nat} : b ∈ forget p blocks ↔ b ∈ blocks ∧ b.1 ≠ p := by
  unfold forget
  rw [List.mem_filter, bne_iff_ne]

theorem live_forget : live (forget p blocks) = live blocks \ {p} := by
  apply Set.ext
  intro x
  rw [Set.mem_sdiff, Set.mem_singleton_iff]
  constructor
  · intro ⟨n, member⟩
    obtain ⟨inside, different⟩ := mem_forget.mp member
    exact ⟨⟨n, inside⟩, different⟩
  · intro ⟨⟨n, inside⟩, different⟩
    exact ⟨n, mem_forget.mpr ⟨inside, different⟩⟩

theorem distinct_forget (distinct : (blocks.map Prod.fst).Nodup) :
    ((forget p blocks).map Prod.fst).Nodup :=
  distinct.sublist (List.filter_sublist.map _)

theorem distinct_cons (distinct : (blocks.map Prod.fst).Nodup) (fresh : p ∉ live blocks) :
    (((p, size) :: blocks).map Prod.fst).Nodup := by
  rw [List.map_cons, List.nodup_cons]
  refine ⟨?_, distinct⟩
  intro member
  obtain ⟨b, inside, isP⟩ := List.mem_map.mp member
  change b.1 = p at isP
  rw [← isP] at fresh
  exact fresh ⟨b.2, inside⟩

theorem roomy_mono (roomy : Roomy arenas blocks) (grown : arenas ⊆ more) : Roomy more blocks := by
  intro b member
  obtain ⟨ar, here, rest⟩ := roomy b member
  exact ⟨ar, grown here, rest⟩

theorem roomy_cons (roomy : Roomy arenas blocks) {ar : Arena} (here : ar ∈ arenas)
    (slot : p ∈ ar.slots) (large : size ≤ ar.room) : Roomy arenas ((p, size) :: blocks) := by
  intro b member
  rcases List.mem_cons.mp member with isNew | older
  · rw [isNew]
    exact ⟨ar, here, slot, large⟩
  · exact roomy b older

/-- The arenas of the blocks that stay live stay. -/
theorem roomy_stays (roomy : Roomy arenas blocks)
    (stays : ∀ ar ∈ arenas, ∀ b ∈ ar.slots, b ∈ live (forget p blocks) → ar ∈ more) :
    Roomy more (forget p blocks) := by
  intro b member
  obtain ⟨ar, here, slot, large⟩ := roomy b (mem_forget.mp member).1
  exact ⟨ar, stays ar here b.1 slot ⟨b.2, member⟩, slot, large⟩

theorem keeps_given {next : Heap} (keeps : Keeps descs s arenas frees)
    (given : Given descs s.heap s.others arenas (live s.blocks) size p next) :
    ∃ more frees, Keeps descs { s with heap := next, blocks := gave p size s.blocks } more frees := by
  obtain ⟨more, moreFrees, good, grown, ar, here, slot, large⟩ := given.good
  have nonnull := given_nonnull given
  refine ⟨more, moreFrees, ?_⟩
  unfold gave
  rw [if_neg nonnull]
  rw [← @live_cons s.blocks p size] at good
  exact ⟨good, distinct_cons keeps.distinct given.fresh,
    roomy_cons (roomy_mono keeps.roomy grown) here slot large⟩

theorem keeps_taken {next : Heap} (keeps : Keeps descs s arenas frees)
    (taken : Taken descs s.heap s.others arenas (live s.blocks) p next) :
    ∃ less frees, Keeps descs { s with heap := next, blocks := forget p s.blocks } less frees := by
  obtain ⟨less, lessFrees, good, fewer⟩ := taken.good
  rw [← live_forget] at good
  refine ⟨less, lessFrees, good, distinct_forget keeps.distinct, ?_⟩
  apply roomy_stays keeps.roomy
  intro ar here b slot alive
  obtain ⟨arena, inLess, isSlot⟩ := good.shape.live b alive
  rw [slot_unique keeps.good.shape.words.geometry here (fewer inLess) slot isSlot]
  exact inLess

theorem keeps_moved {next : Heap} (keeps : Keeps descs s arenas frees)
    (moved : Moved descs s.heap s.others arenas (live s.blocks) old size p next) :
    p ≠ 0 ∧ ∃ more frees, Keeps descs
      { s with heap := next, blocks := (p, size) :: forget old s.blocks } more frees := by
  obtain ⟨more, moreFrees, good, ⟨ar, here, slot, large⟩, stays⟩ := moved.good
  have nonnull := slot_nonnull good.shape.words.geometry here slot
  rw [← live_forget] at good stays
  rw [← @live_cons (forget old s.blocks) p size] at good
  refine ⟨nonnull, more, moreFrees, good, ?_, ?_⟩
  · apply distinct_cons (distinct_forget keeps.distinct)
    rw [live_forget]
    exact fun alive => moved.fresh alive.1
  · exact roomy_cons (roomy_stays keeps.roomy stays) here slot large

theorem held_cases (held : Held s p) : p = 0 ∨ p ∈ live s.blocks := held

theorem forget_null (keeps : Keeps descs s arenas frees) : forget 0 s.blocks = s.blocks := by
  apply List.filter_eq_self.mpr
  intro b member
  obtain ⟨ar, here, slot, _⟩ := keeps.roomy b member
  exact bne_iff_ne.mpr (slot_nonnull keeps.good.shape.words.geometry here slot)

/-- Writes of the rest of the kernel are to live blocks or off the heap. -/
theorem foreign_writable (keeps : Keeps descs s arenas frees) :
    Foreign descs s ⊆ Writable descs arenas (live s.blocks) := by
  intro x inside
  rcases inside with ⟨b, member, low, high⟩ | ⟨offDescs, offPages⟩
  · obtain ⟨ar, here, slot, large⟩ := keeps.roomy b member
    exact .inl ⟨ar, here, b.1, slot, ⟨b.2, member⟩, low, by omega⟩
  · refine .inr ⟨offDescs, ?_⟩
    intro ar here
    exact offPages ar.group ((keeps.good.owned.held ar.group).mpr ⟨ar, here, rfl⟩)

theorem keeps_group {next : Heap} {others : List Group} {g : Group}
    (keeps : Keeps descs s arenas frees) (owned : Owned descs next others arenas)
    (cnt : next.descCnt = s.heap.descCnt)
    (same : SameOutside (Set.Ico g.pages (g.pages + pgsize * g.count)) s.memory next.memory)
    (above : descs + 10 * descSize ≤ g.pages)
    (apart : ∀ ar ∈ arenas, g.pages + pgsize * g.count ≤ ar.start ∨
      ar.start + pgsize * ar.pages ≤ g.pages) :
    Keeps descs { s with heap := next, others := others } arenas frees := by
  refine ⟨⟨owned, ?_, keeps.good.busy, cnt.trans keeps.good.seven⟩, keeps.distinct, keeps.roomy⟩
  apply shape_write keeps.good.shape
  apply same_outside_mono same
  intro x inside
  rw [Set.mem_Ico] at inside
  refine .inr ⟨.inr (by omega), ?_⟩
  intro ar here
  have := apart ar here
  omega

/-- Each action keeps the heap good. -/
theorem reached_keeps {ax : BitVec 16} {userPageLimit : Nat} (image : InImage descs)
    (run : Reached descs (initRamPages ax) userPageLimit s) :
    ∃ arenas frees, Keeps descs s arenas frees := by
  induction run with
  | init pages inited =>
      have good := init_good image pages inited
      have none : live [] = ∅ := by
        apply Set.eq_empty_of_forall_notMem
        intro x ⟨n, impossible⟩
        cases impossible
      refine ⟨∅, fun _ => [], ?_, List.nodup_nil, ?_⟩
      · change Good descs _ _ ∅ _ (live [])
        rw [none]
        exact good
      · exact fun b impossible => absurd impossible List.not_mem_nil
  | @malloc s size p next prior moderate returned ih =>
      obtain ⟨arenas, frees, keeps⟩ := ih
      rcases malloc_ok keeps.good moderate with refused | ⟨q, after, allocated, given⟩
      · rw [refused] at returned
        cases returned
        exact ⟨arenas, frees, keeps⟩
      · rw [allocated] at returned
        cases returned
        exact keeps_given keeps given
  | @calloc s a b p next prior moderate returned ih =>
      obtain ⟨arenas, frees, keeps⟩ := ih
      rcases calloc_ok keeps.good moderate with refused | ⟨q, after, allocated, given, _⟩
      · rw [refused] at returned
        cases returned
        exact ⟨arenas, frees, keeps⟩
      · rw [allocated] at returned
        cases returned
        exact keeps_given keeps given
  | @realloc s old size p next prior held moderate returned ih =>
      obtain ⟨arenas, frees, keeps⟩ := ih
      obtain ⟨q, after, allocated, result⟩ := realloc_ok keeps.good (held_cases held) moderate
      rw [allocated] at returned
      cases returned
      cases result with
      | kept onlyNull =>
          have same : gave 0 size (released old size 0 s.blocks) = s.blocks := by
            unfold gave released
            rw [if_pos rfl]
            by_cases zero : size = 0
            · rw [if_pos (.inl zero), onlyNull zero]
              exact forget_null keeps
            · rw [if_neg (not_or.mpr ⟨zero, not_not.mpr rfl⟩)]
          rw [same]
          exact ⟨arenas, frees, keeps⟩
      | given null positive given =>
          have same : released old size p s.blocks = s.blocks := by
            unfold released
            rw [if_pos (.inr (given_nonnull given)), null]
            exact forget_null keeps
          rw [same]
          exact keeps_given keeps given
      | taken zero isLive taken =>
          have same : gave 0 size (released old size 0 s.blocks) = forget old s.blocks := by
            unfold gave released
            rw [if_pos rfl, if_pos (.inl zero)]
          rw [same]
          exact keeps_taken keeps taken
      | moved positive isLive moved =>
          obtain ⟨nonnull, rest⟩ := keeps_moved keeps moved
          have same : gave p size (released old size p s.blocks) =
              (p, size) :: forget old s.blocks := by
            unfold gave released
            rw [if_neg nonnull, if_pos (.inr nonnull)]
          rw [same]
          exact rest
  | @free s p next prior held returned ih =>
      obtain ⟨arenas, frees, keeps⟩ := ih
      rcases held_cases held with null | isLive
      · rw [null] at returned
        cases returned
        rw [null, forget_null keeps]
        exact ⟨arenas, frees, keeps⟩
      · obtain ⟨after, freed, taken⟩ := free_ok keeps.good isLive
        rw [freed] at returned
        cases returned
        exact keeps_taken keeps taken
  | @otherGot s flags pageCnt pages b prior returned ih =>
      obtain ⟨arenas, frees, keeps⟩ := ih
      have owned := other_got_owned keeps.good.owned returned
      refine ⟨arenas, frees, ?_⟩
      by_cases null : pages = 0
      · rcases palloc_get_multiple_cases returned with ⟨_, same⟩ | found
        · rw [if_pos null, same]
          exact keeps
        · obtain ⟨idx, memory, positive, scanned, here, next⟩ := found
          rw [null] at here
          exact absurd here.symm (got_nonnull keeps.good.owned.inv.layout positive
            (UtSystems.Filesys.FreeMap.bitmap_scan_some scanned).1)
      · rw [if_neg null] at owned ⊢
        exact keeps_group (g := ⟨pages, pageCnt, flags.palUser⟩) keeps owned rfl
          (palloc_get_memory returned)
          (group_above owned (List.mem_append_right _ List.mem_cons_self))
          fun ar here => arena_apart owned here List.mem_cons_self
  | @otherFreed s g b prior outstanding returned ih =>
      obtain ⟨arenas, frees, keeps⟩ := ih
      have before := keeps.good.owned
      exact ⟨arenas, frees, keeps_group keeps (other_freed_owned before outstanding returned) rfl
        (palloc_free_memory returned) (group_above before (List.mem_append_right _ outstanding))
        fun ar here => arena_apart before here outstanding⟩
  | @write s m prior foreign ih =>
      obtain ⟨arenas, frees, keeps⟩ := ih
      have good := keeps.good
      exact ⟨arenas, frees, ⟨owned_memory good.owned m,
        shape_write good.shape (same_outside_mono foreign (foreign_writable keeps)), good.busy,
        good.seven⟩, keeps.distinct, keeps.roomy⟩

/-- A block begins in the pages of a group. -/
def Inside (g : Group) (b : Nat) : Prop := g.pages ≤ b ∧ b < g.pages + pgsize * g.count

/-- What the heap promises about a state. -/
structure Sound (descs : Nat) (s : System) : Prop where
  sized : ∀ b ∈ s.blocks, ∃ room, blockSize s.memory b.1 = .ok room ∧ b.2 ≤ room ∧
    ∃ g ∈ s.heap.held, g.pages + arenaSize ≤ b.1 ∧ b.1 + room ≤ g.pages + pgsize * g.count
  disjoint : s.blocks.Pairwise fun first second => ∀ firstRoom secondRoom,
    blockSize s.memory first.1 = .ok firstRoom → blockSize s.memory second.1 = .ok secondRoom →
    first.1 + firstRoom ≤ second.1 ∨ second.1 + secondRoom ≤ first.1
  offHeaders : ∀ b ∈ s.blocks, ∀ room, blockSize s.memory b.1 = .ok room →
    ∀ g ∈ s.heap.held, b.1 + room ≤ g.pages ∨ g.pages + arenaSize ≤ b.1
  listed : ∀ c : SizeClass, ∃ elems, HasElems s.memory (freeList (descAt descs c)) elems
  counted : ∀ g ∈ s.heap.held, descOf s.memory g.pages ≠ 0 →
    (∃ c : SizeClass, descOf s.memory g.pages = descAt descs c) ∧
    ∀ elems, HasElems s.memory (freeList (descOf s.memory g.pages)) elems →
      freeCnt s.memory g.pages = elems.countP fun b => pgRoundDown b == g.pages
  busy : ∀ g ∈ s.heap.held, ∃ b ∈ s.blocks, Inside g b.1
  freed : ∀ c : SizeClass, ∀ elems, HasElems s.memory (freeList (descAt descs c)) elems →
    ∀ b ∈ elems, ∃ g ∈ s.heap.held, pgRoundDown b = g.pages

theorem keeps_sound (keeps : Keeps descs s arenas frees) : Sound descs s := by
  have owned := keeps.good.owned
  have shape := keeps.good.shape
  have words := shape.words
  have geometry := words.geometry
  have sized : ∀ b ∈ s.blocks, ∀ ar ∈ arenas, b.1 ∈ ar.slots →
      blockSize s.memory b.1 = .ok ar.room := by
    intro b _ ar here slot
    exact block_size_ok words here slot count_big
  exact {
    sized := by
      intro b member
      obtain ⟨ar, here, slot, large⟩ := keeps.roomy b member
      have bounds := slot_bounds (geometry.placed ar here) slot
      exact ⟨ar.room, sized b member ar here slot, large, ar.group,
        (owned.held ar.group).mpr ⟨ar, here, rfl⟩, bounds.1, bounds.2.2.1⟩
    disjoint := by
      have different := List.pairwise_map.mp keeps.distinct
      apply different.imp_of_mem
      intro first second here there notSame firstRoom secondRoom isFirst isSecond
      obtain ⟨ar, inArenas, slot, _⟩ := keeps.roomy first here
      obtain ⟨other, otherIn, otherSlot, _⟩ := keeps.roomy second there
      rw [sized first here ar inArenas slot] at isFirst
      rw [sized second there other otherIn otherSlot] at isSecond
      cases isFirst
      cases isSecond
      exact blocks_apart geometry inArenas otherIn slot otherSlot notSame
    offHeaders := by
      intro b member room isRoom g inHeld
      obtain ⟨ar, here, slot, _⟩ := keeps.roomy b member
      obtain ⟨other, there, isGroup⟩ := (owned.held g).mp inHeld
      rw [sized b member ar here slot] at isRoom
      cases isRoom
      have bounds := slot_bounds (geometry.placed ar here) slot
      have start : g.pages = other.start := congrArg Group.pages isGroup
      rw [start]
      by_cases same : ar = other
      · subst same
        exact .inr bounds.1
      · have apart := geometry.apart ar here other there same
        have positive := (geometry.placed other there).positive
        unfold Apart arenaSize pgsize at *
        omega
    listed := fun c => ⟨frees c, shape.lists c⟩
    counted := by
      intro g inHeld notBig
      obtain ⟨ar, here, isGroup⟩ := (owned.held g).mp inHeld
      have start : g.pages = ar.start := congrArg Group.pages isGroup
      rw [start] at notBig ⊢
      have desc : descOf s.memory ar.start = ar.desc descs := words.desc ar here
      cases cls : ar.cls with
      | none =>
          rw [desc, desc_big cls] at notBig
          exact absurd rfl notBig
      | some c =>
          rw [desc, desc_class cls]
          refine ⟨⟨c, rfl⟩, ?_⟩
          intro elems has
          have same : elems = frees c :=
            UtSystems.Lib.LinkedList.is_list_unique has (shape.lists c)
          have count : freeCnt s.memory ar.start = ar.count frees := words.count ar here
          rw [count, count_class cls, same]
    busy := by
      intro g inHeld
      obtain ⟨ar, here, isGroup⟩ := (owned.held g).mp inHeld
      obtain ⟨b, slot, n, member⟩ := keeps.good.busy ar here
      have bounds := slot_bounds (geometry.placed ar here) slot
      rw [isGroup]
      refine ⟨(b, n), member, ?_⟩
      change ar.start ≤ b ∧ b < ar.start + pgsize * ar.pages
      omega
    freed := by
      intro c elems has b isFree
      have same : elems = frees c :=
        UtSystems.Lib.LinkedList.is_list_unique has (shape.lists c)
      rw [same] at isFree
      obtain ⟨ar, here, _, slot, _⟩ := (shape.free c b).mp isFree
      exact ⟨ar.group, (owned.held ar.group).mpr ⟨ar, here, rfl⟩,
        slot_page (geometry.placed ar here) slot⟩ }

/-- What the heap promises about the next call. -/
structure Calls (descs : Nat) (s : System) : Prop where
  malloc : ∀ size, Moderate size → ∃ p next, Malloc.malloc descs size s.heap = .ok (p, next)
  calloc : ∀ a b, Moderate (a * b % 2 ^ 32) →
    ∃ p next, Malloc.calloc descs a b s.heap = .ok (p, next) ∧
      (p ≠ 0 → ∀ idx < a * b % 2 ^ 32, next.memory (p + idx) = 0)
  realloc : ∀ old size, Held s old → Moderate size →
    ∃ p next, Malloc.realloc descs old size s.heap = .ok (p, next) ∧
      (size ≠ 0 → p = 0 → next = s.heap) ∧
      (p ≠ 0 → old ≠ 0 → ∀ room, blockSize s.memory old = .ok room →
        ∀ idx < min size room, next.memory (p + idx) = s.memory (old + idx))
  free : ∀ p, Held s p → ∃ next, Malloc.free p s.heap = .ok next ∧
    ∀ g ∈ s.heap.held, (g ∉ next.held ↔ ∀ b ∈ forget p s.blocks, ¬Inside g b.1)

theorem keeps_frees (keeps : Keeps descs s arenas frees) (held : Held s p) :
    ∃ next, Malloc.free p s.heap = .ok next ∧
      ∀ g ∈ s.heap.held, (g ∉ next.held ↔ ∀ b ∈ forget p s.blocks, ¬Inside g b.1) := by
  rcases held_cases held with null | isLive
  · refine ⟨s.heap, if_pos null, ?_⟩
    intro g inHeld
    obtain ⟨b, member, inside⟩ := (keeps_sound keeps).busy g inHeld
    rw [null, forget_null keeps]
    exact ⟨fun out => absurd inHeld out, fun none => absurd inside (none b member)⟩
  · obtain ⟨next, freed, taken⟩ := free_ok keeps.good isLive
    obtain ⟨less, lessFrees, good, fewer⟩ := taken.good
    have geometry := keeps.good.shape.words.geometry
    obtain ⟨_, _, after⟩ := keeps_taken keeps taken
    refine ⟨next, freed, ?_⟩
    intro g inHeld
    obtain ⟨ar, here, isGroup⟩ := (keeps.good.owned.held g).mp inHeld
    constructor
    · intro out b member inside
      apply out
      obtain ⟨other, there, slot⟩ := good.shape.live b.1 (by
        rw [← live_forget]
        exact ⟨b.2, member⟩)
      have same : ar = other := by
        by_contra different
        have apart := geometry.apart ar here other (fewer there) different
        have bounds := slot_bounds (geometry.placed other (fewer there)) slot
        rw [isGroup] at inside
        change ar.start ≤ b.1 ∧ b.1 < ar.start + pgsize * ar.pages at inside
        unfold Apart at apart
        omega
      rw [isGroup, same]
      exact (good.owned.held other.group).mpr ⟨other, there, rfl⟩
    · intro none inNext
      obtain ⟨b, member, inside⟩ := (keeps_sound after).busy g inNext
      exact none b member inside

theorem keeps_calls (keeps : Keeps descs s arenas frees) : Calls descs s where
  malloc := by
    intro size moderate
    rcases malloc_ok keeps.good moderate with refused | ⟨p, next, allocated, _⟩
    · exact ⟨0, s.heap, refused⟩
    · exact ⟨p, next, allocated⟩
  calloc := by
    intro a b moderate
    rcases calloc_ok keeps.good moderate with refused | ⟨p, next, allocated, _, zeroed⟩
    · exact ⟨0, s.heap, refused, fun impossible => absurd rfl impossible⟩
    · exact ⟨p, next, allocated, fun _ => zeroed⟩
  realloc := by
    intro old size held moderate
    obtain ⟨p, next, allocated, result⟩ := realloc_ok keeps.good (held_cases held) moderate
    refine ⟨p, next, allocated, ?_, ?_⟩
    · intro positive null
      cases result with
      | kept _ => rfl
      | given _ _ given => exact absurd null (given_nonnull given)
      | taken zero _ _ => exact absurd zero positive
      | moved _ _ moved => exact absurd null (keeps_moved keeps moved).1
    · intro nonnull oldNonnull
      cases result with
      | kept _ => exact absurd rfl nonnull
      | given null _ _ => exact absurd null oldNonnull
      | taken _ _ _ => exact absurd rfl nonnull
      | moved _ _ moved => exact moved.copied
  free := fun _ held => keeps_frees keeps held

/-- In every state that the system reaches the live blocks are apart, from each other and from the
headers, and the counts, the free lists and the page groups agree with them; and every call that
is allowed there comes back. -/
theorem kernel_heap_is_sound (ax : BitVec 16) (userPageLimit descs : Nat) (image : InImage descs)
    (s : System) (run : Reached descs (initRamPages ax) userPageLimit s) :
    Sound descs s ∧ Calls descs s := by
  obtain ⟨arenas, frees, keeps⟩ := reached_keeps image run
  exact ⟨keeps_sound keeps, keeps_calls keeps⟩

/-- The first `malloc` after the descriptors have been initialised. -/
theorem kernel_heap_is_sound_first : ∃ s, Reached 16 (initRamPages 16#16) 2 s ∧
    Sound 16 s ∧ Calls 16 s := by
  have image : InImage 16 := by
    constructor
    · decide
    · rw [free_start_pages]
      decide
  have none : Ready 16 (fun _ => 0) 0 := by
    constructor
    · exact fun c impossible => absurd impossible (Nat.not_lt_zero _)
    · exact fun c impossible => absurd impossible (Nat.not_lt_zero _)
    · exact fun c impossible => absurd impossible (Nat.not_lt_zero _)
  obtain ⟨after, looped, _⟩ := malloc_init_loop image.nonnull (by decide) (Nat.zero_le 7)
    (Nat.zero_add 10) none
  have inited : mallocInit 16 (fourPages false false) = .ok
      { allocator := { fourPages false false with memory := after }, descCnt := 7, held := [] } := by
    unfold mallocInit
    change (mallocInitFrom 16 10 (16 * 2 ^ 0) 0 (fun _ => 0) >>= _) = _
    rw [looped]
    rfl
  have start := Reached.init four_pages_init inited
  obtain ⟨_, calls⟩ := kernel_heap_is_sound 16#16 2 16 image _ start
  obtain ⟨p, next, allocated⟩ := calls.malloc 100 (by unfold Moderate pgsize; decide)
  have run := Reached.malloc start (by unfold Moderate pgsize; decide) allocated
  exact ⟨_, run, kernel_heap_is_sound 16#16 2 16 image _ run⟩

end Runs

end UtSystems.Threads.MallocRuns

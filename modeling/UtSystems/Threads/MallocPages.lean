import UtSystems.Threads.MallocArenas

/-!
# The pages of the heap

The page groups that the heap holds are those of its arenas. A group from the page allocator is
apart from all of them, and a group that goes back takes its arena with it.
-/

namespace UtSystems.Threads.MallocPages

open Filesys.FreeMap Lib.Bytes
open Lib.Effects (except_bind_ok)
open Lib.MemoryWords Threads.Malloc Threads.MallocArenas Threads.PageAllocator

set_option autoImplicit false

/-- `others` are the groups that the rest of the kernel holds. -/
structure Owned (descs : Nat) (h : Heap) (others : List Group) (arenas : Set Arena) : Prop where
  inv : Inv h.allocator (h.held ++ others)
  held : ∀ g, g ∈ h.held ↔ ∃ ar ∈ arenas, g = ar.group
  above : descs + 10 * descSize ≤ h.allocator.kernelPool.base

section Groups

variable {a b : Allocator} {out : List Group} {first second : Group} {pages pageCnt : Nat}

theorem memset_same_outside {m : Memory} {dst size : Nat} {value : Byte} :
    SameOutside (Set.Ico dst (dst + size)) m (memset m dst value size) := by
  intro x outside
  rw [Set.mem_Ico] at outside
  unfold memset
  rw [if_neg outside]

/-- Two outstanding groups share no address. -/
theorem groups_apart (inv : Inv a out) (here : first ∈ out) (there : second ∈ out)
    (different : first ≠ second) :
    first.pages + pgsize * first.count ≤ second.pages ∨
      second.pages + pgsize * second.count ≤ first.pages := by
  have firstPlaced := inv.placed first here
  have secondPlaced := inv.placed second there
  have firstAligned := firstPlaced.aligned
  have secondAligned := secondPlaced.aligned
  have firstPositive := firstPlaced.positive
  have secondPositive := secondPlaced.positive
  by_contra overlap
  apply different
  apply inv.tiling.apart first here second there (max (pgNo first.pages) (pgNo second.pages))
  · simp only [Group.footprint, Set.mem_ofPred_eq]
    unfold pgOfs pgNo pgsize at *
    omega
  · simp only [Group.footprint, Set.mem_ofPred_eq]
    unfold pgOfs pgNo pgsize at *
    omega

/-- What `palloc_get_multiple (0, page_cnt)` does. -/
theorem palloc_get_plain (a : Allocator) (pageCnt : Nat) :
    pallocGetMultiple ⟨false, false, false⟩ pageCnt a = .ok (0, a) ∨
      ∃ idx, 0 < pageCnt ∧ bitmapScan (a.pool false).usedMap 0 pageCnt false = some idx ∧
        pallocGetMultiple ⟨false, false, false⟩ pageCnt a =
          .ok ((a.pool false).base + pgsize * idx, withBits a false idx pageCnt true) := by
  unfold pallocGetMultiple
  by_cases zero : pageCnt = 0
  · left
    rw [if_pos zero]
  · simp only [if_neg zero, bitmapScanAndFlip]
    cases scanned : bitmapScan (a.pool false).usedMap 0 pageCnt false with
    | none =>
        left
        rfl
    | some idx =>
        right
        exact ⟨idx, by omega, rfl, rfl⟩

/-- A group that is returned has been cleared at most, and nothing else has. -/
theorem palloc_get_memory {flags : Flags} (returned : pallocGetMultiple flags pageCnt a = .ok (pages, b)) :
    SameOutside (Set.Ico pages (pages + pgsize * pageCnt)) a.memory b.memory := by
  unfold pallocGetMultiple at returned
  split at returned
  · cases returned
    exact same_outside_refl
  · simp only at returned
    split at returned
    · split at returned
      · cases returned
      · cases returned
        exact same_outside_refl
    · split at returned
      · cases returned
        exact memset_same_outside
      · cases returned
        cases flags.palUser <;> exact same_outside_refl

theorem inv_perm {other : List Group} (inv : Inv a out) (perm : out.Perm other) : Inv a other where
  layout := inv.layout
  distinct := perm.nodup_iff.mp inv.distinct
  placed := fun g member => inv.placed g (perm.mem_iff.mpr member)
  tiling := {
    apart := fun first here second there => inv.tiling.apart first (perm.mem_iff.mpr here) second
      (perm.mem_iff.mpr there)
    covered := fun g member => inv.tiling.covered g (perm.mem_iff.mpr member) }
  owned := by
    intro page marked
    obtain ⟨g, member, inside⟩ := inv.owned page marked
    exact ⟨g, perm.mem_iff.mp member, inside⟩

theorem palloc_free_memory (returned : pallocFreeMultiple pages pageCnt a = .ok b) :
    SameOutside (Set.Ico pages (pages + pgsize * pageCnt)) a.memory b.memory := by
  unfold pallocFreeMultiple at returned
  split at returned
  · cases returned
  · split at returned
    · cases returned
      exact same_outside_refl
    · obtain ⟨user, _, later⟩ := except_bind_ok returned
      obtain ⟨all, _, last⟩ := except_bind_ok later
      cases all with
      | false => cases last
      | true =>
          cases last
          exact memset_same_outside

end Groups

section Pages

variable {descs : Nat} {h : Heap} {others : List Group} {arenas : Set Arena} {ar : Arena}

theorem owned_memory (owned : Owned descs h others arenas) (m : Memory) :
    Owned descs (h.setMemory m) others arenas where
  inv := inv_memory owned.inv m
  held := owned.held
  above := owned.above

/-- No page is to be had, or some that are in no arena. -/
theorem get_pages_cases (owned : Owned descs h others arenas) (pageCnt : Nat) :
    getPages pageCnt h = .ok (0, h) ∨
      ∃ a next, getPages pageCnt h = .ok (a, next) ∧ a ≠ 0 ∧ next.memory = h.memory ∧
        next.descCnt = h.descCnt ∧
        ∀ cls, (cls ≠ none → pageCnt = 1) → Placed descs ⟨a, pageCnt, cls⟩ ∧
          (∀ other ∈ arenas, Apart ⟨a, pageCnt, cls⟩ other) ∧
          Owned descs next others (insert ⟨a, pageCnt, cls⟩ arenas) := by
  rcases palloc_get_plain h.allocator pageCnt with refused | ⟨idx, positive, scanned, got⟩
  · left
    unfold getPages
    rw [refused]
    rfl
  · right
    let a := (h.allocator.pool false).base + pgsize * idx
    let g : Group := ⟨a, pageCnt, false⟩
    have fits := (bitmap_scan_some scanned).1
    have nonnull : a ≠ 0 := got_nonnull owned.inv.layout positive fits
    have inv : Inv (withBits h.allocator false idx pageCnt true) (g :: (h.held ++ others)) :=
      got_keeps owned.inv positive scanned
    have fresh := (List.nodup_cons.mp inv.distinct).1
    have aligned := (inv_sound inv).aligned g List.mem_cons_self
    refine ⟨a, { h with
      allocator := withBits h.allocator false idx pageCnt true
      held := g :: h.held }, ?_, nonnull, rfl, rfl, ?_⟩
    · unfold getPages
      rw [got]
      change Except.ok (a, _) = _
      rw [if_neg nonnull]
    · intro cls single
      refine ⟨⟨aligned.1, ?_, positive, single, aligned.2⟩, ?_, ?_⟩
      · exact Nat.le_trans owned.above (Nat.le_add_right _ _)
      · intro other there
        have heldOther := (owned.held other.group).mpr ⟨other, there, rfl⟩
        have different : g ≠ other.group := by
          intro same
          exact fresh (same ▸ List.mem_append_left _ heldOther)
        exact groups_apart inv List.mem_cons_self
          (List.mem_cons_of_mem _ (List.mem_append_left _ heldOther)) different
      · exact {
          inv := inv
          held := by
            intro other
            rw [List.mem_cons, owned.held other]
            constructor
            · intro member
              rcases member with isNew | ⟨ar, there, isGroup⟩
              · exact ⟨_, Set.mem_insert _ _, isNew⟩
              · exact ⟨ar, Set.mem_insert_of_mem _ there, isGroup⟩
            · intro ⟨ar, there, isGroup⟩
              rcases Set.mem_insert_iff.mp there with isNew | old
              · rw [isNew] at isGroup
                exact .inl isGroup
              · exact .inr ⟨ar, old, isGroup⟩
          above := by
            change _ ≤ ((withBits h.allocator false idx pageCnt true).pool false).base
            rw [with_bits_base]
            exact owned.above }

/-- The pages of an arena go back to the page allocator. -/
theorem free_pages_ok (owned : Owned descs h others arenas) (geometry : Geometry descs arenas)
    (here : ar ∈ arenas) :
    ∃ next, freePages ar.start ar.pages h = .ok next ∧ next.descCnt = h.descCnt ∧
      SameOutside (Set.Ico ar.start (ar.start + pgsize * ar.pages)) h.memory next.memory ∧
      Owned descs next others (arenas \ {ar}) := by
  have inHeld := (owned.held ar.group).mpr ⟨ar, here, rfl⟩
  have outstanding : ar.group ∈ h.held ++ others := List.mem_append_left _ inHeld
  obtain ⟨memory, freed⟩ := palloc_free_outstanding owned.inv outstanding
  have same := palloc_free_memory freed
  have inv := inv_memory (freed_keeps owned.inv outstanding) memory
  rw [List.erase_append_left _ inHeld] at inv
  have once : h.held.Nodup := (List.nodup_append.mp owned.inv.distinct).1
  refine ⟨{ h with
    allocator := { withBits h.allocator false (h.allocator.place ar.group) ar.pages false
      with memory := memory }
    held := h.held.erase ar.group }, ?_, rfl, same, ?_⟩
  · unfold freePages
    change (pallocFreeMultiple ar.group.pages ar.group.count h.allocator >>= _) = _
    rw [freed]
    rfl
  · exact {
      inv := inv
      held := by
        intro other
        rw [once.mem_erase_iff, owned.held other]
        constructor
        · intro ⟨different, arena, there, isGroup⟩
          refine ⟨arena, ⟨there, ?_⟩, isGroup⟩
          intro same
          rw [Set.mem_singleton_iff.mp same] at isGroup
          exact different isGroup
        · intro ⟨arena, ⟨there, notSame⟩, isGroup⟩
          refine ⟨?_, arena, there, isGroup⟩
          intro same
          apply notSame
          apply start_unique geometry there here
          exact congrArg Group.pages (isGroup.symm.trans same)
      above := by
        change _ ≤ ((withBits h.allocator false (h.allocator.place ar.group) ar.pages
          false).pool false).base
        rw [with_bits_base]
        exact owned.above }

/-- Groups are above the descriptors, whoever holds them. -/
theorem group_above (owned : Owned descs h others arenas) {g : Group} (member : g ∈ h.held ++ others) :
    descs + 10 * descSize ≤ g.pages := by
  have placed := owned.inv.placed g member
  have layout := owned.inv.layout
  have first := placed.first
  have above := owned.above
  have kernelEnd := layout.kernelEnd
  have userMap := layout.userMap
  have kernelAligned := layout.aligned false
  have aligned := placed.aligned
  have low : pgNo h.allocator.kernelPool.base ≤ pgNo (h.allocator.pool g.user).base := by
    cases g.user with
    | false => exact Nat.le_refl _
    | true =>
        change pgNo h.allocator.kernelPool.base ≤ pgNo h.allocator.userPool.base
        omega
  change pgOfs h.allocator.kernelPool.base = 0 at kernelAligned
  unfold pgOfs pgNo pgsize at *
  omega

theorem arena_apart (owned : Owned descs h others arenas) (here : ar ∈ arenas) {g : Group}
    (member : g ∈ others) :
    g.pages + pgsize * g.count ≤ ar.start ∨ ar.start + pgsize * ar.pages ≤ g.pages := by
  have inHeld := (owned.held ar.group).mpr ⟨ar, here, rfl⟩
  have different : g ≠ ar.group := by
    intro same
    exact (List.nodup_append.mp owned.inv.distinct).2.2 ar.group inHeld g member same.symm
  exact groups_apart owned.inv (List.mem_append_right _ member) (List.mem_append_left _ inHeld)
    different

/-- The rest of the kernel gets a group. -/
theorem other_got_owned {flags : Flags} {pageCnt pages : Nat} {b : Allocator}
    (owned : Owned descs h others arenas)
    (returned : pallocGetMultiple flags pageCnt h.allocator = .ok (pages, b)) :
    Owned descs { h with allocator := b }
      (if pages = 0 then others else ⟨pages, pageCnt, flags.palUser⟩ :: others) arenas := by
  rcases palloc_get_multiple_cases returned with ⟨null, same⟩ | found
  · rw [if_pos null, same]
    exact owned
  · obtain ⟨idx, memory, positive, scanned, here, next⟩ := found
    have nonnull := got_nonnull owned.inv.layout positive (bitmap_scan_some scanned).1
    have inv := inv_memory (got_keeps owned.inv positive scanned) memory
    rw [← here] at inv nonnull
    rw [if_neg nonnull]
    exact {
      inv := by
        rw [next]
        exact inv_perm inv List.perm_middle.symm
      held := owned.held
      above := by
        rw [next]
        change _ ≤ ((withBits h.allocator flags.palUser idx pageCnt true).pool false).base
        rw [with_bits_base]
        exact owned.above }

/-- The rest of the kernel frees one of its groups. -/
theorem other_freed_owned {g : Group} {b : Allocator} (owned : Owned descs h others arenas)
    (outstanding : g ∈ others)
    (returned : pallocFreeMultiple g.pages g.count h.allocator = .ok b) :
    Owned descs { h with allocator := b } (others.erase g) arenas := by
  have member : g ∈ h.held ++ others := List.mem_append_right _ outstanding
  obtain ⟨memory, freed⟩ := palloc_free_outstanding owned.inv member
  rw [freed] at returned
  cases returned
  have notHeld : g ∉ h.held := by
    intro inHeld
    exact (List.nodup_append.mp owned.inv.distinct).2.2 g inHeld g outstanding rfl
  have inv := inv_memory (freed_keeps owned.inv member) memory
  rw [List.erase_append_right _ notHeld] at inv
  exact {
    inv := inv
    held := owned.held
    above := by
      change _ ≤ ((withBits h.allocator g.user (h.allocator.place g) g.count false).pool false).base
      rw [with_bits_base]
      exact owned.above }

end Pages

end UtSystems.Threads.MallocPages

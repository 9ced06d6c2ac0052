import Mathlib.Data.List.Nodup
import Mathlib.Data.List.FinRange
import UtSystems.Userprog.PageDirectories

/-!
# Taking a page directory apart

`pagedir_destroy` walks the directory while it frees it: a freed page is filled with 0xcc, and
a second free of it fails an assertion.
-/

namespace UtSystems.Userprog.PageDirectoryDestroy

open Threads.PageAllocator (Panic)
open Userprog.UserMemory hiding lookupPage pagedirGetPage pteCreateUser
open Userprog.PageDirectories

set_option autoImplicit false

/-- The store after these pages have been given back. -/
def freePages (pages : List Addr) (s : Store) : Store :=
  { s with
    memory := fun page => if page ∈ pages then fun _ => 0xcccccccc else s.memory page
    live := fun page => if page ∈ pages then false else s.live page
    freed := pages.reverse ++ s.freed }

def pteFrame (s : Store) (pt : Addr) (pte : Index) : Option Addr := frameOf (s.memory pt pte)

/-- The frames that a page table maps, and its own page. -/
def tablePages (s : Store) (pt : Addr) : List Addr :=
  everyEntry.filterMap (pteFrame s pt) ++ [pt]

def entryPages (s : Store) (pd : Addr) (pde : Index) : List Addr :=
  if s.memory pd pde = 0 then [] else tablePages s (target (s.memory pd pde))

def directoryPages (s : Store) (pd : Addr) (indices : List Index) : List Addr :=
  indices.flatMap (entryPages s pd)

section Destroy

variable {ramPages : Nat} {pd pt page : Addr} {s : Store}

theorem free_pages_memory {pages : List Addr} (outside : page ∉ pages) :
    (freePages pages s).memory page = s.memory page := by
  simp [freePages, outside]

theorem free_pages_live {pages : List Addr} (outside : page ∉ pages) :
    (freePages pages s).live page = s.live page := by
  simp [freePages, outside]

theorem free_pages_append (first second : List Addr) :
    freePages (first ++ second) s = freePages second (freePages first s) := by
  unfold freePages
  congr 1
  · funext page
    by_cases inFirst : page ∈ first <;> by_cases inSecond : page ∈ second <;>
      simp [inFirst, inSecond]
  · funext page
    by_cases inFirst : page ∈ first <;> by_cases inSecond : page ∈ second <;>
      simp [inFirst, inSecond]
  · simp

theorem page_nonnull (isPage : IsPage ramPages page) : page ≠ 0 := by
  intro null
  have above := isPage.above
  rw [null] at above
  exact absurd above (by decide)

theorem palloc_free_page_live (isPage : IsPage ramPages page) (live : s.live page = true) :
    pallocFreePage page s = .ok (freePages [page] s) := by
  unfold pallocFreePage
  rw [require_true (page_offset isPage)]
  simp only [bind, Except.bind, if_neg (page_nonnull isPage), require_true live, pure, Except.pure]
  unfold freePages Store.setPage
  simp

theorem pte_frame_kept {pages : List Addr} (outside : pt ∉ pages) :
    pteFrame (freePages pages s) pt = pteFrame s pt := by
  funext pte
  unfold pteFrame
  rw [free_pages_memory outside]

theorem destroy_entries (indices : List Index)
    (once : (indices.filterMap (pteFrame s pt)).Nodup)
    (owned : ∀ frame ∈ indices.filterMap (pteFrame s pt),
      IsPage ramPages frame ∧ s.live frame = true ∧ frame ≠ pt) :
    indices.foldlM (destroyEntry pt) s =
      .ok (freePages (indices.filterMap (pteFrame s pt)) s) := by
  induction indices generalizing s with
  | nil => simp [freePages, pure, Except.pure]
  | cons pte rest ih =>
      rw [List.foldlM_cons]
      cases maps : pteFrame s pt pte with
      | none =>
          have skipped : destroyEntry pt s pte = .ok s := by
            unfold destroyEntry
            rw [if_neg (by rw [frame_of_none.mp maps]; simp)]
            rfl
          rw [List.filterMap_cons_none maps] at once owned ⊢
          rw [skipped]
          exact ih once owned
      | some frame =>
          rw [List.filterMap_cons_some maps] at once owned ⊢
          obtain ⟨isPage, live, notTable⟩ := owned frame List.mem_cons_self
          have freed : destroyEntry pt s pte = .ok (freePages [frame] s) := by
            unfold destroyEntry
            rw [if_pos (frame_of_some maps).1, pte_get_page_frame isPage maps]
            exact palloc_free_page_live isPage live
          have table : pteFrame (freePages [frame] s) pt = pteFrame s pt :=
            pte_frame_kept (by simpa using Ne.symm notTable)
          have next := @ih (freePages [frame] s)
          rw [table] at next
          rw [freed]
          change rest.foldlM (destroyEntry pt) (freePages [frame] s) = _
          rw [next (List.nodup_cons.mp once).2, ← free_pages_append]
          · rfl
          · intro other member
            have before := owned other (List.mem_cons_of_mem _ member)
            have different : other ∉ [frame] := by
              intro same
              rw [List.mem_singleton] at same
              subst same
              exact (List.nodup_cons.mp once).1 member
            exact ⟨before.1, by rw [free_pages_live different]; exact before.2.1, before.2.2⟩

theorem destroy_table {pde : Index} (isPage : IsPage ramPages pt)
    (entry : s.memory pd pde = tableEntry pt) (once : (tablePages s pt).Nodup)
    (owned : ∀ page ∈ tablePages s pt, IsPage ramPages page ∧ s.live page = true) :
    destroyTable pd s pde = .ok (freePages (tablePages s pt) s) := by
  unfold tablePages at once owned ⊢
  rw [List.nodup_append] at once
  obtain ⟨framesOnce, _, apart⟩ := once
  have frames := @destroy_entries ramPages pt s everyEntry framesOnce (by
    intro frame member
    have here := owned frame (List.mem_append_left _ member)
    exact ⟨here.1, here.2, apart frame member pt List.mem_cons_self⟩)
  have live := (owned pt (List.mem_append_right _ List.mem_cons_self)).2
  have outside : pt ∉ everyEntry.filterMap (pteFrame s pt) :=
    fun member => apart pt member pt List.mem_cons_self rfl
  unfold destroyTable
  rw [entry, if_pos (table_entry_made isPage).1, pde_get_pt_entry isPage]
  simp only [bind, Except.bind, frames]
  rw [palloc_free_page_live isPage (by rw [free_pages_live outside]; exact live),
    ← free_pages_append]

theorem destroy_missing {pde : Index} (missing : s.memory pd pde = 0) :
    destroyTable pd s pde = .ok s := by
  unfold destroyTable
  rw [missing, if_neg (by decide)]
  rfl

theorem directory_pages_cons (pde : Index) (rest : List Index) :
    directoryPages s pd (pde :: rest) = entryPages s pd pde ++ directoryPages s pd rest := rfl

theorem table_pages_kept {pages : List Addr} (outside : pt ∉ pages) :
    tablePages (freePages pages s) pt = tablePages s pt := by
  unfold tablePages
  rw [pte_frame_kept outside]

theorem entry_pages_missing {pde : Index} (missing : s.memory pd pde = 0) :
    entryPages s pd pde = [] := if_pos missing

theorem entry_pages_used {pde : Index} (used : s.memory pd pde ≠ 0) :
    entryPages s pd pde = tablePages s (target (s.memory pd pde)) := if_neg used

theorem table_in_table_pages : pt ∈ tablePages s pt :=
  List.mem_append_right _ List.mem_cons_self

/-- Freeing other pages first does not change what is left to free. -/
theorem directory_pages_kept {pages : List Addr} {indices : List Index} (notDir : pd ∉ pages)
    (apart : ∀ page ∈ directoryPages s pd indices, page ∉ pages) :
    directoryPages (freePages pages s) pd indices = directoryPages s pd indices := by
  induction indices with
  | nil => simp only [directoryPages, List.flatMap_nil]
  | cons pde rest ih =>
      rw [directory_pages_cons] at apart
      rw [directory_pages_cons, directory_pages_cons,
        ih fun page member => apart page (List.mem_append_right _ member)]
      have same : (freePages pages s).memory pd pde = s.memory pd pde :=
        congrFun (free_pages_memory notDir) pde
      by_cases missing : s.memory pd pde = 0
      · rw [entry_pages_missing missing, entry_pages_missing (same.trans missing)]
      · have usedAfter : (freePages pages s).memory pd pde ≠ 0 := by
          rw [same]
          exact missing
        have outside : target (s.memory pd pde) ∉ pages := by
          apply apart
          rw [entry_pages_used missing]
          exact List.mem_append_left _ table_in_table_pages
        rw [entry_pages_used missing, entry_pages_used usedAfter, same, table_pages_kept outside]

theorem destroy_tables (indices : List Index)
    (entries : ∀ pde ∈ indices, s.memory pd pde = 0 ∨
      ∃ pt, IsPage ramPages pt ∧ s.memory pd pde = tableEntry pt)
    (once : (directoryPages s pd indices).Nodup)
    (owned : ∀ page ∈ directoryPages s pd indices,
      IsPage ramPages page ∧ s.live page = true ∧ page ≠ pd) :
    indices.foldlM (destroyTable pd) s = .ok (freePages (directoryPages s pd indices) s) := by
  induction indices generalizing s with
  | nil => simp [directoryPages, freePages, pure, Except.pure]
  | cons pde rest ih =>
      rw [List.foldlM_cons]
      rw [directory_pages_cons] at once owned ⊢
      rcases entries pde List.mem_cons_self with missing | entered
      · rw [entry_pages_missing missing, List.nil_append] at once owned ⊢
        rw [destroy_missing missing]
        exact ih (fun other member => entries other (List.mem_cons_of_mem _ member)) once owned
      · obtain ⟨pt, isPage, entry⟩ := entered
        have used : s.memory pd pde ≠ 0 := by
          rw [entry]
          exact table_entry_ne_zero isPage
        rw [entry_pages_used used, entry, target_table_entry isPage] at once owned ⊢
        obtain ⟨tableOnce, restOnce, apart⟩ := List.nodup_append.mp once
        have freed := @destroy_table ramPages pd pt s pde isPage entry tableOnce (by
          intro page member
          have here := owned page (List.mem_append_left _ member)
          exact ⟨here.1, here.2.1⟩)
        have notDir : pd ∉ tablePages s pt := by
          intro member
          exact (owned pd (List.mem_append_left _ member)).2.2 rfl
        have outside : ∀ page ∈ directoryPages s pd rest, page ∉ tablePages s pt := by
          intro page member inTable
          exact apart page inTable page member rfl
        have kept := @directory_pages_kept pd s (tablePages s pt) rest notDir outside
        have next := @ih (freePages (tablePages s pt) s)
        rw [kept] at next
        rw [freed]
        change rest.foldlM (destroyTable pd) (freePages (tablePages s pt) s) = _
        rw [next _ restOnce, ← free_pages_append]
        · intro page member
          have before := owned page (List.mem_append_right _ member)
          exact ⟨before.1, by rw [free_pages_live (outside page member)]; exact before.2.1,
            before.2.2⟩
        · intro other member
          rw [free_pages_memory notDir]
          exact entries other (List.mem_cons_of_mem _ member)

end Destroy

/-- No frame is mapped at two pages. -/
def MappedOnce (map : PageMap) : Prop :=
  ∀ page other frame, map page = some frame → map other = some frame → page = other

/-- The mapped frames are handed out and are no part of a page directory. -/
def FramesOwned (k : Kernel) (pd : Addr) (s : Store) (map : PageMap) : Prop :=
  ∀ page frame, map page = some frame →
    s.live frame = true ∧ frame ≠ pd ∧ frame ∉ s.tables ∧ frame ∉ k.pages

section Represented

variable {k : Kernel} {pd page : Addr} {s : Store} {map : PageMap}

theorem mem_user_half {pde : Index} : pde ∈ userHalf ↔ pde.val < 768 := by
  unfold userHalf
  rw [List.mem_map]
  constructor
  · intro ⟨small, _, same⟩
    rw [← same]
    exact small.isLt
  · intro low
    exact ⟨⟨pde.val, low⟩, List.mem_finRange _, rfl⟩

theorem user_half_nodup : userHalf.Nodup := by
  unfold userHalf
  apply List.Nodup.map _ (List.nodup_finRange 768)
  intro first second same
  have value := congrArg Fin.val same
  exact Fin.ext value

/-- The frames of a used directory entry are those of its pages in the map. -/
theorem pte_frame_agrees (rep : Represents k pd s map) {pde : Index} (low : pde.val < 768)
    (used : s.memory pd pde ≠ 0) (pte : Index) :
    pteFrame s (target (s.memory pd pde)) pte = map (pageNumber pde pte) := by
  rw [← rep.agree pde pte low, frameAt, if_neg used]
  rfl

theorem mem_entry_pages (rep : Represents k pd s map) {pde : Index} (low : pde.val < 768) :
    page ∈ entryPages s pd pde ↔
      (∃ pte, map (pageNumber pde pte) = some page) ∨
        page ∈ s.tables ∧ s.memory pd pde = tableEntry page := by
  by_cases missing : s.memory pd pde = 0
  · rw [entry_pages_missing missing]
    constructor
    · intro impossible
      cases impossible
    · intro either
      rcases either with mapped | table
      · obtain ⟨pte, mapped⟩ := mapped
        rw [← rep.agree pde pte low, frameAt, if_pos missing] at mapped
        cases mapped
      · have isPage := (rep.tables page table.1).1
        exact absurd (table.2.symm.trans missing) (table_entry_ne_zero isPage)
  · obtain ⟨pt, inTables, entry, here, _⟩ := table_of rep low missing
    rw [entry_pages_used missing, tablePages, List.mem_append, List.mem_filterMap,
      List.mem_singleton]
    apply or_congr
    · constructor
      · intro filtered
        obtain ⟨pte, _, maps⟩ := filtered
        rw [pte_frame_agrees rep low missing] at maps
        exact ⟨pte, maps⟩
      · intro number
        obtain ⟨pte, mapped⟩ := number
        refine ⟨pte, List.mem_finRange pte, ?_⟩
        rw [pte_frame_agrees rep low missing, mapped]
    · rw [here]
      constructor
      · intro same
        rw [same]
        exact ⟨inTables, entry⟩
      · intro table
        exact table_entry_inj (rep.tables page table.1).1 (rep.tables pt inTables).1
          (table.2.symm.trans entry)

theorem mem_directory_pages (rep : Represents k pd s map) :
    page ∈ directoryPages s pd userHalf ↔
      (∃ number, map number = some page) ∨ page ∈ s.tables := by
  unfold directoryPages
  rw [List.mem_flatMap]
  constructor
  · intro ⟨pde, low, member⟩
    rcases (mem_entry_pages rep (mem_user_half.mp low)).mp member with mapped | table
    · obtain ⟨pte, mapped⟩ := mapped
      exact .inl ⟨_, mapped⟩
    · exact .inr table.1
  · intro either
    rcases either with mapped | table
    · obtain ⟨number, mapped⟩ := mapped
      have bound := (rep.frames number page mapped).2
      have low : number / 1024 < 768 := by omega
      let pde : Index := ⟨number / 1024, by omega⟩
      let pte : Index := ⟨number % 1024, by omega⟩
      have here : pageNumber pde pte = number := by
        simp only [pageNumber, pde, pte]
        omega
      refine ⟨pde, mem_user_half.mpr low, (mem_entry_pages rep low).mpr (.inl ⟨pte, ?_⟩)⟩
      rw [here, mapped]
    · obtain ⟨pde, low, entry⟩ := rep.entered page table
      exact ⟨pde, mem_user_half.mpr low, (mem_entry_pages rep low).mpr (.inr ⟨table, entry⟩)⟩

theorem entry_pages_nodup (rep : Represents k pd s map) (once : MappedOnce map)
    (owned : FramesOwned k pd s map) {pde : Index} (low : pde.val < 768) :
    (entryPages s pd pde).Nodup := by
  by_cases missing : s.memory pd pde = 0
  · rw [entry_pages_missing missing]
    exact List.nodup_nil
  · obtain ⟨pt, inTables, _, here, _⟩ := table_of rep low missing
    rw [entry_pages_used missing, tablePages, List.nodup_append]
    refine ⟨?_, List.nodup_singleton _, ?_⟩
    · apply List.Nodup.filterMap _ (List.nodup_finRange 1024)
      intro first second frame inFirst inSecond
      rw [Option.mem_def, pte_frame_agrees rep low missing] at inFirst inSecond
      exact (page_number_inj (once _ _ frame inFirst inSecond)).2
    · intro frame member table isTable same
      obtain ⟨pte, _, maps⟩ := List.mem_filterMap.mp member
      rw [pte_frame_agrees rep low missing] at maps
      rw [List.mem_singleton, here] at isTable
      have notTable := (owned _ frame maps).2.2.1
      rw [same, isTable] at notTable
      exact notTable inTables

theorem directory_pages_nodup (rep : Represents k pd s map) (once : MappedOnce map)
    (owned : FramesOwned k pd s map) : (directoryPages s pd userHalf).Nodup := by
  unfold directoryPages
  rw [List.nodup_flatMap]
  constructor
  · intro pde low
    exact entry_pages_nodup rep once owned (mem_user_half.mp low)
  · apply user_half_nodup.imp_of_mem
    intro first second firstLow secondLow different page inFirst inSecond
    have firstCases := (mem_entry_pages rep (mem_user_half.mp firstLow)).mp inFirst
    have secondCases := (mem_entry_pages rep (mem_user_half.mp secondLow)).mp inSecond
    rcases firstCases with ⟨pte, mapped⟩ | ⟨inTables, entry⟩
    · rcases secondCases with ⟨other, mappedOther⟩ | ⟨inTables, _⟩
      · exact different (page_number_inj (once _ _ page mapped mappedOther)).1
      · exact (owned _ page mapped).2.2.1 inTables
    · rcases secondCases with ⟨other, mappedOther⟩ | ⟨_, entryOther⟩
      · exact (owned _ page mappedOther).2.2.1 inTables
      · have same := entry.trans entryOther.symm
        rcases rep.apart first second (mem_user_half.mp firstLow) (mem_user_half.mp secondLow) same
          with zero | equal
        · exact table_entry_ne_zero (rep.tables page inTables).1 (entry.symm.trans zero)
        · exact different equal

/-- `pagedir_destroy` gives back the mapped frames, the page tables and the directory. -/
theorem pagedir_destroy_frees (rep : Represents k pd s map) (once : MappedOnce map)
    (owned : FramesOwned k pd s map) :
    ∃ pages, pagedirDestroy k pd s = .ok (freePages pages s) ∧ pages.Nodup ∧
      (∀ page, page ∈ pages ↔
        (∃ number, map number = some page) ∨ page ∈ s.tables ∨ page = pd) ∧
      ∀ page ∈ pages, page ∉ k.pages := by
  obtain ⟨isPage, live, notCommon⟩ := rep.directory
  have notDir : ∀ page ∈ directoryPages s pd userHalf,
      IsPage k.ramPages page ∧ s.live page = true ∧ page ≠ pd := by
    intro page member
    rcases (mem_directory_pages rep).mp member with ⟨number, mapped⟩ | table
    · have here := owned number page mapped
      exact ⟨(rep.frames number page mapped).1, here.1, here.2.1⟩
    · have here := rep.tables page table
      exact ⟨here.1, here.2.1, here.2.2.1⟩
  have nodup := directory_pages_nodup rep once owned
  have outside : pd ∉ directoryPages s pd userHalf := fun member => (notDir pd member).2.2 rfl
  have entries : ∀ pde ∈ userHalf, s.memory pd pde = 0 ∨
      ∃ pt, IsPage k.ramPages pt ∧ s.memory pd pde = tableEntry pt := by
    intro pde low
    rcases rep.entries pde (mem_user_half.mp low) with missing | ⟨pt, member, entry⟩
    · exact .inl missing
    · exact .inr ⟨pt, (rep.tables pt member).1, entry⟩
  refine ⟨directoryPages s pd userHalf ++ [pd], ?_, ?_, ?_, ?_⟩
  · unfold pagedirDestroy
    rw [if_neg (page_nonnull isPage), require_true (not_init_page_dir rep),
      destroy_tables userHalf entries nodup notDir]
    change pallocFreePage pd (freePages (directoryPages s pd userHalf) s) = _
    rw [palloc_free_page_live isPage (by rw [free_pages_live outside]; exact live),
      ← free_pages_append]
  · rw [List.nodup_append]
    refine ⟨nodup, List.nodup_singleton _, ?_⟩
    intro page member other isDir same
    rw [List.mem_singleton] at isDir
    rw [same, isDir] at member
    exact outside member
  · intro page
    rw [List.mem_append, mem_directory_pages rep, List.mem_singleton, or_assoc]
  · intro page member
    rw [List.mem_append, mem_directory_pages rep, List.mem_singleton] at member
    rcases member with (⟨number, mapped⟩ | table) | same
    · exact (owned number page mapped).2.2.2
    · exact (rep.tables page table).2.2.2
    · rw [same]
      exact notCommon

/-- A frame that is mapped at the first two pages is freed twice. -/
theorem pagedir_destroy_shared (rep : Represents k pd s map) (owned : FramesOwned k pd s map)
    {frame : Addr} (first : map 0 = some frame) (second : map 1 = some frame) :
    pagedirDestroy k pd s = .error .assertion := by
  have isPage := (rep.frames 0 frame first).1
  have low : (0 : Index).val < 768 := by decide
  have used : s.memory pd 0 ≠ 0 := by
    intro missing
    have agree := rep.agree 0 0 low
    rw [frameAt, if_pos missing, show pageNumber 0 0 = 0 from rfl, first] at agree
    cases agree
  obtain ⟨pt, inTables, entry, here, got⟩ := table_of rep low used
  have frames := pte_frame_agrees rep low used
  rw [here] at frames
  obtain ⟨live, _, notTable, _⟩ := owned 0 frame first
  have outside : pt ∉ [frame] := by
    intro same
    exact notTable (List.mem_singleton.mp same ▸ inTables)
  have freed : destroyEntry pt s 0 = .ok (freePages [frame] s) := by
    have maps : frameOf (s.memory pt 0) = some frame := (frames 0).trans first
    unfold destroyEntry
    rw [if_pos (frame_of_some maps).1, pte_get_page_frame isPage maps]
    exact palloc_free_page_live isPage live
  have again : destroyEntry pt (freePages [frame] s) 1 = .error .assertion := by
    have maps : frameOf (s.memory pt 1) = some frame := (frames 1).trans second
    unfold destroyEntry
    rw [free_pages_memory outside, if_pos (frame_of_some maps).1, pte_get_page_frame isPage maps]
    change pallocFreePage frame (freePages [frame] s) = _
    unfold pallocFreePage
    rw [require_true (page_offset isPage), if_neg (page_nonnull isPage)]
    simp [bind, Except.bind, freePages, require]
  have table : everyEntry.foldlM (destroyEntry pt) s = .error .assertion := by
    unfold everyEntry
    rw [List.finRange_succ, List.finRange_succ, List.map_cons, List.foldlM_cons]
    change (destroyEntry pt s 0 >>= fun next => _) = _
    rw [freed]
    change List.foldlM (destroyEntry pt) (freePages [frame] s) (1 :: _) = _
    rw [List.foldlM_cons, again]
    rfl
  have outer : destroyTable pd s 0 = .error .assertion := by
    unfold destroyTable
    rw [entry, if_pos (table_entry_made (rep.tables pt inTables).1).1, ← entry, got]
    simp only [bind, Except.bind, table]
  have walk : userHalf.foldlM (destroyTable pd) s = .error .assertion := by
    unfold userHalf
    rw [List.finRange_succ, List.map_cons, List.foldlM_cons]
    change (destroyTable pd s 0 >>= fun next => _) = _
    rw [outer]
    rfl
  unfold pagedirDestroy
  rw [if_neg (page_nonnull rep.directory.1), require_true (not_init_page_dir rep), walk]
  rfl

end Represented

end UtSystems.Userprog.PageDirectoryDestroy

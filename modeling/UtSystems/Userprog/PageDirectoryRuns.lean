import UtSystems.Userprog.PageDirectoryDestroy

/-!
# The life of a page directory

A run begins with `paging_init` and `pagedir_create`. Between the calls on the directory other
pages are obtained, freed and written, by the same process or another.
-/

namespace UtSystems.Userprog.PageDirectoryRuns

open Lib.Bytes
open Lib.Effects (except_bind_ok)
open Threads.PageAllocator (Panic initRamPages ram_pages_bounds)
open Userprog.UserMemory hiding lookupPage pagedirGetPage pteCreateUser
open Userprog.PageDirectories Userprog.PageDirectoryDestroy

set_option autoImplicit false

/-- One turn of the loop of `paging_init`: the page table in use, the pages that
`palloc_get_page (PAL_ASSERT | PAL_ZERO)` will return, and the store. -/
def pagingTurn (text : Addr → Bool) (pd : Addr) (state : Addr × List Addr × Store) (page : Nat) :
    Except Panic (Addr × List Addr × Store) := do
  let (pt, given, s) := state
  let vaddr ← ptov (BitVec.ofNat 32 (page * pgSize))
  if s.memory pd (pdNo vaddr) = 0 then
    match given with
    | [] => throw .outOfPages
    | pt :: rest =>
        let next := ((s.take pt).setPage pt fun _ => 0).setWord pd (pdNo vaddr) (← pdeCreate pt)
        return (pt, rest, next.setWord pt (ptNo vaddr) (← pteCreateKernel vaddr (!text vaddr)))
  else return (pt, given, s.setWord pt (ptNo vaddr) (← pteCreateKernel vaddr (!text vaddr)))

/-- `text` holds in the kernel's code. -/
def pagingInit (ramPages : Nat) (text : Addr → Bool) (given : List Addr) (s : Store) :
    Except Panic (Kernel × Store) := do
  match given with
  | [] => throw .outOfPages
  | pd :: rest =>
      let (_, left, next) ← (List.range ramPages).foldlM (pagingTurn text pd)
        (0, rest, (s.take pd).setPage pd fun _ => 0)
      return ({
        ramPages := ramPages
        initPageDir := pd
        pages := given.take (given.length - left.length) }, next)

section Boot

variable {text : Addr → Bool} {pd : Addr} {given : List Addr} {ramPages : Nat}

/-- The loop of `paging_init` between two turns. -/
structure Booting (pd : Addr) (given : List Addr) (state : Addr × List Addr × Store) : Prop where
  split : ∃ used, given = used ++ state.2.1 ∧ pd ∈ used ∧
    (∀ page ∈ used, state.2.2.live page = true) ∧
    ∀ page ∈ state.2.1, state.2.2.live page = false
  userHalf : ∀ pde : Index, pde.val < 768 → state.2.2.memory pd pde = 0
  table : (∀ pde, state.2.2.memory pd pde = 0) ∨ state.1 ≠ pd

theorem kernel_base_value : kernelBase.toNat = physBase := by
  unfold kernelBase
  rw [BitVec.toNat_ofNat]
  exact Nat.mod_eq_of_lt (by decide)

theorem ptov_above {paddr vaddr : Addr} (returned : ptov paddr = .ok vaddr)
    (small : paddr.toNat < 2 ^ 26) :
    vaddr.toNat = paddr.toNat + physBase ∧ 768 ≤ (pdNo vaddr).val := by
  unfold ptov at returned
  obtain ⟨_, _, returned⟩ := except_bind_ok returned
  have here : paddr + kernelBase = vaddr := Except.ok.inj returned
  rw [← here]
  have value : (paddr + kernelBase).toNat = paddr.toNat + physBase := by
    rw [BitVec.toNat_add, kernel_base_value]
    apply Nat.mod_eq_of_lt
    unfold physBase
    omega
  have high : 3221225472 ≤ (paddr + kernelBase).toNat := by
    rw [value]
    exact Nat.le_add_left _ _
  refine ⟨value, ?_⟩
  simp only [pdNo]
  omega

theorem page_address_small {page : Nat} (inRam : page < 16384) :
    (BitVec.ofNat 32 (page * pgSize)).toNat = page * pgSize ∧
      (BitVec.ofNat 32 (page * pgSize)).toNat < 2 ^ 26 := by
  simp only [pgSize, BitVec.toNat_ofNat]
  omega

theorem paging_turn_booting {state next : Addr × List Addr × Store} {page : Nat}
    (distinct : given.Nodup) (booting : Booting pd given state) (inRam : page < 16384)
    (returned : pagingTurn text pd state page = .ok next) : Booting pd given next := by
  obtain ⟨pt, left, s⟩ := state
  obtain ⟨used, split, member, usedLive, leftFree⟩ := booting.split
  have half := booting.userHalf
  have table := booting.table
  simp only at split usedLive leftFree half table
  unfold pagingTurn at returned
  simp only at returned
  obtain ⟨vaddr, above, returned⟩ := except_bind_ok returned
  have high := (ptov_above above (page_address_small inRam).2).2
  have notHere : ∀ pde : Index, pde.val < 768 → pde ≠ pdNo vaddr := by
    intro pde low same
    rw [same] at low
    omega
  by_cases missing : s.memory pd (pdNo vaddr) = 0
  · rw [if_pos missing] at returned
    cases left with
    | nil => cases returned
    | cons table rest =>
        obtain ⟨pde, created, returned⟩ := except_bind_ok returned
        obtain ⟨pte, made, returned⟩ := except_bind_ok returned
        cases returned
        have tableFree := leftFree table List.mem_cons_self
        have notDir : table ≠ pd := by
          intro same
          rw [same, usedLive pd member] at tableFree
          cases tableFree
        rw [split] at distinct
        have unused : table ∉ rest :=
          (List.nodup_cons.mp (List.nodup_append.mp distinct).2.1).1
        exact {
          split := by
            refine ⟨used ++ [table], ?_, List.mem_append_left _ member, ?_, ?_⟩
            · rw [split, List.append_assoc]
              rfl
            · intro other inUsed
              change (if other = table then true else s.live other) = true
              rcases List.mem_append.mp inUsed with before | last
              · rw [usedLive other before]
                exact ite_self true
              · rw [if_pos (List.mem_singleton.mp last)]
            · intro other inRest
              change (if other = table then true else s.live other) = false
              have different : other ≠ table := fun same => unused (same ▸ inRest)
              rw [if_neg different]
              exact leftFree other (List.mem_cons_of_mem _ inRest)
          userHalf := by
            intro index low
            simp only
            rw [set_word_other _ _ (Ne.symm notDir), set_word_at, if_neg (notHere index low),
              set_page_other _ (Ne.symm notDir)]
            exact half index low
          table := .inr notDir }
  · rw [if_neg missing] at returned
    obtain ⟨pte, made, returned⟩ := except_bind_ok returned
    cases returned
    have notDir : pt ≠ pd := by
      rcases table with empty | different
      · exact absurd (empty _) missing
      · exact different
    exact {
      split := ⟨used, split, member, usedLive, leftFree⟩
      userHalf := by
        intro index low
        simp only
        rw [set_word_other _ _ (Ne.symm notDir)]
        exact half index low
      table := .inr notDir }

theorem paging_turns_booting (pages : List Nat) {state next : Addr × List Addr × Store}
    (distinct : given.Nodup) (inRam : ∀ page ∈ pages, page < 16384)
    (booting : Booting pd given state)
    (returned : pages.foldlM (pagingTurn text pd) state = .ok next) : Booting pd given next := by
  induction pages generalizing state with
  | nil =>
      cases returned
      exact booting
  | cons page rest ih =>
      rw [List.foldlM_cons] at returned
      obtain ⟨middle, turned, returned⟩ := except_bind_ok returned
      exact ih (fun other member => inRam other (List.mem_cons_of_mem _ member))
        (paging_turn_booting distinct booting (inRam page List.mem_cons_self) turned) returned

theorem vaddr_is_page {page : Nat} (inRam : page < ramPages) (small : ramPages ≤ 16384) :
    ∃ vaddr, ptov (BitVec.ofNat 32 (page * pgSize)) = .ok vaddr ∧ IsPage ramPages vaddr ∧
      vaddr.toNat = page * pgSize + physBase := by
  have address := page_address_small (show page < 16384 by omega)
  have returned : ptov (BitVec.ofNat 32 (page * pgSize)) =
      .ok (BitVec.ofNat 32 (page * pgSize) + kernelBase) := by
    unfold ptov
    rw [require_true (decide_eq_true (by unfold physBase; omega))]
    rfl
  have value := (ptov_above returned address.2).1
  rw [address.1] at value
  refine ⟨_, returned, ⟨?_, ?_, ?_⟩, value⟩
  · rw [value]
    simp only [pgSize, physBase]
    omega
  · rw [value]
    exact Nat.le_add_left _ _
  · rw [value, Nat.add_comm]
    apply Nat.add_lt_add_left
    exact Nat.mul_lt_mul_of_pos_right inRam (by decide)

theorem pte_create_kernel_page {page : Addr} (isPage : IsPage ramPages page) (writable : Bool) :
    ∃ pte, pteCreateKernel page writable = .ok pte := by
  unfold pteCreateKernel
  rw [require_true (page_offset isPage), vtop_page isPage]
  exact ⟨_, rfl⟩

/-- A turn whose page table exists, for the first 4 MB. -/
theorem paging_turn_present {pt : Addr} {left : List Addr} {s : Store} {page : Nat}
    (inRam : page < ramPages) (small : ramPages ≤ 1024) (notDir : pt ≠ pd)
    (present : s.memory pd 768 ≠ 0) :
    ∃ next, pagingTurn text pd (pt, left, s) page = .ok (pt, left, next) ∧
      next.memory pd = s.memory pd ∧ next.live = s.live := by
  obtain ⟨vaddr, above, isPage, value⟩ := vaddr_is_page inRam (show ramPages ≤ 16384 by omega)
  obtain ⟨pte, made⟩ := pte_create_kernel_page isPage (!text vaddr)
  have index : pdNo vaddr = 768 := by
    apply Fin.ext
    change vaddr.toNat / 4194304 = 768
    rw [value]
    simp only [pgSize, physBase]
    omega
  refine ⟨s.setWord pt (ptNo vaddr) pte, ?_, set_word_other _ _ (Ne.symm notDir), rfl⟩
  unfold pagingTurn
  simp only [above, bind, Except.bind, index, if_neg present, made]
  rfl

theorem paging_turns_present {pt : Addr} {left : List Addr} (small : ramPages ≤ 1024)
    (notDir : pt ≠ pd) (pages : List Nat) {s : Store} (inRam : ∀ page ∈ pages, page < ramPages)
    (present : s.memory pd 768 ≠ 0) :
    ∃ next, pages.foldlM (pagingTurn text pd) (pt, left, s) = .ok (pt, left, next) ∧
      next.live = s.live := by
  induction pages generalizing s with
  | nil => exact ⟨s, rfl, rfl⟩
  | cons page rest ih =>
      obtain ⟨middle, turned, directory, live⟩ := @paging_turn_present text pd ramPages pt left s
        page (inRam page List.mem_cons_self) small notDir present
      obtain ⟨next, walked, after⟩ := @ih middle
        (fun other member => inRam other (List.mem_cons_of_mem _ member)) (directory ▸ present)
      refine ⟨next, ?_, after.trans live⟩
      rw [List.foldlM_cons, turned]
      exact walked

/-- Up to 4 MB of RAM need one page table. -/
theorem paging_init_returns {pt : Addr} {rest : List Addr} {s : Store} (positive : 0 < ramPages)
    (small : ramPages ≤ 1024) (isPage : IsPage ramPages pt) (notDir : pt ≠ pd) :
    ∃ next, pagingInit ramPages text (pd :: pt :: rest) s =
        .ok (⟨ramPages, pd, [pd, pt]⟩, next) ∧
      next.live = ((s.take pd).take pt).live := by
  obtain ⟨vaddr, above, vaddrPage, value⟩ := vaddr_is_page positive (show ramPages ≤ 16384 by omega)
  obtain ⟨pte, made⟩ := pte_create_kernel_page vaddrPage (!text vaddr)
  have index : pdNo vaddr = 768 := by
    apply Fin.ext
    change vaddr.toNat / 4194304 = 768
    rw [value]
    decide
  let zeroed := (s.take pd).setPage pd fun _ => 0
  let entered := ((zeroed.take pt).setPage pt fun _ => 0).setWord pd 768 (tableEntry pt)
  let middle := entered.setWord pt (ptNo vaddr) pte
  have missing : zeroed.memory pd 768 = 0 := by
    simp only [zeroed, set_page_self]
  have first : pagingTurn text pd (0, pt :: rest, zeroed) 0 = .ok (pt, rest, middle) := by
    unfold pagingTurn
    simp only [above, bind, Except.bind, index, if_pos missing, pde_create_page isPage, made]
    rfl
  have present : middle.memory pd 768 ≠ 0 := by
    simp only [middle, entered]
    rw [set_word_other _ _ (Ne.symm notDir), set_word_at, if_pos rfl]
    exact table_entry_ne_zero isPage
  obtain ⟨count, rfl⟩ := Nat.exists_eq_succ_of_ne_zero (Nat.ne_of_gt positive)
  have inRam : ∀ page ∈ (List.range count).map Nat.succ, page < count + 1 := by
    intro page member
    obtain ⟨before, inRange, same⟩ := List.mem_map.mp member
    have bound := List.mem_range.mp inRange
    omega
  obtain ⟨next, walked, live⟩ := @paging_turns_present text pd (count + 1) pt rest small notDir
    ((List.range count).map Nat.succ) middle inRam present
  have whole : (List.range (count + 1)).foldlM (pagingTurn text pd) (0, pt :: rest, zeroed) =
      .ok (pt, rest, next) := by
    rw [List.range_succ_eq_map, List.foldlM_cons, first]
    exact walked
  refine ⟨next, ?_, live⟩
  unfold pagingInit
  change ((List.range (count + 1)).foldlM (pagingTurn text pd) (0, pt :: rest, zeroed) >>= _) = _
  have used : (pd :: pt :: rest).take ((pd :: pt :: rest).length - rest.length) = [pd, pt] := by
    rw [show (pd :: pt :: rest).length - rest.length = 2 by simp only [List.length_cons]; omega]
    rfl
  rw [whole, ← used]
  rfl

/-- What `paging_init` leaves behind and nobody changes. -/
structure Ready (k : Kernel) (s : Store) : Prop where
  ram : k.ramPages ≤ 16384
  common : k.initPageDir ∈ k.pages
  commonLive : ∀ page ∈ k.pages, s.live page = true
  userHalf : ∀ pde : Index, pde.val < 768 → s.memory k.initPageDir pde = 0

theorem paging_init_ready {s next : Store} {k : Kernel} (small : ramPages ≤ 16384)
    (distinct : given.Nodup) (free : ∀ page ∈ given, s.live page = false)
    (returned : pagingInit ramPages text given s = .ok (k, next)) :
    Ready k next ∧ k.ramPages = ramPages := by
  cases given with
  | nil => cases returned
  | cons pd rest =>
      unfold pagingInit at returned
      obtain ⟨⟨pt, left, after⟩, turned, returned⟩ := except_bind_ok returned
      cases returned
      have start : Booting pd (pd :: rest) (0, rest, (s.take pd).setPage pd fun _ => 0) := {
        split := by
          refine ⟨[pd], rfl, List.mem_cons_self, ?_, ?_⟩
          · intro page member
            change (if page = pd then true else s.live page) = true
            rw [if_pos (List.mem_singleton.mp member)]
          · intro page member
            change (if page = pd then true else s.live page) = false
            have different : page ≠ pd := fun same =>
              (List.nodup_cons.mp distinct).1 (same ▸ member)
            rw [if_neg different]
            exact free page (List.mem_cons_of_mem _ member)
        userHalf := by
          intro pde _
          simp only [set_page_self]
        table := by
          left
          intro pde
          simp only [set_page_self] }
      have inRam : ∀ page ∈ List.range ramPages, page < 16384 := by
        intro page member
        have bound := List.mem_range.mp member
        omega
      have booted := paging_turns_booting (List.range ramPages) distinct inRam start turned
      obtain ⟨used, split, member, usedLive, _⟩ := booted.split
      have taken : (pd :: rest).take ((pd :: rest).length - left.length) = used := by
        rw [split]
        simp
      refine ⟨?_, rfl⟩
      exact {
        ram := small
        common := by
          simp only
          rw [taken]
          exact member
        commonLive := by
          simp only
          rw [taken]
          exact usedLive
        userHalf := booted.userHalf }

end Boot

/-- Pages other than these are obtained, freed or written. -/
inductive Elsewhere (k : Kernel) (own : List Addr) (s : Store) : Store → Prop where
  | obtained {page : Addr} (words : Index → Word) (fresh : Fresh k s page) :
      Elsewhere k own s ((s.take page).setPage page words)
  | freed {page : Addr} {next : Store} (foreign : page ∉ own) (notCommon : page ∉ k.pages)
      (returned : pallocFreePage page s = .ok next) : Elsewhere k own s next
  | stored {page : Addr} (words : Index → Word) (foreign : page ∉ own)
      (notInit : page ≠ k.initPageDir) : Elsewhere k own s (s.setPage page words)

/-- The system before the page directory is created. -/
inductive Running (ax : BitVec 16) : Kernel → Store → Prop where
  | booted {text : Addr → Bool} {given : List Addr} {s next : Store} {k : Kernel}
      (distinct : given.Nodup) (free : ∀ page ∈ given, s.live page = false)
      (returned : pagingInit (initRamPages ax) text given s = .ok (k, next)) : Running ax k next
  | elsewhere {k : Kernel} {s next : Store} (prior : Running ax k s)
      (changed : Elsewhere k [] s next) : Running ax k next

/-- The directory at `pd` after any calls on it that return, with the map they stand for. -/
inductive Reached (ax : BitVec 16) (k : Kernel) (pd : Addr) : Store → PageMap → Prop where
  | created {s next : Store} (running : Running ax k s) (fresh : Fresh k s pd)
      (returned : pagedirCreate k (some pd) { s with tables := [] } = (some pd, next)) :
      Reached ax k pd next fun _ => none
  | setPage {s next : Store} {map : PageMap} {upage kpage : Addr} {writable done : Bool}
      {given : Option Addr} (prior : Reached ax k pd s map)
      (fresh : ∀ pt, given = some pt → Fresh k s pt)
      (returned : pagedirSetPage k pd upage kpage writable given s = .ok (done, next)) :
      Reached ax k pd next (if done then map.update (pgNo upage) (some kpage) else map)
  | install {s next : Store} {map : PageMap} {upage kpage : Addr} {writable done : Bool}
      {given : Option Addr} (prior : Reached ax k pd s map)
      (fresh : ∀ pt, given = some pt → Fresh k s pt)
      (returned : installPage k pd upage kpage writable given s = .ok (done, next)) :
      Reached ax k pd next (if done then map.update (pgNo upage) (some kpage) else map)
  | clear {s next : Store} {map : PageMap} {upage : Addr} (prior : Reached ax k pd s map)
      (returned : pagedirClearPage pd upage s = .ok next) :
      Reached ax k pd next (map.update (pgNo upage) none)
  | elsewhere {s next : Store} {map : PageMap} (prior : Reached ax k pd s map)
      (changed : Elsewhere k (pd :: s.tables) s next) : Reached ax k pd next map

section Runs

variable {ax : BitVec 16} {k : Kernel} {pd : Addr} {s next : Store} {map : PageMap}

/-- What happens elsewhere leaves the pages alone that it must not touch. -/
theorem elsewhere_keeps {own : List Addr} (common : k.initPageDir ∈ k.pages)
    (changed : Elsewhere k own s next) :
    next.tables = s.tables ∧
      (∀ page, s.live page = true → page ∈ own ∨ page ∈ k.pages → next.live page = true) ∧
      ∀ page, s.live page = true → page ∈ own ∨ page = k.initPageDir →
        next.memory page = s.memory page := by
  cases changed with
  | obtained words fresh =>
      refine ⟨rfl, ?_, ?_⟩
      · intro other live _
        change (if _ then true else s.live other) = true
        rw [live]
        exact ite_self true
      · intro other live _
        apply set_page_other
        intro same
        rw [same, fresh.2] at live
        cases live
  | @freed page _ foreign notCommon returned =>
      unfold pallocFreePage at returned
      obtain ⟨_, _, returned⟩ := except_bind_ok returned
      split at returned
      · cases returned
        exact ⟨rfl, fun _ live _ => live, fun _ _ _ => rfl⟩
      · obtain ⟨_, _, returned⟩ := except_bind_ok returned
        cases returned
        refine ⟨rfl, ?_, ?_⟩
        · intro other live mine
          have different : other ≠ page := by
            intro same
            subst same
            rcases mine with own | common
            · exact foreign own
            · exact notCommon common
          simp only [if_neg different, live]
        · intro other live mine
          apply set_page_other
          intro same
          subst same
          rcases mine with own | init
          · exact foreign own
          · exact notCommon (init ▸ common)
  | stored words foreign notInit =>
      refine ⟨rfl, fun _ live _ => live, ?_⟩
      intro other _ mine
      apply set_page_other
      intro same
      subst same
      rcases mine with own | init
      · exact foreign own
      · exact notInit init

theorem running_ready (running : Running ax k s) : Ready k s := by
  induction running with
  | booted distinct free returned =>
      exact (paging_init_ready (ram_pages_bounds ax).2 distinct free returned).1
  | elsewhere prior changed ih =>
      obtain ⟨_, live, memory⟩ := elsewhere_keeps ih.common changed
      exact {
        ram := ih.ram
        common := ih.common
        commonLive := fun page member => live page (ih.commonLive page member) (.inr member)
        userHalf := by
          rw [memory _ (ih.commonLive _ ih.common) (.inr rfl)]
          exact ih.userHalf }

theorem created_represents (ready : Ready k s) (fresh : Fresh k s pd)
    (returned : pagedirCreate k (some pd) { s with tables := [] } = (some pd, next)) :
    Represents k pd next fun _ => none := by
  cases returned
  have notCommon : pd ∉ k.pages := by
    intro member
    have free := fresh.2
    rw [ready.commonLive pd member] at free
    cases free
  have notInit : k.initPageDir ≠ pd := fun same => notCommon (same ▸ ready.common)
  have directory : ∀ pde, (({ s with tables := [] }.take pd).setPage pd
      (s.memory k.initPageDir)).memory pd pde = s.memory k.initPageDir pde := by
    intro pde
    rw [set_page_self]
  exact {
    ram := ready.ram
    common := ready.common
    commonLive := by
      intro page member
      change (if page = pd then true else s.live page) = true
      rw [ready.commonLive page member]
      exact ite_self true
    directory := ⟨fresh.1, if_pos rfl, notCommon⟩
    tables := fun _ member => absurd member List.not_mem_nil
    kernelHalf := by
      intro pde _
      rw [set_page_other _ notInit]
      exact directory pde
    entries := fun pde low => .inl ((directory pde).trans (ready.userHalf pde low))
    entered := fun _ member => absurd member List.not_mem_nil
    apart := fun pde _ low _ _ => .inl ((directory pde).trans (ready.userHalf pde low))
    agree := by
      intro pde pte low
      exact if_pos ((directory pde).trans (ready.userHalf pde low))
    frames := by
      intro page frame mapped
      cases mapped }

theorem elsewhere_represents (rep : Represents k pd s map)
    (changed : Elsewhere k (pd :: s.tables) s next) : Represents k pd next map := by
  obtain ⟨tables, live, memory⟩ := elsewhere_keeps rep.common changed
  have isLive : ∀ page, page = pd ∨ page ∈ s.tables ∨ page ∈ k.pages → s.live page = true := by
    intro page mine
    rcases mine with dir | table | common
    · rw [dir]
      exact rep.directory.2.1
    · exact (rep.tables page table).2.1
    · exact rep.commonLive page common
  apply represents_frame rep tables
  · intro page mine
    rcases mine with dir | table | init
    · exact memory page (isLive page (.inl dir)) (.inl (dir ▸ List.mem_cons_self))
    · exact memory page (isLive page (.inr (.inl table))) (.inl (List.mem_cons_of_mem _ table))
    · exact memory page (isLive page (.inr (.inr (init ▸ rep.common)))) (.inr init)
  · intro page mine before
    rcases mine with dir | table | common
    · exact live page before (.inl (dir ▸ List.mem_cons_self))
    · exact live page before (.inl (List.mem_cons_of_mem _ table))
    · exact live page before (.inr common)

theorem reached_represents (run : Reached ax k pd s map) : Represents k pd s map := by
  induction run with
  | created running fresh returned =>
      exact created_represents (running_ready running) fresh returned
  | setPage prior fresh returned ih => exact set_page_keeps ih fresh returned
  | install prior fresh returned ih => exact install_page_keeps ih fresh returned
  | clear prior returned ih => exact clear_page_keeps ih returned
  | elsewhere prior changed ih => exact elsewhere_represents ih changed

/-- The directory answers as the map says; calls with proper arguments return, and those that
fail change nothing. -/
structure Faithful (k : Kernel) (pd : Addr) (s : Store) (map : PageMap) : Prop where
  agrees : ∀ uaddr, isUserVaddr uaddr = true → pagedirGetPage pd uaddr s =
    .ok ((map (pgNo uaddr)).map (· + BitVec.ofNat 32 (pgOfs uaddr)))
  kernelHalf : ∀ pde : Index, 768 ≤ pde.val → s.memory pd pde = s.memory k.initPageDir pde
  sets : ∀ upage kpage writable given, SetArguments k upage kpage →
    (∀ pt, given = some pt → Fresh k s pt) → map (pgNo upage) = none →
    ∃ done next, pagedirSetPage k pd upage kpage writable given s = .ok (done, next) ∧
      (done = false → given = none)
  installs : ∀ upage kpage writable given, SetArguments k upage kpage →
    (∀ pt, given = some pt → Fresh k s pt) →
    ∃ done next, installPage k pd upage kpage writable given s = .ok (done, next) ∧
      (done = false → given = none ∨ map (pgNo upage) ≠ none)
  clears : ∀ upage, pgOfs upage = 0 → isUserVaddr upage = true →
    ∃ next, pagedirClearPage pd upage s = .ok next
  setFails : ∀ upage kpage writable given next, (∀ pt, given = some pt → Fresh k s pt) →
    pagedirSetPage k pd upage kpage writable given s = .ok (false, next) →
    ∀ uaddr, isUserVaddr uaddr = true →
      pagedirGetPage pd uaddr next = pagedirGetPage pd uaddr s
  installFails : ∀ upage kpage writable given next, (∀ pt, given = some pt → Fresh k s pt) →
    installPage k pd upage kpage writable given s = .ok (false, next) →
    ∀ uaddr, isUserVaddr uaddr = true →
      pagedirGetPage pd uaddr next = pagedirGetPage pd uaddr s

theorem represents_faithful (rep : Represents k pd s map) : Faithful k pd s map where
  agrees := fun _ user => pagedir_get_page_agrees rep user
  kernelHalf := rep.kernelHalf
  sets := by
    intro upage kpage writable given valid fresh free
    rcases @set_page_unmapped k pd upage kpage writable given s map rep valid fresh free
      with failed | stored
    · exact ⟨false, s, failed.2.2, fun _ => failed.1⟩
    · obtain ⟨next, returned, _⟩ := stored
      exact ⟨true, next, returned, fun impossible => by cases impossible⟩
  installs := by
    intro upage kpage writable given valid fresh
    rw [install_page_eq rep valid.user]
    split
    · next free =>
      rcases @set_page_unmapped k pd upage kpage writable given s map rep valid fresh free
        with failed | stored
      · exact ⟨false, s, failed.2.2, fun _ => .inl failed.1⟩
      · obtain ⟨next, returned, _⟩ := stored
        exact ⟨true, next, returned, fun impossible => by cases impossible⟩
    · next mapped => exact ⟨false, s, rfl, fun _ => .inr mapped⟩
  clears := by
    intro upage aligned user
    obtain ⟨next, returned, _⟩ := clear_page_spec rep aligned user
    exact ⟨next, returned⟩
  setFails := by
    intro upage kpage writable given next fresh failed uaddr user
    have kept := set_page_keeps rep fresh failed
    rw [pagedir_get_page_agrees kept user, pagedir_get_page_agrees rep user]
    rfl
  installFails := by
    intro upage kpage writable given next fresh failed uaddr user
    have kept := install_page_keeps rep fresh failed
    rw [pagedir_get_page_agrees kept user, pagedir_get_page_agrees rep user]
    rfl

/-- `pagedir_destroy` gives back each mapped frame, each page table that `lookup_page` has
obtained for the directory and the directory once, and nothing else. -/
def DestroysAll (k : Kernel) (pd : Addr) (s : Store) (map : PageMap) : Prop :=
  ∃ next pages, pagedirDestroy k pd s = .ok next ∧ next.freed = pages ++ s.freed ∧
    pages.Nodup ∧
    (∀ page, page ∈ pages ↔
      (∃ number, map number = some page) ∨ page ∈ s.tables ∨ page = pd) ∧
    (∀ page, next.live page = true ↔ s.live page = true ∧ page ∉ pages) ∧
    ∀ page ∈ pages, page ∉ k.pages

theorem represents_destroys (rep : Represents k pd s map) (once : MappedOnce map)
    (owned : FramesOwned k pd s map) : DestroysAll k pd s map := by
  obtain ⟨pages, returned, nodup, members, notCommon⟩ := pagedir_destroy_frees rep once owned
  refine ⟨_, pages.reverse, returned, rfl, List.nodup_reverse.mpr nodup, ?_, ?_, ?_⟩
  · intro page
    rw [List.mem_reverse]
    exact members page
  · intro page
    rw [List.mem_reverse]
    by_cases member : page ∈ pages
    · simp [freePages, member]
    · simp [freePages, member]
  · intro page member
    exact notCommon page (List.mem_reverse.mp member)

theorem page_directories_are_faithful (ax : BitVec 16) (k : Kernel) (pd : Addr) (s : Store)
    (map : PageMap) (run : Reached ax k pd s map) :
    Faithful k pd s map ∧
      (MappedOnce map → FramesOwned k pd s map → DestroysAll k pd s map) :=
  ⟨represents_faithful (reached_represents run), represents_destroys (reached_represents run)⟩

/-- The pages of the runs below: `init_page_dir` and its page table, a page directory, its page
table, and a frame. -/
def bootDir : Addr := 0xc0100000
def bootTable : Addr := 0xc0101000
def userDir : Addr := 0xc0102000
def userTable : Addr := 0xc0103000
def userFrame : Addr := 0xc0104000

theorem run_page {page : Addr} (member : page ∈ [bootDir, bootTable, userDir, userTable, userFrame]) :
    IsPage 512 page := by
  simp only [List.mem_cons, List.not_mem_nil, or_false] at member
  rcases member with same | same | same | same | same <;>
    (rw [same]; exact ⟨by decide, by decide, by decide⟩)

def runKernel : Kernel where
  ramPages := 512
  initPageDir := bootDir
  pages := [bootDir, bootTable]

theorem run_boots : ∃ s, Running 1024#16 runKernel s ∧
    ∀ page, page ∉ [bootDir, bootTable] → s.live page = false := by
  let empty : Store :=
    { memory := fun _ _ => 0, live := fun _ => false, tables := [], freed := [] }
  obtain ⟨s, returned, live⟩ := @paging_init_returns (fun _ => false) bootDir 512 bootTable []
    empty (by decide) (by decide) (run_page (by decide)) (by decide)
  have distinct : [bootDir, bootTable].Nodup := by decide
  refine ⟨s, .booted distinct (fun _ _ => rfl) returned, ?_⟩
  intro page outside
  simp only [List.mem_cons, List.not_mem_nil, or_false, not_or] at outside
  rw [live]
  simp [Store.take, empty, outside]

/-- A directory with one frame, at the first page. -/
theorem one_frame_run : ∃ s,
    Reached 1024#16 runKernel userDir s (PageMap.update (fun _ => none) 0 (some userFrame)) ∧
      s.live userFrame = true ∧ userFrame ∉ s.tables := by
  obtain ⟨s, running, free⟩ := run_boots
  have dirFresh : Fresh runKernel s userDir := ⟨run_page (by decide), free userDir (by decide)⟩
  let made := ({ s with tables := [] }.take userDir).setPage userDir (s.memory bootDir)
  have created : Reached 1024#16 runKernel userDir made fun _ => none :=
    .created running dirFresh rfl
  have madeLive : ∀ page, page ≠ userDir → made.live page = s.live page := by
    intro page different
    exact if_neg different
  have frameFresh : Fresh runKernel made userFrame :=
    ⟨run_page (by decide), by rw [madeLive userFrame (by decide)]; exact free userFrame (by decide)⟩
  let stocked := (made.take userFrame).setPage userFrame fun _ => 0
  have ready : Reached 1024#16 runKernel userDir stocked fun _ => none :=
    .elsewhere created (.obtained _ frameFresh)
  have tableFresh : Fresh runKernel stocked userTable := by
    refine ⟨run_page (by decide), ?_⟩
    change (if userTable = userFrame then true else made.live userTable) = false
    rw [if_neg (by decide), madeLive userTable (by decide)]
    exact free userTable (by decide)
  have fresh : ∀ pt, some userTable = some pt → Fresh runKernel stocked pt := by
    intro pt same
    cases same
    exact tableFresh
  have valid : SetArguments runKernel 0 userFrame :=
    ⟨by decide, by decide, run_page (by decide)⟩
  rcases @set_page_unmapped runKernel userDir 0 userFrame true (some userTable) stocked _
    (reached_represents ready) valid fresh rfl with impossible | stored
  · cases impossible.1
  · obtain ⟨next, returned, _, grown⟩ := stored
    refine ⟨next, .setPage ready fresh returned, ?_, ?_⟩
    · apply grown.live userFrame
      change (if userFrame = userFrame then true else made.live userFrame) = true
      rw [if_pos rfl]
    · intro member
      rcases grown.tables userFrame member with before | given
      · exact absurd before List.not_mem_nil
      · exact absurd given (by decide)

theorem page_directories_are_faithful_one_frame : ∃ s,
    Reached 1024#16 runKernel userDir s (PageMap.update (fun _ => none) 0 (some userFrame)) ∧
      Faithful runKernel userDir s (PageMap.update (fun _ => none) 0 (some userFrame)) ∧
      DestroysAll runKernel userDir s (PageMap.update (fun _ => none) 0 (some userFrame)) := by
  obtain ⟨s, run, live, notTable⟩ := one_frame_run
  have only : ∀ page frame, PageMap.update (fun _ => none) 0 (some userFrame) page = some frame →
      page = 0 ∧ frame = userFrame := by
    intro page frame mapped
    unfold PageMap.update at mapped
    split at mapped
    · next here => exact ⟨here, (Option.some.inj mapped).symm⟩
    · cases mapped
  have sound := page_directories_are_faithful 1024#16 runKernel userDir s _ run
  refine ⟨s, run, sound.1, sound.2 ?_ ?_⟩
  · intro page other frame first second
    rw [(only page frame first).1, (only other frame second).1]
  · intro page frame mapped
    rw [(only page frame mapped).2]
    exact ⟨live, by decide, notTable, by decide⟩

/-- `pagedir_set_page` lets a frame be mapped at two pages; `pagedir_destroy` then frees it
twice. -/
theorem shared_frame_is_freed_twice :
    ¬∀ (ax : BitVec 16) (k : Kernel) (pd : Addr) (s : Store) (map : PageMap),
      Reached ax k pd s map → Faithful k pd s map ∧ DestroysAll k pd s map := by
  intro always
  obtain ⟨s, run, live, notTable⟩ := one_frame_run
  have rep := reached_represents run
  have valid : SetArguments runKernel 0x1000 userFrame :=
    ⟨by decide, by decide, run_page (by decide)⟩
  have noPage : ∀ pt, (none : Option Addr) = some pt → Fresh runKernel s pt := by
    intro pt impossible
    cases impossible
  have used : s.memory userDir (pdNo 0x1000) ≠ 0 := by
    intro missing
    have agree := rep.agree 0 0 (by decide)
    rw [frameAt, show (0 : Index) = pdNo 0x1000 from rfl, if_pos missing] at agree
    cases agree
  rcases @set_page_unmapped runKernel userDir 0x1000 userFrame true none s _ rep valid noPage rfl
    with failed | stored
  · exact used failed.2.1
  · obtain ⟨next, returned, _, grown⟩ := stored
    have shared := Reached.setPage run noPage returned
    have owned : FramesOwned runKernel userDir next
        (PageMap.update (PageMap.update (fun _ => none) 0 (some userFrame)) (pgNo 0x1000)
          (some userFrame)) := by
      intro page frame mapped
      have only : frame = userFrame := by
        unfold PageMap.update at mapped
        split at mapped
        · exact (Option.some.inj mapped).symm
        · split at mapped
          · exact (Option.some.inj mapped).symm
          · cases mapped
      rw [only]
      refine ⟨grown.live userFrame live, by decide, ?_, by decide⟩
      intro member
      rcases grown.tables userFrame member with before | given
      · exact notTable before
      · cases given
    have panics := pagedir_destroy_shared (reached_represents shared) owned rfl rfl
    obtain ⟨_, after, pages, destroyed, _⟩ := always _ _ _ _ _ shared
    rw [panics] at destroyed
    cases destroyed

end Runs

end UtSystems.Userprog.PageDirectoryRuns

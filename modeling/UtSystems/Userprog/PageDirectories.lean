import UtSystems.Threads.PageAllocator
import UtSystems.Userprog.UserMemory

/-!
# Page directories in memory

`pagedir.c` over the words of the pages that hold the directory and its page tables. A page is
named by its kernel virtual address; entries hold physical addresses and flags.
`palloc_get_page` may fail at any call and otherwise returns some page that is not handed out.
-/

namespace UtSystems.Userprog.PageDirectories

open Lib.Bytes
open Lib.Effects (except_bind_ok)
open Threads.PageAllocator (Panic)
open Userprog.UserMemory hiding lookupPage pagedirGetPage pteCreateUser

set_option autoImplicit false

abbrev Index := Fin 1024

structure Store where
  -- the words of each page
  memory : Addr → Index → Word
  -- handed out by `palloc_get_page` and not given back
  live : Addr → Bool
  -- logs of the pages that `lookup_page` has obtained and of those given back by anybody
  tables : List Addr
  freed : List Addr

def Store.setPage (s : Store) (page : Addr) (words : Index → Word) : Store :=
  { s with memory := fun other => if other = page then words else s.memory other }

def Store.setWord (s : Store) (page : Addr) (index : Index) (value : Word) : Store :=
  s.setPage page fun other => if other = index then value else s.memory page other

def Store.take (s : Store) (page : Addr) : Store :=
  { s with live := fun other => if other = page then true else s.live other }

def require (condition : Bool) : Except Panic Unit :=
  if condition then .ok () else .error .assertion

/-- `PHYS_BASE`. -/
def kernelBase : Addr := BitVec.ofNat 32 physBase

def vtop (vaddr : Addr) : Except Panic Addr := do
  require (decide (physBase ≤ vaddr.toNat))
  return vaddr - kernelBase

def ptov (paddr : Addr) : Except Panic Addr := do
  require (decide (paddr.toNat < physBase))
  return paddr + kernelBase

def pdeCreate (pt : Addr) : Except Panic Pte := do
  require (pgOfs pt == 0)
  return (← vtop pt) ||| pteU ||| pteP ||| pteW

def pdeGetPt (pde : Pte) : Except Panic Addr := do
  require (pde &&& pteP != 0)
  ptov (pde &&& pteAddr)

def pteCreateKernel (page : Addr) (writable : Bool) : Except Panic Pte := do
  require (pgOfs page == 0)
  return (← vtop page) ||| pteP ||| (if writable then pteW else 0)

def pteCreateUser (page : Addr) (writable : Bool) : Except Panic Pte := do
  return (← pteCreateKernel page writable) ||| pteU

def pteGetPage (pte : Pte) : Except Panic Addr := ptov (pte &&& pteAddr)

/-- `lookup_page`; `given` is what `palloc_get_page (PAL_ZERO)` returns if it is called. -/
def lookupPage (pd vaddr : Addr) (create : Bool) (given : Option Addr) (s : Store) :
    Except Panic (Option (Addr × Index) × Store) := do
  require (!create || isUserVaddr vaddr)
  if s.memory pd (pdNo vaddr) = 0 then
    match create, given with
    | true, some pt =>
        let taken := { (s.take pt).setPage pt (fun _ => 0) with tables := pt :: s.tables }
        let next := taken.setWord pd (pdNo vaddr) (← pdeCreate pt)
        return (some (← pdeGetPt (next.memory pd (pdNo vaddr)), ptNo vaddr), next)
    | _, _ => return (none, s)
  else return (some (← pdeGetPt (s.memory pd (pdNo vaddr)), ptNo vaddr), s)

/-- What all page directories have in common: the size of memory, `init_page_dir`, and the pages
that hold it and its page tables. -/
structure Kernel where
  ramPages : Nat
  initPageDir : Addr
  pages : List Addr

/-- `given` is what `palloc_get_page (0)` returns. -/
def pagedirCreate (k : Kernel) (given : Option Addr) (s : Store) : Option Addr × Store :=
  match given with
  | none => (none, s)
  | some pd => (some pd, (s.take pd).setPage pd (s.memory k.initPageDir))

def pagedirSetPage (k : Kernel) (pd upage kpage : Addr) (writable : Bool) (given : Option Addr)
    (s : Store) : Except Panic (Bool × Store) := do
  require (pgOfs upage == 0)
  require (pgOfs kpage == 0)
  require (isUserVaddr upage)
  require (decide ((← vtop kpage).toNat / pgSize < k.ramPages))
  require (pd != k.initPageDir)
  match ← lookupPage pd upage true given s with
  | (none, next) => return (false, next)
  | (some (pt, index), next) =>
      require (next.memory pt index &&& pteP == 0)
      return (true, next.setWord pt index (← pteCreateUser kpage writable))

def pagedirGetPage (pd uaddr : Addr) (s : Store) : Except Panic (Option Addr) := do
  require (isUserVaddr uaddr)
  match ← lookupPage pd uaddr false none s with
  | (none, _) => return none
  | (some (pt, index), _) =>
      if s.memory pt index &&& pteP ≠ 0 then
        return some ((← pteGetPage (s.memory pt index)) + BitVec.ofNat 32 (pgOfs uaddr))
      else return none

def pagedirClearPage (pd upage : Addr) (s : Store) : Except Panic Store := do
  require (pgOfs upage == 0)
  require (isUserVaddr upage)
  match ← lookupPage pd upage false none s with
  | (none, _) => return s
  | (some (pt, index), _) =>
      if s.memory pt index &&& pteP ≠ 0 then
        return s.setWord pt index (s.memory pt index &&& ~~~pteP)
      else return s

def installPage (k : Kernel) (pd upage kpage : Addr) (writable : Bool) (given : Option Addr)
    (s : Store) : Except Panic (Bool × Store) := do
  if (← pagedirGetPage pd upage s) = none then
    pagedirSetPage k pd upage kpage writable given s
  else return (false, s)

/-- `palloc_free_page`, which fills the page with 0xcc and asserts that it was handed out. -/
def pallocFreePage (page : Addr) (s : Store) : Except Panic Store := do
  require (pgOfs page == 0)
  if page = 0 then return s
  else
    require (s.live page)
    return { s.setPage page (fun _ => 0xcccccccc) with
      live := fun other => if other = page then false else s.live other
      freed := page :: s.freed }

/-- One turn of the inner loop of `pagedir_destroy`. -/
def destroyEntry (pt : Addr) (s : Store) (index : Index) : Except Panic Store := do
  if s.memory pt index &&& pteP ≠ 0 then
    pallocFreePage (← pteGetPage (s.memory pt index)) s
  else return s

/-- The entries of a page table. -/
def everyEntry : List Index := List.finRange 1024

/-- One turn of the outer loop. -/
def destroyTable (pd : Addr) (s : Store) (index : Index) : Except Panic Store := do
  if s.memory pd index &&& pteP ≠ 0 then
    let pt ← pdeGetPt (s.memory pd index)
    let emptied ← everyEntry.foldlM (destroyEntry pt) s
    pallocFreePage pt emptied
  else return s

/-- The entries below `pd_no (PHYS_BASE)`. -/
def userHalf : List Index := (List.finRange 768).map (Fin.castLE (by decide))

def pagedirDestroy (k : Kernel) (pd : Addr) (s : Store) : Except Panic Store := do
  if pd = 0 then return s
  else
    require (pd != k.initPageDir)
    pallocFreePage pd (← userHalf.foldlM (destroyTable pd) s)

/-- The address of a page of RAM. -/
structure IsPage (ramPages : Nat) (page : Addr) : Prop where
  aligned : page.toNat % pgSize = 0
  above : physBase ≤ page.toNat
  below : page.toNat < physBase + ramPages * pgSize

/-- The page directory entry of a page table. -/
def tableEntry (pt : Addr) : Pte := (pt - kernelBase) ||| pteU ||| pteP ||| pteW

/-- The page table entry of a user page. -/
def userEntry (page : Addr) (writable : Bool) : Pte :=
  (page - kernelBase) ||| pteP ||| (if writable then pteW else 0) ||| pteU

/-- Where an entry points to. -/
def target (entry : Pte) : Addr := (entry &&& pteAddr) + kernelBase

/-- The frame that a page table entry maps. -/
def frameOf (pte : Pte) : Option Addr := if pte &&& pteP ≠ 0 then some (target pte) else none

section Entries

variable {ramPages : Nat} {page : Addr}

theorem require_true {condition : Bool} (holds : condition = true) : require condition = .ok () := by
  rw [holds]
  rfl

theorem require_ok {condition : Bool} {u : Unit} (returned : require condition = .ok u) :
    condition = true := by
  unfold require at returned
  split at returned
  · next holds => exact holds
  · cases returned

theorem and_addr_or (x flags : Word) (low : x.toNat % 4096 = 0) (small : flags.toNat < 4096) :
    (x ||| flags) &&& pteAddr = x := by
  have mask : ∀ i : Fin 32, pteAddr.getLsbD i.val = decide (12 ≤ i.val) := by decide
  apply BitVec.eq_of_getLsbD_eq
  intro i inside
  rw [BitVec.getLsbD_and, BitVec.getLsbD_or, mask ⟨i, inside⟩]
  by_cases high : 12 ≤ i
  · have clear : flags.getLsbD i = false := by
      have bound : flags.toNat < 2 ^ i := by
        calc
          flags.toNat < 2 ^ 12 := small
          _ ≤ 2 ^ i := Nat.pow_le_pow_right (by decide) high
      rw [← BitVec.testBit_toNat]
      exact Nat.testBit_lt_two_pow bound
    simp [high, clear]
  · have clear : x.getLsbD i = false := by
      rw [← BitVec.testBit_toNat]
      have bit := Nat.testBit_mod_two_pow x.toNat 12 i
      rw [show 2 ^ 12 = 4096 from rfl, low, Nat.zero_testBit] at bit
      have inLow : i < 12 := by omega
      simpa [inLow] using bit.symm
    simp [high, clear]

theorem and_p_ne_zero {entry : Pte} (set : entry.getLsbD 0 = true) : entry &&& pteP ≠ 0 := by
  intro zero
  have bit := congrArg (fun x : Word => x.getLsbD 0) zero
  simp only [BitVec.getLsbD_and, set] at bit
  exact absurd bit (by decide)

theorem and_p_cleared (entry : Pte) : (entry &&& ~~~pteP) &&& pteP = 0 := by
  rw [BitVec.and_assoc, show ~~~pteP &&& pteP = 0 from by decide]
  exact BitVec.and_zero

theorem entry_p_set (x flags : Word) (set : flags.getLsbD 0 = true) :
    (x ||| flags) &&& pteP ≠ 0 := by
  apply and_p_ne_zero
  rw [BitVec.getLsbD_or, set, Bool.or_true]

/-- The physical address of a page, which fits the address bits of an entry. -/
theorem physical (isPage : IsPage ramPages page) :
    (page - kernelBase).toNat = page.toNat - physBase ∧ (page - kernelBase).toNat % 4096 = 0 ∧
      (page - kernelBase).toNat < 2 ^ 30 := by
  have aligned := isPage.aligned
  have above := isPage.above
  have small := page.isLt
  unfold physBase at above
  have value : (page - kernelBase).toNat = page.toNat - physBase := by
    simp only [kernelBase, physBase, BitVec.toNat_sub, BitVec.toNat_ofNat]
    omega
  unfold pgSize at aligned
  unfold physBase at value
  refine ⟨value, ?_, ?_⟩
  · omega
  · omega

theorem vtop_page (isPage : IsPage ramPages page) : vtop page = .ok (page - kernelBase) := by
  unfold vtop
  rw [require_true (decide_eq_true isPage.above)]
  rfl

theorem page_offset (isPage : IsPage ramPages page) : (pgOfs page == 0) = true := by
  rw [beq_iff_eq]
  exact isPage.aligned

theorem ptov_physical (isPage : IsPage ramPages page) :
    ptov (page - kernelBase) = .ok page := by
  have bound := (physical isPage).2.2
  unfold ptov
  rw [require_true (decide_eq_true (by unfold physBase; omega))]
  change Except.ok (page - kernelBase + kernelBase) = _
  rw [BitVec.sub_add_cancel]

theorem flags_or (x a b c : Word) : x ||| a ||| b ||| c = x ||| (a ||| b ||| c) := by
  rw [BitVec.or_assoc, BitVec.or_assoc, BitVec.or_assoc]

/-- An entry made of the page's physical address and flags with `PTE_P`. -/
theorem made_entry (isPage : IsPage ramPages page) {flags : Word} (small : flags.toNat < 4096)
    (set : flags.getLsbD 0 = true) :
    ((page - kernelBase) ||| flags) &&& pteP ≠ 0 ∧
      ((page - kernelBase) ||| flags) &&& pteAddr = page - kernelBase :=
  ⟨entry_p_set _ _ set, and_addr_or _ _ (physical isPage).2.1 small⟩

theorem table_entry_made (isPage : IsPage ramPages page) :
    tableEntry page &&& pteP ≠ 0 ∧ tableEntry page &&& pteAddr = page - kernelBase := by
  unfold tableEntry
  rw [flags_or]
  exact made_entry isPage (by decide) (by decide)

theorem pde_create_page (isPage : IsPage ramPages page) : pdeCreate page = .ok (tableEntry page) := by
  unfold pdeCreate
  rw [require_true (page_offset isPage), vtop_page isPage]
  rfl

theorem table_entry_ne_zero (isPage : IsPage ramPages page) : tableEntry page ≠ 0 := by
  intro zero
  have set := (table_entry_made isPage).1
  rw [zero] at set
  exact set (by decide)

theorem target_table_entry (isPage : IsPage ramPages page) : target (tableEntry page) = page := by
  unfold target
  rw [(table_entry_made isPage).2, BitVec.sub_add_cancel]

theorem pde_get_pt_entry (isPage : IsPage ramPages page) :
    pdeGetPt (tableEntry page) = .ok page := by
  unfold pdeGetPt
  rw [require_true (by simpa using (table_entry_made isPage).1), (table_entry_made isPage).2]
  exact ptov_physical isPage

/-- `pte_create_user` makes an entry that maps the page. -/
theorem pte_create_user_page (isPage : IsPage ramPages page) (writable : Bool) :
    pteCreateUser page writable = .ok (userEntry page writable) ∧
      frameOf (userEntry page writable) = some page := by
  have created : pteCreateUser page writable = .ok (userEntry page writable) := by
    unfold pteCreateUser pteCreateKernel
    rw [require_true (page_offset isPage), vtop_page isPage]
    rfl
  have made : userEntry page writable &&& pteP ≠ 0 ∧
      userEntry page writable &&& pteAddr = page - kernelBase := by
    unfold userEntry
    rw [flags_or]
    cases writable with
    | false => exact made_entry isPage (by decide) (by decide)
    | true => exact made_entry isPage (by decide) (by decide)
  refine ⟨created, ?_⟩
  unfold frameOf target
  rw [if_pos made.1, made.2, BitVec.sub_add_cancel]

theorem frame_of_some {pte : Pte} (maps : frameOf pte = some page) :
    pte &&& pteP ≠ 0 ∧ target pte = page := by
  unfold frameOf at maps
  split at maps
  · next set => exact ⟨set, Option.some.inj maps⟩
  · cases maps

theorem frame_of_none {pte : Pte} : frameOf pte = none ↔ pte &&& pteP = 0 := by
  unfold frameOf
  split
  · next set => simpa using set
  · next clear => simpa using clear

theorem pte_get_page_frame (isPage : IsPage ramPages page) {pte : Pte}
    (maps : frameOf pte = some page) : pteGetPage pte = .ok page := by
  have here := (frame_of_some maps).2
  have address : pte &&& pteAddr = page - kernelBase := by
    rw [← here]
    unfold target
    rw [BitVec.add_sub_cancel]
  unfold pteGetPage
  rw [address]
  exact ptov_physical isPage

end Entries

/-- The page table entry of the page with these two indices; 0 if there is no page table. -/
def entryAt (s : Store) (pd : Addr) (pde pte : Index) : Pte :=
  if s.memory pd pde = 0 then 0 else s.memory (target (s.memory pd pde)) pte

/-- The frame of the page with these two indices. -/
def frameAt (s : Store) (pd : Addr) (pde pte : Index) : Option Addr :=
  if s.memory pd pde = 0 then none else frameOf (s.memory (target (s.memory pd pde)) pte)

theorem frame_at_entry (s : Store) (pd : Addr) (pde pte : Index) :
    frameAt s pd pde pte = frameOf (entryAt s pd pde pte) := by
  unfold frameAt entryAt
  split
  · exact (frame_of_none.mpr (by decide)).symm
  · rfl

/-- What a page directory stands for: the frame of each page, by its number. -/
abbrev PageMap := Nat → Option Addr

def PageMap.update (map : PageMap) (page : Nat) (frame : Option Addr) : PageMap :=
  fun other => if other = page then frame else map other

def pageNumber (pde pte : Index) : Nat := 1024 * pde.val + pte.val

/-- The directory at `pd` stands for `map`; its page tables are those in the log. -/
structure Represents (k : Kernel) (pd : Addr) (s : Store) (map : PageMap) : Prop where
  ram : k.ramPages ≤ 16384
  common : k.initPageDir ∈ k.pages
  commonLive : ∀ page ∈ k.pages, s.live page = true
  directory : IsPage k.ramPages pd ∧ s.live pd = true ∧ pd ∉ k.pages
  tables : ∀ pt ∈ s.tables, IsPage k.ramPages pt ∧ s.live pt = true ∧ pt ≠ pd ∧ pt ∉ k.pages
  kernelHalf : ∀ pde : Index, 768 ≤ pde.val → s.memory pd pde = s.memory k.initPageDir pde
  entries : ∀ pde : Index, pde.val < 768 →
    s.memory pd pde = 0 ∨ ∃ pt ∈ s.tables, s.memory pd pde = tableEntry pt
  entered : ∀ pt ∈ s.tables, ∃ pde : Index, pde.val < 768 ∧ s.memory pd pde = tableEntry pt
  apart : ∀ first second : Index, first.val < 768 → second.val < 768 →
    s.memory pd first = s.memory pd second → s.memory pd first = 0 ∨ first = second
  agree : ∀ pde pte : Index, pde.val < 768 → frameAt s pd pde pte = map (pageNumber pde pte)
  frames : ∀ page frame, map page = some frame → IsPage k.ramPages frame ∧ page < 768 * 1024

section Lookup

variable {k : Kernel} {pd vaddr : Addr} {s : Store} {map : PageMap}

theorem page_number_vaddr (vaddr : Addr) :
    pageNumber (pdNo vaddr) (ptNo vaddr) = pgNo vaddr := by
  simp only [pageNumber, pdNo, ptNo, pgNo, pgSize]
  omega

theorem page_number_inj {first second : Index} {pte other : Index}
    (same : pageNumber first pte = pageNumber second other) : first = second ∧ pte = other := by
  have small := pte.isLt
  have otherSmall := other.isLt
  simp only [pageNumber] at same
  exact ⟨Fin.ext (by omega), Fin.ext (by omega)⟩

theorem user_half_vaddr (user : isUserVaddr vaddr = true) : (pdNo vaddr).val < 768 := by
  have below : vaddr.toNat < physBase := of_decide_eq_true user
  unfold physBase at below
  simp only [pdNo]
  omega

theorem table_of (rep : Represents k pd s map) {pde : Index} (low : pde.val < 768)
    (used : s.memory pd pde ≠ 0) :
    ∃ pt ∈ s.tables, s.memory pd pde = tableEntry pt ∧ target (s.memory pd pde) = pt ∧
      pdeGetPt (s.memory pd pde) = .ok pt := by
  rcases rep.entries pde low with empty | entered
  · exact absurd empty used
  · obtain ⟨pt, member, entry⟩ := entered
    have isPage := (rep.tables pt member).1
    refine ⟨pt, member, entry, ?_, ?_⟩
    · rw [entry, target_table_entry isPage]
    · rw [entry, pde_get_pt_entry isPage]

theorem lookup_page_missing (given : Option Addr) (missing : s.memory pd (pdNo vaddr) = 0) :
    lookupPage pd vaddr false given s = .ok (none, s) := by
  unfold lookupPage
  rw [require_true (by rfl)]
  change (if s.memory pd (pdNo vaddr) = 0 then _ else _) = _
  rw [if_pos missing]
  cases given <;> rfl

theorem lookup_page_present (rep : Represents k pd s map) (create : Bool) (given : Option Addr)
    (user : isUserVaddr vaddr = true) (used : s.memory pd (pdNo vaddr) ≠ 0) :
    ∃ pt ∈ s.tables, s.memory pd (pdNo vaddr) = tableEntry pt ∧
      target (s.memory pd (pdNo vaddr)) = pt ∧
      lookupPage pd vaddr create given s = .ok (some (pt, ptNo vaddr), s) := by
  obtain ⟨pt, member, entry, here, got⟩ := table_of rep (user_half_vaddr user) used
  refine ⟨pt, member, entry, here, ?_⟩
  unfold lookupPage
  rw [require_true (by rw [user, Bool.or_true])]
  change (if s.memory pd (pdNo vaddr) = 0 then _ else _) = _
  rw [if_neg used, got]
  rfl

/-- `pagedir_get_page` agrees with the map. -/
theorem pagedir_get_page_agrees (rep : Represents k pd s map) (user : isUserVaddr vaddr = true) :
    pagedirGetPage pd vaddr s =
      .ok ((map (pgNo vaddr)).map (· + BitVec.ofNat 32 (pgOfs vaddr))) := by
  have agree := rep.agree (pdNo vaddr) (ptNo vaddr) (user_half_vaddr user)
  rw [page_number_vaddr] at agree
  unfold pagedirGetPage
  rw [require_true user, ← agree]
  unfold frameAt
  by_cases missing : s.memory pd (pdNo vaddr) = 0
  · rw [if_pos missing]
    simp only [bind, Except.bind, lookup_page_missing none missing]
    rfl
  · rw [if_neg missing]
    obtain ⟨pt, _, _, here, looked⟩ := lookup_page_present rep false none user missing
    simp only [bind, Except.bind, looked, here]
    cases maps : frameOf (s.memory pt (ptNo vaddr)) with
    | none =>
        rw [if_neg (by rw [frame_of_none.mp maps]; simp)]
        rfl
    | some frame =>
        have isPage : IsPage k.ramPages frame := by
          apply (rep.frames (pgNo vaddr) frame _).1
          rw [← agree, frameAt, if_neg missing, here, maps]
        rw [if_pos (frame_of_some maps).1, pte_get_page_frame isPage maps]
        rfl

end Lookup

section Updates

variable {k : Kernel} {pd page : Addr} {s next : Store} {map : PageMap}

@[simp] theorem set_page_self (words : Index → Word) : (s.setPage page words).memory page = words := by
  simp [Store.setPage]

theorem set_page_other {other : Addr} (words : Index → Word) (different : other ≠ page) :
    (s.setPage page words).memory other = s.memory other := by
  simp [Store.setPage, different]

theorem set_word_at (index other : Index) (value : Word) :
    (s.setWord page index value).memory page other =
      if other = index then value else s.memory page other := by
  simp [Store.setWord]

theorem set_word_other {other : Addr} (index : Index) (value : Word) (different : other ≠ page) :
    (s.setWord page index value).memory other = s.memory other :=
  set_page_other _ different

/-- Pages that are not the directory's may change hands and contents. -/
theorem represents_frame (rep : Represents k pd s map) (tables : next.tables = s.tables)
    (memory : ∀ page, page = pd ∨ page ∈ s.tables ∨ page = k.initPageDir →
      next.memory page = s.memory page)
    (live : ∀ page, page = pd ∨ page ∈ s.tables ∨ page ∈ k.pages →
      s.live page = true → next.live page = true) :
    Represents k pd next map := by
  have directory : next.memory pd = s.memory pd := memory pd (.inl rfl)
  exact {
    ram := rep.ram
    common := rep.common
    commonLive := fun page member => live page (.inr (.inr member)) (rep.commonLive page member)
    directory := ⟨rep.directory.1, live pd (.inl rfl) rep.directory.2.1, rep.directory.2.2⟩
    tables := by
      intro pt member
      rw [tables] at member
      have before := rep.tables pt member
      exact ⟨before.1, live pt (.inr (.inl member)) before.2.1, before.2.2⟩
    kernelHalf := by
      intro pde high
      rw [directory, memory k.initPageDir (.inr (.inr rfl))]
      exact rep.kernelHalf pde high
    entries := by
      rw [directory, tables]
      exact rep.entries
    entered := by
      rw [directory, tables]
      exact rep.entered
    apart := by
      rw [directory]
      exact rep.apart
    agree := by
      intro pde pte low
      rw [← rep.agree pde pte low]
      unfold frameAt
      rw [directory]
      by_cases missing : s.memory pd pde = 0
      · rw [if_pos missing, if_pos missing]
      · obtain ⟨pt, member, _, here, _⟩ := table_of rep low missing
        rw [if_neg missing, if_neg missing, here, memory pt (.inr (.inl member))]
    frames := rep.frames }

/-- A page that `palloc_get_page` may return. -/
def Fresh (k : Kernel) (s : Store) (page : Addr) : Prop :=
  IsPage k.ramPages page ∧ s.live page = false

theorem fresh_not_ours (rep : Represents k pd s map) (fresh : Fresh k s page) :
    page ≠ pd ∧ page ∉ s.tables ∧ page ∉ k.pages := by
  have free := fresh.2
  refine ⟨?_, ?_, ?_⟩
  · intro same
    rw [same, rep.directory.2.1] at free
    cases free
  · intro member
    rw [(rep.tables page member).2.1] at free
    cases free
  · intro member
    rw [rep.commonLive page member] at free
    cases free

/-- The store with a new page table for that directory entry. -/
def Store.addTable (s : Store) (pd : Addr) (pde : Index) (pt : Addr) : Store :=
  { (s.take pt).setPage pt (fun _ => 0) with tables := pt :: s.tables }.setWord pd pde
    (tableEntry pt)

theorem table_entry_inj {first second : Addr} (isFirst : IsPage k.ramPages first)
    (isSecond : IsPage k.ramPages second) (same : tableEntry first = tableEntry second) :
    first = second := by
  rw [← target_table_entry isFirst, same, target_table_entry isSecond]

theorem add_table_directory {pde other : Index} {pt : Addr} (notDir : pt ≠ pd) :
    (s.addTable pd pde pt).memory pd other =
      if other = pde then tableEntry pt else s.memory pd other := by
  rw [Store.addTable, set_word_at]
  congr 1
  exact congrFun (set_page_other _ (Ne.symm notDir)) other

theorem add_table_empty {pde : Index} {pt : Addr} (notDir : pt ≠ pd) :
    (s.addTable pd pde pt).memory pt = fun _ => 0 := by
  rw [Store.addTable, set_word_other _ _ notDir]
  exact set_page_self _

theorem add_table_others {pde : Index} {pt other : Addr} (notPd : other ≠ pd)
    (notPt : other ≠ pt) : (s.addTable pd pde pt).memory other = s.memory other := by
  rw [Store.addTable, set_word_other _ _ notPd]
  exact set_page_other _ notPt

/-- A new page table has no entries. -/
theorem add_table_entries (rep : Represents k pd s map) {pde other pte : Index} {pt : Addr}
    (missing : s.memory pd pde = 0) (fresh : Fresh k s pt) (low : other.val < 768) :
    entryAt (s.addTable pd pde pt) pd other pte = entryAt s pd other pte := by
  obtain ⟨notDir, notTable, _⟩ := fresh_not_ours rep fresh
  unfold entryAt
  rw [add_table_directory notDir]
  by_cases here : other = pde
  · rw [if_pos here, if_neg (table_entry_ne_zero fresh.1), target_table_entry fresh.1,
      add_table_empty notDir, here, if_pos missing]
  · rw [if_neg here]
    by_cases empty : s.memory pd other = 0
    · rw [if_pos empty, if_pos empty]
    · obtain ⟨old, member, _, there, _⟩ := table_of rep low empty
      have notPt : old ≠ pt := fun same => notTable (same ▸ member)
      rw [if_neg empty, if_neg empty, there, add_table_others (rep.tables old member).2.2.1 notPt]

theorem set_entry_entries (rep : Represents k pd s map) {pde pte other index : Index} {pt : Addr}
    {value : Pte} (low : pde.val < 768) (member : pt ∈ s.tables)
    (entry : s.memory pd pde = tableEntry pt) (otherLow : other.val < 768) :
    entryAt (s.setWord pt pte value) pd other index =
      if pageNumber other index = pageNumber pde pte then value else entryAt s pd other index := by
  obtain ⟨ptPage, _, ptNotDir, _⟩ := rep.tables pt member
  have directory : (s.setWord pt pte value).memory pd = s.memory pd :=
    set_word_other _ _ (Ne.symm ptNotDir)
  unfold entryAt
  rw [directory]
  by_cases here : other = pde
  · subst here
    have used : s.memory pd other ≠ 0 := entry ▸ table_entry_ne_zero ptPage
    rw [if_neg used, if_neg used, entry, target_table_entry ptPage, set_word_at]
    by_cases same : index = pte
    · rw [if_pos same, if_pos (by rw [same])]
    · have different : pageNumber other index ≠ pageNumber other pte := fun equal =>
        same (page_number_inj equal).2
      rw [if_neg same, if_neg different]
  · have different : pageNumber other index ≠ pageNumber pde pte := fun equal =>
      here (page_number_inj equal).1
    rw [if_neg different]
    by_cases empty : s.memory pd other = 0
    · rw [if_pos empty, if_pos empty]
    · obtain ⟨old, oldMember, made, there, _⟩ := table_of rep otherLow empty
      have notPt : old ≠ pt := by
        intro same
        subst same
        rcases rep.apart other pde otherLow low (made.trans entry.symm) with zero | equal
        · exact empty zero
        · exact here equal
      rw [if_neg empty, if_neg empty, there, set_word_other _ _ notPt]

theorem add_table_represents (rep : Represents k pd s map) {pde : Index} {pt : Addr}
    (low : pde.val < 768) (missing : s.memory pd pde = 0) (fresh : Fresh k s pt) :
    Represents k pd (s.addTable pd pde pt) map := by
  obtain ⟨notDir, notTable, notCommon⟩ := fresh_not_ours rep fresh
  have directory : ∀ other, (s.addTable pd pde pt).memory pd other =
      if other = pde then tableEntry pt else s.memory pd other := fun _ =>
    add_table_directory notDir
  have live : ∀ page, (s.addTable pd pde pt).live page =
      if page = pt then true else s.live page := fun _ => rfl
  have kept : ∀ page, s.live page = true → (s.addTable pd pde pt).live page = true := by
    intro page was
    rw [live, was]
    split <;> rfl
  exact {
    ram := rep.ram
    common := rep.common
    commonLive := fun page member => kept page (rep.commonLive page member)
    directory := ⟨rep.directory.1, kept pd rep.directory.2.1, rep.directory.2.2⟩
    tables := by
      intro other member
      cases member with
      | head => exact ⟨fresh.1, by rw [live, if_pos rfl], notDir, notCommon⟩
      | tail _ member =>
          have before := rep.tables other member
          exact ⟨before.1, kept other before.2.1, before.2.2⟩
    kernelHalf := by
      intro other high
      have notHere : other ≠ pde := by
        intro same
        rw [same] at high
        omega
      have notInit : k.initPageDir ≠ pd := by
        intro same
        exact rep.directory.2.2 (same ▸ rep.common)
      have notPt : k.initPageDir ≠ pt := by
        intro same
        exact notCommon (same ▸ rep.common)
      rw [directory, if_neg notHere, add_table_others notInit notPt]
      exact rep.kernelHalf other high
    entries := by
      intro other otherLow
      rw [directory]
      split
      · exact .inr ⟨pt, List.mem_cons_self, rfl⟩
      · rcases rep.entries other otherLow with empty | entered
        · exact .inl empty
        · obtain ⟨table, member, entry⟩ := entered
          exact .inr ⟨table, List.mem_cons_of_mem _ member, entry⟩
    entered := by
      intro other member
      cases member with
      | head => exact ⟨pde, low, by rw [directory, if_pos rfl]⟩
      | tail _ member =>
          obtain ⟨index, indexLow, entry⟩ := rep.entered other member
          have notHere : index ≠ pde := by
            intro same
            rw [same, missing] at entry
            exact table_entry_ne_zero (rep.tables other member).1 entry.symm
          exact ⟨index, indexLow, by rw [directory, if_neg notHere, entry]⟩
    apart := by
      have unique : ∀ other : Index, other.val < 768 → s.memory pd other ≠ tableEntry pt := by
        intro other otherLow entry
        rcases rep.entries other otherLow with empty | entered
        · rw [empty] at entry
          exact table_entry_ne_zero fresh.1 entry.symm
        · obtain ⟨table, member, made⟩ := entered
          rw [made] at entry
          have same := table_entry_inj (rep.tables table member).1 fresh.1 entry
          exact notTable (same ▸ member)
      intro first second firstLow secondLow same
      rw [directory, directory] at same
      rw [directory]
      by_cases firstHere : first = pde
      · by_cases secondHere : second = pde
        · exact .inr (firstHere.trans secondHere.symm)
        · rw [if_pos firstHere, if_neg secondHere] at same
          exact absurd same.symm (unique second secondLow)
      · by_cases secondHere : second = pde
        · rw [if_neg firstHere, if_pos secondHere] at same
          exact absurd same (unique first firstLow)
        · rw [if_neg firstHere, if_neg secondHere] at same
          rw [if_neg firstHere]
          exact rep.apart first second firstLow secondLow same
    agree := by
      intro other pte otherLow
      rw [frame_at_entry, add_table_entries rep missing fresh otherLow, ← frame_at_entry]
      exact rep.agree other pte otherLow
    frames := rep.frames }

theorem set_entry_represents (rep : Represents k pd s map) {pde pte : Index} {pt : Addr}
    {value : Pte} (low : pde.val < 768) (member : pt ∈ s.tables)
    (entry : s.memory pd pde = tableEntry pt)
    (isPage : ∀ frame, frameOf value = some frame → IsPage k.ramPages frame) :
    Represents k pd (s.setWord pt pte value) (map.update (pageNumber pde pte) (frameOf value)) := by
  obtain ⟨ptPage, ptLive, ptNotDir, ptNotCommon⟩ := rep.tables pt member
  have directory : (s.setWord pt pte value).memory pd = s.memory pd :=
    set_word_other _ _ (Ne.symm ptNotDir)
  have notInit : k.initPageDir ≠ pt := by
    intro same
    exact ptNotCommon (same ▸ rep.common)
  exact {
    ram := rep.ram
    common := rep.common
    commonLive := rep.commonLive
    directory := rep.directory
    tables := rep.tables
    kernelHalf := by
      intro other high
      rw [directory, set_word_other _ _ notInit]
      exact rep.kernelHalf other high
    entries := by
      rw [directory]
      exact rep.entries
    entered := by
      rw [directory]
      exact rep.entered
    apart := by
      rw [directory]
      exact rep.apart
    agree := by
      intro other index otherLow
      rw [frame_at_entry, set_entry_entries rep low member entry otherLow]
      unfold PageMap.update
      split
      · rfl
      · rw [← frame_at_entry]
        exact rep.agree other index otherLow
    frames := by
      intro page frame mapped
      unfold PageMap.update at mapped
      split at mapped
      · next here =>
        refine ⟨isPage frame mapped, ?_⟩
        have small := pte.isLt
        rw [here, pageNumber]
        omega
      · exact rep.frames page frame mapped }

/-- Nothing is given back, and a new page table is the page that was given. -/
structure Grown (given : Option Addr) (s next : Store) : Prop where
  live : ∀ page, s.live page = true → next.live page = true
  tables : ∀ pt ∈ next.tables, pt ∈ s.tables ∨ given = some pt

theorem grown_same (given : Option Addr) (s : Store) : Grown given s s :=
  ⟨fun _ live => live, fun _ member => .inl member⟩

/-- The store in which `lookup_page` has found or made the page table. -/
inductive Tabled (k : Kernel) (pd : Addr) (pde : Index) (given : Option Addr) (s : Store)
    (pt : Addr) : Store → Prop where
  | found : Tabled k pd pde given s pt s
  | added (fresh : Fresh k s pt) (missing : s.memory pd pde = 0) (obtained : given = some pt) :
      Tabled k pd pde given s pt (s.addTable pd pde pt)

theorem tabled_grown {pde : Index} {given : Option Addr} {pt : Addr}
    (tabled : Tabled k pd pde given s pt next) : Grown given s next := by
  cases tabled with
  | found => exact grown_same given s
  | added fresh missing obtained =>
      constructor
      · intro page live
        change (if page = pt then true else s.live page) = true
        rw [live]
        exact ite_self true
      · intro other member
        cases member with
        | head => exact .inr obtained
        | tail _ member => exact .inl member

/-- The two ways in which `lookup_page` ends when it may create a page table. -/
theorem lookup_page_create (rep : Represents k pd s map) {vaddr : Addr}
    (user : isUserVaddr vaddr = true) (given : Option Addr)
    (fresh : ∀ pt, given = some pt → Fresh k s pt) :
    (given = none ∧ s.memory pd (pdNo vaddr) = 0 ∧
        lookupPage pd vaddr true given s = .ok (none, s)) ∨
      ∃ pt next, lookupPage pd vaddr true given s = .ok (some (pt, ptNo vaddr), next) ∧
        Represents k pd next map ∧ Tabled k pd (pdNo vaddr) given s pt next ∧
        pt ∈ next.tables ∧ next.memory pd (pdNo vaddr) = tableEntry pt := by
  by_cases missing : s.memory pd (pdNo vaddr) = 0
  · cases given with
    | none =>
        refine .inl ⟨rfl, missing, ?_⟩
        unfold lookupPage
        rw [require_true (by rw [user, Bool.or_true])]
        change (if s.memory pd (pdNo vaddr) = 0 then _ else _) = _
        rw [if_pos missing]
        rfl
    | some pt =>
        have isNew := fresh pt rfl
        have added := add_table_represents rep (user_half_vaddr user) missing isNew
        have entry : (s.addTable pd (pdNo vaddr) pt).memory pd (pdNo vaddr) = tableEntry pt := by
          rw [Store.addTable, set_word_at, if_pos rfl]
        refine .inr ⟨pt, s.addTable pd (pdNo vaddr) pt, ?_, added, .added isNew missing rfl,
          List.mem_cons_self, entry⟩
        have got : pdeGetPt ((s.addTable pd (pdNo vaddr) pt).memory pd (pdNo vaddr)) = .ok pt := by
          rw [entry]
          exact pde_get_pt_entry isNew.1
        unfold Store.addTable at got
        unfold lookupPage
        rw [require_true (by rw [user, Bool.or_true])]
        change (if s.memory pd (pdNo vaddr) = 0 then _ else _) = _
        rw [if_pos missing]
        simp only [pde_create_page isNew.1, bind, Except.bind, got]
        rfl
  · obtain ⟨pt, member, entry, _, looked⟩ := lookup_page_present rep true given user missing
    exact .inr ⟨pt, s, looked, rep, .found, member, entry⟩

end Updates

/-- What the callers of `pagedir_set_page` promise about the addresses. -/
structure SetArguments (k : Kernel) (upage kpage : Addr) : Prop where
  aligned : pgOfs upage = 0
  user : isUserVaddr upage = true
  frame : IsPage k.ramPages kpage

section Calls

variable {k : Kernel} {pd upage kpage : Addr} {writable : Bool} {given : Option Addr}
  {s : Store} {map : PageMap}

theorem not_init_page_dir (rep : Represents k pd s map) : (pd != k.initPageDir) = true := by
  rw [bne_iff_ne]
  intro same
  exact rep.directory.2.2 (same ▸ rep.common)

theorem set_arguments_of_ok {result : Bool × Store}
    (returned : pagedirSetPage k pd upage kpage writable given s = .ok result) :
    SetArguments k upage kpage := by
  unfold pagedirSetPage at returned
  obtain ⟨_, aligned, returned⟩ := except_bind_ok returned
  obtain ⟨_, offset, returned⟩ := except_bind_ok returned
  obtain ⟨_, user, returned⟩ := except_bind_ok returned
  obtain ⟨paddr, physicalAt, returned⟩ := except_bind_ok returned
  obtain ⟨_, inRam, _⟩ := except_bind_ok returned
  unfold vtop at physicalAt
  obtain ⟨_, above, physicalAt⟩ := except_bind_ok physicalAt
  cases physicalAt
  have above := of_decide_eq_true (require_ok above)
  have inRam := of_decide_eq_true (require_ok inRam)
  have offset := beq_iff_eq.mp (require_ok offset)
  refine ⟨beq_iff_eq.mp (require_ok aligned), require_ok user, offset, above, ?_⟩
  have value : (kpage - kernelBase).toNat = kpage.toNat - physBase := by
    have small := kpage.isLt
    simp only [kernelBase, physBase, BitVec.toNat_sub, BitVec.toNat_ofNat] at above ⊢
    omega
  rw [value] at inRam
  simp only [pgSize] at inRam ⊢
  omega

theorem set_page_asserts (rep : Represents k pd s map) (valid : SetArguments k upage kpage) :
    pagedirSetPage k pd upage kpage writable given s = (do
      match ← lookupPage pd upage true given s with
      | (none, next) => return (false, next)
      | (some (pt, index), next) =>
          require (next.memory pt index &&& pteP == 0)
          return (true, next.setWord pt index (← pteCreateUser kpage writable))) := by
  have inRam : (kpage - kernelBase).toNat / pgSize < k.ramPages := by
    have below := valid.frame.below
    have above := valid.frame.above
    rw [(physical valid.frame).1]
    simp only [pgSize] at below ⊢
    omega
  unfold pagedirSetPage
  rw [require_true (beq_iff_eq.mpr valid.aligned), require_true (page_offset valid.frame),
    require_true valid.user, vtop_page valid.frame, require_true (not_init_page_dir rep)]
  simp only [bind, Except.bind, require_true (decide_eq_true inRam)]

/-- What `pagedir_set_page` stores for a page that is not mapped. -/
theorem set_page_stores (rep : Represents k pd s map) (valid : SetArguments k upage kpage)
    (fresh : ∀ pt, given = some pt → Fresh k s pt) (free : map (pgNo upage) = none) :
    (given = none ∧ s.memory pd (pdNo upage) = 0 ∧
        pagedirSetPage k pd upage kpage writable given s = .ok (false, s)) ∨
      ∃ pt middle, Represents k pd middle map ∧ Tabled k pd (pdNo upage) given s pt middle ∧
        pt ∈ middle.tables ∧ middle.memory pd (pdNo upage) = tableEntry pt ∧
        pagedirSetPage k pd upage kpage writable given s =
          .ok (true, middle.setWord pt (ptNo upage) (userEntry kpage writable)) := by
  rw [set_page_asserts rep valid]
  rcases lookup_page_create rep valid.user given fresh with failed | found
  · refine .inl ⟨failed.1, failed.2.1, ?_⟩
    rw [failed.2.2]
    rfl
  · obtain ⟨pt, middle, looked, kept, tabled, member, entry⟩ := found
    have created := (pte_create_user_page valid.frame writable).1
    have ptPage := (kept.tables pt member).1
    have absent : middle.memory pt (ptNo upage) &&& pteP = 0 := by
      have agree := kept.agree (pdNo upage) (ptNo upage) (user_half_vaddr valid.user)
      rw [page_number_vaddr, free, frameAt, entry, if_neg (table_entry_ne_zero ptPage),
        target_table_entry ptPage] at agree
      exact frame_of_none.mp agree
    refine .inr ⟨pt, middle, kept, tabled, member, entry, ?_⟩
    rw [looked]
    simp only [bind, Except.bind, require_true (beq_iff_eq.mpr absent), created]
    rfl

theorem set_page_unmapped (rep : Represents k pd s map) (valid : SetArguments k upage kpage)
    (fresh : ∀ pt, given = some pt → Fresh k s pt) (free : map (pgNo upage) = none) :
    (given = none ∧ s.memory pd (pdNo upage) = 0 ∧
        pagedirSetPage k pd upage kpage writable given s = .ok (false, s)) ∨
      ∃ next, pagedirSetPage k pd upage kpage writable given s = .ok (true, next) ∧
        Represents k pd next (map.update (pgNo upage) (some kpage)) ∧ Grown given s next := by
  rcases @set_page_stores k pd upage kpage writable given s map rep valid fresh free
    with failed | stored
  · exact .inl failed
  · obtain ⟨pt, middle, kept, tabled, member, entry, returned⟩ := stored
    have maps := (pte_create_user_page valid.frame writable).2
    have isPage : ∀ frame, frameOf (userEntry kpage writable) = some frame →
        IsPage k.ramPages frame := by
      intro frame same
      rw [maps] at same
      exact Option.some.inj same ▸ valid.frame
    have updated := @set_entry_represents k pd middle map kept (pdNo upage) (ptNo upage) pt _
      (user_half_vaddr valid.user) member entry isPage
    rw [page_number_vaddr, maps] at updated
    have grown := tabled_grown tabled
    exact .inr ⟨_, returned, updated, grown.live, grown.tables⟩

theorem set_page_mapped (rep : Represents k pd s map) (valid : SetArguments k upage kpage)
    {frame : Addr} (mapped : map (pgNo upage) = some frame) :
    pagedirSetPage k pd upage kpage writable given s = .error .assertion := by
  have agree := rep.agree (pdNo upage) (ptNo upage) (user_half_vaddr valid.user)
  rw [page_number_vaddr, mapped, frameAt] at agree
  split at agree
  · cases agree
  · next used =>
    obtain ⟨pt, _, _, here, looked⟩ := lookup_page_present rep true given valid.user used
    rw [here] at agree
    have present : (s.memory pt (ptNo upage) &&& pteP == 0) = false := by
      rw [beq_eq_false_iff_ne]
      exact (frame_of_some agree).1
    rw [set_page_asserts rep valid, looked]
    simp only [bind, Except.bind, require, present]
    rfl

/-- A call of `pagedir_set_page` that returns. -/
theorem set_page_keeps (rep : Represents k pd s map) {done : Bool} {next : Store}
    (fresh : ∀ pt, given = some pt → Fresh k s pt)
    (returned : pagedirSetPage k pd upage kpage writable given s = .ok (done, next)) :
    Represents k pd next (if done then map.update (pgNo upage) (some kpage) else map) := by
  have valid := set_arguments_of_ok returned
  cases before : map (pgNo upage) with
  | some frame =>
      rw [set_page_mapped rep valid before] at returned
      cases returned
  | none =>
      rcases set_page_unmapped rep valid fresh before with failed | stored
      · rw [failed.2.2] at returned
        cases returned
        exact rep
      · obtain ⟨stored, succeeded, kept, _⟩ := stored
        rw [succeeded] at returned
        cases returned
        exact kept

/-- `install_page` is `pagedir_set_page` for a page that is not mapped. -/
theorem install_page_eq (rep : Represents k pd s map) (user : isUserVaddr upage = true) :
    installPage k pd upage kpage writable given s =
      if map (pgNo upage) = none then pagedirSetPage k pd upage kpage writable given s
      else .ok (false, s) := by
  unfold installPage
  rw [pagedir_get_page_agrees rep user]
  cases map (pgNo upage) <;> rfl

theorem install_page_keeps (rep : Represents k pd s map) {done : Bool} {next : Store}
    (fresh : ∀ pt, given = some pt → Fresh k s pt)
    (returned : installPage k pd upage kpage writable given s = .ok (done, next)) :
    Represents k pd next (if done then map.update (pgNo upage) (some kpage) else map) := by
  have user : isUserVaddr upage = true := by
    unfold installPage at returned
    obtain ⟨found, got, _⟩ := except_bind_ok returned
    unfold pagedirGetPage at got
    obtain ⟨_, user, _⟩ := except_bind_ok got
    exact require_ok user
  rw [install_page_eq rep user] at returned
  split at returned
  · exact set_page_keeps rep fresh returned
  · cases returned
    exact rep

theorem clear_page_spec (rep : Represents k pd s map) (aligned : pgOfs upage = 0)
    (user : isUserVaddr upage = true) :
    ∃ next, pagedirClearPage pd upage s = .ok next ∧
      Represents k pd next (map.update (pgNo upage) none) := by
  have agree := rep.agree (pdNo upage) (ptNo upage) (user_half_vaddr user)
  rw [page_number_vaddr, frameAt] at agree
  have unchanged : map (pgNo upage) = none → map.update (pgNo upage) none = map := by
    intro free
    funext other
    unfold PageMap.update
    split
    · next here => rw [here, free]
    · rfl
  unfold pagedirClearPage
  rw [require_true (beq_iff_eq.mpr aligned), require_true user]
  by_cases missing : s.memory pd (pdNo upage) = 0
  · rw [if_pos missing] at agree
    refine ⟨s, ?_, ?_⟩
    · simp only [bind, Except.bind, lookup_page_missing none missing]
      rfl
    · rw [unchanged agree.symm]
      exact rep
  · obtain ⟨pt, member, entry, here, looked⟩ := lookup_page_present rep false none user missing
    rw [if_neg missing, here] at agree
    simp only [bind, Except.bind, looked]
    by_cases set : s.memory pt (ptNo upage) &&& pteP ≠ 0
    · rw [if_pos set]
      refine ⟨_, rfl, ?_⟩
      have cleared : frameOf (s.memory pt (ptNo upage) &&& ~~~pteP) = none :=
        frame_of_none.mpr (and_p_cleared _)
      have isPage : ∀ frame, frameOf (s.memory pt (ptNo upage) &&& ~~~pteP) = some frame →
          IsPage k.ramPages frame := by
        intro frame same
        rw [cleared] at same
        cases same
      have stored := @set_entry_represents k pd s map rep (pdNo upage) (ptNo upage) pt _
        (user_half_vaddr user) member entry isPage
      rw [page_number_vaddr, cleared] at stored
      exact stored
    · rw [if_neg set]
      refine ⟨s, rfl, ?_⟩
      have free : frameOf (s.memory pt (ptNo upage)) = none := frame_of_none.mpr (by simpa using set)
      rw [unchanged (agree.symm.trans free)]
      exact rep

theorem clear_page_keeps (rep : Represents k pd s map) {next : Store}
    (returned : pagedirClearPage pd upage s = .ok next) :
    Represents k pd next (map.update (pgNo upage) none) := by
  have arguments : pgOfs upage = 0 ∧ isUserVaddr upage = true := by
    unfold pagedirClearPage at returned
    obtain ⟨_, aligned, returned⟩ := except_bind_ok returned
    obtain ⟨_, user, _⟩ := except_bind_ok returned
    exact ⟨beq_iff_eq.mp (require_ok aligned), require_ok user⟩
  obtain ⟨after, cleared, kept⟩ := clear_page_spec rep arguments.1 arguments.2
  rw [cleared] at returned
  cases returned
  exact kept

end Calls

end UtSystems.Userprog.PageDirectories

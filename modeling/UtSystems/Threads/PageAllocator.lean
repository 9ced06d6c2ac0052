import Mathlib.Order.CompletePartialOrder
import Mathlib.Data.Set.Lattice
import UtSystems.Filesys.FreeMap
import UtSystems.Lib.Allocation

/-!
# The page allocator

`palloc_init` splits the memory above 1 MB into the kernel pool and the user pool. A pool
keeps its bitmap in its own first pages and hands out the pages behind them.
-/

namespace UtSystems.Threads.PageAllocator

open Filesys.FreeMap Lib.Allocation Lib.Bytes
open Lib.Effects (except_bind_ok)

set_option autoImplicit false

def pgsize : Nat := 4096

/-- `LOADER_PHYS_BASE`. -/
def physBase : Nat := 0xc0000000

def pgOfs (va : Nat) : Nat := va % pgsize
def pgNo (va : Nat) : Nat := va / pgsize

inductive Panic where
  | assertion
  | notReached
  -- `Not enough memory in %s for bitmap.`
  | notEnoughMemory (name : String)
  -- `palloc_get: out of pages`
  | outOfPages
deriving DecidableEq

/-- `init_ram_pages` of start.S, where the BIOS returns `ax` kB above the first 1024. -/
def initRamPages (ax : BitVec 16) : Nat := min (ax.toNat + 1024) 0x10000 / 4

def ptov (paddr : Nat) : Except Panic Nat :=
  if paddr < physBase then .ok (paddr + physBase) else .error .assertion

structure Pool where
  -- where the struct bitmap is, and its bits
  usedMapAt : Nat
  usedMap : Bitmap
  base : Nat
deriving DecidableEq

structure Allocator where
  kernelPool : Pool
  userPool : Pool
  memory : Nat → Byte

structure Flags where
  palAssert : Bool
  palZero : Bool
  palUser : Bool

def divRoundUp (x step : Nat) : Nat := (x + step - 1) / step

/-- `sizeof (struct bitmap)` is 8. -/
def bitmapBufSize (bitCnt : Nat) : Nat := 8 + byteCnt bitCnt

def bitmapCreateInBuf (bitCnt blockSize : Nat) : Except Panic Bitmap :=
  if bitmapBufSize bitCnt ≤ blockSize then .ok (List.replicate bitCnt false)
  else .error .assertion

def initPool (base pageCnt : Nat) (name : String) : Except Panic Pool :=
  let bmPages := divRoundUp (bitmapBufSize pageCnt) pgsize
  if pageCnt < bmPages then .error (.notEnoughMemory name)
  else do
    let usedMap ← bitmapCreateInBuf (pageCnt - bmPages) (bmPages * pgsize)
    return { usedMapAt := base, usedMap := usedMap, base := base + bmPages * pgsize }

def pallocInit (ramPages userPageLimit : Nat) (memory : Nat → Byte) :
    Except Panic Allocator := do
  let freeStart ← ptov (1024 * 1024)
  let freeEnd ← ptov (ramPages * pgsize)
  let freePages := (freeEnd - freeStart) / pgsize
  let userPages := min (freePages / 2) userPageLimit
  let kernelPages := freePages - userPages
  let kernelPool ← initPool freeStart kernelPages "kernel pool"
  let userPool ← initPool (freeStart + kernelPages * pgsize) userPages "user pool"
  return { kernelPool := kernelPool, userPool := userPool, memory := memory }

def memset (memory : Nat → Byte) (dst : Nat) (value : Byte) (size : Nat) : Nat → Byte :=
  fun address => if dst ≤ address ∧ address < dst + size then value else memory address

def Allocator.pool (a : Allocator) (user : Bool) : Pool :=
  if user then a.userPool else a.kernelPool

def Allocator.setPool (a : Allocator) (user : Bool) (p : Pool) : Allocator :=
  if user then { a with userPool := p } else { a with kernelPool := p }

def bitmapScanAndFlip (b : Bitmap) (cnt : Nat) : Option (Nat × Bitmap) :=
  (bitmapScan b 0 cnt false).map fun idx => (idx, bitmapSetMultiple b idx cnt true)

/-- Returns the null pointer as 0. -/
def pallocGetMultiple (flags : Flags) (pageCnt : Nat) (a : Allocator) :
    Except Panic (Nat × Allocator) :=
  if pageCnt = 0 then .ok (0, a)
  else
    let pool := a.pool flags.palUser
    match bitmapScanAndFlip pool.usedMap pageCnt with
    | none => if flags.palAssert then .error .outOfPages else .ok (0, a)
    | some (pageIdx, usedMap) =>
        let pages := pool.base + pgsize * pageIdx
        let taken := a.setPool flags.palUser { pool with usedMap := usedMap }
        .ok (pages, if flags.palZero then
          { taken with memory := memset a.memory pages 0 (pgsize * pageCnt) } else taken)

def bitmapAll (b : Bitmap) (start cnt : Nat) : Except Panic Bool :=
  if start ≤ b.length ∧ start + cnt ≤ b.length then .ok !bitmapContains b start cnt false
  else .error .assertion

def pageFromPool (pool : Pool) (page : Nat) : Bool :=
  pgNo pool.base ≤ pgNo page && pgNo page < pgNo pool.base + pool.usedMap.length

/-- The pool of the page, as `PAL_USER`. -/
def findPool (a : Allocator) (pages : Nat) : Except Panic Bool :=
  if pageFromPool a.kernelPool pages then .ok false
  else if pageFromPool a.userPool pages then .ok true
  else .error .notReached

def pallocFreeMultiple (pages pageCnt : Nat) (a : Allocator) : Except Panic Allocator :=
  if pgOfs pages ≠ 0 then .error .assertion
  else if pages = 0 ∨ pageCnt = 0 then .ok a
  else do
    let user ← findPool a pages
    let pool := a.pool user
    let pageIdx := pgNo pages - pgNo pool.base
    let cleared := memset a.memory pages 0xcc (pgsize * pageCnt)
    if ← bitmapAll pool.usedMap pageIdx pageCnt then
      let usedMap := bitmapSetMultiple pool.usedMap pageIdx pageCnt false
      return { a.setPool user { pool with usedMap := usedMap } with memory := cleared }
    else throw .assertion

def pallocGetPage (flags : Flags) : Allocator → Except Panic (Nat × Allocator) :=
  pallocGetMultiple flags 1

def pallocFreePage (page : Nat) : Allocator → Except Panic Allocator :=
  pallocFreeMultiple page 1

/-- What a call of `palloc_get_multiple` has returned and nobody has freed yet. -/
structure Group where
  pages : Nat
  count : Nat
  user : Bool
deriving DecidableEq

/-- The allocator and its outstanding groups after any calls that free only such groups. -/
inductive Reached (ramPages userPageLimit : Nat) : Allocator → List Group → Prop where
  | init {memory : Nat → Byte} {a : Allocator}
      (initialised : pallocInit ramPages userPageLimit memory = .ok a) :
      Reached ramPages userPageLimit a []
  | got {a b : Allocator} {out : List Group} {flags : Flags} {pageCnt pages : Nat}
      (prior : Reached ramPages userPageLimit a out)
      (returned : pallocGetMultiple flags pageCnt a = .ok (pages, b)) (nonnull : pages ≠ 0) :
      Reached ramPages userPageLimit b (⟨pages, pageCnt, flags.palUser⟩ :: out)
  | refused {a b : Allocator} {out : List Group} {flags : Flags} {pageCnt : Nat}
      (prior : Reached ramPages userPageLimit a out)
      (returned : pallocGetMultiple flags pageCnt a = .ok (0, b)) :
      Reached ramPages userPageLimit b out
  | freed {a b : Allocator} {out : List Group} {g : Group}
      (prior : Reached ramPages userPageLimit a out) (outstanding : g ∈ out)
      (returned : pallocFreeMultiple g.pages g.count a = .ok b) :
      Reached ramPages userPageLimit b (out.erase g)

/-- The numbers of its pages. -/
def Group.footprint (g : Group) : Set Nat :=
  {page | pgNo g.pages ≤ page ∧ page < pgNo g.pages + g.count}

def Pool.holds (p : Pool) : Set Nat :=
  {page | pgNo p.base ≤ page ∧ page < pgNo p.base + p.usedMap.length}

def Pool.mapPages (p : Pool) : Set Nat :=
  {page | pgNo p.usedMapAt ≤ page ∧ page < pgNo p.base}

/-- The pages whose bit is set in the bitmap of their pool. -/
def Allocator.marked (a : Allocator) : Set Nat :=
  {page | ∃ user, page ∈ (a.pool user).holds ∧
    bitmapTest (a.pool user).usedMap (page - pgNo (a.pool user).base) = true}

/-- The user pool with its bitmap lies behind the kernel pool with its bitmap. -/
structure Layout (a : Allocator) : Prop where
  positive : 0 < a.kernelPool.base
  aligned : ∀ user, pgOfs (a.pool user).base = 0
  kernelMap : pgNo a.kernelPool.usedMapAt ≤ pgNo a.kernelPool.base
  kernelEnd : pgNo a.kernelPool.base + a.kernelPool.usedMap.length = pgNo a.userPool.usedMapAt
  userMap : pgNo a.userPool.usedMapAt ≤ pgNo a.userPool.base
  -- 64 MB of RAM at most
  userEnd : pgNo a.userPool.base + a.userPool.usedMap.length ≤ 802816

/-- The group is a run of pages of that pool. -/
structure Placed (p : Pool) (g : Group) : Prop where
  aligned : pgOfs g.pages = 0
  positive : 0 < g.count
  first : pgNo p.base ≤ pgNo g.pages
  last : pgNo g.pages + g.count ≤ pgNo p.base + p.usedMap.length

structure Inv (a : Allocator) (out : List Group) : Prop where
  layout : Layout a
  distinct : out.Nodup
  placed : ∀ g ∈ out, Placed (a.pool g.user) g
  tiling : Tiling {g | g ∈ out} Group.footprint a.marked
  owned : ∀ page ∈ a.marked, ∃ g ∈ out, page ∈ g.footprint

section Pools

variable {a : Allocator} {user other : Bool} {p : Pool} {g : Group} {page : Nat}

@[simp] theorem set_pool_self : (a.setPool user p).pool user = p := by
  cases user <;> rfl

theorem set_pool_other (different : other ≠ user) : (a.setPool user p).pool other = a.pool other := by
  cases user <;> cases other <;> first | rfl | exact absurd rfl different

theorem placed_footprint (placed : Placed p g) : g.footprint ⊆ p.holds := by
  intro page inside
  have first := placed.first
  have last := placed.last
  simp only [Group.footprint, Pool.holds, Set.mem_ofPred_eq] at inside ⊢
  omega

theorem placed_nonempty (placed : Placed p g) : pgNo g.pages ∈ g.footprint := by
  have positive := placed.positive
  simp only [Group.footprint, Set.mem_ofPred_eq]
  omega

/-- No page lies in both pools. -/
theorem holds_apart (layout : Layout a) (here : page ∈ (a.pool user).holds)
    (there : page ∈ (a.pool other).holds) : other = user := by
  have split := layout.kernelEnd
  have behind := layout.userMap
  simp only [Pool.holds, Set.mem_ofPred_eq] at here there
  cases user <;> cases other <;>
    simp only [Allocator.pool, Bool.false_eq_true, if_true, if_false] at here there ⊢ <;> omega

theorem holds_no_map (layout : Layout a) (here : page ∈ (a.pool user).holds) :
    page ∉ (a.pool other).mapPages := by
  intro there
  have split := layout.kernelEnd
  have behind := layout.userMap
  have before := layout.kernelMap
  simp only [Pool.holds, Pool.mapPages, Set.mem_ofPred_eq] at here there
  cases user <;> cases other <;>
    simp only [Allocator.pool, Bool.false_eq_true, if_true, if_false] at here there <;> omega

end Pools

section Marks

variable {a : Allocator} {user : Bool} {start cnt page : Nat} {value : Bool}

/-- The allocator with those bits of one bitmap set to `value`. -/
def withBits (a : Allocator) (user : Bool) (start cnt : Nat) (value : Bool) : Allocator :=
  a.setPool user
    { a.pool user with usedMap := bitmapSetMultiple (a.pool user).usedMap start cnt value }

theorem with_bits_base (other : Bool) :
    ((withBits a user start cnt value).pool other).base = (a.pool other).base := by
  by_cases same : other = user
  · subst same
    simp [withBits]
  · simp [withBits, set_pool_other same]

theorem with_bits_map_at (other : Bool) :
    ((withBits a user start cnt value).pool other).usedMapAt = (a.pool other).usedMapAt := by
  by_cases same : other = user
  · subst same
    simp [withBits]
  · simp [withBits, set_pool_other same]

theorem with_bits_length (fits : start + cnt ≤ (a.pool user).usedMap.length) (other : Bool) :
    ((withBits a user start cnt value).pool other).usedMap.length =
      (a.pool other).usedMap.length := by
  by_cases same : other = user
  · subst same
    simp [withBits, bitmap_set_multiple_length fits]
  · simp [withBits, set_pool_other same]

theorem with_bits_holds (fits : start + cnt ≤ (a.pool user).usedMap.length) (other : Bool) :
    ((withBits a user start cnt value).pool other).holds = (a.pool other).holds := by
  unfold Pool.holds
  rw [with_bits_base, with_bits_length fits]

theorem with_bits_layout (layout : Layout a)
    (fits : start + cnt ≤ (a.pool user).usedMap.length) :
    Layout (withBits a user start cnt value) := by
  have base := @with_bits_base a user start cnt value
  have mapAt := @with_bits_map_at a user start cnt value
  have length := @with_bits_length a user start cnt value fits
  exact {
    positive := by
      have kept := base false
      simp only [Allocator.pool, Bool.false_eq_true, if_false] at kept
      rw [kept]
      exact layout.positive
    aligned := by
      intro other
      rw [base]
      exact layout.aligned other
    kernelMap := by
      have keptBase := base false
      have keptMap := mapAt false
      simp only [Allocator.pool, Bool.false_eq_true, if_false] at keptBase keptMap
      rw [keptBase, keptMap]
      exact layout.kernelMap
    kernelEnd := by
      have keptBase := base false
      have keptLength := length false
      have keptMap := mapAt true
      simp only [Allocator.pool, Bool.false_eq_true, if_false, if_true]
        at keptBase keptLength keptMap
      rw [keptBase, keptLength, keptMap]
      exact layout.kernelEnd
    userMap := by
      have keptBase := base true
      have keptMap := mapAt true
      simp only [Allocator.pool, if_true] at keptBase keptMap
      rw [keptBase, keptMap]
      exact layout.userMap
    userEnd := by
      have keptBase := base true
      have keptLength := length true
      simp only [Allocator.pool, if_true] at keptBase keptLength
      rw [keptBase, keptLength]
      exact layout.userEnd }

theorem with_bits_marked (layout : Layout a)
    (fits : start + cnt ≤ (a.pool user).usedMap.length) :
    page ∈ (withBits a user start cnt value).marked ↔
      if pgNo (a.pool user).base + start ≤ page ∧ page < pgNo (a.pool user).base + start + cnt
      then value = true else page ∈ a.marked := by
  have bit : ∀ other, page ∈ (a.pool other).holds →
      bitmapTest ((withBits a user start cnt value).pool other).usedMap
          (page - pgNo (a.pool other).base) =
        if pgNo (a.pool user).base + start ≤ page ∧ page < pgNo (a.pool user).base + start + cnt
        then value else bitmapTest (a.pool other).usedMap (page - pgNo (a.pool other).base) := by
    intro other inside
    by_cases same : other = user
    · subst same
      simp only [withBits, set_pool_self]
      rw [bitmap_set_multiple_test fits]
      simp only [Pool.holds, Set.mem_ofPred_eq] at inside
      congr 1
      simp only [eq_iff_iff]
      omega
    · have outside : ¬(pgNo (a.pool user).base + start ≤ page ∧
          page < pgNo (a.pool user).base + start + cnt) := by
        intro within
        apply same
        apply holds_apart layout _ inside
        simp only [Pool.holds, Set.mem_ofPred_eq]
        omega
      rw [if_neg outside]
      simp [withBits, set_pool_other same]
  have within : pgNo (a.pool user).base + start ≤ page ∧
      page < pgNo (a.pool user).base + start + cnt → page ∈ (a.pool user).holds := by
    intro bounds
    simp only [Pool.holds, Set.mem_ofPred_eq]
    omega
  unfold Allocator.marked
  simp only [Set.mem_ofPred_eq, with_bits_holds fits, with_bits_base]
  constructor
  · intro ⟨other, inside, set⟩
    rw [bit other inside] at set
    split
    · next bounds => simpa [bounds] using set
    · next bounds =>
      rw [if_neg bounds] at set
      exact ⟨other, inside, set⟩
  · intro marks
    split at marks
    · next bounds =>
      refine ⟨user, within bounds, ?_⟩
      rw [bit user (within bounds), if_pos bounds]
      exact marks
    · next bounds =>
      obtain ⟨other, inside, set⟩ := marks
      refine ⟨other, inside, ?_⟩
      rw [bit other inside, if_neg bounds]
      exact set

end Marks

section Calls

variable {a b : Allocator} {out : List Group} {g : Group} {flags : Flags} {pageCnt pages : Nat}

theorem inv_memory (inv : Inv a out) (memory : Nat → Byte) : Inv { a with memory := memory } out where
  layout := ⟨inv.layout.positive, inv.layout.aligned, inv.layout.kernelMap, inv.layout.kernelEnd,
    inv.layout.userMap, inv.layout.userEnd⟩
  distinct := inv.distinct
  placed := inv.placed
  tiling := inv.tiling
  owned := inv.owned

theorem base_positive (layout : Layout a) (user : Bool) : 0 < pgNo (a.pool user).base := by
  have positive := layout.positive
  have aligned := layout.aligned false
  have kernelEnd := layout.kernelEnd
  have userMap := layout.userMap
  simp only [pgOfs, pgNo, pgsize, Allocator.pool, Bool.false_eq_true, if_false] at *
  cases user <;> simp only [Bool.false_eq_true, if_false, if_true] <;> omega

/-- The run of pages from a bit of the bitmap on. -/
theorem group_placed (layout : Layout a) {user : Bool} {idx : Nat} (positive : 0 < pageCnt)
    (fits : idx + pageCnt ≤ (a.pool user).usedMap.length) :
    Placed (a.pool user) ⟨(a.pool user).base + pgsize * idx, pageCnt, user⟩ ∧
      pgNo ((a.pool user).base + pgsize * idx) = pgNo (a.pool user).base + idx := by
  have aligned := layout.aligned user
  have number : pgNo ((a.pool user).base + pgsize * idx) = pgNo (a.pool user).base + idx := by
    simp only [pgNo, pgsize]
    omega
  refine ⟨?_, number⟩
  exact {
    aligned := by
      simp only [pgOfs, pgsize] at aligned ⊢
      omega
    positive := positive
    first := by
      rw [number]
      omega
    last := by
      rw [number]
      simp only
      omega }

theorem got_nonnull (layout : Layout a) {user : Bool} {idx : Nat} (positive : 0 < pageCnt)
    (fits : idx + pageCnt ≤ (a.pool user).usedMap.length) :
    (a.pool user).base + pgsize * idx ≠ 0 := by
  intro null
  have base := base_positive layout user
  have number := (group_placed layout positive fits).2
  rw [null] at number
  simp only [pgNo, Nat.zero_div] at number base
  omega

theorem palloc_get_multiple_cases
    (returned : pallocGetMultiple flags pageCnt a = .ok (pages, b)) :
    (pages = 0 ∧ b = a) ∨
      ∃ idx memory, 0 < pageCnt ∧
        bitmapScan (a.pool flags.palUser).usedMap 0 pageCnt false = some idx ∧
        pages = (a.pool flags.palUser).base + pgsize * idx ∧
        b = { withBits a flags.palUser idx pageCnt true with memory := memory } := by
  unfold pallocGetMultiple at returned
  by_cases zero : pageCnt = 0
  · rw [if_pos zero] at returned
    cases returned
    exact .inl ⟨rfl, rfl⟩
  · rw [if_neg zero] at returned
    cases scanned : bitmapScan (a.pool flags.palUser).usedMap 0 pageCnt false with
    | none =>
        simp only [bitmapScanAndFlip, scanned, Option.map_none] at returned
        split at returned
        · cases returned
        · cases returned
          exact .inl ⟨rfl, rfl⟩
    | some idx =>
        simp only [bitmapScanAndFlip, scanned, Option.map_some] at returned
        split at returned
        · cases returned
          exact .inr ⟨idx, _, by omega, rfl, rfl, rfl⟩
        · cases returned
          exact .inr ⟨idx, a.memory, by omega, rfl, rfl, by
            cases user : flags.palUser <;> rfl⟩

theorem got_keeps (inv : Inv a out) {idx : Nat} {user : Bool} (positive : 0 < pageCnt)
    (scanned : bitmapScan (a.pool user).usedMap 0 pageCnt false = some idx) :
    Inv (withBits a user idx pageCnt true)
      (⟨(a.pool user).base + pgsize * idx, pageCnt, user⟩ :: out) := by
  obtain ⟨fits, free⟩ := bitmap_scan_some scanned
  obtain ⟨placed, number⟩ := group_placed inv.layout positive fits
  let group : Group := ⟨(a.pool user).base + pgsize * idx, pageCnt, user⟩
  have range : ∀ page, page ∈ group.footprint ↔
      pgNo (a.pool user).base + idx ≤ page ∧ page < pgNo (a.pool user).base + idx + pageCnt := by
    intro page
    simp only [group, Group.footprint, Set.mem_ofPred_eq, number]
  have marks : ∀ page, page ∈ (withBits a user idx pageCnt true).marked ↔
      page ∈ group.footprint ∨ page ∈ a.marked := by
    intro page
    rw [with_bits_marked inv.layout fits, range]
    split
    · next bounds => simp [bounds]
    · next bounds => simp [bounds]
  have unmarked : ∀ page ∈ group.footprint, page ∉ a.marked := by
    intro page inside ⟨other, held, set⟩
    have here := placed_footprint placed inside
    have same := holds_apart inv.layout here held
    subst same
    rw [range] at inside
    have bit := free (page - pgNo (a.pool other).base - idx) (by omega)
    rw [show idx + (page - pgNo (a.pool other).base - idx) =
      page - pgNo (a.pool other).base by omega, set] at bit
    cases bit
  have fresh : ∀ other ∈ out, ∀ page ∈ group.footprint, page ∉ other.footprint := by
    intro other member page here there
    exact unmarked page here (inv.tiling.covered other member there)
  exact {
    layout := with_bits_layout inv.layout fits
    distinct := by
      rw [List.nodup_cons]
      refine ⟨?_, inv.distinct⟩
      intro member
      have first := placed_nonempty placed
      exact fresh group member _ first first
    placed := by
      intro other member
      have kept : ∀ g : Group, Placed (a.pool g.user) g →
          Placed ((withBits a user idx pageCnt true).pool g.user) g := by
        intro g placed
        refine ⟨placed.aligned, placed.positive, ?_, ?_⟩
        · rw [with_bits_base]
          exact placed.first
        · rw [with_bits_base, with_bits_length fits]
          exact placed.last
      cases member with
      | head => exact kept group placed
      | tail _ member => exact kept other (inv.placed other member)
    tiling := by
      have grown : Tiling {other | other ∈ out} Group.footprint
          (withBits a user idx pageCnt true).marked := by
        apply tiling_used inv.tiling
        intro other member page inside
        exact (marks page).mpr (.inr (inv.tiling.covered other member inside))
      have inserted := tiling_insert grown group (fun _ _ => rfl)
        (fun other member page inside => fresh other member page inside)
        (fun page inside => (marks page).mpr (.inl inside))
      have members : {other | other ∈ group :: out} = insert group {other | other ∈ out} := by
        ext other
        simp
      rw [members]
      exact inserted
    owned := by
      intro page marked
      rcases (marks page).mp marked with inside | earlier
      · exact ⟨group, List.mem_cons_self, inside⟩
      · obtain ⟨other, member, inside⟩ := inv.owned page earlier
        exact ⟨other, List.mem_cons_of_mem _ member, inside⟩ }

theorem page_from_pool_iff {p : Pool} {page : Nat} :
    pageFromPool p page = true ↔ pgNo page ∈ p.holds := by
  simp [pageFromPool, Pool.holds]

theorem find_pool_placed (layout : Layout a) (placed : Placed (a.pool g.user) g) :
    findPool a g.pages = .ok g.user := by
  have inside := placed_footprint placed (placed_nonempty placed)
  unfold findPool
  cases user : g.user with
  | false =>
      rw [user] at inside
      have kernel : pgNo g.pages ∈ a.kernelPool.holds := inside
      rw [if_pos (page_from_pool_iff.mpr kernel)]
  | true =>
      rw [user] at inside
      have notKernel : ¬pageFromPool a.kernelPool g.pages = true := by
        intro kernel
        have held : pgNo g.pages ∈ (a.pool false).holds := page_from_pool_iff.mp kernel
        have same := holds_apart layout inside held
        cases same
      have inUser : pgNo g.pages ∈ a.userPool.holds := inside
      rw [if_neg notKernel, if_pos (page_from_pool_iff.mpr inUser)]

/-- Where the bit of the first page of the group is. -/
def Allocator.place (a : Allocator) (g : Group) : Nat := pgNo g.pages - pgNo (a.pool g.user).base

/-- A free of an outstanding group finds its pool and all its bits set. -/
theorem palloc_free_outstanding (inv : Inv a out) (outstanding : g ∈ out) :
    ∃ memory, pallocFreeMultiple g.pages g.count a =
      .ok { withBits a g.user (a.place g) g.count false with memory := memory } := by
  have placed := inv.placed g outstanding
  have first := placed.first
  have last := placed.last
  have positive := placed.positive
  have base := base_positive inv.layout g.user
  have nonnull : ¬(g.pages = 0 ∨ g.count = 0) := by
    intro null
    rcases null with null | null
    · rw [null] at first
      simp only [pgNo, Nat.zero_div] at first base
      omega
    · omega
  have all : bitmapAll (a.pool g.user).usedMap (a.place g) g.count = .ok true := by
    unfold bitmapAll
    have fits : a.place g ≤ (a.pool g.user).usedMap.length ∧
        a.place g + g.count ≤ (a.pool g.user).usedMap.length := by
      unfold Allocator.place
      omega
    rw [if_pos fits, bitmap_contains_false.mpr]
    · rfl
    · intro index inside
      have member : pgNo g.pages + index ∈ g.footprint := by
        simp only [Group.footprint, Set.mem_ofPred_eq]
        omega
      obtain ⟨other, held, set⟩ := inv.tiling.covered g outstanding member
      have same := holds_apart inv.layout (placed_footprint placed member) held
      subst same
      rw [show pgNo g.pages + index - pgNo (a.pool g.user).base = a.place g + index by
        unfold Allocator.place
        omega] at set
      exact set
  unfold pallocFreeMultiple
  rw [if_neg (by rw [placed.aligned]; simp), if_neg nonnull, find_pool_placed inv.layout placed]
  unfold Allocator.place at all ⊢
  simp only [bind, Except.bind, all, pure, Except.pure, if_true]
  exact ⟨_, rfl⟩

theorem freed_keeps (inv : Inv a out) (outstanding : g ∈ out) :
    Inv (withBits a g.user (a.place g) g.count false) (out.erase g) := by
  have placed := inv.placed g outstanding
  have first := placed.first
  have last := placed.last
  have fits : a.place g + g.count ≤ (a.pool g.user).usedMap.length := by
    unfold Allocator.place
    omega
  have marks : ∀ page, page ∈ (withBits a g.user (a.place g) g.count false).marked ↔
      page ∉ g.footprint ∧ page ∈ a.marked := by
    intro page
    have range : pgNo (a.pool g.user).base + a.place g ≤ page ∧
        page < pgNo (a.pool g.user).base + a.place g + g.count ↔ page ∈ g.footprint := by
      simp only [Group.footprint, Set.mem_ofPred_eq, Allocator.place]
      omega
    rw [with_bits_marked inv.layout fits]
    by_cases inside : page ∈ g.footprint
    · rw [if_pos (range.mpr inside)]
      simp [inside]
    · rw [if_neg fun bounds => inside (range.mp bounds)]
      simp [inside]
  have members : ∀ other, other ∈ out.erase g ↔ other ≠ g ∧ other ∈ out := by
    intro other
    exact inv.distinct.mem_erase_iff
  exact {
    layout := with_bits_layout inv.layout fits
    distinct := inv.distinct.erase g
    placed := by
      intro other member
      have before := inv.placed other ((members other).mp member).2
      refine ⟨before.aligned, before.positive, ?_, ?_⟩
      · rw [with_bits_base]
        exact before.first
      · rw [with_bits_base, with_bits_length fits]
        exact before.last
    tiling := by
      apply tiling_release inv.tiling g outstanding
      · intro other member
        exact ⟨((members other).mp member).2, ((members other).mp member).1⟩
      · intro other member
        rfl
      · intro page marked outside
        exact (marks page).mpr ⟨outside, marked⟩
    owned := by
      intro page marked
      obtain ⟨outside, before⟩ := (marks page).mp marked
      obtain ⟨other, member, inside⟩ := inv.owned page before
      refine ⟨other, (members other).mpr ⟨?_, member⟩, inside⟩
      intro same
      subst same
      exact outside inside }

end Calls

section Init

theorem init_pool_ok {base pageCnt : Nat} {name : String} {p : Pool}
    (initialised : initPool base pageCnt name = .ok p) :
    ∃ bmPages, bmPages ≤ pageCnt ∧ p.usedMapAt = base ∧ p.base = base + bmPages * pgsize ∧
      p.usedMap = List.replicate (pageCnt - bmPages) false := by
  unfold initPool at initialised
  simp only at initialised
  split at initialised
  · cases initialised
  · next enough =>
    unfold bitmapCreateInBuf at initialised
    split at initialised
    · cases initialised
      exact ⟨_, by omega, rfl, rfl, rfl⟩
    · cases initialised

/-- Where free memory starts. -/
def freeStart : Nat := physBase + 1024 * 1024

theorem free_start_pages : freeStart = 786688 * pgsize := rfl

theorem free_pages (base ramPages : Nat) :
    (base + ramPages * pgsize - (base + 256 * pgsize)) / pgsize = ramPages - 256 := by
  rw [Nat.add_sub_add_left, ← Nat.sub_mul]
  exact Nat.mul_div_cancel _ (by decide)

theorem ram_pages_bounds (ax : BitVec 16) : 256 ≤ initRamPages ax ∧ initRamPages ax ≤ 16384 := by
  unfold initRamPages
  omega

/-- Where palloc_init has put the pools. -/
theorem palloc_init_ok {ramPages userPageLimit : Nat} {memory : Nat → Byte} {a : Allocator}
    (bounds : 256 ≤ ramPages ∧ ramPages ≤ 16384)
    (initialised : pallocInit ramPages userPageLimit memory = .ok a) :
    ∃ kernelPages, kernelPages ≤ ramPages - 256 ∧
      initPool freeStart kernelPages "kernel pool" = .ok a.kernelPool ∧
      initPool (freeStart + kernelPages * pgsize) (ramPages - 256 - kernelPages) "user pool" =
        .ok a.userPool := by
  have start : ptov (1024 * 1024) = .ok freeStart := rfl
  have finish : ptov (ramPages * pgsize) = .ok (physBase + ramPages * pgsize) := by
    unfold ptov
    rw [if_pos (by simp only [pgsize, physBase]; omega), Nat.add_comm]
  have pages : (physBase + ramPages * pgsize - freeStart) / pgsize = ramPages - 256 := by
    have start : freeStart = physBase + 256 * pgsize := rfl
    rw [start]
    exact free_pages physBase ramPages
  obtain ⟨first, atFirst, initialised⟩ := except_bind_ok initialised
  obtain ⟨last, atLast, initialised⟩ := except_bind_ok initialised
  rw [start] at atFirst
  rw [finish] at atLast
  cases atFirst
  cases atLast
  rw [pages] at initialised
  have few : min ((ramPages - 256) / 2) userPageLimit ≤ ramPages - 256 := by omega
  obtain ⟨kernelPool, kernel, initialised⟩ := except_bind_ok initialised
  obtain ⟨userPool, user, initialised⟩ := except_bind_ok initialised
  cases initialised
  refine ⟨_, Nat.sub_le _ _, kernel, ?_⟩
  rw [Nat.sub_sub_self few]
  exact user

theorem init_inv {ramPages userPageLimit : Nat} {memory : Nat → Byte} {a : Allocator}
    (bounds : 256 ≤ ramPages ∧ ramPages ≤ 16384)
    (initialised : pallocInit ramPages userPageLimit memory = .ok a) : Inv a [] := by
  obtain ⟨kernelPages, few, kernel, user⟩ := palloc_init_ok bounds initialised
  obtain ⟨kernelMap, kernelFits, kernelAt, kernelBase, kernelBits⟩ := init_pool_ok kernel
  obtain ⟨userMap, userFits, userAt, userBase, userBits⟩ := init_pool_ok user
  have unmarked : ∀ page, page ∉ a.marked := by
    intro page ⟨owner, held, set⟩
    cases owner with
    | false =>
        simp only [Allocator.pool, Bool.false_eq_true, if_false, kernelBits, bitmapTest,
          List.getD_eq_getElem?_getD, List.getElem?_replicate] at set
        split at set <;> cases set
    | true =>
        simp only [Allocator.pool, if_true, userBits, bitmapTest,
          List.getD_eq_getElem?_getD, List.getElem?_replicate] at set
        split at set <;> cases set
  exact {
    layout := {
      positive := by
        rw [kernelBase, free_start_pages]
        simp only [pgsize]
        omega
      aligned := by
        intro owner
        cases owner with
        | false =>
            simp only [Allocator.pool, Bool.false_eq_true, if_false, kernelBase, pgOfs,
              free_start_pages, pgsize]
            omega
        | true =>
            simp only [Allocator.pool, if_true, userBase, pgOfs, free_start_pages, pgsize]
            omega
      kernelMap := by
        rw [kernelAt, kernelBase]
        simp only [pgNo, pgsize]
        omega
      kernelEnd := by
        rw [kernelBase, kernelBits, userAt, List.length_replicate]
        simp only [pgNo, pgsize, free_start_pages]
        omega
      userMap := by
        rw [userAt, userBase]
        simp only [pgNo, pgsize]
        omega
      userEnd := by
        rw [userBase, userBits, List.length_replicate]
        simp only [pgNo, pgsize, free_start_pages]
        omega }
    distinct := List.nodup_nil
    placed := fun _ member => absurd member List.not_mem_nil
    tiling := {
      apart := fun _ member => absurd member List.not_mem_nil
      covered := fun _ member => absurd member List.not_mem_nil }
    owned := fun page marked => absurd marked (unmarked page) }

end Init

section Runs

variable {ax : BitVec 16} {userPageLimit : Nat} {a : Allocator} {out : List Group}

theorem reached_inv (run : Reached (initRamPages ax) userPageLimit a out) : Inv a out := by
  induction run with
  | init initialised => exact init_inv (ram_pages_bounds ax) initialised
  | got prior returned nonnull ih =>
      rcases palloc_get_multiple_cases returned with ⟨null, _⟩ | found
      · exact absurd null nonnull
      · obtain ⟨idx, memory, positive, scanned, here, next⟩ := found
        rw [here, next]
        exact inv_memory (got_keeps ih positive scanned) memory
  | refused prior returned ih =>
      rcases palloc_get_multiple_cases returned with ⟨_, same⟩ | found
      · rw [same]
        exact ih
      · obtain ⟨idx, memory, positive, scanned, here, next⟩ := found
        have nonnull := got_nonnull ih.layout positive (bitmap_scan_some scanned).1
        exact absurd here.symm nonnull
  | freed prior outstanding returned ih =>
      obtain ⟨memory, freed⟩ := palloc_free_outstanding ih outstanding
      rw [freed] at returned
      cases returned
      exact inv_memory (freed_keeps ih outstanding) memory

/-- Some `pageCnt` contiguous pages of the pool are in no outstanding group. -/
def FreeRun (p : Pool) (out : List Group) (pageCnt : Nat) : Prop :=
  ∃ first, ∀ page, first ≤ page → page < first + pageCnt →
    page ∈ p.holds ∧ ∀ g ∈ out, page ∉ g.footprint

/-- The call has returned the null pointer or has panicked. -/
def Refused : Except Panic (Nat × Allocator) → Prop
  | .ok (pages, _) => pages = 0
  | .error _ => True

theorem unmarked_free (inv : Inv a out) {user : Bool} {idx : Nat}
    (inside : idx < (a.pool user).usedMap.length) :
    bitmapTest (a.pool user).usedMap idx = false ↔
      ∀ g ∈ out, pgNo (a.pool user).base + idx ∉ g.footprint := by
  have held : pgNo (a.pool user).base + idx ∈ (a.pool user).holds := by
    simp only [Pool.holds, Set.mem_ofPred_eq]
    omega
  constructor
  · intro free g member within
    obtain ⟨other, there, set⟩ := inv.tiling.covered g member within
    have same := holds_apart inv.layout held there
    subst same
    rw [Nat.add_sub_cancel_left, free] at set
    cases set
  · intro absent
    apply Bool.eq_false_iff.mpr
    intro set
    have marked : pgNo (a.pool user).base + idx ∈ a.marked := by
      refine ⟨user, held, ?_⟩
      rw [Nat.add_sub_cancel_left]
      exact set
    obtain ⟨g, member, within⟩ := inv.owned _ marked
    exact absent g member within

theorem free_run_iff (inv : Inv a out) {user : Bool} {pageCnt : Nat} (positive : 0 < pageCnt) :
    FreeRun (a.pool user) out pageCnt ↔
      bitmapScan (a.pool user).usedMap 0 pageCnt false ≠ none := by
  constructor
  · intro ⟨first, free⟩ scanned
    have start := (free first (by omega) (by omega)).1
    have last := (free (first + pageCnt - 1) (by omega) (by omega)).1
    simp only [Pool.holds, Set.mem_ofPred_eq] at start last
    obtain ⟨index, inside, set⟩ :=
      bitmap_scan_none.mp scanned (first - pgNo (a.pool user).base) (by omega)
    have absent := (free (first + index) (by omega) (by omega)).2
    rw [show first + index =
      pgNo (a.pool user).base + (first - pgNo (a.pool user).base + index) by omega] at absent
    rw [(unmarked_free inv (by omega)).mpr absent] at set
    cases set
  · intro found
    cases scanned : bitmapScan (a.pool user).usedMap 0 pageCnt false with
    | none => exact absurd scanned found
    | some idx =>
        obtain ⟨fits, free⟩ := bitmap_scan_some scanned
        refine ⟨pgNo (a.pool user).base + idx, ?_⟩
        intro page lower upper
        have place : page = pgNo (a.pool user).base + (page - pgNo (a.pool user).base) := by
          omega
        constructor
        · simp only [Pool.holds, Set.mem_ofPred_eq]
          omega
        · rw [place]
          apply (unmarked_free inv (by omega)).mp
          have bit := free (page - pgNo (a.pool user).base - idx) (by omega)
          rw [show idx + (page - pgNo (a.pool user).base - idx) =
            page - pgNo (a.pool user).base by omega] at bit
          exact bit

theorem refused_iff (inv : Inv a out) (flags : Flags) (pageCnt : Nat) :
    Refused (pallocGetMultiple flags pageCnt a) ↔
      pageCnt = 0 ∨ ¬FreeRun (a.pool flags.palUser) out pageCnt := by
  unfold pallocGetMultiple
  by_cases zero : pageCnt = 0
  · rw [if_pos zero]
    simp [Refused, zero]
  · have positive : 0 < pageCnt := by omega
    rw [if_neg zero, free_run_iff inv positive]
    cases scanned : bitmapScan (a.pool flags.palUser).usedMap 0 pageCnt false with
    | none =>
        simp only [bitmapScanAndFlip, scanned, Option.map_none]
        cases flags.palAssert <;> simp [Refused]
    | some idx =>
        have nonnull := got_nonnull inv.layout positive (bitmap_scan_some scanned).1
        simp only [bitmapScanAndFlip, scanned, Option.map_some, Refused]
        simp only [nonnull, zero, ne_eq, reduceCtorEq, not_false_eq_true, not_true_eq_false, or_self]

structure Sound (a : Allocator) (out : List Group) : Prop where
  apart : out.Pairwise fun first second => Disjoint first.footprint second.footprint
  aligned : ∀ g ∈ out, pgOfs g.pages = 0 ∧ g.pages + pgsize * g.count ≤ 2 ^ 32
  inPool : ∀ g ∈ out, g.footprint ⊆ (a.pool g.user).holds
  offMaps : ∀ g ∈ out, ∀ user, Disjoint g.footprint (a.pool user).mapPages
  offOther : ∀ g ∈ out, ∀ user, user ≠ g.user → Disjoint g.footprint (a.pool user).holds
  frees : ∀ g ∈ out, ∃ b, pallocFreeMultiple g.pages g.count a = .ok b

theorem inv_sound (inv : Inv a out) : Sound a out where
  apart := by
    apply inv.distinct.imp_of_mem
    intro first second firstMember secondMember different
    rw [Set.disjoint_left]
    intro page inFirst inSecond
    exact different (inv.tiling.apart first firstMember second secondMember page inFirst inSecond)
  aligned := by
    intro g member
    have placed := inv.placed g member
    have aligned := placed.aligned
    have last := placed.last
    have kernelEnd := inv.layout.kernelEnd
    have userMap := inv.layout.userMap
    have userEnd := inv.layout.userEnd
    have bound : pgNo (a.pool g.user).base + (a.pool g.user).usedMap.length ≤ 802816 := by
      cases user : g.user with
      | false =>
          simp only [Allocator.pool, Bool.false_eq_true, if_false]
          omega
      | true => exact userEnd
    refine ⟨aligned, ?_⟩
    have most := Nat.le_trans last bound
    simp only [pgOfs, pgNo, pgsize] at aligned most ⊢
    omega
  inPool := fun g member => placed_footprint (inv.placed g member)
  offMaps := by
    intro g member user
    rw [Set.disjoint_left]
    intro page inside
    exact holds_no_map inv.layout (placed_footprint (inv.placed g member) inside)
  offOther := by
    intro g member user different
    rw [Set.disjoint_left]
    intro page inside held
    exact different (holds_apart inv.layout (placed_footprint (inv.placed g member) inside) held)
  frees := by
    intro g member
    obtain ⟨memory, freed⟩ := palloc_free_outstanding inv member
    exact ⟨_, freed⟩

theorem page_groups_are_sound (ax : BitVec 16) (userPageLimit : Nat) (a : Allocator)
    (out : List Group) (run : Reached (initRamPages ax) userPageLimit a out) :
    Sound a out ∧ ∀ flags pageCnt, Refused (pallocGetMultiple flags pageCnt a) ↔
      pageCnt = 0 ∨ ¬FreeRun (a.pool flags.palUser) out pageCnt :=
  ⟨inv_sound (reached_inv run), refused_iff (reached_inv run)⟩

/-- Four pages of free memory: one in each pool, behind one for its bitmap. -/
def fourPages (kernel user : Bool) : Allocator where
  kernelPool := ⟨0xc0100000, [kernel], 0xc0101000⟩
  userPool := ⟨0xc0102000, [user], 0xc0103000⟩
  memory := fun _ => 0

theorem four_pages_init : pallocInit (initRamPages 16#16) 2 (fun _ => 0) =
    .ok (fourPages false false) := by
  have ram : initRamPages 16#16 = 260 := by decide
  have first : ptov (1024 * 1024) = .ok 0xc0100000 := by decide +kernel
  have last : ptov (260 * pgsize) = .ok 0xc0104000 := by decide +kernel
  have pages : (0xc0104000 - 0xc0100000) / pgsize = 4 := by decide +kernel
  have kernel : initPool 0xc0100000 2 "kernel pool" =
      .ok ⟨0xc0100000, [false], 0xc0101000⟩ := by decide +kernel
  have user : initPool (0xc0100000 + 2 * pgsize) 2 "user pool" =
      .ok ⟨0xc0102000, [false], 0xc0103000⟩ := by decide +kernel
  unfold pallocInit
  rw [ram, first, last]
  simp only [bind, Except.bind, pages]
  rw [show min (4 / 2) 2 = 2 from rfl, show 4 - 2 = 2 from rfl]
  simp only [kernel, user]
  rfl

theorem page_groups_are_sound_taken :
    Reached (initRamPages 16#16) 2 (fourPages false true) [⟨0xc0103000, 1, true⟩] ∧
      Sound (fourPages false true) [⟨0xc0103000, 1, true⟩] ∧
      ∀ flags pageCnt, Refused (pallocGetMultiple flags pageCnt (fourPages false true)) ↔
        pageCnt = 0 ∨ ¬FreeRun ((fourPages false true).pool flags.palUser)
          [⟨0xc0103000, 1, true⟩] pageCnt := by
  have taken : pallocGetMultiple ⟨false, false, true⟩ 1 (fourPages false false) =
      .ok (0xc0103000, fourPages false true) := rfl
  have run : Reached (initRamPages 16#16) 2 (fourPages false true) [⟨0xc0103000, 1, true⟩] :=
    .got (.init four_pages_init) taken (by decide)
  exact ⟨run, page_groups_are_sound 16#16 2 _ _ run⟩

/-- A request for no page at all is refused, whatever is free. -/
theorem no_pages_is_refused :
    ¬∀ (ax : BitVec 16) (userPageLimit : Nat) (a : Allocator) (out : List Group),
      Reached (initRamPages ax) userPageLimit a out →
        ∀ flags pageCnt, Refused (pallocGetMultiple flags pageCnt a) →
          ¬FreeRun (a.pool flags.palUser) out pageCnt := by
  intro only
  apply only 16#16 2 _ _ (.init four_pages_init) ⟨false, false, false⟩ 0
  · rfl
  · exact ⟨0, fun page _ impossible => absurd impossible (by omega)⟩

end Runs

end UtSystems.Threads.PageAllocator

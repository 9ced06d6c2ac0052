import UtSystems.Lib.Bytes
import Mathlib.Data.Fin.Basic
import Mathlib.Data.Nat.Basic
import Mathlib.Tactic.Common

/-!
# A process's view of memory

Addresses and page tables follow threads/vaddr.h, threads/pte.h and
userprog/pagedir.c. Pointer arithmetic wraps at 32 bits. A page table is a
function of its ten index bits, and a zero page directory entry is a missing
table; `pde_create` always sets `PTE_P`, `PTE_W` and `PTE_U`, so access rights
are decided by the page table entry alone.

The kernel reads and writes user memory through the same page tables. A read
below `PHYS_BASE` of a page that is not present faults in kernel mode, and a
read at or above `PHYS_BASE` returns kernel memory. `load` stops in both cases.
-/

namespace UtSystems.Userprog.UserMemory

open Lib.Bytes

set_option autoImplicit false

abbrev Addr := BitVec 32

def pgSize : Nat := 4096
def physBase : Nat := 0xC0000000

def isUserVaddr (vaddr : Addr) : Bool := decide (vaddr.toNat < physBase)

def pgNo (va : Addr) : Nat := va.toNat / pgSize
def pgOfs (va : Addr) : Nat := va.toNat % pgSize

def ptNo (va : Addr) : Fin 1024 := ⟨va.toNat / 4096 % 1024, Nat.mod_lt _ (by decide)⟩
def pdNo (va : Addr) : Fin 1024 := ⟨va.toNat / 4194304, by omega⟩

abbrev Pte := BitVec 32

def pteP : Pte := 0x1
def pteW : Pte := 0x2
def pteU : Pte := 0x4
def pteAddr : Pte := 0xfffff000

/-- `pte_create_user`, with the physical address of the page. -/
def pteCreateUser (paddr : Addr) (writable : Bool) : Pte :=
  paddr ||| pteP ||| (if writable then pteW else 0) ||| pteU

abbrev PageTable := Fin 1024 → Pte
abbrev PageDir := Fin 1024 → Option PageTable

/-- `lookup_page` with `create` false. -/
def lookupPage (pd : PageDir) (vaddr : Addr) : Option Pte :=
  (pd (pdNo vaddr)).map fun pt => pt (ptNo vaddr)

/-- The kernel virtual address of the byte, or `none` for the null pointer. -/
def pagedirGetPage (pd : PageDir) (uaddr : Addr) : Option Addr :=
  match lookupPage pd uaddr with
  | some pte =>
      if pte &&& pteP ≠ 0 then
        some ((pte &&& pteAddr) + BitVec.ofNat 32 physBase + BitVec.ofNat 32 (pgOfs uaddr))
      else none
  | none => none

structure AddressSpace where
  pagedir : PageDir
  contents : Addr → Byte

/-- The byte is below `PHYS_BASE` on a present page. -/
def readable (space : AddressSpace) (uaddr : Addr) : Bool :=
  isUserVaddr uaddr && (pagedirGetPage space.pagedir uaddr).isSome

/-- The page table entry of the byte's page is present and writable. `start.S`
sets `CR0.WP`, so this also decides whether the kernel may store there. -/
def writable (space : AddressSpace) (uaddr : Addr) : Bool :=
  isUserVaddr uaddr &&
    match lookupPage space.pagedir uaddr with
    | some pte => pte &&& pteP ≠ 0 && pte &&& pteW ≠ 0
    | none => false

/-- Why a system call does not come back with a value. -/
inductive Ended where
  -- `sys_exit(status)`
  | exited (status : Int)
  -- The kernel touched a byte that is not the process's to have read
  | readFault (uaddr : Addr)
  -- The kernel stored to a byte that is not on a present, writable page
  | writeFault (uaddr : Addr)
  deriving DecidableEq, Repr

def load (space : AddressSpace) (uaddr : Addr) : Except Ended Byte :=
  if readable space uaddr then .ok (space.contents uaddr) else .error (.readFault uaddr)

/-- The little-endian word at an address, whatever its bytes' pages allow. -/
def word (space : AddressSpace) (uaddr : Addr) : Word :=
  joinWord (space.contents uaddr) (space.contents (uaddr + 1#32))
    (space.contents (uaddr + 2#32)) (space.contents (uaddr + 3#32))

def loadWord (space : AddressSpace) (uaddr : Addr) : Except Ended Word := do
  let byte0 ← load space uaddr
  let byte1 ← load space (uaddr + 1#32)
  let byte2 ← load space (uaddr + 2#32)
  let byte3 ← load space (uaddr + 3#32)
  return joinWord byte0 byte1 byte2 byte3

section Pages

variable {space : AddressSpace}

theorem lookup_page_congr {pd : PageDir} {first second : Addr} (same : pgNo first = pgNo second) :
    lookupPage pd first = lookupPage pd second := by
  unfold pgNo pgSize at same
  have table : ptNo first = ptNo second := by simp only [ptNo, same]
  have directory : pdNo first = pdNo second := by
    simp only [pdNo, Fin.mk.injEq]
    omega
  simp only [lookupPage, table, directory]

theorem is_user_vaddr_congr {first second : Addr} (same : pgNo first = pgNo second) :
    isUserVaddr first = isUserVaddr second := by
  unfold pgNo pgSize at same
  unfold isUserVaddr physBase
  apply decide_eq_decide.mpr
  omega

theorem readable_iff {uaddr : Addr} :
    readable space uaddr = true ↔
      uaddr.toNat < physBase ∧
        ∃ pte, lookupPage space.pagedir uaddr = some pte ∧ pte &&& pteP ≠ 0 := by
  simp only [readable, isUserVaddr, pagedirGetPage, Bool.and_eq_true, decide_eq_true_eq]
  cases lookupPage space.pagedir uaddr with
  | none => simp
  | some pte => simp

theorem readable_congr {first second : Addr} (same : pgNo first = pgNo second) :
    readable space first = readable space second := by
  rw [Bool.eq_iff_iff, readable_iff, readable_iff, lookup_page_congr same]
  have user := is_user_vaddr_congr same
  simp only [isUserVaddr, decide_eq_decide] at user
  rw [user]

theorem readable_below {uaddr : Addr} (good : readable space uaddr = true) :
    uaddr.toNat < physBase := (readable_iff.mp good).1

/-- Adding a small offset to a user address does not wrap. -/
theorem to_nat_add_small {uaddr : Addr} {offset : Nat} (below : uaddr.toNat < physBase)
    (small : offset < pgSize) :
    (uaddr + BitVec.ofNat 32 offset).toNat = uaddr.toNat + offset := by
  unfold physBase at below
  unfold pgSize at small
  rw [BitVec.toNat_add, BitVec.toNat_ofNat]
  omega

/-- Two readable bytes less than a page apart have only readable bytes between them. -/
theorem readable_between {uaddr : Addr} {offset last : Nat} (first : readable space uaddr = true)
    (small : last < pgSize) (final : readable space (uaddr + BitVec.ofNat 32 last) = true)
    (inside : offset ≤ last) : readable space (uaddr + BitVec.ofNat 32 offset) = true := by
  have below := readable_below first
  have offsetSmall : offset < pgSize := by omega
  have here := to_nat_add_small below offsetSmall
  have there := to_nat_add_small below small
  unfold pgSize at small
  have side : pgNo (uaddr + BitVec.ofNat 32 offset) = pgNo uaddr ∨
      pgNo (uaddr + BitVec.ofNat 32 offset) = pgNo (uaddr + BitVec.ofNat 32 last) := by
    simp only [pgNo, pgSize, here, there]
    omega
  rcases side with side | side
  · rw [readable_congr side]
    exact first
  · rw [readable_congr side]
    exact final

end Pages

section Words

variable {space : AddressSpace} {uaddr : Addr}

theorem load_readable (good : readable space uaddr = true) :
    load space uaddr = .ok (space.contents uaddr) := by
  simp [load, good]

/-- A word whose first and last bytes are readable is read whole. -/
theorem load_word_readable (first : readable space uaddr = true)
    (last : readable space (uaddr + 3#32) = true) :
    loadWord space uaddr = .ok (word space uaddr) := by
  have second : readable space (uaddr + 1#32) = true :=
    @readable_between space uaddr 1 3 first (by decide) last (by decide)
  have third : readable space (uaddr + 2#32) = true :=
    @readable_between space uaddr 2 3 first (by decide) last (by decide)
  simp only [loadWord, load_readable first, load_readable second, load_readable third,
    load_readable last, word]
  rfl

theorem load_word_unreadable (bad : readable space (uaddr + 3#32) = false) :
    ∃ fault, loadWord space uaddr = .error (.readFault fault) := by
  have final : load space (uaddr + 3#32) = .error (.readFault (uaddr + 3#32)) := by
    simp [load, bad]
  unfold loadWord
  rw [final]
  simp only [load]
  split
  · split
    · split
      · exact ⟨_, rfl⟩
      · exact ⟨_, rfl⟩
    · exact ⟨_, rfl⟩
  · exact ⟨_, rfl⟩

end Words

end UtSystems.Userprog.UserMemory

import UtSystems.Threads.KernelLists

/-!
# malloc

A small request is served from the free list of the smallest descriptor whose blocks are large
enough, a larger one by whole pages. The bytes of an arena, its header and the links between its
free blocks, are in the memory of the page allocator, and so are the descriptors, of which the
linker has placed the first at `descs`. Their locks are left out: a call runs alone.
-/

namespace UtSystems.Threads.Malloc

open Lib.Bytes Lib.MemoryWords Threads.KernelLists Threads.PageAllocator

set_option autoImplicit false

structure Heap where
  allocator : Allocator
  descCnt : Nat
  -- what palloc_get_multiple has returned here and palloc_free_multiple has not got back
  held : List Group

def Heap.memory (h : Heap) : Memory := h.allocator.memory

def Heap.setMemory (h : Heap) (m : Memory) : Heap :=
  { h with allocator := { h.allocator with memory := m } }

def arenaMagic : Nat := 0x9a548eed

/-- `sizeof (struct arena)`. -/
def arenaSize : Nat := 12

/-- `sizeof (struct desc)`: two sizes, a list and a lock. -/
def descSize : Nat := 48

def descAt (descs index : Nat) : Nat := descs + descSize * index

def blockSizeOf (m : Memory) (d : Nat) : Nat := loadWord m d
def blocksPerArena (m : Memory) (d : Nat) : Nat := loadWord m (d + 4)
def freeList (d : Nat) : Nat := d + 8

def magic (m : Memory) (a : Nat) : Nat := loadWord m a
def descOf (m : Memory) (a : Nat) : Nat := loadWord m (a + 4)
def freeCnt (m : Memory) (a : Nat) : Nat := loadWord m (a + 8)

def setArena (m : Memory) (a desc cnt : Nat) : Memory :=
  storeWord (storeWord (storeWord m a arenaMagic) (a + 4) desc) (a + 8) cnt

def setFreeCnt (m : Memory) (a cnt : Nat) : Memory := storeWord m (a + 8) cnt

def pgRoundDown (va : Nat) : Nat := va - pgOfs va

/-- The loop of `malloc_init`, with room for that many descriptors. -/
def mallocInitFrom (descs : Nat) : Nat → Nat → Nat → Memory → Except Panic (Nat × Memory)
  | 0, blockSize, descCnt, m =>
      if blockSize < pgsize / 2 then .error .assertion else .ok (descCnt, m)
  | room + 1, blockSize, descCnt, m =>
      if blockSize < pgsize / 2 then do
        let d := descAt descs descCnt
        let m := storeWord m d blockSize
        let m := storeWord m (d + 4) ((pgsize - arenaSize) / blockSize)
        let m ← listInit m (freeList d)
        mallocInitFrom descs room (blockSize * 2) (descCnt + 1) m
      else .ok (descCnt, m)

def mallocInit (descs : Nat) (allocator : Allocator) : Except Panic Heap := do
  let (descCnt, m) ← mallocInitFrom descs 10 16 0 allocator.memory
  return { allocator := { allocator with memory := m }, descCnt := descCnt, held := [] }

def getPages (pageCnt : Nat) (h : Heap) : Except Panic (Nat × Heap) := do
  let (a, allocator) ← pallocGetMultiple ⟨false, false, false⟩ pageCnt h.allocator
  return (a, { h with
    allocator := allocator
    held := if a = 0 then h.held else ⟨a, pageCnt, false⟩ :: h.held })

def freePages (a pageCnt : Nat) (h : Heap) : Except Panic Heap := do
  let allocator ← pallocFreeMultiple a pageCnt h.allocator
  return { h with allocator := allocator, held := h.held.erase ⟨a, pageCnt, false⟩ }

def blockToArena (m : Memory) (b : Nat) : Except Panic Nat :=
  let a := pgRoundDown b
  if a = 0 then .error .assertion
  else if magic m a ≠ arenaMagic then .error .assertion
  else if ¬(descOf m a = 0 ∨
      (pgOfs b + 2 ^ 32 - arenaSize) % 2 ^ 32 % blockSizeOf m (descOf m a) = 0) then
    .error .assertion
  else if ¬(descOf m a ≠ 0 ∨ pgOfs b = arenaSize) then .error .assertion
  else .ok a

def arenaToBlock (m : Memory) (a idx : Nat) : Except Panic Nat :=
  if a = 0 then .error .assertion
  else if magic m a ≠ arenaMagic then .error .assertion
  else if ¬idx < blocksPerArena m (descOf m a) then .error .assertion
  else .ok (a + arenaSize + idx * blockSizeOf m (descOf m a))

def addBlock (d a : Nat) (m : Memory) (idx : Nat) : Except Panic Memory := do
  listPushBack m (freeList d) (← arenaToBlock m a idx)

def removeBlock (a : Nat) (m : Memory) (idx : Nat) : Except Panic Memory := do
  let (_, m) ← listRemove m (← arenaToBlock m a idx)
  return m

/-- Whether there is a page for a new arena, all of whose blocks go to the free list. -/
def newArena (d : Nat) (h : Heap) : Except Panic (Bool × Heap) := do
  let (a, h) ← getPages 1 h
  if a = 0 then return (false, h)
  else
    let m := setArena h.memory a d (blocksPerArena h.memory d)
    let m ← (List.range (blocksPerArena m d)).foldlM (addBlock d a) m
    return (true, h.setMemory m)

def takeBlock (d : Nat) (h : Heap) : Except Panic (Nat × Heap) := do
  let (b, m) ← listPopFront h.memory (freeList d)
  let a ← blockToArena m b
  return (b, h.setMemory (setFreeCnt m a ((freeCnt m a + 2 ^ 32 - 1) % 2 ^ 32)))

/-- The pages of a big block and of its header. -/
def pageCntOf (size : Nat) : Nat := (size + arenaSize + pgsize - 1) % 2 ^ 32 / pgsize

def bigBlock (size : Nat) (h : Heap) : Except Panic (Nat × Heap) := do
  let pageCnt := pageCntOf size
  let (a, h) ← getPages pageCnt h
  if a = 0 then return (0, h)
  else return (a + arenaSize, h.setMemory (setArena h.memory a 0 pageCnt))

/-- The smallest descriptor whose blocks have that size. -/
def findDesc (descs : Nat) (h : Heap) (size : Nat) : Option Nat :=
  (List.range h.descCnt).find? fun index => size ≤ blockSizeOf h.memory (descAt descs index)

/-- Returns the null pointer as 0. -/
def malloc (descs size : Nat) (h : Heap) : Except Panic (Nat × Heap) :=
  if size = 0 then .ok (0, h)
  else match findDesc descs h size with
  | none => bigBlock size h
  | some index => do
      let d := descAt descs index
      if ← listEmpty h.memory (freeList d) then do
        let (made, h) ← newArena d h
        if made then takeBlock d h else return (0, h)
      else takeBlock d h

def calloc (descs a b : Nat) (h : Heap) : Except Panic (Nat × Heap) :=
  let size := a * b % 2 ^ 32
  if size < a ∨ size < b then .ok (0, h)
  else do
    let (p, h) ← malloc descs size h
    if p ≠ 0 then return (p, h.setMemory (memset h.memory p 0 size))
    else return (p, h)

def blockSize (m : Memory) (block : Nat) : Except Panic Nat := do
  let a ← blockToArena m block
  let d := descOf m a
  return if d ≠ 0 then blockSizeOf m d
    else (pgsize * freeCnt m a + 2 ^ 32 - pgOfs block) % 2 ^ 32

/-- The part of `free` that puts a block on its free list. -/
def putBlock (m : Memory) (d a p : Nat) : Except Panic Memory := do
  let m := memset m p 0xcc (blockSizeOf m d)
  let m ← listPushFront m (freeList d) p
  return setFreeCnt m a ((freeCnt m a + 1) % 2 ^ 32)

def free (p : Nat) (h : Heap) : Except Panic Heap :=
  if p = 0 then .ok h
  else do
    let a ← blockToArena h.memory p
    let d := descOf h.memory a
    if d ≠ 0 then do
      let m ← putBlock h.memory d a p
      if blocksPerArena m d ≤ freeCnt m a then
        if freeCnt m a ≠ blocksPerArena m d then throw .assertion
        else do
          let m ← (List.range (blocksPerArena m d)).foldlM (removeBlock a) m
          freePages a 1 (h.setMemory m)
      else return h.setMemory m
    else freePages a (freeCnt h.memory a) h

def memcpy (m : Memory) (dst src size : Nat) : Memory := overwrite m dst (slice m src size)

def realloc (descs oldBlock newSize : Nat) (h : Heap) : Except Panic (Nat × Heap) :=
  if newSize = 0 then do
    let h ← free oldBlock h
    return (0, h)
  else do
    let (newBlock, h) ← malloc descs newSize h
    if oldBlock ≠ 0 ∧ newBlock ≠ 0 then do
      let oldSize ← blockSize h.memory oldBlock
      let minSize := min newSize oldSize
      let h ← free oldBlock (h.setMemory (memcpy h.memory newBlock oldBlock minSize))
      return (newBlock, h)
    else return (newBlock, h)

end UtSystems.Threads.Malloc

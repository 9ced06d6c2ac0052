import UtSystems.Userprog.PageDirectoryRuns

/-!
# Loading a segment

What `load` computes from a program header of type `PT_LOAD`, in the 32-bit arithmetic of the
source, and `load_segment` over the pages of memory. A call of `palloc_get_page` may fail and
otherwise returns a page that is not handed out; a call of `file_read` may deliver less than
it is asked for.
-/

namespace UtSystems.Userprog.SegmentLoading

open Lib.Bytes
open Threads.PageAllocator (Panic)
open Userprog.UserMemory hiding lookupPage pagedirGetPage pteCreateUser load
open Userprog.PageDirectories

set_option autoImplicit false

structure Phdr where
  pOffset : Word
  pVaddr : Word
  pFilesz : Word
  pMemsz : Word
  pFlags : Word

/-- An executable. The length of a file is an `off_t`. -/
structure ElfFile where
  content : List Byte
  small : content.length < 2 ^ 31

def fileLength (file : ElfFile) : Word := BitVec.ofNat 32 file.content.length

/-- `PGSIZE`, `PGMASK` and `PF_W`. -/
def pageSize : Word := 4096
def pgMask : Word := 0xfff
def pfW : Word := 2

def validateSegment (phdr : Phdr) (file : ElfFile) : Bool :=
  if phdr.pOffset &&& pgMask ≠ phdr.pVaddr &&& pgMask then false
  else if fileLength file < phdr.pOffset then false
  else if phdr.pMemsz < phdr.pFilesz then false
  else if phdr.pMemsz = 0 then false
  else if !isUserVaddr phdr.pVaddr then false
  else if !isUserVaddr (phdr.pVaddr + phdr.pMemsz) then false
  else if phdr.pVaddr + phdr.pMemsz < phdr.pVaddr then false
  else if phdr.pVaddr < pageSize then false
  else true

def roundUp (x step : Word) : Word := (x + step - 1) / step * step

/-- The arguments of `load_segment`. -/
structure Segment where
  ofs : Word
  upage : Addr
  readBytes : Word
  zeroBytes : Word
  writable : Bool

def pageOffset (phdr : Phdr) : Word := phdr.pVaddr &&& pgMask

def segmentOf (phdr : Phdr) : Segment where
  ofs := phdr.pOffset &&& ~~~pgMask
  upage := phdr.pVaddr &&& ~~~pgMask
  readBytes := if 0 < phdr.pFilesz then pageOffset phdr + phdr.pFilesz else 0
  zeroBytes :=
    if 0 < phdr.pFilesz then
      roundUp (pageOffset phdr + phdr.pMemsz) pageSize - (pageOffset phdr + phdr.pFilesz)
    else roundUp (pageOffset phdr + phdr.pMemsz) pageSize
  writable := phdr.pFlags &&& pfW ≠ 0

/-- The bytes of a page, and the words that hold them. -/
def pageByte (words : Index → Word) (ofs : Nat) : Byte :=
  wordByte (words ⟨ofs / 4 % 1024, Nat.mod_lt _ (by decide)⟩) (ofs % 4)

def pageWords (bytes : Nat → Byte) : Index → Word := fun index =>
  joinWord (bytes (4 * index.val)) (bytes (4 * index.val + 1)) (bytes (4 * index.val + 2))
    (bytes (4 * index.val + 3))

def copyTo (page : Addr) (ofs : Nat) (bytes : List Byte) (s : Store) : Store :=
  s.setPage page (pageWords (overwrite (pageByte (s.memory page)) ofs bytes))

/-- What the calls of `palloc_get_page` return, and how many bytes those of `file_read` deliver
at most. -/
structure Environment (k : Kernel) where
  palloc : Nat → Store → Option Addr
  fresh : ∀ call s page, palloc call s = some page → Fresh k s page
  delivered : Nat → Nat

variable {k : Kernel}

def fileRead (env : Environment k) (file : ElfFile) (call pos size : Nat) : List Byte :=
  ((file.content.drop pos).take size).take (env.delivered call)

/-- The variables of the loop of `load_segment`, with the position of the file and the memory. -/
structure Loading where
  upage : Addr
  readBytes : Word
  zeroBytes : Word
  pos : Nat
  turns : Nat
  store : Store

def pageReadBytes (l : Loading) : Word := if l.readBytes < pageSize then l.readBytes else pageSize

def pageZeroBytes (l : Loading) : Word := pageSize - pageReadBytes l

inductive Turn where
  | advanced (next : Loading)
  | failed (store : Store)

def giveBack (kpage : Addr) (s : Store) : Except Panic Turn := do
  return .failed (← pallocFreePage kpage s)

section Loop

variable (env : Environment k) (pd : Addr) (file : ElfFile) (writable : Bool)

/-- One turn of the loop of `load_segment`. -/
def loadPage (l : Loading) : Except Panic Turn := do
  match env.palloc (2 * l.turns) l.store with
  | none => return .failed l.store
  | some kpage =>
      let bytes := fileRead env file l.turns l.pos (pageReadBytes l).toNat
      let read := copyTo kpage 0 bytes (l.store.take kpage)
      if bytes.length ≠ (pageReadBytes l).toNat then giveBack kpage read
      else
        let cleared := copyTo kpage (pageReadBytes l).toNat
          (List.replicate (pageZeroBytes l).toNat 0) read
        match ← installPage k pd l.upage kpage writable (env.palloc (2 * l.turns + 1) cleared)
            cleared with
        | (false, next) => giveBack kpage next
        | (true, next) =>
            return .advanced
              { upage := l.upage + pageSize
                readBytes := l.readBytes - pageReadBytes l
                zeroBytes := l.zeroBytes - pageZeroBytes l
                pos := l.pos + bytes.length
                turns := l.turns + 1
                store := next }

def Finished (l : Loading) : Prop := ¬(0 < l.readBytes ∨ 0 < l.zeroBytes)

instance (l : Loading) : Decidable (Finished l) := inferInstanceAs (Decidable (¬_))

/-- The loop, for at most so many turns; `none` if it is not over then. -/
def loadLoop : Nat → Loading → Option (Except Panic (Bool × Store))
  | 0, l => if Finished l then some (.ok (true, l.store)) else none
  | rounds + 1, l =>
      if Finished l then some (.ok (true, l.store))
      else
        match loadPage env pd file writable l with
        | .error panic => some (.error panic)
        | .ok (.failed s) => some (.ok (false, s))
        | .ok (.advanced next) => loadLoop rounds next

/-- The states of the loop. -/
inductive Turns (start : Loading) : Loading → Prop where
  | start : Turns start start
  | turn {l next : Loading} (prior : Turns start l) (running : ¬Finished l)
      (turned : loadPage env pd file writable l = .ok (.advanced next)) : Turns start next

end Loop

/-- The assertions of `load_segment` and that of `file_seek`; the offset is an `off_t`. -/
def segmentAsserts (segment : Segment) : Except Panic Unit := do
  require ((segment.readBytes + segment.zeroBytes) % pageSize == 0)
  require (pgOfs segment.upage == 0)
  require (segment.ofs.toInt.tmod pgSize == 0)
  require (decide (0 ≤ segment.ofs.toInt))

def startOf (segment : Segment) (s : Store) : Loading where
  upage := segment.upage
  readBytes := segment.readBytes
  zeroBytes := segment.zeroBytes
  pos := segment.ofs.toNat
  turns := 0
  store := s

def loadSegment (env : Environment k) (pd : Addr) (file : ElfFile) (segment : Segment)
    (rounds : Nat) (s : Store) : Option (Except Panic (Bool × Store)) :=
  match segmentAsserts segment with
  | .error panic => some (.error panic)
  | .ok _ => loadLoop env pd file segment.writable rounds (startOf segment s)

section Headers

variable {phdr : Phdr} {file : ElfFile}

theorem and_mask (x : Word) : (x &&& pgMask).toNat = x.toNat % pgSize := by
  have mask : pgMask.toNat = 2 ^ 12 - 1 := rfl
  rw [BitVec.toNat_and, mask, Nat.and_two_pow_sub_one_eq_mod]
  rfl

theorem and_not_mask (x : Word) : (x &&& ~~~pgMask).toNat = x.toNat / pgSize * pgSize := by
  have shifted : x &&& ~~~pgMask = (x >>> 12) <<< 12 := by
    have bits : ∀ i : Fin 32, (~~~pgMask).getLsbD i.val = decide (12 ≤ i.val) := by decide
    apply BitVec.eq_of_getLsbD_eq
    intro i inside
    rw [BitVec.getLsbD_and, bits ⟨i, inside⟩, BitVec.getLsbD_shiftLeft, BitVec.getLsbD_ushiftRight]
    by_cases high : 12 ≤ i
    · rw [show 12 + (i - 12) = i by omega]
      simp [high, inside]
    · simp [high]
  have small := x.isLt
  rw [shifted, BitVec.toNat_shiftLeft, BitVec.toNat_ushiftRight, Nat.shiftRight_eq_div_pow,
    Nat.shiftLeft_eq]
  unfold pgSize
  omega

/-- What `validate_segment` has checked. -/
structure Accepted (phdr : Phdr) (file : ElfFile) : Prop where
  sameOffset : phdr.pOffset.toNat % pgSize = phdr.pVaddr.toNat % pgSize
  inFile : phdr.pOffset.toNat ≤ file.content.length
  enough : phdr.pFilesz.toNat ≤ phdr.pMemsz.toNat
  nonempty : 0 < phdr.pMemsz.toNat
  below : phdr.pVaddr.toNat + phdr.pMemsz.toNat < physBase
  above : pgSize ≤ phdr.pVaddr.toNat

theorem file_length_value (file : ElfFile) : (fileLength file).toNat = file.content.length := by
  have small := file.small
  unfold fileLength
  rw [BitVec.toNat_ofNat]
  omega

theorem accepted_of_validate (accepted : validateSegment phdr file = true) :
    Accepted phdr file := by
  unfold validateSegment at accepted
  split_ifs at accepted with apart outside short empty start end_ wraps low
  have same := congrArg BitVec.toNat (not_not.mp apart)
  rw [and_mask, and_mask] at same
  rw [BitVec.lt_def, file_length_value] at outside
  rw [BitVec.lt_def] at short wraps low
  have positive : phdr.pMemsz.toNat ≠ 0 := fun zero => empty (BitVec.eq_of_toNat_eq zero)
  simp only [Bool.not_eq_true, Bool.not_eq_false', isUserVaddr, decide_eq_true_eq] at start end_
  rw [BitVec.toNat_add] at end_ wraps
  have first := phdr.pVaddr.isLt
  have second := phdr.pMemsz.isLt
  have size : pageSize.toNat = pgSize := rfl
  rw [size] at low
  unfold physBase at *
  exact ⟨same, by omega, by omega, by omega, by unfold physBase; omega, by omega⟩

/-- The number of pages of the segment. -/
def pageCount (phdr : Phdr) : Nat :=
  (phdr.pVaddr.toNat % pgSize + phdr.pMemsz.toNat + (pgSize - 1)) / pgSize

/-- Nothing that `load` computes wraps around, and the pages end below `PHYS_BASE`. -/
structure Exact (phdr : Phdr) : Prop where
  region : (phdr.pVaddr + phdr.pMemsz).toNat = phdr.pVaddr.toNat + phdr.pMemsz.toNat
  fileSum : (pageOffset phdr + phdr.pFilesz).toNat =
    (pageOffset phdr).toNat + phdr.pFilesz.toNat
  memSum : (pageOffset phdr + phdr.pMemsz).toNat = (pageOffset phdr).toNat + phdr.pMemsz.toNat
  roundSum : (pageOffset phdr + phdr.pMemsz + pageSize).toNat =
    (pageOffset phdr + phdr.pMemsz).toNat + pageSize.toNat
  rounded : (roundUp (pageOffset phdr + phdr.pMemsz) pageSize).toNat = pageCount phdr * pgSize
  readBytes : (segmentOf phdr).readBytes.toNat =
    if 0 < phdr.pFilesz then (pageOffset phdr + phdr.pFilesz).toNat else 0
  difference : (segmentOf phdr).readBytes.toNat + (segmentOf phdr).zeroBytes.toNat =
    (roundUp (pageOffset phdr + phdr.pMemsz) pageSize).toNat
  total : ((segmentOf phdr).readBytes + (segmentOf phdr).zeroBytes).toNat =
    (segmentOf phdr).readBytes.toNat + (segmentOf phdr).zeroBytes.toNat
  pages : (segmentOf phdr).upage.toNat +
    ((segmentOf phdr).readBytes + (segmentOf phdr).zeroBytes).toNat ≤ physBase

theorem page_offset_value (phdr : Phdr) :
    (pageOffset phdr).toNat = phdr.pVaddr.toNat % pgSize := and_mask _

/-- The pages of the segment, up to `PHYS_BASE`. -/
theorem page_count_bounds (accepted : Accepted phdr file) :
    phdr.pVaddr.toNat % pgSize + phdr.pMemsz.toNat ≤ pageCount phdr * pgSize ∧
      pageCount phdr * pgSize < phdr.pVaddr.toNat % pgSize + phdr.pMemsz.toNat + pgSize ∧
      phdr.pVaddr.toNat / pgSize * pgSize + pageCount phdr * pgSize ≤ physBase := by
  have below := accepted.below
  unfold pageCount pgSize physBase at *
  omega

theorem add_exact {x y : Word} (fits : x.toNat + y.toNat < 2 ^ 32) :
    (x + y).toNat = x.toNat + y.toNat := by
  rw [BitVec.toNat_add, Nat.mod_eq_of_lt fits]

theorem exact_of_accepted (accepted : Accepted phdr file) : Exact phdr := by
  have offset := page_offset_value phdr
  have below := accepted.below
  have enough := accepted.enough
  have size : pageSize.toNat = pgSize := rfl
  have small : phdr.pVaddr.toNat % pgSize < pgSize := Nat.mod_lt _ (by decide)
  have within : phdr.pVaddr.toNat % pgSize ≤ phdr.pVaddr.toNat := Nat.mod_le _ _
  have page : pgSize = 4096 := rfl
  have base : physBase = 3221225472 := rfl
  obtain ⟨covers, tight, ends⟩ := page_count_bounds accepted
  have memSum : (pageOffset phdr + phdr.pMemsz).toNat =
      (pageOffset phdr).toNat + phdr.pMemsz.toNat := add_exact (by omega)
  have fileSum : (pageOffset phdr + phdr.pFilesz).toNat =
      (pageOffset phdr).toNat + phdr.pFilesz.toNat := add_exact (by omega)
  have roundSum : (pageOffset phdr + phdr.pMemsz + pageSize).toNat =
      (pageOffset phdr + phdr.pMemsz).toNat + pageSize.toNat := add_exact (by omega)
  have rounded : (roundUp (pageOffset phdr + phdr.pMemsz) pageSize).toNat =
      pageCount phdr * pgSize := by
    have less : (pageOffset phdr + phdr.pMemsz + pageSize - 1).toNat =
        phdr.pVaddr.toNat % pgSize + phdr.pMemsz.toNat + (pgSize - 1) := by
      rw [BitVec.toNat_sub, roundSum, memSum, offset, size]
      have one : (1 : Word).toNat = 1 := rfl
      omega
    unfold roundUp
    rw [BitVec.toNat_mul, BitVec.toNat_udiv, less, size]
    change pageCount phdr * pgSize % 2 ^ 32 = _
    exact Nat.mod_eq_of_lt (by omega)
  have readBytes : (segmentOf phdr).readBytes.toNat =
      if 0 < phdr.pFilesz then (pageOffset phdr + phdr.pFilesz).toNat else 0 := by
    unfold segmentOf
    dsimp only
    split <;> rfl
  have difference : (segmentOf phdr).readBytes.toNat + (segmentOf phdr).zeroBytes.toNat =
      (roundUp (pageOffset phdr + phdr.pMemsz) pageSize).toNat := by
    rw [readBytes]
    unfold segmentOf
    dsimp only
    split
    · rw [BitVec.toNat_sub, rounded, fileSum, offset]
      omega
    · exact Nat.zero_add _
  have total : ((segmentOf phdr).readBytes + (segmentOf phdr).zeroBytes).toNat =
      (segmentOf phdr).readBytes.toNat + (segmentOf phdr).zeroBytes.toNat :=
    add_exact (by rw [difference, rounded]; omega)
  refine ⟨add_exact (by omega), fileSum, memSum, roundSum, rounded, readBytes, difference, total, ?_⟩
  rw [total, difference, rounded]
  change (phdr.pVaddr &&& ~~~pgMask).toNat + _ ≤ _
  rw [and_not_mask]
  exact ends

/-- The assertions of `load_segment` hold. -/
theorem segment_asserts (accepted : Accepted phdr file) :
    segmentAsserts (segmentOf phdr) = .ok () := by
  have exact_ := exact_of_accepted accepted
  have inFile := accepted.inFile
  have small := file.small
  have ofs : (segmentOf phdr).ofs.toNat = phdr.pOffset.toNat / pgSize * pgSize := and_not_mask _
  have least : phdr.pOffset.toNat / pgSize * pgSize ≤ phdr.pOffset.toNat :=
    Nat.div_mul_le_self _ _
  have signed : (segmentOf phdr).ofs.toInt = (phdr.pOffset.toNat / pgSize * pgSize : Nat) := by
    rw [BitVec.toInt_eq_toNat_of_lt (by omega), ofs]
  have sum : ((segmentOf phdr).readBytes + (segmentOf phdr).zeroBytes) % pageSize = 0 := by
    apply BitVec.eq_of_toNat_eq
    rw [BitVec.toNat_umod, exact_.total, exact_.difference, exact_.rounded]
    exact Nat.mul_mod_left _ _
  have aligned : pgOfs (segmentOf phdr).upage = 0 := by
    change (phdr.pVaddr &&& ~~~pgMask).toNat % pgSize = 0
    rw [and_not_mask]
    exact Nat.mul_mod_left _ _
  have whole : (segmentOf phdr).ofs.toInt.tmod pgSize = 0 := by
    rw [signed, Int.tmod_eq_emod_of_nonneg (by omega)]
    exact Int.emod_eq_zero_of_dvd (Int.natCast_dvd_natCast.mpr (Nat.dvd_mul_left _ _))
  unfold segmentAsserts
  rw [require_true (beq_iff_eq.mpr sum), require_true (beq_iff_eq.mpr aligned),
    require_true (beq_iff_eq.mpr whole), require_true (decide_eq_true (by omega))]
  rfl

end Headers

end UtSystems.Userprog.SegmentLoading

import UtSystems.Lib.BitMasks
import UtSystems.Filesys.FreeMap

/-!
# Bits packed in words

The bitmap of `lib/kernel/bitmap.c` on the elements it keeps them in. `contents` is the array of
bits a bitmap stands for; the number of elements for `bitCnt` bits is a 32-bit sum, and an access
past the elements there are ends the computation.
-/

namespace UtSystems.Libc.PackedBits

open Lib.Bytes Lib.BitMasks Filesys.Volume
open Filesys
open Filesys.FreeMap (fileReadAt fileWriteAt)

set_option autoImplicit false

inductive Fault where
  | assertion
  -- an element past the ones there is memory for
  | overrun
deriving DecidableEq, Repr

/-- `struct bitmap` with the elements there is memory for at `bits`. -/
structure Bitmap where
  bitCnt : Word
  bits : List Word
deriving DecidableEq, Repr

def elemIdx (bitIdx : Word) : Word := bitIdx / 32

def bitMask (bitIdx : Word) : Word := oneBit (bitIdx % 32).toNat

/-- `DIV_ROUND_UP (bit_cnt, ELEM_BITS)`. -/
def elemCnt (bitCnt : Word) : Word := (bitCnt + 32 - 1) / 32

def byteCnt (bitCnt : Word) : Word := 4 * elemCnt bitCnt

def lastMask (b : Bitmap) : Word :=
  let lastBits := b.bitCnt % 32
  if lastBits ≠ 0 then bitsBelow lastBits.toNat else -1

def bitmapBufSize (bitCnt : Word) : Word := 8 + byteCnt bitCnt

def changeElem (b : Bitmap) (idx : Word) (change : Word → Word) : Except Fault Bitmap :=
  match b.bits[idx.toNat]? with
  | some elem => .ok { b with bits := b.bits.set idx.toNat (change elem) }
  | none => .error .overrun

def bitmapMark (b : Bitmap) (bitIdx : Word) : Except Fault Bitmap :=
  changeElem b (elemIdx bitIdx) fun elem => elem ||| bitMask bitIdx

def bitmapReset (b : Bitmap) (bitIdx : Word) : Except Fault Bitmap :=
  changeElem b (elemIdx bitIdx) fun elem => elem &&& ~~~bitMask bitIdx

def bitmapFlip (b : Bitmap) (bitIdx : Word) : Except Fault Bitmap :=
  changeElem b (elemIdx bitIdx) fun elem => elem ^^^ bitMask bitIdx

def bitmapSet (b : Bitmap) (idx : Word) (value : Bool) : Except Fault Bitmap :=
  if idx < b.bitCnt then
    if value then bitmapMark b idx else bitmapReset b idx
  else .error .assertion

def bitmapTest (b : Bitmap) (idx : Word) : Except Fault Bool :=
  if idx < b.bitCnt then
    match b.bits[(elemIdx idx).toNat]? with
    | some elem => .ok (elem &&& bitMask idx ≠ 0)
    | none => .error .overrun
  else .error .assertion

/-- The assertions of the functions on `cnt` bits from `start` on. -/
def inRange (b : Bitmap) (start cnt : Word) : Bool :=
  start ≤ b.bitCnt && start + cnt ≤ b.bitCnt

/-- The values of `i` in a loop to `cnt`. -/
def indexes (cnt : Word) : List Word := (List.range cnt.toNat).map (BitVec.ofNat 32)

def bitmapSetMultiple (b : Bitmap) (start cnt : Word) (value : Bool) : Except Fault Bitmap :=
  if inRange b start cnt then
    (indexes cnt).foldlM (fun b i => bitmapSet b (start + i) value) b
  else .error .assertion

def bitmapSetAll (b : Bitmap) (value : Bool) : Except Fault Bitmap :=
  bitmapSetMultiple b 0 b.bitCnt value

def bitmapCount (b : Bitmap) (start cnt : Word) (value : Bool) : Except Fault Word :=
  if inRange b start cnt then
    (indexes cnt).foldlM (fun valueCnt i => do
      return if (← bitmapTest b (start + i)) = value then valueCnt + 1 else valueCnt) 0
  else .error .assertion

def bitmapContains (b : Bitmap) (start cnt : Word) (value : Bool) : Except Fault Bool :=
  if inRange b start cnt then
    (indexes cnt).anyM fun i => do return (← bitmapTest b (start + i)) == value
  else .error .assertion

/-- `BITMAP_ERROR`. -/
def bitmapError : Word := -1

/-- The loop over the starts that are left. -/
def scanLoop (b : Bitmap) (cnt : Word) (value : Bool) : List Word → Except Fault Word
  | [] => .ok bitmapError
  | i :: rest => do
      if !(← bitmapContains b i cnt !value) then .ok i else scanLoop b cnt value rest

def bitmapScan (b : Bitmap) (start cnt : Word) (value : Bool) : Except Fault Word :=
  if start ≤ b.bitCnt then
    if cnt ≤ b.bitCnt then
      let last := b.bitCnt - cnt
      scanLoop b cnt value
        ((List.range' start.toNat (last.toNat + 1 - start.toNat)).map (BitVec.ofNat 32))
    else .ok bitmapError
  else .error .assertion

def bitmapScanAndFlip (b : Bitmap) (start cnt : Word) (value : Bool) :
    Except Fault (Word × Bitmap) := do
  let idx ← bitmapScan b start cnt value
  if idx ≠ bitmapError then return (idx, ← bitmapSetMultiple b idx cnt !value)
  else return (idx, b)

/-- The bytes of the elements. -/
def bitsBytes (bits : List Word) (index : Nat) : Byte :=
  wordByte (bits.getD (index / 4) 0) (index % 4)

/-- The elements after bytes have been stored over their first ones. -/
def storeBytes (bits : List Word) (bytes : List Byte) : Except Fault (List Word) :=
  if bytes.length ≤ 4 * bits.length then
    let byte := overwrite (bitsBytes bits) 0 bytes
    .ok ((List.range bits.length).map fun k =>
      joinWord (byte (4 * k)) (byte (4 * k + 1)) (byte (4 * k + 2)) (byte (4 * k + 3)))
  else .error .overrun

def bitmapRead (b : Bitmap) (file : Ptr) : FsM (Except Fault (Bool × Bitmap)) := do
  if 0 < b.bitCnt then
    let size := byteCnt b.bitCnt
    let bytes ← fileReadAt file size.toInt 0
    return do
      let bits ← storeBytes b.bits bytes
      let read ← changeElem { b with bits := bits } (elemCnt b.bitCnt - 1) (· &&& lastMask b)
      return (((bytes.length : Int) = size.toInt), read)
  else return .ok (true, b)

def bitmapWrite (b : Bitmap) (file : Ptr) : FsM Bool := do
  let size := byteCnt b.bitCnt
  return ((← fileWriteAt file (bitsBytes b.bits) size.toInt 0) : Int) = size.toInt

/-- Over a block whose elements are these. -/
def bitmapCreateInBuf (bitCnt : Word) (elements : List Word) (blockSize : Word) :
    Except Fault Bitmap :=
  if bitmapBufSize bitCnt ≤ blockSize then bitmapSetAll ⟨bitCnt, elements⟩ false
  else .error .assertion

/-! ## The array of bits -/

def contents (b : Bitmap) : List Bool :=
  (List.range b.bitCnt.toNat).map fun idx => (b.bits.getD (idx / 32) 0).getLsbD (idx % 32)

/-- The elements `bitmap_buf_size` asks for are there. -/
def Stored (b : Bitmap) : Prop := (elemCnt b.bitCnt).toNat ≤ b.bits.length

/-- The number of elements does not wrap. -/
def Roundable (bitCnt : Word) : Prop := bitCnt.toNat ≤ 2 ^ 32 - 32

/-- `after` is the same bitmap with these bits. -/
structure Becomes (b after : Bitmap) (bits : List Bool) : Prop where
  size : after.bitCnt = b.bitCnt
  stored : Stored after
  holds : contents after = bits

section Words

variable {b : Bitmap} {idx bitCnt : Word}

theorem elem_cnt_to_nat (roundable : Roundable bitCnt) :
    (elemCnt bitCnt).toNat = (bitCnt.toNat + 31) / 32 := by
  unfold Roundable at roundable
  unfold elemCnt
  rw [BitVec.toNat_udiv, BitVec.toNat_sub, BitVec.toNat_add]
  have size : (32 : Word).toNat = 32 := rfl
  have one : (1 : Word).toNat = 1 := rfl
  rw [size, one]
  omega

theorem byte_cnt_to_nat (roundable : Roundable bitCnt) :
    (byteCnt bitCnt).toNat = 4 * ((bitCnt.toNat + 31) / 32) := by
  unfold byteCnt
  rw [BitVec.toNat_mul, elem_cnt_to_nat roundable]
  have four : (4 : Word).toNat = 4 := rfl
  unfold Roundable at roundable
  rw [four]
  omega

theorem elem_idx_to_nat (bitIdx : Word) : (elemIdx bitIdx).toNat = bitIdx.toNat / 32 :=
  BitVec.toNat_udiv

theorem bit_place (bitIdx : Word) : (bitIdx % 32).toNat = bitIdx.toNat % 32 := BitVec.toNat_umod

/-- The element of a bit of the bitmap is there. -/
theorem elem_idx_inside (roundable : Roundable b.bitCnt) (stored : Stored b)
    (inside : idx < b.bitCnt) : (elemIdx idx).toNat < b.bits.length := by
  unfold Stored at stored
  rw [elem_cnt_to_nat roundable] at stored
  rw [elem_idx_to_nat]
  have below : idx.toNat < b.bitCnt.toNat := inside
  omega

@[simp] theorem contents_length : (contents b).length = b.bitCnt.toNat := by simp [contents]

theorem contents_get (i : Nat) :
    (contents b)[i]? =
      if i < b.bitCnt.toNat then some ((b.bits.getD (i / 32) 0).getLsbD (i % 32)) else none := by
  unfold contents
  split
  · next inside => simp [inside]
  · next outside => simp [Nat.le_of_not_lt outside]

/-- A change of one bit of its element changes that bit of the array. -/
theorem change_elem_becomes (roundable : Roundable b.bitCnt) (stored : Stored b)
    (inside : idx < b.bitCnt) {change : Word → Word} {bit : Bool → Bool}
    (changes : ∀ word other, other < 32 → (change word).getLsbD other =
      if other = idx.toNat % 32 then bit (word.getLsbD other) else word.getLsbD other) :
    ∃ after, changeElem b (elemIdx idx) change = .ok after ∧
      Becomes b after ((contents b).modify idx.toNat bit) := by
  have there := elem_idx_inside roundable stored inside
  refine ⟨⟨b.bitCnt, b.bits.set (elemIdx idx).toNat (change b.bits[(elemIdx idx).toNat])⟩, ?_, ?_⟩
  · unfold changeElem
    rw [List.getElem?_eq_getElem there]
  · refine ⟨rfl, ?_, ?_⟩
    · unfold Stored at stored ⊢
      rw [List.length_set]
      exact stored
    · apply List.ext_getElem?
      intro i
      rw [List.getElem?_modify, contents_get, contents_get]
      by_cases within : i < b.bitCnt.toNat
      · rw [if_pos within, if_pos within, List.getD_eq_getElem?_getD, List.getElem?_set]
        by_cases element : (elemIdx idx).toNat = i / 32
        · rw [if_pos element, if_pos there, Option.getD_some,
            changes _ _ (Nat.mod_lt i (by decide))]
          have word : b.bits[(elemIdx idx).toNat] = b.bits.getD (i / 32) 0 := by
            rw [List.getD_eq_getElem?_getD, ← element, List.getElem?_eq_getElem there,
              Option.getD_some]
          rw [word]
          rw [elem_idx_to_nat] at element
          by_cases same : idx.toNat = i
          · rw [if_pos (by rw [same])]
            exact congrArg some (if_pos same).symm
          · rw [if_neg (by omega)]
            exact congrArg some (if_neg same).symm
        · have other : idx.toNat ≠ i := by
            intro same
            rw [elem_idx_to_nat, same] at element
            exact element rfl
          rw [if_neg element, List.getD_eq_getElem?_getD]
          exact congrArg some (if_neg other).symm
      · rw [if_neg within, if_neg within]
        simp

theorem bitmap_mark_becomes (roundable : Roundable b.bitCnt) (stored : Stored b)
    (inside : idx < b.bitCnt) :
    ∃ after, bitmapMark b idx = .ok after ∧
      Becomes b after ((contents b).modify idx.toNat fun _ => true) := by
  apply change_elem_becomes roundable stored inside
  intro word other small
  unfold bitMask
  rw [bit_place, or_bit_get (Nat.mod_lt _ (by decide))]

theorem bitmap_reset_becomes (roundable : Roundable b.bitCnt) (stored : Stored b)
    (inside : idx < b.bitCnt) :
    ∃ after, bitmapReset b idx = .ok after ∧
      Becomes b after ((contents b).modify idx.toNat fun _ => false) := by
  apply change_elem_becomes roundable stored inside
  intro word other small
  unfold bitMask
  rw [bit_place, and_not_bit_get (Nat.mod_lt _ (by decide)) small]

theorem bitmap_flip_becomes (roundable : Roundable b.bitCnt) (stored : Stored b)
    (inside : idx < b.bitCnt) :
    ∃ after, bitmapFlip b idx = .ok after ∧
      Becomes b after ((contents b).modify idx.toNat not) := by
  apply change_elem_becomes roundable stored inside
  intro word other small
  unfold bitMask
  rw [bit_place, xor_bit_get (Nat.mod_lt _ (by decide))]

theorem bitmap_set_becomes (roundable : Roundable b.bitCnt) (stored : Stored b)
    (inside : idx < b.bitCnt) (value : Bool) :
    ∃ after, bitmapSet b idx value = .ok after ∧
      Becomes b after ((contents b).set idx.toNat value) := by
  unfold bitmapSet
  rw [if_pos inside, List.set_eq_modify]
  cases value with
  | true => exact bitmap_mark_becomes roundable stored inside
  | false => exact bitmap_reset_becomes roundable stored inside

theorem bitmap_test_ok (roundable : Roundable b.bitCnt) (stored : Stored b)
    (inside : idx < b.bitCnt) :
    bitmapTest b idx = .ok ((contents b).getD idx.toNat false) := by
  have there := elem_idx_inside roundable stored inside
  have within : idx.toNat < b.bitCnt.toNat := inside
  unfold bitmapTest bitMask
  rw [if_pos inside, List.getElem?_eq_getElem there]
  apply congrArg Except.ok
  rw [and_bit_ne_zero (bit_place idx ▸ Nat.mod_lt _ (by decide)), bit_place,
    List.getD_eq_getElem?_getD, contents_get, if_pos within, Option.getD_some,
    List.getD_eq_getElem?_getD, ← elem_idx_to_nat, List.getElem?_eq_getElem there]
  rfl

end Words

section Loops

variable {α σ : Type}

theorem fold_ok {body : σ → α → Except Fault σ} {next : σ → α → σ} {items : List α} (state : σ)
    (each : ∀ state, ∀ item ∈ items, body state item = .ok (next state item)) :
    items.foldlM body state = .ok (items.foldl next state) := by
  induction items generalizing state with
  | nil => rfl
  | cons item rest ih =>
      rw [List.foldlM_cons, each state item List.mem_cons_self]
      exact ih _ fun state other member => each state other (List.mem_cons_of_mem item member)

theorem any_ok {test : α → Except Fault Bool} {holds : α → Bool} {items : List α}
    (each : ∀ item ∈ items, test item = .ok (holds item)) :
    items.anyM test = .ok (items.any holds) := by
  induction items with
  | nil => rfl
  | cons item rest ih =>
      rw [List.anyM, each item List.mem_cons_self, List.any_cons]
      cases holds item with
      | true => rfl
      | false => exact ih fun other member => each other (List.mem_cons_of_mem item member)

end Loops

/-- `cnt` bits from `start` on lie in the bitmap. -/
def Inside (bitCnt start cnt : Word) : Prop := start.toNat + cnt.toNat ≤ bitCnt.toNat

/-- What the array holds there. -/
def run (bits : List Bool) (start cnt : Nat) : List Bool := (bits.drop start).take cnt

section Ranges

variable {b : Bitmap} {start cnt : Word} {value : Bool}

theorem in_range_of_inside (inside : Inside b.bitCnt start cnt) : inRange b start cnt = true := by
  unfold Inside at inside
  have bound := b.bitCnt.isLt
  unfold inRange
  rw [Bool.and_eq_true, decide_eq_true_eq, decide_eq_true_eq, BitVec.le_def, BitVec.le_def,
    BitVec.toNat_add]
  omega

theorem index_to_nat (inside : Inside b.bitCnt start cnt) {i : Nat} (below : i < cnt.toNat) :
    (start + BitVec.ofNat 32 i).toNat = start.toNat + i := by
  unfold Inside at inside
  have bound := b.bitCnt.isLt
  rw [BitVec.toNat_add, BitVec.toNat_ofNat]
  omega

theorem index_inside (inside : Inside b.bitCnt start cnt) {i : Nat} (below : i < cnt.toNat) :
    start + BitVec.ofNat 32 i < b.bitCnt := by
  have value := index_to_nat inside below
  unfold Inside at inside
  rw [BitVec.lt_def]
  omega

theorem run_eq_map {bits : List Bool} {start cnt : Nat} (fits : start + cnt ≤ bits.length) :
    run bits start cnt = (List.range cnt).map fun i => bits.getD (start + i) false := by
  apply List.ext_getElem?
  intro i
  unfold run
  by_cases inside : i < cnt
  · rw [List.getElem?_take_of_lt inside, List.getElem?_drop, List.getElem?_map,
      List.getElem?_range inside, Option.map_some, List.getD_eq_getElem?_getD,
      List.getElem?_eq_getElem (show start + i < bits.length by omega), Option.getD_some]
  · rw [List.getElem?_take_eq_none (by omega), List.getElem?_eq_none (by simp; omega)]

/-- The bits that are tested by a loop over a run. -/
theorem run_contents (inside : Inside b.bitCnt start cnt) :
    run (contents b) start.toNat cnt.toNat =
      (indexes cnt).map fun i => (contents b).getD (start + i).toNat false := by
  rw [run_eq_map (by rw [contents_length]; exact inside), indexes, List.map_map]
  apply List.map_congr_left
  intro i member
  rw [Function.comp_apply, index_to_nat inside (List.mem_range.mp member)]

theorem indexes_test_ok (roundable : Roundable b.bitCnt) (stored : Stored b)
    (inside : Inside b.bitCnt start cnt) {i : Word} (member : i ∈ indexes cnt) :
    bitmapTest b (start + i) = .ok ((contents b).getD (start + i).toNat false) := by
  obtain ⟨index, below, rfl⟩ := List.mem_map.mp member
  exact bitmap_test_ok roundable stored (index_inside inside (List.mem_range.mp below))

theorem bitmap_contains_ok (roundable : Roundable b.bitCnt) (stored : Stored b)
    (inside : Inside b.bitCnt start cnt) :
    bitmapContains b start cnt value =
      .ok ((run (contents b) start.toNat cnt.toNat).contains value) := by
  unfold bitmapContains
  rw [if_pos (in_range_of_inside inside)]
  rw [@any_ok _ _ (fun i => (contents b).getD (start + i).toNat false == value)]
  · rw [run_contents inside, List.contains_eq_any_beq, List.any_map]
    congr 2
    funext i
    exact Bool.beq_comm
  · intro i member
    rw [indexes_test_ok roundable stored inside member]
    rfl

theorem fold_count (items : List Bool) (value : Bool) (valueCnt : Word) :
    items.foldl (fun valueCnt bit => if bit = value then valueCnt + 1 else valueCnt) valueCnt =
      valueCnt + BitVec.ofNat 32 (items.count value) := by
  induction items generalizing valueCnt with
  | nil => exact (BitVec.add_zero valueCnt).symm
  | cons bit rest ih =>
      rw [List.foldl_cons, ih]
      by_cases same : bit = value
      · rw [if_pos same, same, List.count_cons_self, Nat.add_comm, BitVec.ofNat_add,
          ← BitVec.add_assoc]
        rfl
      · rw [if_neg same, List.count_cons_of_ne same]

theorem bitmap_count_ok (roundable : Roundable b.bitCnt) (stored : Stored b)
    (inside : Inside b.bitCnt start cnt) :
    bitmapCount b start cnt value =
      .ok (BitVec.ofNat 32 ((run (contents b) start.toNat cnt.toNat).count value)) := by
  unfold bitmapCount
  rw [if_pos (in_range_of_inside inside)]
  rw [@fold_ok _ _ _ (fun valueCnt i =>
    if (contents b).getD (start + i).toNat false = value then valueCnt + 1 else valueCnt)]
  · have counted := fold_count (run (contents b) start.toNat cnt.toNat) value 0
    rw [run_contents inside, List.foldl_map] at counted
    rw [counted, run_contents inside]
    exact congrArg Except.ok (BitVec.zero_add _)
  · intro valueCnt i member
    rw [indexes_test_ok roundable stored inside member]
    rfl

theorem set_loop_becomes (roundable : Roundable b.bitCnt) (stored : Stored b)
    (inside : Inside b.bitCnt start cnt) (value : Bool) {rounds : Nat} (few : rounds ≤ cnt.toNat) :
    ∃ after, ((List.range rounds).map (BitVec.ofNat 32)).foldlM
        (fun b i => bitmapSet b (start + i) value) b = .ok after ∧
      Becomes b after (FreeMap.bitmapSetMultiple (contents b) start.toNat rounds value) := by
  induction rounds with
  | zero =>
      refine ⟨b, rfl, rfl, stored, ?_⟩
      simp [FreeMap.bitmapSetMultiple, splice]
  | succ rounds ih =>
      obtain ⟨before, ran, size, storedBefore, holds⟩ := ih (by omega)
      have fits : start.toNat + (rounds + 1) ≤ (contents b).length := by
        unfold Inside at inside
        rw [contents_length]
        omega
      have within := index_inside inside few
      rw [← size] at within roundable
      obtain ⟨after, set, sizeAfter, storedAfter, holdsAfter⟩ :=
        bitmap_set_becomes roundable storedBefore within value
      refine ⟨after, ?_, sizeAfter.trans size, storedAfter, ?_⟩
      · rw [List.range_succ, List.map_append, List.foldlM_append, ran]
        exact (congrArg (· >>= pure) set)
      · rw [holdsAfter, holds, index_to_nat inside few]
        apply FreeMap.bitmap_ext
        · rw [List.length_set, FreeMap.bitmap_set_multiple_length (by omega),
            FreeMap.bitmap_set_multiple_length fits]
        · intro idx
          rw [FreeMap.bitmap_set_multiple_test fits]
          unfold FreeMap.bitmapTest
          rw [List.getD_eq_getElem?_getD, List.getElem?_set,
            FreeMap.bitmap_set_multiple_length (by omega)]
          by_cases last : start.toNat + rounds = idx
          · rw [if_pos last, if_pos (by omega), if_pos (by omega)]
            rfl
          · have earlier := @FreeMap.bitmap_set_multiple_test (contents b) start.toNat rounds value
              (by omega) idx
            unfold FreeMap.bitmapTest at earlier
            rw [if_neg last, ← List.getD_eq_getElem?_getD, earlier]
            congr 1
            apply propext
            omega

theorem bitmap_set_multiple_becomes (roundable : Roundable b.bitCnt) (stored : Stored b)
    (inside : Inside b.bitCnt start cnt) (value : Bool) :
    ∃ after, bitmapSetMultiple b start cnt value = .ok after ∧
      Becomes b after (FreeMap.bitmapSetMultiple (contents b) start.toNat cnt.toNat value) := by
  unfold bitmapSetMultiple
  rw [if_pos (in_range_of_inside inside)]
  exact set_loop_becomes roundable stored inside value (Nat.le_refl _)

theorem bitmap_set_all_becomes (roundable : Roundable b.bitCnt) (stored : Stored b) (value : Bool) :
    ∃ after, bitmapSetAll b value = .ok after ∧
      Becomes b after (List.replicate b.bitCnt.toNat value) := by
  have inside : Inside b.bitCnt 0 b.bitCnt := Nat.le_of_eq (Nat.zero_add _)
  obtain ⟨after, ran, size, storedAfter, holds⟩ :=
    bitmap_set_multiple_becomes roundable stored inside value
  refine ⟨after, ran, size, storedAfter, holds.trans ?_⟩
  have whole : (contents b).drop b.bitCnt.toNat = [] :=
    List.drop_eq_nil_of_le (Nat.le_of_eq contents_length)
  have none_ : (0 : Word).toNat = 0 := rfl
  unfold FreeMap.bitmapSetMultiple splice
  rw [List.length_replicate, none_, List.take_zero, List.nil_append, Nat.zero_add, whole,
    List.append_nil]

end Ranges

end UtSystems.Libc.PackedBits

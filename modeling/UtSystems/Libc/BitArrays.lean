import UtSystems.Libc.PackedBits

/-!
# A bitmap is an array of bits

What the scans find, what is read back of what was written, and every sequence of changes, for
every number of bits whose elements can be counted in 32 bits.
-/

namespace UtSystems.Libc.BitArrays

open Lib.Bytes Lib.BitMasks Lib.Effects
open Filesys
open Filesys.Volume Filesys.InodeData Libc.PackedBits

set_option autoImplicit false

/-- `cnt` bits from `i` on are all `value`, at or after `start`. -/
structure Group (bits : List Bool) (start cnt : Nat) (value : Bool) (i : Nat) : Prop where
  after : start ≤ i
  fits : i + cnt ≤ bits.length
  all : run bits i cnt = List.replicate cnt value

/-- The result of a scan: the least start of a group, or the error when there is none. -/
structure Scanned (bits : List Bool) (start cnt : Nat) (value : Bool) (idx : Word) : Prop where
  missing : idx = bitmapError ↔ ∀ i, ¬Group bits start cnt value i
  found : idx ≠ bitmapError → Group bits start cnt value idx.toNat
  least : ∀ i < idx.toNat, ¬Group bits start cnt value i

section Scans

variable {b : Bitmap} {start cnt : Word} {value : Bool}

theorem run_length {bits : List Bool} {i cnt : Nat} (fits : i + cnt ≤ bits.length) :
    (run bits i cnt).length = cnt := by
  unfold run
  rw [List.length_take, List.length_drop]
  omega

theorem run_all_iff {bits : List Bool} {i cnt : Nat} (fits : i + cnt ≤ bits.length) :
    (run bits i cnt).contains (!value) = false ↔ run bits i cnt = List.replicate cnt value := by
  rw [List.eq_replicate_iff, run_length fits, ← Bool.not_eq_true, List.contains_iff_mem]
  constructor
  · intro absent
    refine ⟨rfl, ?_⟩
    intro bit member
    by_contra other
    rw [Bool.eq_not_of_ne other] at member
    exact absent member
  · intro ⟨_, all⟩ member
    have same := all _ member
    simp at same

/-- The loop over `count` starts from `first` on. -/
theorem scan_loop_ok (roundable : Roundable b.bitCnt) (stored : Stored b) (first count : Nat)
    (within : first + count + cnt.toNat ≤ b.bitCnt.toNat + 1) :
    ∃ idx, scanLoop b cnt value ((List.range' first count).map (BitVec.ofNat 32)) = .ok idx ∧
      ((idx = bitmapError ∧
          ∀ i, first ≤ i → i < first + count →
            run (contents b) i cnt.toNat ≠ List.replicate cnt.toNat value) ∨
        (first ≤ idx.toNat ∧ idx.toNat < first + count ∧
          run (contents b) idx.toNat cnt.toNat = List.replicate cnt.toNat value ∧
          ∀ i, first ≤ i → i < idx.toNat →
            run (contents b) i cnt.toNat ≠ List.replicate cnt.toNat value)) := by
  induction count generalizing first with
  | zero => exact ⟨bitmapError, rfl, .inl ⟨rfl, fun i lower upper => by omega⟩⟩
  | succ count ih =>
      have small : (BitVec.ofNat 32 first).toNat = first := by
        have bound := b.bitCnt.isLt
        unfold Roundable at roundable
        rw [BitVec.toNat_ofNat]
        omega
      have inside : Inside b.bitCnt (BitVec.ofNat 32 first) cnt := by
        unfold Inside
        omega
      have here := @run_all_iff value (contents b) first cnt.toNat (by
        rw [contents_length]
        omega)
      have tested := @bitmap_contains_ok b (BitVec.ofNat 32 first) cnt (!value) roundable stored
        inside
      rw [small] at tested
      rw [List.range'_succ, List.map_cons, scanLoop, tested]
      by_cases all : run (contents b) first cnt.toNat = List.replicate cnt.toNat value
      · refine ⟨BitVec.ofNat 32 first, ?_, .inr ?_⟩
        · rw [here.mpr all]
          rfl
        · rw [small]
          exact ⟨Nat.le_refl _, by omega, all, fun i lower upper => by omega⟩
      · obtain ⟨idx, ran, result⟩ := ih (first + 1) (by omega)
        refine ⟨idx, ?_, ?_⟩
        · have other : (run (contents b) first cnt.toNat).contains (!value) = true := by
            rw [← Bool.not_eq_false]
            exact fun none_ => all (here.mp none_)
          rw [other]
          exact ran
        · have earlier : ∀ i, first ≤ i → (first + 1 ≤ i →
              run (contents b) i cnt.toNat ≠ List.replicate cnt.toNat value) →
              run (contents b) i cnt.toNat ≠ List.replicate cnt.toNat value := by
            intro i lower later
            by_cases same : i = first
            · rw [same]
              exact all
            · exact later (by omega)
          cases result with
          | inl missing =>
              refine .inl ⟨missing.1, ?_⟩
              intro i lower upper
              exact earlier i lower fun next => missing.2 i next (by omega)
          | inr found =>
              refine .inr ⟨by omega, by omega, found.2.2.1, ?_⟩
              intro i lower upper
              exact earlier i lower fun next => found.2.2.2 i next upper

theorem bitmap_scan_ok (roundable : Roundable b.bitCnt) (stored : Stored b)
    (inside : start ≤ b.bitCnt) :
    ∃ idx, bitmapScan b start cnt value = .ok idx ∧
      Scanned (contents b) start.toNat cnt.toNat value idx := by
  have error : bitmapError.toNat = 2 ^ 32 - 1 := rfl
  have small : b.bitCnt.toNat ≤ 2 ^ 32 - 32 := roundable
  have below : ∀ i, Group (contents b) start.toNat cnt.toNat value i → i ≤ b.bitCnt.toNat := by
    intro i group
    have fits := group.fits
    rw [contents_length] at fits
    omega
  unfold bitmapScan
  rw [if_pos inside]
  by_cases enough : cnt ≤ b.bitCnt
  · have last : (b.bitCnt - cnt).toNat = b.bitCnt.toNat - cnt.toNat :=
      BitVec.toNat_sub_of_le enough
    have order : cnt.toNat ≤ b.bitCnt.toNat := enough
    have startOrder : start.toNat ≤ b.bitCnt.toNat := inside
    rw [if_pos enough]
    by_cases late : b.bitCnt.toNat - cnt.toNat < start.toNat
    · have none_ : ∀ i, ¬Group (contents b) start.toNat cnt.toNat value i := by
        intro i group
        have fits := group.fits
        have after := group.after
        rw [contents_length] at fits
        omega
      refine ⟨bitmapError, ?_, ⟨fun _ => none_, fun _ => rfl⟩, fun other => absurd rfl other,
        fun i _ => none_ i⟩
      have empty : (b.bitCnt - cnt).toNat + 1 - start.toNat = 0 := by omega
      simp only [empty]
      rfl
    · obtain ⟨idx, ran, result⟩ := @scan_loop_ok b cnt value roundable stored start.toNat
        ((b.bitCnt - cnt).toNat + 1 - start.toNat) (by omega)
      refine ⟨idx, ran, ?_⟩
      cases result with
      | inl missing =>
          have none_ : ∀ i, ¬Group (contents b) start.toNat cnt.toNat value i := by
            intro i group
            have fits := group.fits
            have after := group.after
            rw [contents_length] at fits
            exact missing.2 i after (by omega) group.all
          exact ⟨⟨fun _ => none_, fun _ => missing.1⟩, fun other => absurd missing.1 other,
            fun i _ => none_ i⟩
      | inr found =>
          have group : Group (contents b) start.toNat cnt.toNat value idx.toNat := by
            refine ⟨found.1, ?_, found.2.2.1⟩
            rw [contents_length]
            omega
          refine ⟨⟨?_, fun none_ => absurd group (none_ _)⟩, fun _ => group, ?_⟩
          · intro same
            have bound := below _ group
            rw [same, error] at bound
            omega
          · intro i early other
            exact found.2.2.2 i other.after early other.all
  · rw [if_neg enough]
    have none_ : ∀ i, ¬Group (contents b) start.toNat cnt.toNat value i := by
      intro i group
      have fits := group.fits
      rw [contents_length] at fits
      exact enough (BitVec.le_def.mpr (by omega))
    exact ⟨bitmapError, rfl, ⟨fun _ => none_, fun _ => rfl⟩, fun other => absurd rfl other,
      fun i _ => none_ i⟩

/-- Where a group is found it is flipped, and nothing else. -/
theorem bitmap_scan_and_flip_ok (roundable : Roundable b.bitCnt) (stored : Stored b)
    (inside : start ≤ b.bitCnt) :
    ∃ idx after, bitmapScanAndFlip b start cnt value = .ok (idx, after) ∧
      Scanned (contents b) start.toNat cnt.toNat value idx ∧
      Becomes b after (if idx = bitmapError then contents b
        else FreeMap.bitmapSetMultiple (contents b) idx.toNat cnt.toNat !value) := by
  obtain ⟨idx, ran, scanned⟩ := @bitmap_scan_ok b start cnt value roundable stored inside
  unfold bitmapScanAndFlip
  rw [ran]
  by_cases missing : idx = bitmapError
  · refine ⟨idx, b, ?_, scanned, rfl, stored, ?_⟩
    · simp only [bind, Except.bind, ne_eq, missing, not_true_eq_false, if_false]
      rfl
    · rw [if_pos missing]
  · have fits := (scanned.found missing).fits
    rw [contents_length] at fits
    obtain ⟨after, flipped, becomes⟩ :=
      bitmap_set_multiple_becomes roundable stored fits !value
    refine ⟨idx, after, ?_, scanned, ?_⟩
    · simp only [bind, Except.bind, ne_eq, missing, not_false_eq_true, if_true, flipped]
      rfl
    · rw [if_neg missing]
      exact becomes

end Scans

section Files

variable {b into : Bitmap} {fs : FileSys} {file : Ptr} {handle : File} {target : Inode}

theorem bits_bytes_word (bits : List Word) (k : Nat) :
    joinWord (bitsBytes bits (4 * k)) (bitsBytes bits (4 * k + 1)) (bitsBytes bits (4 * k + 2))
      (bitsBytes bits (4 * k + 3)) = bits.getD k 0 := by
  unfold bitsBytes
  rw [show 4 * k / 4 = k by omega, show (4 * k + 1) / 4 = k by omega,
    show (4 * k + 2) / 4 = k by omega, show (4 * k + 3) / 4 = k by omega,
    show 4 * k % 4 = 0 by omega, show (4 * k + 1) % 4 = 1 by omega,
    show (4 * k + 2) % 4 = 2 by omega, show (4 * k + 3) % 4 = 3 by omega]
  exact join_word_bytes _

/-- Storing as many bytes as there is memory for. -/
theorem store_bytes_ok {bits : List Word} {bytes : List Byte}
    (fits : bytes.length ≤ 4 * bits.length) :
    ∃ stored, storeBytes bits bytes = .ok stored ∧ stored.length = bits.length := by
  refine ⟨_, if_pos fits, ?_⟩
  rw [List.length_map, List.length_range]

/-- The bytes of `count` elements are stored as these elements. -/
theorem store_elements {bits words : List Word} {count : Nat} (fits : count ≤ bits.length) :
    ∃ stored, storeBytes bits (slice (bitsBytes words) 0 (4 * count)) = .ok stored ∧
      stored.length = bits.length ∧ ∀ k < count, stored.getD k 0 = words.getD k 0 := by
  have room : (slice (bitsBytes words) 0 (4 * count)).length ≤ 4 * bits.length := by
    rw [slice_length]
    omega
  refine ⟨_, if_pos room, by rw [List.length_map, List.length_range], ?_⟩
  intro k below
  have byte : ∀ index < 4 * count,
      overwrite (bitsBytes bits) 0 (slice (bitsBytes words) 0 (4 * count)) index =
        bitsBytes words index := by
    intro index inside
    unfold overwrite
    rw [if_pos (Nat.zero_le _), Nat.sub_zero, slice_get inside, Option.getD_some, Nat.zero_add]
  rw [List.getD_eq_getElem?_getD, List.getElem?_map, List.getElem?_range (by omega),
    Option.map_some, Option.getD_some, byte _ (by omega), byte _ (by omega), byte _ (by omega),
    byte _ (by omega)]
  exact bits_bytes_word words k

/-- Clearing the unused bits of the last element leaves the array as it is. -/
theorem last_mask_keeps (roundable : Roundable b.bitCnt) {i : Nat} (inside : i < b.bitCnt.toNat)
    (last : i / 32 = (elemCnt b.bitCnt).toNat - 1) (word : Word) :
    (word &&& lastMask b).getLsbD (i % 32) = word.getLsbD (i % 32) := by
  rw [elem_cnt_to_nat roundable] at last
  have place := bit_place b.bitCnt
  unfold lastMask
  by_cases partial_ : b.bitCnt % 32 ≠ 0
  · have nonzero : b.bitCnt.toNat % 32 ≠ 0 := by
      intro zero
      exact partial_ (BitVec.eq_of_toNat_eq (place.trans zero))
    simp only [partial_, if_true, ne_eq, not_false_eq_true]
    exact and_below_get (by rw [place]; exact Nat.mod_lt _ (by decide)) (by omega)
  · simp only [partial_, if_false]
    rw [show (-1 : Word) = BitVec.allOnes 32 from rfl, BitVec.and_allOnes]

/-- A bitmap whose elements are those of `b` and whose last one is masked. -/
theorem masked_becomes (roundable : Roundable b.bitCnt) (nonempty : 0 < b.bitCnt.toNat)
    {stored : List Word} (enough : (elemCnt b.bitCnt).toNat ≤ stored.length)
    (same : ∀ k < (elemCnt b.bitCnt).toNat, stored.getD k 0 = b.bits.getD k 0) :
    ∃ after, changeElem ⟨b.bitCnt, stored⟩ (elemCnt b.bitCnt - 1) (· &&& lastMask b) = .ok after ∧
      Becomes b after (contents b) := by
  have counted := elem_cnt_to_nat roundable
  have one : (1 : Word).toNat = 1 := rfl
  have index : (elemCnt b.bitCnt - 1).toNat = (elemCnt b.bitCnt).toNat - 1 := by
    apply BitVec.toNat_sub_of_le
    rw [BitVec.le_def]
    omega
  have inside : (elemCnt b.bitCnt - 1).toNat < stored.length := by
    rw [index]
    omega
  refine ⟨⟨b.bitCnt, stored.set (elemCnt b.bitCnt - 1).toNat
    (stored[(elemCnt b.bitCnt - 1).toNat] &&& lastMask b)⟩, ?_, rfl, ?_, ?_⟩
  · unfold changeElem
    rw [List.getElem?_eq_getElem inside]
  · unfold Stored
    rw [List.length_set]
    exact enough
  · apply List.ext_getElem?
    intro i
    rw [contents_get, contents_get]
    by_cases within : i < b.bitCnt.toNat
    · have word := same (i / 32) (by omega)
      rw [if_pos within, if_pos within, List.getD_eq_getElem?_getD, List.getElem?_set]
      by_cases last : (elemCnt b.bitCnt - 1).toNat = i / 32
      · rw [if_pos last, if_pos inside, Option.getD_some]
        have lastWord : stored[(elemCnt b.bitCnt - 1).toNat] = b.bits.getD (i / 32) 0 := by
          rw [← word, ← last, List.getD_eq_getElem?_getD, List.getElem?_eq_getElem inside,
            Option.getD_some]
        rw [lastWord, last_mask_keeps roundable within (by rw [← last, index])]
      · rw [if_neg last, ← List.getD_eq_getElem?_getD, word]
    · rw [if_neg within, if_neg within]

theorem byte_cnt_to_int (roundable : Roundable b.bitCnt) :
    (byteCnt b.bitCnt).toInt = (4 * (elemCnt b.bitCnt).toNat : Nat) := by
  have value := byte_cnt_to_nat roundable
  have counted := elem_cnt_to_nat roundable
  have bound := b.bitCnt.isLt
  rw [BitVec.toInt_eq_toNat_of_lt (by omega)]
  omega

/-- What a write that succeeds leaves on the device. -/
theorem bitmap_write_returns (roundable : Roundable b.bitCnt)
    (present : fs.files file = some handle) (reached : fs.inodes handle.inode = some target)
    (valid : OnDevice fs.size target.data) :
    Returns (bitmapWrite b file) fs fun written next =>
      (written = true →
        available target.data (byteCnt b.bitCnt).toInt 0 = 4 * (elemCnt b.bitCnt).toNat ∧
        Wrote fs next (dataBase target.data)
          (slice (bitsBytes b.bits) 0 (4 * (elemCnt b.bitCnt).toNat))) ∧
      (Plenty fs → target.denyWriteCnt = 0 →
        4 * (elemCnt b.bitCnt).toNat ≤ (inodeLength target.data).toNat → written = true) := by
  apply returns_bind (FreeMap.file_write_at_returns (bitsBytes b.bits) (byteCnt b.bitCnt).toInt 0
    present reached valid)
  rintro total next ⟨counted, wrote⟩
  rw [byte_cnt_to_int roundable] at counted ⊢
  rw [Nat.add_zero] at wrote
  have most : available target.data (4 * (elemCnt b.bitCnt).toNat : Nat) 0 ≤
      4 * (elemCnt b.bitCnt).toNat := by
    unfold available
    omega
  apply returns_pure
  constructor
  · intro success
    have all : total = 4 * (elemCnt b.bitCnt).toNat := by
      have equal := of_decide_eq_true success
      exact_mod_cast equal
    have moved := @transferred_le 0 (fs.memory fs.requests)
      (available target.data (4 * (elemCnt b.bitCnt).toNat : Nat) 0)
    refine ⟨?_, all ▸ wrote⟩
    split at counted
    · omega
    · omega
  · intro plenty allowed room
    rw [if_neg (by rw [allowed]; decide), plenty fs.requests] at counted
    have whole : transferred true 0 (available target.data (4 * (elemCnt b.bitCnt).toNat : Nat) 0) =
        available target.data (4 * (elemCnt b.bitCnt).toNat : Nat) 0 := rfl
    rw [whole] at counted
    unfold available at counted
    apply decide_eq_true
    omega

theorem bitmap_read_returns (roundable : Roundable b.bitCnt) (same : into.bitCnt = b.bitCnt)
    (stored : Stored into) (present : fs.files file = some handle)
    (reached : fs.inodes handle.inode = some target) (valid : OnDevice fs.size target.data)
    (room : available target.data (byteCnt b.bitCnt).toInt 0 = 4 * (elemCnt b.bitCnt).toNat)
    (holds : slice fs.disk (dataBase target.data) (4 * (elemCnt b.bitCnt).toNat) =
      slice (bitsBytes b.bits) 0 (4 * (elemCnt b.bitCnt).toNat)) :
    Returns (bitmapRead into file) fs fun result _ =>
      ∃ success after, result = .ok (success, after) ∧
        (success = true → Becomes into after (contents b)) ∧ (Plenty fs → success = true) := by
  unfold bitmapRead
  by_cases nonempty : 0 < into.bitCnt
  · rw [if_pos nonempty, same]
    apply returns_bind (FreeMap.file_read_at_returns (byteCnt b.bitCnt).toInt 0 present reached
      valid)
    rintro bytes next ⟨_, delivered⟩
    have size := byte_cnt_to_int roundable
    have few := @transferred_le 0 (fs.memory fs.requests)
      (available target.data (byteCnt b.bitCnt).toInt 0)
    have length : bytes.length = transferred (fs.memory fs.requests) 0
        (available target.data (byteCnt b.bitCnt).toInt 0) := by
      rw [delivered, slice_length]
    unfold Stored at stored
    rw [same] at stored
    have positive : 0 < b.bitCnt.toNat := same ▸ nonempty
    apply returns_pure
    by_cases all : bytes.length = 4 * (elemCnt b.bitCnt).toNat
    · have whole : bytes = slice (bitsBytes b.bits) 0 (4 * (elemCnt b.bitCnt).toNat) := by
        rw [← holds, delivered, Nat.add_zero, ← length, all]
      obtain ⟨elements, put, count, equal⟩ := @store_elements into.bits b.bits _ stored
      obtain ⟨after, masked, becomes⟩ := @masked_becomes b roundable positive elements
        (by rw [count]; exact stored) equal
      refine ⟨true, after, ?_, fun _ => ⟨becomes.size.trans same.symm, becomes.stored,
        becomes.holds⟩, fun _ => rfl⟩
      have mask : lastMask into = lastMask b := by
        unfold lastMask
        rw [same]
      rw [whole, put, mask]
      simp only [bind, Except.bind, masked, slice_length, size, decide_true]
      rfl
    · obtain ⟨elements, put, count⟩ := @store_bytes_ok into.bits bytes (by omega)
      have counted := elem_cnt_to_nat roundable
      have one : (1 : Word).toNat = 1 := rfl
      have index : (elemCnt b.bitCnt - 1).toNat = (elemCnt b.bitCnt).toNat - 1 := by
        apply BitVec.toNat_sub_of_le
        rw [BitVec.le_def]
        omega
      have inside : (elemCnt b.bitCnt - 1).toNat < elements.length := by omega
      obtain ⟨after, masked⟩ : ∃ after, changeElem ⟨b.bitCnt, elements⟩
          (elemCnt b.bitCnt - 1) (· &&& lastMask into) = .ok after := by
        unfold changeElem
        rw [List.getElem?_eq_getElem inside]
        exact ⟨_, rfl⟩
      refine ⟨false, after, ?_, fun success => Bool.noConfusion success, ?_⟩
      · rw [put]
        simp only [bind, Except.bind, masked, size, Int.ofNat_inj, all, decide_false]
        rfl
      · intro plenty
        rw [plenty fs.requests] at length
        exact absurd (length.trans room) all
  · rw [if_neg nonempty]
    apply returns_pure
    have zero : into.bitCnt.toNat = 0 := Nat.eq_zero_of_not_pos nonempty
    refine ⟨true, into, rfl, fun _ => ⟨rfl, stored, ?_⟩, fun _ => rfl⟩
    unfold contents
    rw [← same, zero]
    rfl

end Files

/-! ## Sequences of changes -/

inductive Change where
  | set (idx : Word) (value : Bool)
  | mark (bitIdx : Word)
  | reset (bitIdx : Word)
  | flip (bitIdx : Word)
  | setMultiple (start cnt : Word) (value : Bool)
  | setAll (value : Bool)
deriving DecidableEq, Repr

namespace Change

def call (b : Bitmap) : Change → Except Fault Bitmap
  | set idx value => bitmapSet b idx value
  | mark bitIdx => bitmapMark b bitIdx
  | reset bitIdx => bitmapReset b bitIdx
  | flip bitIdx => bitmapFlip b bitIdx
  | setMultiple start cnt value => bitmapSetMultiple b start cnt value
  | setAll value => bitmapSetAll b value

def Within (bitCnt : Word) : Change → Prop
  | set idx _ => idx < bitCnt
  | mark bitIdx => bitIdx < bitCnt
  | reset bitIdx => bitIdx < bitCnt
  | flip bitIdx => bitIdx < bitCnt
  | setMultiple start cnt _ => Inside bitCnt start cnt
  | setAll _ => True

/-- The change of an array of bits. -/
def apply (bits : List Bool) : Change → List Bool
  | set idx value => bits.set idx.toNat value
  | mark bitIdx => bits.set bitIdx.toNat true
  | reset bitIdx => bits.set bitIdx.toNat false
  | flip bitIdx => bits.modify bitIdx.toNat not
  | setMultiple start cnt value =>
      splice bits start.toNat (List.replicate cnt.toNat value)
  | setAll value => List.replicate bits.length value

end Change

/-- One change. -/
theorem change_becomes {b : Bitmap} (roundable : Roundable b.bitCnt) (stored : Stored b)
    {change : Change} (within : change.Within b.bitCnt) :
    ∃ after, change.call b = .ok after ∧ Becomes b after (change.apply (contents b)) := by
  cases change with
  | set idx value => exact bitmap_set_becomes roundable stored within value
  | mark bitIdx =>
      rw [Change.apply, List.set_eq_modify]
      exact bitmap_mark_becomes roundable stored within
  | reset bitIdx =>
      rw [Change.apply, List.set_eq_modify]
      exact bitmap_reset_becomes roundable stored within
  | flip bitIdx => exact bitmap_flip_becomes roundable stored within
  | setMultiple start cnt value => exact bitmap_set_multiple_becomes roundable stored within value
  | setAll value =>
      rw [Change.apply, contents_length]
      exact bitmap_set_all_becomes roundable stored value

theorem changes_become {b : Bitmap} (roundable : Roundable b.bitCnt) (stored : Stored b)
    {changes : List Change} (within : ∀ change ∈ changes, change.Within b.bitCnt) :
    ∃ after, changes.foldlM Change.call b = .ok after ∧
      Becomes b after (changes.foldl Change.apply (contents b)) := by
  induction changes generalizing b with
  | nil => exact ⟨b, rfl, rfl, stored, rfl⟩
  | cons change rest ih =>
      obtain ⟨middle, called, size, storedMiddle, holds⟩ :=
        change_becomes roundable stored (within change List.mem_cons_self)
      obtain ⟨after, ran, sizeAfter, storedAfter, holdsAfter⟩ := ih (size ▸ roundable) storedMiddle
        fun other member => size ▸ within other (List.mem_cons_of_mem change member)
      refine ⟨after, ?_, sizeAfter.trans size, storedAfter, ?_⟩
      · rw [List.foldlM_cons, called]
        exact ran
      · rw [holdsAfter, holds]
        rfl

/-- What a bitmap of `bitCnt` bits does as an array of bits. -/
structure ArrayOfBits (bitCnt : Word) : Prop where
  /-- A new bitmap in a block that is as large as it has to be is all false. -/
  created : ∀ (elements : List Word) (blockSize : Word),
    blockSize.toNat / 4 = elements.length + 2 → bitmapBufSize bitCnt ≤ blockSize →
    ∃ b, bitmapCreateInBuf bitCnt elements blockSize = .ok b ∧
      Becomes ⟨bitCnt, elements⟩ b (List.replicate bitCnt.toNat false)
  changed : ∀ b : Bitmap, b.bitCnt = bitCnt → Stored b → ∀ changes : List Change,
    (∀ change ∈ changes, change.Within bitCnt) →
    ∃ after, changes.foldlM Change.call b = .ok after ∧
      Becomes b after (changes.foldl Change.apply (contents b))
  tested : ∀ b : Bitmap, b.bitCnt = bitCnt → Stored b → ∀ idx : Word, idx < bitCnt →
    bitmapTest b idx = .ok ((contents b).getD idx.toNat false)
  counted : ∀ b : Bitmap, b.bitCnt = bitCnt → Stored b → ∀ (start cnt : Word) (value : Bool),
    Inside bitCnt start cnt →
    ∃ valueCnt, bitmapCount b start cnt value = .ok valueCnt ∧
      valueCnt.toNat = (run (contents b) start.toNat cnt.toNat).count value
  contained : ∀ b : Bitmap, b.bitCnt = bitCnt → Stored b → ∀ (start cnt : Word) (value : Bool),
    Inside bitCnt start cnt →
    bitmapContains b start cnt value =
      .ok ((run (contents b) start.toNat cnt.toNat).contains value)
  scanned : ∀ b : Bitmap, b.bitCnt = bitCnt → Stored b → ∀ (start cnt : Word) (value : Bool),
    start ≤ bitCnt →
    ∃ idx, bitmapScan b start cnt value = .ok idx ∧
      Scanned (contents b) start.toNat cnt.toNat value idx
  flipped : ∀ b : Bitmap, b.bitCnt = bitCnt → Stored b → ∀ (start cnt : Word) (value : Bool),
    start ≤ bitCnt →
    ∃ idx after, bitmapScanAndFlip b start cnt value = .ok (idx, after) ∧
      Scanned (contents b) start.toNat cnt.toNat value idx ∧
      Becomes b after (if idx = bitmapError then contents b
        else splice (contents b) idx.toNat (List.replicate cnt.toNat !value))
  /-- Any bitmap of the size reads what was written; neither call fails unless memory runs out, or
  the file is too small or may not be written. -/
  restored : ∀ b into : Bitmap, b.bitCnt = bitCnt → into.bitCnt = bitCnt → Stored b → Stored into →
    ∀ (fs : FileSys) (file : Ptr) (handle : File) (target : Inode),
    fs.files file = some handle → fs.inodes handle.inode = some target →
    OnDevice fs.size target.data →
    Returns (bitmapWrite b file) fs fun written next =>
      (Plenty fs → target.denyWriteCnt = 0 →
        (byteCnt bitCnt).toNat ≤ (inodeLength target.data).toNat → written = true) ∧
      (written = true → Returns (bitmapRead into file) next fun result _ =>
        ∃ success after, result = .ok (success, after) ∧
          (success = true → Becomes into after (contents b)) ∧ (Plenty fs → success = true))

theorem buf_size_holds {bitCnt blockSize : Word} (roundable : Roundable bitCnt)
    {elements : List Word} (size : blockSize.toNat / 4 = elements.length + 2)
    (enough : bitmapBufSize bitCnt ≤ blockSize) : Stored ⟨bitCnt, elements⟩ := by
  have bytes := byte_cnt_to_nat roundable
  have counted := elem_cnt_to_nat roundable
  have header : (8 : Word).toNat = 8 := rfl
  have bound := bitCnt.isLt
  unfold bitmapBufSize at enough
  rw [BitVec.le_def, BitVec.toNat_add, header, bytes] at enough
  change (elemCnt bitCnt).toNat ≤ elements.length
  omega

theorem run_count_small {b : Bitmap} {start cnt : Word} (inside : Inside b.bitCnt start cnt)
    (value : Bool) : (run (contents b) start.toNat cnt.toNat).count value < 2 ^ 32 := by
  have few := @List.count_le_length _ _ value (run (contents b) start.toNat cnt.toNat)
  rw [run_length (by rw [contents_length]; exact inside)] at few
  exact Nat.lt_of_le_of_lt few cnt.isLt

theorem write_then_read {b into : Bitmap} (roundable : Roundable b.bitCnt)
    (same : into.bitCnt = b.bitCnt) (stored : Stored into) {fs : FileSys} {file : Ptr}
    {handle : File} {target : Inode} (present : fs.files file = some handle)
    (reached : fs.inodes handle.inode = some target) (valid : OnDevice fs.size target.data) :
    Returns (bitmapWrite b file) fs fun written next =>
      (Plenty fs → target.denyWriteCnt = 0 →
        (byteCnt b.bitCnt).toNat ≤ (inodeLength target.data).toNat → written = true) ∧
      (written = true → Returns (bitmapRead into file) next fun result _ =>
        ∃ success after, result = .ok (success, after) ∧
          (success = true → Becomes into after (contents b)) ∧ (Plenty fs → success = true)) := by
  apply returns_mono (bitmap_write_returns roundable present reached valid)
  intro written next ⟨stores, succeeds⟩
  constructor
  · intro plenty allowed room
    rw [byte_cnt_to_nat roundable, ← elem_cnt_to_nat roundable] at room
    exact succeeds plenty allowed room
  · intro success
    obtain ⟨room, requests, _, rfl⟩ := stores success
    have bytes := @slice_overwrite _ fs.disk (dataBase target.data)
      (slice (bitsBytes b.bits) 0 (4 * (elemCnt b.bitCnt).toNat))
    rw [slice_length] at bytes
    exact @bitmap_read_returns b into { fs with
      disk := overwrite fs.disk (dataBase target.data)
        (slice (bitsBytes b.bits) 0 (4 * (elemCnt b.bitCnt).toNat))
      requests := requests } file handle target roundable same stored present reached valid room
      bytes

theorem array_of_bits {bitCnt : Word} (roundable : Roundable bitCnt) : ArrayOfBits bitCnt where
  created := by
    intro elements blockSize size enough
    unfold bitmapCreateInBuf
    rw [if_pos enough]
    exact bitmap_set_all_becomes roundable (buf_size_holds roundable size enough) false
  changed := by
    rintro b rfl stored changes within
    exact changes_become roundable stored within
  tested := by
    rintro b rfl stored idx inside
    exact bitmap_test_ok roundable stored inside
  counted := by
    rintro b rfl stored start cnt value inside
    refine ⟨_, bitmap_count_ok roundable stored inside, ?_⟩
    rw [BitVec.toNat_ofNat, Nat.mod_eq_of_lt (run_count_small inside value)]
  contained := by
    rintro b rfl stored start cnt value inside
    exact bitmap_contains_ok roundable stored inside
  scanned := by
    rintro b rfl stored start cnt value inside
    exact bitmap_scan_ok roundable stored inside
  flipped := by
    rintro b rfl stored start cnt value inside
    exact bitmap_scan_and_flip_ok roundable stored inside
  restored := by
    rintro b into rfl same _ stored fs file handle target present reached valid
    exact write_then_read roundable same stored present reached valid

/-- The number of elements of more bits wraps to zero. -/
theorem elem_cnt_wraps {bitCnt : Word} (many : ¬Roundable bitCnt) : elemCnt bitCnt = 0 := by
  have bound := bitCnt.isLt
  have one : (1 : Word).toNat = 1 := rfl
  have size : (32 : Word).toNat = 32 := rfl
  unfold Roundable at many
  apply BitVec.eq_of_toNat_eq
  unfold elemCnt
  rw [BitVec.toNat_udiv, BitVec.toNat_sub, BitVec.toNat_add, size, one]
  change _ = 0
  omega

/-- The block of the header alone is then accepted, and the first bit lies past its end. -/
theorem create_overruns {bitCnt : Word} (many : ¬Roundable bitCnt) :
    bitmapCreateInBuf bitCnt [] 8 = .error .overrun := by
  have size : bitmapBufSize bitCnt = 8 := by
    unfold bitmapBufSize byteCnt
    rw [elem_cnt_wraps many]
    rfl
  have bound := bitCnt.isLt
  unfold Roundable at many
  have inside : inRange ⟨bitCnt, []⟩ 0 bitCnt = true :=
    @in_range_of_inside ⟨bitCnt, []⟩ 0 bitCnt (Nat.le_of_eq (Nat.zero_add _))
  obtain ⟨rounds, more⟩ : ∃ rounds, bitCnt.toNat = rounds + 1 := ⟨bitCnt.toNat - 1, by omega⟩
  have first : bitmapSet ⟨bitCnt, []⟩ (0 + BitVec.ofNat 32 0) false = .error .overrun := by
    unfold bitmapSet
    rw [if_pos]
    · rfl
    · rw [BitVec.lt_def]
      change 0 < bitCnt.toNat
      omega
  unfold bitmapCreateInBuf bitmapSetAll bitmapSetMultiple
  rw [if_pos (by rw [size]; exact BitVec.le_refl _), if_pos inside, indexes, more,
    List.range_succ_eq_map, List.map_cons, List.foldlM_cons, first]
  rfl

/-- A bitmap is an array of bits when the number of its elements does not wrap, and only then. -/
theorem bitmap_array_iff (bitCnt : Word) : ArrayOfBits bitCnt ↔ Roundable bitCnt := by
  constructor
  · intro array
    by_contra many
    have size : bitmapBufSize bitCnt = 8 := by
      unfold bitmapBufSize byteCnt
      rw [elem_cnt_wraps many]
      rfl
    obtain ⟨b, created, _⟩ := array.created [] 8 rfl (by rw [size]; exact BitVec.le_refl _)
    rw [create_overruns many] at created
    cases created
  · exact array_of_bits

/-- A block of eight bytes is accepted for 4294967295 bits. -/
theorem largest_bitmap_overruns :
    bitmapBufSize 4294967295 = 8 ∧ bitmapCreateInBuf 4294967295 [] 8 = .error .overrun ∧
      ¬ArrayOfBits 4294967295 := by
  have many : ¬Roundable 4294967295 := by
    unfold Roundable
    decide
  refine ⟨by decide, create_overruns many, ?_⟩
  intro array
  obtain ⟨b, created, _⟩ := array.created [] 8 rfl (by decide)
  rw [create_overruns many] at created
  cases created

end UtSystems.Libc.BitArrays

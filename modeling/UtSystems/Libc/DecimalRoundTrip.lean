import UtSystems.Libc.BoundedOutput

/-!
# Numbers that are printed and read back

`atoi` of `lib/stdlib.c` on what `snprintf` has stored for `%d`.
-/

namespace UtSystems.Libc.DecimalRoundTrip

open Lib.Bytes Lib.AddressRanges Libc.Stdio Libc.IntegerFormat Libc.BoundedOutput

set_option autoImplicit false

def isSpace (c : Byte) : Bool := c = 0x20 || (0x09 ≤ c && c ≤ 0x0d)

def skipSpaces : List Byte → Except Fault (List Byte)
  | [] => .error .overrun
  | c :: rest => if isSpace c then skipSpaces rest else .ok (c :: rest)

/-- The value is first accumulated as a negative number. -/
def negativeDigits : List Byte → Word → Except Fault Word
  | [], _ => .error .overrun
  | c :: rest, value =>
      if isDigit c then negativeDigits rest (value * 10 - (c.setWidth 32 - 0x30)) else .ok value

/-- On the array the string stands in, from its first character on. -/
def atoi (s : List Byte) : Except Fault Word := do
  match ← skipSpaces s with
  | [] => .error .overrun
  | c :: rest =>
      let negative := c = char '-'
      let s := if c = char '+' ∨ c = char '-' then rest else c :: rest
      let value ← negativeDigits s 0
      return if ¬negative then -value else value

/-- What `%d` asks for. -/
def plainD : Conversion := ⟨noFlags, 0, -1, .int⟩

def absolute (v : Word) : Nat := v.toInt.natAbs

def decimalText (v : Word) : List Byte := integerText (absolute v) true (v.toInt < 0) baseD plainD

section Digits

variable {value : Nat} {rest : List Byte}

theorem digit_read {digit : Nat} (small : digit < 10) :
    isDigit (baseD.digits.getD digit 0) = true ∧
      (baseD.digits.getD digit 0).setWidth 32 - 0x30 = BitVec.ofNat 32 digit := by
  have table : ∀ digit < 10, isDigit (baseD.digits.getD digit 0) = true ∧
      (baseD.digits.getD digit 0).setWidth 32 - 0x30 = BitVec.ofNat 32 digit := by decide +kernel
  exact table digit small

/-- The digits of a value are read as its negative. -/
theorem negative_digits_value (value : Nat) (rest : List Byte) :
    negativeDigits (digitChars baseD value ++ rest) 0 =
      negativeDigits rest (-BitVec.ofNat 32 value) := by
  induction value using Nat.strongRecOn generalizing rest with
  | ind value ih =>
      by_cases zero : value = 0
      · rw [zero, digit_chars_zero]
        rfl
      · have positive : 0 < value := Nat.pos_of_ne_zero zero
        have digit := digit_read (Nat.mod_lt value (by decide : 10 > 0))
        have whole : -BitVec.ofNat 32 (value / 10) * 10 - BitVec.ofNat 32 (value % 10) =
            -BitVec.ofNat 32 value := by
          have parts : BitVec.ofNat 32 value =
              BitVec.ofNat 32 (value / 10) * 10 + BitVec.ofNat 32 (value % 10) := by
            have ten : (10 : Word) = BitVec.ofNat 32 10 := rfl
            rw [ten, ← BitVec.ofNat_mul, ← BitVec.ofNat_add, Nat.div_add_mod']
          rw [parts, BitVec.neg_add, BitVec.neg_mul]
        rw [digit_chars_step (by decide) positive, List.append_assoc, List.singleton_append]
        change negativeDigits (digitChars baseD (value / 10) ++
          baseD.digits.getD (value % 10) 0 :: rest) 0 = _
        rw [ih (value / 10) (by omega), negativeDigits, if_pos digit.1, digit.2, whole]

theorem digit_chars_digits {c : Byte} (member : c ∈ digitChars baseD value) : isDigit c = true := by
  unfold digitChars at member
  rw [List.mem_reverse, List.mem_map] at member
  obtain ⟨digit, inside, rfl⟩ := member
  exact (digit_read (Nat.digits_lt_base (by decide) inside)).1

theorem digit_plain {c : Byte} (digit : isDigit c = true) :
    isSpace c = false ∧ c ≠ char '+' ∧ c ≠ char '-' := by
  have table : ∀ c : Byte, isDigit c = true → isSpace c = false ∧ c ≠ char '+' ∧ c ≠ char '-' := by
    decide +kernel
  exact table c digit

theorem digit_chars_ne_nil (positive : 0 < value) : digitChars baseD value ≠ [] := by
  rw [digit_chars_step (by decide) positive]
  exact List.append_ne_nil_of_right_ne_nil _ (List.cons_ne_nil _ _)

/-- The digits that are printed, a single zero for zero. -/
def shownDigits (value : Nat) : List Byte := if value = 0 then [char '0'] else digitChars baseD value

theorem magnitude_plain (value : Nat) :
    magnitudeText baseD plainD 1 value = shownDigits value := by
  unfold magnitudeText shownDigits
  have plain : digitText baseD plainD.flags.group value = digitChars baseD value := rfl
  simp only [plain]
  rw [if_neg fun all => absurd all.1 (by decide)]
  by_cases zero : value = 0
  · rw [if_pos zero, zero, digit_chars_zero]
    rfl
  · have some_ := List.length_pos_of_ne_nil (digit_chars_ne_nil (Nat.pos_of_ne_zero zero))
    rw [if_neg zero, show 1 - (digitChars baseD value).length = 0 by omega]
    rfl

theorem shown_digits_cons (value : Nat) :
    ∃ c rest, shownDigits value = c :: rest ∧ isDigit c = true := by
  unfold shownDigits
  by_cases zero : value = 0
  · rw [if_pos zero]
    exact ⟨_, _, rfl, rfl⟩
  · rw [if_neg zero]
    obtain ⟨c, rest, shown⟩ := List.exists_cons_of_ne_nil
      (digit_chars_ne_nil (Nat.pos_of_ne_zero zero))
    exact ⟨c, rest, shown, digit_chars_digits (by rw [shown]; exact List.mem_cons_self)⟩

theorem shown_digits_read (value : Nat) (junk : List Byte) :
    negativeDigits (shownDigits value ++ 0 :: junk) 0 = .ok (-BitVec.ofNat 32 value) := by
  unfold shownDigits
  by_cases zero : value = 0
  · rw [if_pos zero, zero]
    rfl
  · rw [if_neg zero, negative_digits_value]
    rfl

end Digits

section Round

variable {v : Word}

theorem decimal_text_eq (v : Word) :
    decimalText v = (if v.toInt < 0 then [char '-'] else []) ++ shownDigits (absolute v) := by
  have pad : ∀ count : Nat, count ≤ 67 → padCount plainD count = 0 := by
    intro count few
    rw [pad_count_value (by decide) few]
    exact Nat.zero_sub count
  have small : absolute v < 2 ^ 64 := by
    have most := @BitVec.toInt_lt 32 v
    have least := @BitVec.le_toInt 32 v
    unfold absolute
    omega
  have length := @unpadded_length (BitVec.ofNat 64 (absolute v)) true (v.toInt < 0) baseD plainD
    List.mem_cons_self (by decide)
  rw [BitVec.toNat_ofNat, Nat.mod_eq_of_lt small] at length
  have none_ := pad _ length
  have shown : min (shownPrecision plainD) 63 = shownPrecision plainD := rfl
  unfold decimalText integerText
  unfold unpadded at none_
  simp only [shown, none_, List.replicate_zero]
  have one : shownPrecision plainD = 1 := rfl
  rw [one, magnitude_plain]
  unfold signText prefixText
  by_cases negative : v.toInt < 0
  · simp [negative, plainD, noFlags]
  · simp [negative, plainD, noFlags]

theorem absolute_eq (v : Word) :
    (v.toInt < 0 → absolute v = 2 ^ 32 - v.toNat ∧ -BitVec.ofNat 32 (absolute v) = v) ∧
      (¬v.toInt < 0 → absolute v = v.toNat ∧ BitVec.ofNat 32 (absolute v) = v) := by
  have value := BitVec.toInt_eq_toNat_cond v
  have bound := v.isLt
  constructor
  · intro negative
    have count : absolute v = 2 ^ 32 - v.toNat := by
      unfold absolute
      split at value <;> omega
    refine ⟨count, ?_⟩
    apply BitVec.eq_of_toNat_eq
    rw [BitVec.toNat_neg, BitVec.toNat_ofNat, count]
    split at value <;> omega
  · intro positive
    have count : absolute v = v.toNat := by
      unfold absolute
      split at value <;> omega
    refine ⟨count, ?_⟩
    rw [count, BitVec.ofNat_toNat, BitVec.setWidth_eq]

/-- What is printed for a number is read as the number. -/
theorem atoi_decimal (v : Word) (junk : List Byte) :
    atoi (decimalText v ++ 0 :: junk) = .ok v := by
  obtain ⟨c, rest, shown, digit⟩ := shown_digits_cons (absolute v)
  obtain ⟨notSpace, notPlus, notMinus⟩ := digit_plain digit
  have read := shown_digits_read (absolute v) junk
  rw [decimal_text_eq]
  by_cases negative : v.toInt < 0
  · rw [if_pos negative, List.singleton_append, List.cons_append]
    have skipped : skipSpaces (char '-' :: (shownDigits (absolute v) ++ 0 :: junk)) =
        .ok (char '-' :: (shownDigits (absolute v) ++ 0 :: junk)) := rfl
    unfold atoi
    rw [skipped]
    change (negativeDigits (shownDigits (absolute v) ++ 0 :: junk) 0 >>= fun value =>
      .ok value) = _
    rw [read, ((absolute_eq v).1 negative).2]
    rfl
  · rw [if_neg negative, List.nil_append]
    rw [shown, List.cons_append] at read ⊢
    have skipped : skipSpaces (c :: (rest ++ 0 :: junk)) = .ok (c :: (rest ++ 0 :: junk)) := by
      rw [skipSpaces, notSpace]
      rfl
    unfold atoi
    rw [skipped]
    simp only [bind, Except.bind, notPlus, notMinus, or_self, if_false, read, not_false_eq_true,
      if_true, BitVec.neg_neg, ((absolute_eq v).2 negative).2]
    rfl

theorem atoi_empty (junk : List Byte) : atoi (0 :: junk) = .ok 0 := rfl

/-- The argument of `%d` is printed in decimal. -/
theorem vprintf_decimal (memory : Memory) (fuel : Nat) (args : VaList) :
    vprintf memory collect (fuel + 3) (text "%d" ++ [0]) args [] = .ok (decimalText (args 0)) := by
  have wide : ((args 0).signExtend 64).toInt = (args 0).toInt :=
    BitVec.toInt_signExtend_of_le (by decide)
  have most := @BitVec.toInt_lt 32 (args 0)
  have least := @BitVec.le_toInt 32 (args 0)
  have size : (if ((args 0).signExtend 64).toInt < 0 then -(args 0).signExtend 64
      else (args 0).signExtend 64).toNat = absolute (args 0) := by
    have value := BitVec.toInt_eq_toNat_cond ((args 0).signExtend 64)
    have bound := ((args 0).signExtend 64).isLt
    rw [wide] at value ⊢
    unfold absolute
    split
    · rw [BitVec.toNat_neg]
      split at value <;> omega
    · split at value <;> omega
  have printed := @format_integer_text _ collect [] (if ((args 0).signExtend 64).toInt < 0 then
      -(args 0).signExtend 64 else (args 0).signExtend 64) true
    (decide (((args 0).signExtend 64).toInt < 0)) baseD plainD List.mem_cons_self
  rw [size, collect_all, List.nil_append, wide] at printed
  have converted : convert memory collect (vprintf memory collect (fuel + 2)) (char 'd') plainD args
      [] = .ok (dropArgs args 1, decimalText (args 0)) := by
    unfold convert
    rw [if_pos (.inl rfl)]
    change (formatInteger collect (if ((args 0).signExtend 64).toInt < 0 then
      -(args 0).signExtend 64 else (args 0).signExtend 64) true
      (decide (((args 0).signExtend 64).toInt < 0)) baseD plainD [] >>= fun out =>
      .ok (dropArgs args 1, out)) = _
    rw [wide, printed]
    rfl
  change (convert memory collect (vprintf memory collect (fuel + 2)) (char 'd') plainD args [] >>=
    fun result => vprintf memory collect (fuel + 2) [0] result.1 result.2) = _
  rw [converted]
  rfl

theorem decimal_text_length (v : Word) : (decimalText v).length ≤ 23 := by
  have small : absolute v < 2 ^ 64 := by
    have most := @BitVec.toInt_lt 32 v
    have least := @BitVec.le_toInt 32 v
    unfold absolute
    omega
  have digits := digit_chars_length (show baseD ∈ bases from List.mem_cons_self) small
  have shown : (shownDigits (absolute v)).length ≤ 22 := by
    unfold shownDigits
    split
    · decide
    · exact digits
  rw [decimal_text_eq, List.length_append]
  split
  · rw [List.length_singleton]
    omega
  · rw [List.length_nil]
    omega

/-- A buffer that begins with these characters. -/
theorem slice_begins (buffer : Nat → Byte) (chars : List Byte) {count : Nat}
    (room : chars.length ≤ count) :
    ∃ junk, slice (overwrite buffer 0 chars) 0 count = chars ++ junk := by
  obtain ⟨more, rfl⟩ := Nat.exists_eq_add_of_le room
  rw [slice_append, slice_overwrite]
  exact ⟨_, rfl⟩

end Round

/-- `atoi` gives back the number that `snprintf` has printed into a buffer of this size. -/
def RoundTrips (v bufSize : Word) : Prop :=
  ∀ (memory : Memory) (fuel : Nat) (args : VaList) (buffer : Nat → Byte), 3 ≤ fuel → args 0 = v →
    ∃ after result,
      vsnprintf memory fuel buffer bufSize (text "%d" ++ [0]) args = .ok (after, result) ∧
        atoi (slice after 0 bufSize.toNat) = .ok v

theorem round_trips_iff {v bufSize : Word} (larger : (decimalText v).length < bufSize.toNat) :
    RoundTrips v bufSize ↔ bufSize.toNat ≤ 2 ^ 31 ∨ v = 0 := by
  have few := decimal_text_length v
  have positive : bufSize > 0 := by
    rw [gt_iff_lt, BitVec.lt_def]
    exact Nat.lt_of_le_of_lt (Nat.zero_le _) larger
  have stored : ∀ (memory : Memory) (fuel : Nat) (args : VaList) (buffer : Nat → Byte), 3 ≤ fuel →
      args 0 = v → vsnprintf memory fuel buffer bufSize (text "%d" ++ [0]) args =
        .ok (overwrite buffer 0 ((decimalText v).take (maxLength bufSize).toInt.toNat ++ [0]),
          BitVec.ofNat 32 (decimalText v).length) := by
    intro memory fuel args buffer enough argument
    obtain ⟨more, rfl⟩ := Nat.exists_eq_add_of_le' enough
    have collected := vprintf_decimal memory more args
    rw [argument] at collected
    rw [vsnprintf_ok collected (by omega), if_pos positive]
  constructor
  · intro trips
    by_contra neither
    rw [not_or] at neither
    have limit := max_length_large (Nat.not_le.mp neither.1)
    obtain ⟨after, result, ran, read⟩ := trips (fun _ => 0) 3 (fun _ => v) (fun _ => 0)
      (Nat.le_refl 3) rfl
    rw [stored _ 3 _ _ (Nat.le_refl 3) rfl, show (maxLength bufSize).toInt.toNat = 0 by omega,
      List.take_zero, List.nil_append] at ran
    cases ran
    obtain ⟨junk, begins⟩ := slice_begins (fun _ => 0) [0] (show 1 ≤ bufSize.toNat by omega)
    rw [begins] at read
    exact neither.2 (Except.ok.inj read).symm
  · intro holds memory fuel args buffer enough argument
    refine ⟨_, _, stored memory fuel args buffer enough argument, ?_⟩
    by_cases fits : bufSize.toNat ≤ 2 ^ 31
    · rw [max_length_small fits, List.take_of_length_le (by omega)]
      obtain ⟨junk, begins⟩ := slice_begins buffer (decimalText v ++ [0])
        (show (decimalText v ++ [0]).length ≤ bufSize.toNat by
          rw [List.length_append, List.length_singleton]
          exact larger)
      rw [begins, List.append_assoc]
      exact atoi_decimal v junk
    · have limit := max_length_large (Nat.not_le.mp fits)
      have zero := holds.resolve_left fits
      rw [show (maxLength bufSize).toInt.toNat = 0 by omega, List.take_zero, List.nil_append]
      obtain ⟨junk, begins⟩ := slice_begins buffer [0] (show 1 ≤ bufSize.toNat by omega)
      rw [begins, zero]
      exact atoi_empty junk

/-- Numbers are printed and read back, and output is cut off at the end of the buffer, as long as
the size of the buffer and the number of characters are numbers of type `int`. -/
theorem printed_into_buffers (bufSize : Word) :
    (∀ v : Word, (decimalText v).length < bufSize.toNat →
      (RoundTrips v bufSize ↔ bufSize.toNat ≤ 2 ^ 31 ∨ v = 0)) ∧
    ∀ (memory : Memory) (fuel : Nat) (format : List Byte) (args : VaList) (chars : List Byte),
      vprintf memory collect fuel format args [] = .ok chars →
      (StoresTruncated bufSize memory fuel format args chars ↔
        chars.length < 2 ^ 31 ∧ (bufSize.toNat ≤ 2 ^ 31 ∨ chars = [])) :=
  ⟨fun _ larger => round_trips_iff larger,
    fun _ _ _ _ _ collected => stores_truncated collected⟩

/-- `INT_MIN` into a hundred bytes, and two characters into two. -/
theorem printed_into_buffers_small :
    (RoundTrips (-2147483648) 100 ↔ (100 : Word).toNat ≤ 2 ^ 31 ∨ (-2147483648 : Word) = 0) ∧
    (StoresTruncated 2 (fun _ => 0) 3 (text "ab" ++ [0]) (fun _ => 0) (text "ab") ↔
      (text "ab").length < 2 ^ 31 ∧ ((2 : Word).toNat ≤ 2 ^ 31 ∨ text "ab" = [])) :=
  ⟨(printed_into_buffers 100).1 (-2147483648)
      (Nat.lt_of_le_of_lt (decimal_text_length _) (by decide)),
    (printed_into_buffers 2).2 (fun _ => 0) 3 (text "ab" ++ [0]) (fun _ => 0) (text "ab") rfl⟩

/-- A buffer of 2147483649 bytes gets the terminator alone, and 7 is read as 0. -/
theorem large_buffer_stays_empty :
    vprintf (fun _ => 0) collect 3 (text "a" ++ [0]) (fun _ => 0) [] = .ok (text "a") ∧
      ¬StoresTruncated 2147483649 (fun _ => 0) 3 (text "a" ++ [0]) (fun _ => 0) (text "a") ∧
      (decimalText 7).length < (2147483649 : Word).toNat ∧ ¬RoundTrips 7 2147483649 := by
  have larger : (decimalText 7).length < (2147483649 : Word).toNat :=
    Nat.lt_of_le_of_lt (decimal_text_length _) (by decide)
  refine ⟨rfl, ?_, larger, ?_⟩
  · rw [stores_truncated rfl]
    decide
  · rw [round_trips_iff larger]
    decide

end UtSystems.Libc.DecimalRoundTrip

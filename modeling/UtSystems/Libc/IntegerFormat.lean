import Mathlib.Data.Nat.Digits.Lemmas
import UtSystems.Libc.Stdio

/-!
# What an integer conversion prints

`integerText` is the text that `format_integer` puts out for every conversion record, `rendering`
the one that its flags, width and precision ask for.
-/

namespace UtSystems.Libc.IntegerFormat

open Lib.Bytes Libc.Stdio

set_option autoImplicit false

/-! ## Output as text -/

section Output

variable {σ : Type} {output : Byte → σ → σ} {aux : σ}

theorem output_all_append (front back : List Byte) :
    outputAll output (front ++ back) aux = outputAll output back (outputAll output front aux) := by
  induction front generalizing aux with
  | nil => rfl
  | cons ch rest ih => exact ih

theorem output_dup_all (ch : Byte) (cnt : Nat) :
    outputDup output ch cnt aux = outputAll output (List.replicate cnt ch) aux := by
  induction cnt generalizing aux with
  | zero => rfl
  | succ cnt ih => exact ih

end Output

/-- Output that is appended to what there is. -/
def collect (ch : Byte) (out : List Byte) : List Byte := out ++ [ch]

theorem collect_all (chars out : List Byte) : outputAll collect chars out = out ++ chars := by
  induction chars generalizing out with
  | nil => exact (List.append_nil out).symm
  | cons ch rest ih =>
      rw [outputAll, ih]
      exact List.append_assoc out [ch] rest

/-! ## Digits -/

/-- A separator stands where the number of digits that follow is a multiple of `group`. -/
def separated (group : Nat) : List Byte → List Byte
  | [] => []
  | digit :: rest =>
      if rest ≠ [] ∧ rest.length % group = 0 then digit :: char ',' :: separated group rest
      else digit :: separated group rest

/-- The digits of `value`, the high one first. -/
def digitChars (b : IntegerBase) (value : Nat) : List Byte :=
  ((Nat.digits b.base value).map fun digit => b.digits.getD digit 0).reverse

def digitText (b : IntegerBase) (group : Bool) (value : Nat) : List Byte :=
  if group then separated b.group (digitChars b value) else digitChars b value

def bases : List IntegerBase := [baseD, baseO, baseLowX, baseX]

theorem base_bounds {b : IntegerBase} (known : b ∈ bases) : 8 ≤ b.base ∧ b.base ≤ 16 := by
  simp only [bases, List.mem_cons, List.not_mem_nil, or_false] at known
  rcases known with rfl | rfl | rfl | rfl <;> decide

section Digits

variable {b : IntegerBase} {value fuel : Nat}

theorem digit_chars_zero : digitChars b 0 = [] := by
  unfold digitChars
  rw [Nat.digits_zero]
  rfl

theorem digit_chars_step (large : 1 < b.base) (positive : 0 < value) :
    digitChars b value =
      digitChars b (value / b.base) ++ [b.digits.getD (value % b.base) 0] := by
  unfold digitChars
  rw [Nat.digits_def' large positive, List.map_cons, List.reverse_cons]

theorem separated_length (group : Nat) (digits : List Byte) :
    (separated group digits).length ≤ 2 * digits.length := by
  induction digits with
  | nil => exact Nat.le_refl _
  | cons digit rest ih =>
      rw [separated]
      split
      · simp only [List.length_cons]
        omega
      · simp only [List.length_cons]
        omega

theorem digit_text_length (group : Bool) :
    (digitText b group value).length ≤ 2 * (digitChars b value).length := by
  unfold digitText
  split
  · exact separated_length _ _
  · omega

/-- A 64-bit value has at most 22 digits. -/
theorem digit_chars_length (known : b ∈ bases) (small : value < 2 ^ 64) :
    (digitChars b value).length ≤ 22 := by
  have bounds := base_bounds known
  unfold digitChars
  rw [List.length_reverse, List.length_map, Nat.digits_length_le_iff (by omega)]
  calc
    value < 2 ^ 64 := small
    _ ≤ 8 ^ 22 := by decide
    _ ≤ b.base ^ 22 := Nat.pow_le_pow_left bounds.1 22

theorem store_ok {ch : Byte} {buf : List Byte} (room : buf.length < 64) :
    store ch buf = .ok (ch :: buf) := if_pos room

/-- What is stored before the digits that are left, the last character first. -/
def storedText (b : IntegerBase) (group : Bool) (value : Nat) (text : List Byte) : List Byte :=
  if group then separated b.group (digitChars b value ++ text) else digitChars b value ++ text

/-- The loop stores the digits behind those of the high end that are left. -/
theorem store_digits_ok (large : 1 < b.base) (group : Bool) (low : List Byte)
    (enough : value < b.base ^ fuel)
    (room : 2 * ((digitChars b value).length + low.length) ≤ 64) :
    storeDigits b group (fuel + 1) value low.length (storedText b group 0 low) =
      .ok (storedText b group value low) := by
  induction fuel generalizing value low with
  | zero =>
      have zero : value = 0 := by simpa using enough
      rw [storeDigits, if_neg (by omega), zero]
  | succ fuel ih =>
      rw [storeDigits]
      by_cases positive : value > 0
      · have step := digit_chars_step large positive
        rw [step, List.length_append, List.length_singleton] at room
        have high : value / b.base < b.base ^ fuel := by
          apply Nat.div_lt_of_lt_mul
          rw [Nat.mul_comm, ← Nat.pow_succ]
          exact enough
        have next := @ih (value / b.base) (b.digits.getD (value % b.base) 0 :: low) high (by
          rw [List.length_cons]
          omega)
        have whole : storedText b group value low =
            storedText b group (value / b.base) (b.digits.getD (value % b.base) 0 :: low) := by
          unfold storedText
          rw [step, List.append_assoc, List.singleton_append]
        have before : (storedText b group 0 low).length ≤ 2 * low.length := by
          unfold storedText
          rw [digit_chars_zero, List.nil_append]
          split
          · exact separated_length _ _
          · omega
        rw [if_pos positive, whole, ← next]
        by_cases separator : group ∧ low.length > 0 ∧ low.length % b.group = 0
        · have stored : storedText b group 0 (b.digits.getD (value % b.base) 0 :: low) =
              b.digits.getD (value % b.base) 0 :: char ',' :: storedText b group 0 low := by
            unfold storedText
            rw [digit_chars_zero, if_pos separator.1, if_pos separator.1]
            exact if_pos ⟨List.ne_nil_of_length_pos separator.2.1, separator.2.2⟩
          rw [if_pos separator, stored, store_ok (by omega)]
          change (store _ (char ',' :: storedText b group 0 low) >>= _ : Except Fault _) = _
          rw [store_ok (by rw [List.length_cons]; omega)]
          rfl
        · have stored : storedText b group 0 (b.digits.getD (value % b.base) 0 :: low) =
              b.digits.getD (value % b.base) 0 :: storedText b group 0 low := by
            unfold storedText
            rw [digit_chars_zero]
            split
            · next grouped =>
              apply if_neg
              intro there
              exact separator ⟨grouped, List.length_pos_of_ne_nil there.1, there.2⟩
            · rfl
          rw [if_neg separator, stored]
          change (store _ (storedText b group 0 low) >>= _ : Except Fault _) = _
          rw [store_ok (by omega)]
          rfl
      · have zero : value = 0 := by omega
        rw [if_neg positive, zero]

theorem store_zeros_ok (precision : Word) (room : Nat) (buf : List Byte)
    (fits : buf.length + room ≤ 63) :
    storeZeros precision room buf =
      .ok (List.replicate (min room (precision.toInt.toNat - buf.length)) (char '0') ++ buf) := by
  induction room generalizing buf with
  | zero =>
      rw [Nat.zero_min]
      rfl
  | succ room ih =>
      rw [storeZeros]
      by_cases more : (buf.length : Int) < precision.toInt
      · have count : min (room + 1) (precision.toInt.toNat - buf.length) =
            min room (precision.toInt.toNat - (buf.length + 1)) + 1 := by omega
        rw [if_pos more, store_ok (by omega), count, List.replicate_succ', List.append_assoc]
        exact ih (char '0' :: buf) (by rw [List.length_cons]; omega)
      · have none_ : min (room + 1) (precision.toInt.toNat - buf.length) = 0 := by omega
        rw [if_neg more, none_]
        rfl

end Digits

/-! ## The text of a conversion -/

/-- The precision, 1 when there is none. -/
def shownPrecision (c : Conversion) : Nat :=
  if c.precision.toInt < 0 then 1 else c.precision.toInt.toNat

def magnitudeText (b : IntegerBase) (c : Conversion) (precision value : Nat) : List Byte :=
  let digits := digitText b c.flags.group value
  let extended := List.replicate (precision - digits.length) (char '0') ++ digits
  if c.flags.pound ∧ b.base = 8 ∧ extended.head? ≠ some (char '0') then char '0' :: extended
  else extended

def prefixText (b : IntegerBase) (c : Conversion) (value : Nat) : List Byte :=
  if c.flags.pound ∧ value ≠ 0 ∧ b.base = 16 then [char '0', b.x] else []

def signText (isSigned negative : Bool) (c : Conversion) : List Byte :=
  if isSigned then
    if negative then [char '-']
    else if c.flags.plus then [char '+']
    else if c.flags.space then [char ' ']
    else []
  else []

def unpadded (value : Nat) (isSigned negative : Bool) (b : IntegerBase) (c : Conversion) :
    List Byte :=
  signText isSigned negative c ++ prefixText b c value ++ magnitudeText b c (shownPrecision c) value

/-- What is asked for: `width` characters at least, blanks or zeros before the digits or blanks
behind them. -/
def rendering (value : Nat) (isSigned negative : Bool) (b : IntegerBase) (c : Conversion) :
    List Byte :=
  let before := signText isSigned negative c ++ prefixText b c value
  let magnitude := magnitudeText b c (shownPrecision c) value
  let pad := c.width.toInt.toNat - (unpadded value isSigned negative b c).length
  if c.flags.minus then before ++ magnitude ++ List.replicate pad (char ' ')
  else if c.flags.zero then before ++ List.replicate pad (char '0') ++ magnitude
  else List.replicate pad (char ' ') ++ before ++ magnitude

/-- The difference of two numbers of type `int`, 0 when it is negative. -/
def padCount (c : Conversion) (unpadded : Nat) : Nat :=
  if (c.width - BitVec.ofNat 32 unpadded).toInt < 0 then 0
  else (c.width - BitVec.ofNat 32 unpadded).toNat

/-- What is put out. -/
def integerText (value : Nat) (isSigned negative : Bool) (b : IntegerBase) (c : Conversion) :
    List Byte :=
  let before := signText isSigned negative c ++ prefixText b c value
  let magnitude := magnitudeText b c (min (shownPrecision c) 63) value
  let pad := padCount c (before ++ magnitude).length
  (if ¬(c.flags.minus ∨ c.flags.zero) then List.replicate pad (char ' ') else []) ++ before ++
    (if c.flags.zero then List.replicate pad (char '0') else []) ++ magnitude ++
    (if c.flags.minus then List.replicate pad (char ' ') else [])

section Conversions

variable {σ : Type} {output : Byte → σ → σ} {aux : σ} {value : BitVec 64}
  {isSigned negative : Bool} {b : IntegerBase} {c : Conversion}

theorem sign_output :
    (if signOf isSigned negative c.flags ≠ 0 then output (signOf isSigned negative c.flags) aux
      else aux) = outputAll output (signText isSigned negative c) aux := by
  unfold signOf signText
  cases isSigned with
  | false => rfl
  | true =>
      cases negative with
      | true => cases c.flags.plus <;> cases c.flags.space <;> rfl
      | false => cases c.flags.plus <;> cases c.flags.space <;> rfl

theorem sign_length :
    (if signOf isSigned negative c.flags ≠ 0 then (1 : Word) else 0) =
      BitVec.ofNat 32 (signText isSigned negative c).length := by
  unfold signOf signText
  cases isSigned with
  | false => rfl
  | true =>
      cases negative with
      | true => cases c.flags.plus <;> cases c.flags.space <;> rfl
      | false => cases c.flags.plus <;> cases c.flags.space <;> rfl

theorem prefix_eq (known : b ∈ bases) :
    prefixText b c value.toNat =
      if (if c.flags.pound ∧ value ≠ 0 then b.x else 0) ≠ 0 then
        [char '0', if c.flags.pound ∧ value ≠ 0 then b.x else 0]
      else [] := by
  have zero : value.toNat ≠ 0 ↔ value ≠ 0 :=
    ⟨fun other same => other (congrArg BitVec.toNat same),
      fun other same => other (BitVec.eq_of_toNat_eq same)⟩
  have hexadecimal : b.x ≠ 0 ↔ b.base = 16 := by
    simp only [bases, List.mem_cons, List.not_mem_nil, or_false] at known
    rcases known with rfl | rfl | rfl | rfl <;> decide
  unfold prefixText
  by_cases shown : c.flags.pound ∧ value ≠ 0
  · rw [if_pos shown]
    by_cases letter : b.x ≠ 0
    · rw [if_pos ⟨shown.1, zero.mpr shown.2, hexadecimal.mp letter⟩, if_pos letter]
    · rw [if_neg fun all => letter (hexadecimal.mpr all.2.2), if_neg letter]
  · rw [if_neg fun all => shown ⟨all.1, zero.mp all.2.1⟩, if_neg shown, if_neg (by decide)]

theorem prefix_output (known : b ∈ bases) :
    (if (if c.flags.pound ∧ value ≠ 0 then b.x else 0) ≠ 0 then
        output (if c.flags.pound ∧ value ≠ 0 then b.x else 0) (output (char '0') aux)
      else aux) = outputAll output (prefixText b c value.toNat) aux := by
  rw [prefix_eq known]
  generalize (if c.flags.pound ∧ value ≠ 0 then b.x else 0) = x
  split <;> rfl

theorem prefix_length (known : b ∈ bases) :
    (if (if c.flags.pound ∧ value ≠ 0 then b.x else 0) ≠ 0 then (2 : Word) else 0) =
      BitVec.ofNat 32 (prefixText b c value.toNat).length := by
  rw [prefix_eq known]
  generalize (if c.flags.pound ∧ value ≠ 0 then b.x else 0) = x
  split <;> rfl

theorem pad_count_eq (unpadded : Nat) :
    (if (c.width - BitVec.ofNat 32 unpadded).toInt < 0 then 0
      else c.width - BitVec.ofNat 32 unpadded).toNat = padCount c unpadded := by
  unfold padCount
  split <;> rfl

/-- `format_integer` puts out its text, and never stores past the end of its buffer. -/
theorem format_integer_text (known : b ∈ bases) :
    formatInteger output value isSigned negative b c aux =
      .ok (outputAll output (integerText value.toNat isSigned negative b c) aux) := by
  have bounds := base_bounds known
  have few := digit_chars_length known value.isLt
  have short := @digit_text_length b value.toNat c.flags.group
  have enough : value.toNat < b.base ^ 64 := by
    calc
      value.toNat < 2 ^ 64 := value.isLt
      _ ≤ b.base ^ 64 := Nat.pow_le_pow_left (by omega) 64
  have digits := @store_digits_ok b value.toNat 64 (by omega) c.flags.group [] enough (by
    rw [List.length_nil]
    omega)
  have start : storedText b c.flags.group 0 [] = [] := by
    unfold storedText
    rw [digit_chars_zero]
    split <;> rfl
  have all : storedText b c.flags.group value.toNat [] = digitText b c.flags.group value.toNat := by
    unfold storedText digitText
    rw [List.append_nil]
  rw [start, all] at digits
  have zeros := store_zeros_ok (if c.precision.toInt < 0 then 1 else c.precision)
    (63 - (digitText b c.flags.group value.toNat).length)
    (digitText b c.flags.group value.toNat) (by omega)
  have precision : (if c.precision.toInt < 0 then (1 : Word) else c.precision).toInt.toNat =
      shownPrecision c := by
    unfold shownPrecision
    split <;> rfl
  have count : min (63 - (digitText b c.flags.group value.toNat).length)
      (shownPrecision c - (digitText b c.flags.group value.toNat).length) =
      min (shownPrecision c) 63 - (digitText b c.flags.group value.toNat).length := by omega
  rw [precision, count] at zeros
  generalize extended : List.replicate (min (shownPrecision c) 63 -
    (digitText b c.flags.group value.toNat).length) (char '0') ++
    digitText b c.flags.group value.toNat = buf at zeros
  have octal : storeLeading b c.flags.pound buf =
      .ok (magnitudeText b c (min (shownPrecision c) 63) value.toNat) := by
    have room : buf.length < 64 := by
      rw [← extended, List.length_append, List.length_replicate]
      omega
    unfold storeLeading magnitudeText
    simp only [extended]
    split
    · exact store_ok room
    · rfl
  unfold formatInteger
  simp only [List.length_nil] at digits
  simp only [digits, zeros, octal, bind, Except.bind]
  rw [prefix_output known, sign_output, prefix_length known, sign_length, BitVec.sub_sub,
    BitVec.sub_sub, ← BitVec.ofNat_add, ← BitVec.ofNat_add]
  have unpadded : (magnitudeText b c (min (shownPrecision c) 63) value.toNat).length +
      ((prefixText b c value.toNat).length + (signText isSigned negative c).length) =
      (signText isSigned negative c ++ prefixText b c value.toNat ++
        magnitudeText b c (min (shownPrecision c) 63) value.toNat).length := by
    rw [List.length_append, List.length_append]
    omega
  rw [unpadded, pad_count_eq]
  unfold integerText
  simp only [output_dup_all, output_all_append]
  apply congrArg Except.ok
  cases c.flags.minus <;> cases c.flags.zero <;> rfl

theorem magnitude_length (known : b ∈ bases) {precision : Nat} (few : precision ≤ 63) :
    (magnitudeText b c precision value.toNat).length ≤ 64 := by
  have digits := digit_chars_length known value.isLt
  have short := @digit_text_length b value.toNat c.flags.group
  unfold magnitudeText
  simp only
  split
  · rw [List.length_cons, List.length_append, List.length_replicate]
    omega
  · rw [List.length_append, List.length_replicate]
    omega

theorem unpadded_length (known : b ∈ bases) (precise : c.precision.toInt ≤ 63) :
    (unpadded value.toNat isSigned negative b c).length ≤ 67 := by
  have few : shownPrecision c ≤ 63 := by
    unfold shownPrecision
    split <;> omega
  have magnitude := @magnitude_length value b c known _ few
  have sign : (signText isSigned negative c).length ≤ 1 := by
    unfold signText
    cases isSigned <;> cases negative <;> cases c.flags.plus <;> cases c.flags.space <;> decide
  have hexadecimal : (prefixText b c value.toNat).length ≤ 2 := by
    unfold prefixText
    split
    · exact Nat.le_refl _
    · exact Nat.zero_le _
  unfold unpadded
  rw [List.length_append, List.length_append]
  omega

/-- The difference does not wrap for a width that is not negative. -/
theorem pad_count_value (wide : 0 ≤ c.width.toInt) {count : Nat} (few : count ≤ 67) :
    padCount c count = c.width.toInt.toNat - count := by
  have value := BitVec.toInt_eq_toNat_cond c.width
  have bound := c.width.isLt
  have small : 2 * c.width.toNat < 2 ^ 32 := by
    by_contra large
    rw [if_neg large] at value
    omega
  rw [if_pos small] at value
  have size : (BitVec.ofNat 32 count).toInt = count := by
    rw [BitVec.toInt_eq_toNat_of_lt (by rw [BitVec.toNat_ofNat]; omega), BitVec.toNat_ofNat]
    omega
  have difference : (c.width - BitVec.ofNat 32 count).toInt = c.width.toInt - count := by
    rw [BitVec.toInt_sub, size, Int.bmod_eq_of_le (by omega) (by omega)]
  unfold padCount
  rw [difference]
  split
  · omega
  · next positive =>
    have natural := BitVec.toInt_eq_toNat_cond (c.width - BitVec.ofNat 32 count)
    rw [difference] at natural
    split at natural
    · omega
    · have top := (c.width - BitVec.ofNat 32 count).isLt
      omega

theorem rendering_length :
    (rendering value.toNat isSigned negative b c).length =
      max c.width.toInt.toNat (unpadded value.toNat isSigned negative b c).length := by
  have whole : (unpadded value.toNat isSigned negative b c).length =
      (signText isSigned negative c).length + (prefixText b c value.toNat).length +
        (magnitudeText b c (shownPrecision c) value.toNat).length := by
    unfold unpadded
    rw [List.length_append, List.length_append]
  unfold rendering
  simp only
  split
  · rw [List.length_append, List.length_append, List.length_append, List.length_replicate]
    omega
  · split
    · rw [List.length_append, List.length_append, List.length_append, List.length_replicate]
      omega
    · rw [List.length_append, List.length_append, List.length_append, List.length_replicate]
      omega

/-- With both flags the padding is put out twice. -/
theorem integer_text_eq_iff (known : b ∈ bases) (wide : 0 ≤ c.width.toInt)
    (precise : c.precision.toInt ≤ 63) :
    integerText value.toNat isSigned negative b c = rendering value.toNat isSigned negative b c ↔
      ¬(c.flags.minus ∧ c.flags.zero ∧
        (unpadded value.toNat isSigned negative b c).length < c.width.toInt) := by
  have shown : min (shownPrecision c) 63 = shownPrecision c := by
    unfold shownPrecision
    split <;> omega
  have pad := pad_count_value wide
    (@unpadded_length value isSigned negative b c known precise)
  have length : (integerText value.toNat isSigned negative b c).length =
      (unpadded value.toNat isSigned negative b c).length +
        (if c.flags.minus ∧ c.flags.zero then 2 else 1) *
          (c.width.toInt.toNat - (unpadded value.toNat isSigned negative b c).length) := by
    rw [← pad]
    unfold integerText
    simp only [shown]
    unfold unpadded
    cases c.flags.minus <;> cases c.flags.zero <;> simp <;> omega
  constructor
  · intro same both
    have sizes := congrArg List.length same
    rw [length, rendering_length, if_pos ⟨both.1, both.2.1⟩] at sizes
    omega
  · intro notBoth
    unfold integerText rendering
    simp only [shown]
    have count : padCount c (signText isSigned negative c ++ prefixText b c value.toNat ++
        magnitudeText b c (shownPrecision c) value.toNat).length =
        c.width.toInt.toNat - (unpadded value.toNat isSigned negative b c).length := pad
    rw [count]
    cases minus : c.flags.minus with
    | false => cases c.flags.zero <;> simp
    | true =>
        cases zero : c.flags.zero with
        | false => simp
        | true =>
            have none_ : c.width.toInt.toNat -
                (unpadded value.toNat isSigned negative b c).length = 0 := by
              by_contra some_
              exact notBoth ⟨minus, zero, by omega⟩
            rw [none_]
            simp

end Conversions

/-- The text that is asked for is put out, and it is as long as it has to be. -/
def PrintsAsAsked (value : BitVec 64) (isSigned negative : Bool) (b : IntegerBase)
    (c : Conversion) : Prop :=
  ∃ out, formatInteger collect value isSigned negative b c [] = .ok out ∧
    out = rendering value.toNat isSigned negative b c ∧
    out.length = max c.width.toInt.toNat (unpadded value.toNat isSigned negative b c).length

/-- `format_integer` stays inside its buffer, and prints what is asked for unless both zeros and
blanks behind the digits are. -/
theorem format_integer_prints_iff (value : BitVec 64) (isSigned negative : Bool) {b : IntegerBase}
    {c : Conversion} (known : b ∈ bases) (wide : 0 ≤ c.width.toInt)
    (precise : c.precision.toInt ≤ 63) :
    (∃ out, formatInteger collect value isSigned negative b c [] = .ok out) ∧
      (PrintsAsAsked value isSigned negative b c ↔
        ¬(c.flags.minus ∧ c.flags.zero ∧
          (unpadded value.toNat isSigned negative b c).length < c.width.toInt)) := by
  have printed : formatInteger collect value isSigned negative b c [] =
      .ok (integerText value.toNat isSigned negative b c) := by
    rw [format_integer_text known, collect_all, List.nil_append]
  refine ⟨⟨_, printed⟩, ?_⟩
  rw [← integer_text_eq_iff known wide precise]
  constructor
  · intro ⟨out, ran, asked, _⟩
    rw [printed] at ran
    cases ran
    exact asked
  · intro same
    exact ⟨_, printed, same, by rw [same, rendering_length]⟩

/-- Sixteen in octal, five characters wide. -/
theorem format_integer_prints_sixteen :
    PrintsAsAsked 16 false false baseO ⟨noFlags, 5, -1, .int⟩ ↔
      ¬(noFlags.minus ∧ noFlags.zero ∧
        (unpadded 16 false false baseO ⟨noFlags, 5, -1, .int⟩).length < (5 : Word).toInt) :=
  (format_integer_prints_iff 16 false false (b := baseO) (c := ⟨noFlags, 5, -1, .int⟩)
    (by simp [bases]) (by decide) (by decide)).2

/-- What `%0*d` gives for a width of -5. -/
def zeroLeft : Conversion := ⟨⟨true, false, false, false, true, false⟩, 5, -1, .int⟩

/-- 7 takes nine characters with it, not five. -/
theorem zeros_and_blanks :
    parseConversion (text "0*d" ++ [0]) (fun _ => -5) =
      .ok (zeroLeft, text "d" ++ [0], dropArgs (fun _ => -5) 1) ∧
    formatInteger collect 7 true false baseD zeroLeft [] = .ok (text "00007    ") ∧
    ¬PrintsAsAsked 7 true false baseD zeroLeft := by
  have printed : formatInteger collect 7 true false baseD zeroLeft [] =
      .ok (text "00007    ") := by decide
  refine ⟨rfl, printed, ?_⟩
  intro ⟨out, ran, _, length⟩
  rw [printed] at ran
  cases ran
  have digits : digitChars baseD 7 = [char '7'] := by
    rw [digit_chars_step (by decide) (by decide), show 7 / baseD.base = 0 from rfl, digit_chars_zero]
    rfl
  have one : unpadded (7 : BitVec 64).toNat true false baseD zeroLeft = [char '7'] := by
    change magnitudeText baseD zeroLeft (shownPrecision zeroLeft) 7 = _
    unfold magnitudeText digitText
    rw [digits]
    rfl
  rw [one] at length
  exact absurd length (by decide)

end UtSystems.Libc.IntegerFormat

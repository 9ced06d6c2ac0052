import UtSystems.Lib.LongDivision

/-!
# 64-bit division in software

The routines the compiler calls for 64-bit `/` and `%`, over the DIVL instruction. An instruction
that traps has no result. Words are bit vectors; a signed value is the two's complement reading
of its word, and the negation of the least one is itself.
-/

namespace UtSystems.Libc.Arithmetic

open Lib.LongDivision

set_option autoImplicit false

/-- DIVL divides EDX:EAX and traps when the quotient does not fit in EAX. -/
def divInstruction (edx eax d : BitVec 32) : Option (BitVec 32) :=
  let dividend := 2 ^ 32 * edx.toNat + eax.toNat
  if d.toNat = 0 ∨ 2 ^ 32 ≤ dividend / d.toNat then none
  else some (BitVec.ofNat 32 (dividend / d.toNat))

def divl (n : BitVec 64) (d : BitVec 32) : Option (BitVec 32) :=
  let n1 := (n >>> 32).setWidth 32
  let n0 := n.setWidth 32
  divInstruction n1 n0 d

/-- One test of the search for the high bit. -/
def nlzStep (bound : BitVec 32) (shift : Nat) (found : Nat × BitVec 32) : Nat × BitVec 32 :=
  if found.2 ≤ bound then (found.1 + shift, found.2 <<< shift) else found

def nlz (x : BitVec 32) : Nat :=
  let found := nlzStep 0x0000FFFF 16 (0, x)
  let found := nlzStep 0x00FFFFFF 8 found
  let found := nlzStep 0x0FFFFFFF 4 found
  let found := nlzStep 0x3FFFFFFF 2 found
  if found.2 ≤ 0x7FFFFFFF then found.1 + 1 else found.1

def udiv64 (n d : BitVec 64) : Option (BitVec 64) :=
  if d >>> 32 = 0 then do
    let b := 1#64 <<< 32
    let n1 := (n >>> 32).setWidth 32
    let n0 := n.setWidth 32
    let d0 := d.setWidth 32
    let q ← divl (b * (n1 % d0).setWidth 64 + n0.setWidth 64) d0
    return q.setWidth 64 + b * (n1 / d0).setWidth 64
  else if n < d then
    return 0
  else do
    let d1 := (d >>> 32).setWidth 32
    let s := nlz d1
    let high ← divl (n >>> 1) ((d <<< s >>> 32).setWidth 32)
    let q := (high >>> (31 - s)).setWidth 64
    return if n - (q - 1) * d < d then q - 1 else q

/-- The remainder passes through a 32-bit result. -/
def umod64 (n d : BitVec 64) : Option (BitVec 32) := do
  let q ← udiv64 n d
  return (n - d * q).setWidth 32

def magnitude (n : BitVec 64) : BitVec 64 :=
  if 0 ≤ n.toInt then n else -n

def sdiv64 (n d : BitVec 64) : Option (BitVec 64) := do
  let qAbs ← udiv64 (magnitude n) (magnitude d)
  return if (n.toInt < 0 ↔ d.toInt < 0) then qAbs else -qAbs

/-- The remainder passes through a 32-bit result. -/
def smod64 (n d : BitVec 64) : Option (BitVec 32) := do
  let q ← sdiv64 n d
  return (n - d * q).setWidth 32

def divdi3 (n d : BitVec 64) : Option (BitVec 64) :=
  sdiv64 n d

def moddi3 (n d : BitVec 64) : Option (BitVec 64) := do
  let r ← smod64 n d
  return r.signExtend 64

def udivdi3 (n d : BitVec 64) : Option (BitVec 64) :=
  udiv64 n d

def umoddi3 (n d : BitVec 64) : Option (BitVec 64) := do
  let r ← umod64 n d
  return r.setWidth 64

section Instruction

variable {n : BitVec 64} {d : BitVec 32}

theorem word_halves (n : BitVec 64) :
    2 ^ 32 * ((n >>> 32).setWidth 32).toNat + (n.setWidth 32).toNat = n.toNat := by
  have bound := n.isLt
  simp only [BitVec.toNat_setWidth, BitVec.toNat_ushiftRight, Nat.shiftRight_eq_div_pow]
  omega

/-- DIVL is the quotient of the whole dividend whenever the quotient fits. -/
theorem divl_eq (positive : 0 < d.toNat) (fits : n.toNat / d.toNat < 2 ^ 32) :
    ∃ q, divl n d = some q ∧ q.toNat = n.toNat / d.toNat := by
  refine ⟨BitVec.ofNat 32 (n.toNat / d.toNat), ?_, ?_⟩
  · simp only [divl, divInstruction, word_halves]
    exact if_neg (by omega)
  · rw [BitVec.toNat_ofNat, Nat.mod_eq_of_lt fits]

end Instruction

section LeadingZeros

/-- `found` is `x` shifted left by the count, its high bit among the upper `width` ones. -/
structure Narrowed (x : BitVec 32) (width : Nat) (found : Nat × BitVec 32) : Prop where
  shifted : found.2.toNat = x.toNat * 2 ^ found.1
  high : 2 ^ (32 - width) ≤ found.2.toNat

variable {x : BitVec 32} {found : Nat × BitVec 32} {width : Nat}

theorem nlz_step_narrows (narrowed : Narrowed x width found) (bound : BitVec 32) (shift : Nat)
    (half : shift + shift = width) (short : width ≤ 32)
    (isBound : bound.toNat + 1 = 2 ^ (32 - shift)) :
    Narrowed x shift (nlzStep bound shift found) := by
  have powers : 2 ^ (32 - shift) * 2 ^ shift = 2 ^ 32 := by
    rw [← Nat.pow_add]
    congr 1
    omega
  have wider : 2 ^ (32 - width) * 2 ^ shift = 2 ^ (32 - shift) := by
    rw [← Nat.pow_add]
    congr 1
    omega
  cases Nat.lt_or_ge bound.toNat found.2.toNat with
  | inl above =>
      have kept : nlzStep bound shift found = found :=
        if_neg (by simpa only [BitVec.le_def, Nat.not_le] using above)
      rw [kept]
      exact ⟨narrowed.shifted, by omega⟩
  | inr below =>
      have moved : nlzStep bound shift found = (found.1 + shift, found.2 <<< shift) :=
        if_pos (BitVec.le_def.mpr below)
      have fits : found.2.toNat * 2 ^ shift < 2 ^ 32 := by
        rw [← powers]
        exact Nat.mul_lt_mul_of_pos_right (by omega) (Nat.two_pow_pos shift)
      have value : (found.2 <<< shift).toNat = found.2.toNat * 2 ^ shift := by
        rw [BitVec.toNat_shiftLeft, Nat.shiftLeft_eq, Nat.mod_eq_of_lt fits]
      rw [moved]
      constructor
      · rw [value, narrowed.shifted, Nat.pow_add, Nat.mul_assoc]
      · rw [value, ← wider]
        exact Nat.mul_le_mul_right _ narrowed.high

theorem nlz_normalises (nonzero : 0 < x.toNat) :
    2 ^ 31 ≤ x.toNat * 2 ^ nlz x ∧ x.toNat * 2 ^ nlz x < 2 ^ 32 := by
  have start : Narrowed x 32 (0, x) := ⟨by simp, nonzero⟩
  have half := nlz_step_narrows start 0x0000FFFF 16 rfl (by decide) (by decide)
  have byte := nlz_step_narrows half 0x00FFFFFF 8 rfl (by decide) (by decide)
  have nibble := nlz_step_narrows byte 0x0FFFFFFF 4 rfl (by decide) (by decide)
  have pair := nlz_step_narrows nibble 0x3FFFFFFF 2 rfl (by decide) (by decide)
  have last := nlz_step_narrows pair 0x7FFFFFFF 1 rfl (by decide) (by decide)
  have count : ∀ found, (nlzStep 0x7FFFFFFF 1 found).1 =
      if found.2 ≤ 0x7FFFFFFF then found.1 + 1 else found.1 := by
    intro found
    simp only [nlzStep, apply_ite Prod.fst]
  change 2 ^ 31 ≤ x.toNat * 2 ^ (if _ then _ else _) ∧ x.toNat * 2 ^ (if _ then _ else _) < 2 ^ 32
  rw [← count, ← last.shifted]
  exact ⟨last.high, BitVec.isLt _⟩

theorem nlz_lt (nonzero : 0 < x.toNat) : nlz x < 32 := by
  have below := (nlz_normalises nonzero).2
  apply (Nat.pow_lt_pow_iff_right (a := 2) (by decide)).mp
  calc 2 ^ nlz x = 1 * 2 ^ nlz x := (Nat.one_mul _).symm
    _ ≤ x.toNat * 2 ^ nlz x := Nat.mul_le_mul_right _ nonzero
    _ < 2 ^ 32 := below

end LeadingZeros

section Unsigned

variable {n d : BitVec 64}

theorem high_zero_iff : d >>> 32 = 0 ↔ d.toNat < 2 ^ 32 := by
  have bound := d.isLt
  rw [← BitVec.toNat_inj, BitVec.toNat_ushiftRight, Nat.shiftRight_eq_div_pow]
  change d.toNat / 2 ^ 32 = 0 ↔ d.toNat < 2 ^ 32
  omega

/-- A word above another is the number they spell. -/
theorem joined_words {upper lower : BitVec 32} :
    (1#64 <<< 32 * upper.setWidth 64 + lower.setWidth 64).toNat =
      2 ^ 32 * upper.toNat + lower.toNat := by
  have upperBound := upper.isLt
  have lowerBound := lower.isLt
  have base : (1#64 <<< 32).toNat = 2 ^ 32 := by decide
  rw [BitVec.toNat_add, BitVec.toNat_mul, base, BitVec.toNat_setWidth, BitVec.toNat_setWidth]
  omega

theorem udiv64_short (positive : 0 < d.toNat) (short : d.toNat < 2 ^ 32) :
    ∃ q, udiv64 n d = some q ∧ q.toNat = n.toNat / d.toNat := by
  have low : (d.setWidth 32).toNat = d.toNat := by
    rw [BitVec.toNat_setWidth, Nat.mod_eq_of_lt short]
  let n1 : BitVec 32 := (n >>> 32).setWidth 32
  let n0 : BitVec 32 := n.setWidth 32
  have halves : 2 ^ 32 * n1.toNat + n0.toNat = n.toNat := word_halves n
  have remainder : (n1 % d.setWidth 32).toNat = n1.toNat % d.toNat := by
    rw [BitVec.toNat_umod, low]
  have quotient : (n1 / d.setWidth 32).toNat = n1.toNat / d.toNat := by
    rw [BitVec.toNat_udiv, low]
  have dividend : (1#64 <<< 32 * (n1 % d.setWidth 32).setWidth 64 + n0.setWidth 64).toNat =
      2 ^ 32 * (n1.toNat % d.toNat) + n0.toNat := by
    rw [joined_words, remainder]
  have steps := @two_step_quotient (2 ^ 32) n1.toNat n0.toNat d.toNat positive
  obtain ⟨q, divided, isQ⟩ := divl_eq (by rw [low]; exact positive) (by
    rw [dividend, low]
    exact second_quotient_lt positive n0.isLt)
  rw [dividend, low] at isQ
  refine ⟨q.setWidth 64 + 1#64 <<< 32 * (n1 / d.setWidth 32).setWidth 64, ?_, ?_⟩
  · unfold udiv64
    rw [if_pos (high_zero_iff.mpr short)]
    change (divl (1#64 <<< 32 * (n1 % d.setWidth 32).setWidth 64 + n0.setWidth 64)
      (d.setWidth 32)).bind _ = _
    rw [divided]
    rfl
  · rw [BitVec.add_comm, joined_words, quotient, isQ, ← halves, ← steps, Nat.add_comm]

/-- The upper word of the shifted divisor. -/
theorem shifted_divisor {s : Nat} (fits : (d.toNat / 2 ^ 32) * 2 ^ s < 2 ^ 32) (small : s ≤ 32) :
    (d <<< s).toNat = d.toNat * 2 ^ s := by
  have powers : 2 ^ (32 - s) * 2 ^ s = 2 ^ 32 := by
    rw [← Nat.pow_add]
    congr 1
    omega
  have upper : d.toNat / 2 ^ 32 < 2 ^ (32 - s) := by
    apply Nat.lt_of_mul_lt_mul_right (a := 2 ^ s)
    rw [powers]
    exact fits
  have bound : d.toNat * 2 ^ s < 2 ^ 64 := by
    calc d.toNat * 2 ^ s < 2 ^ (32 - s) * 2 ^ 32 * 2 ^ s := by
          apply Nat.mul_lt_mul_of_pos_right _ (Nat.two_pow_pos s)
          exact (Nat.div_lt_iff_lt_mul (by decide)).mp upper
      _ = 2 ^ (32 - s) * 2 ^ s * 2 ^ 32 := by ring
      _ = 2 ^ 64 := by rw [powers]; norm_num
  rw [BitVec.toNat_shiftLeft, Nat.shiftLeft_eq, Nat.mod_eq_of_lt bound]

theorem divisor_normalised {s : Nat} (small : s < 32)
    (high : 2 ^ 31 ≤ d.toNat / 2 ^ 32 * 2 ^ s) :
    Normalised d.toNat (2 ^ s) (2 ^ (31 - s)) (2 ^ 31) (d.toNat * 2 ^ s / 2 ^ 32) where
  powers := by
    rw [← Nat.pow_add]
    congr 1
    omega
  unscalePositive := Nat.two_pow_pos _
  high := by
    rw [Nat.le_div_iff_mul_le (by decide)]
    calc 2 ^ 31 * 2 ^ 32 ≤ d.toNat / 2 ^ 32 * 2 ^ s * 2 ^ 32 := Nat.mul_le_mul_right _ high
      _ = d.toNat / 2 ^ 32 * 2 ^ 32 * 2 ^ s := by ring
      _ ≤ d.toNat * 2 ^ s := Nat.mul_le_mul_right _ (Nat.div_mul_le_self _ _)
  below := Nat.div_mul_le_self _ _
  above := by
    have above := Nat.lt_mul_div_succ (d.toNat * 2 ^ s) (show 0 < 2 ^ 32 by decide)
    rwa [Nat.mul_comm (2 ^ 32)] at above

/-- The correction test does not wrap. -/
theorem corrected_word {q : BitVec 64} (positive : 0 < d.toNat) (whole : d.toNat ≤ n.toNat)
    (least : n.toNat / d.toNat ≤ q.toNat) (most : q.toNat ≤ n.toNat / d.toNat + 1) :
    (if n - (q - 1) * d < d then q - 1 else q).toNat = n.toNat / d.toNat := by
  have nBound := n.isLt
  have one : 0 < n.toNat / d.toNat := Nat.div_pos whole positive
  have below := estimate_times_le most
  have less : (q - 1).toNat = q.toNat - 1 := by
    rw [BitVec.toNat_sub_of_le (BitVec.le_def.mpr (Nat.le_trans one least))]
    rfl
  have product : ((q - 1) * d).toNat = (q.toNat - 1) * d.toNat := by
    rw [BitVec.toNat_mul, less, Nat.mod_eq_of_lt (by omega)]
  have left : (n - (q - 1) * d).toNat = n.toNat - (q.toNat - 1) * d.toNat := by
    rw [BitVec.toNat_sub_of_le (BitVec.le_def.mpr (by rw [product]; exact below)), product]
  have corrected := corrected_quotient positive whole least most
  simp only [apply_ite BitVec.toNat, BitVec.lt_def, left, less, corrected]

theorem udiv64_corrects (long : 2 ^ 32 ≤ d.toNat) (whole : d.toNat ≤ n.toNat) {estimate : BitVec 32}
    (divided : divl (n >>> 1)
      ((d <<< nlz ((d >>> 32).setWidth 32) >>> 32).setWidth 32) = some estimate) :
    udiv64 n d = some (
      let q := (estimate >>> (31 - nlz ((d >>> 32).setWidth 32))).setWidth 64
      if n - (q - 1) * d < d then q - 1 else q) := by
  have notShort : ¬d >>> 32 = 0 := fun zero => Nat.not_lt.mpr long (high_zero_iff.mp zero)
  have notLess : ¬n < d := Nat.not_lt.mpr whole
  simp only [udiv64, notShort, notLess, if_false, divided]
  rfl

theorem udiv64_long (long : 2 ^ 32 ≤ d.toNat) (whole : d.toNat ≤ n.toNat) :
    ∃ q, udiv64 n d = some q ∧ q.toNat = n.toNat / d.toNat := by
  have nBound := n.isLt
  have dBound := d.isLt
  let d1 : BitVec 32 := (d >>> 32).setWidth 32
  have isUpper : d1.toNat = d.toNat / 2 ^ 32 := by
    have small : d.toNat / 2 ^ 32 < 2 ^ 32 := by omega
    change ((d >>> 32).setWidth 32).toNat = _
    rw [BitVec.toNat_setWidth, BitVec.toNat_ushiftRight, Nat.shiftRight_eq_div_pow,
      Nat.mod_eq_of_lt small]
  have upperPositive : 0 < d1.toNat := by
    rw [isUpper]
    omega
  obtain ⟨s, isS⟩ : ∃ s, s = nlz d1 := ⟨_, rfl⟩
  obtain ⟨high, fits⟩ := nlz_normalises upperPositive
  have small := nlz_lt upperPositive
  rw [← isS] at high fits small
  rw [isUpper] at high fits
  have normal := divisor_normalised small high
  have shifted := shifted_divisor fits (Nat.le_of_lt small)
  have isLeading : ((d <<< s >>> 32).setWidth 32).toNat = d.toNat * 2 ^ s / 2 ^ 32 := by
    have bound := (d <<< s).isLt
    rw [shifted] at bound
    rw [BitVec.toNat_setWidth, BitVec.toNat_ushiftRight, Nat.shiftRight_eq_div_pow, shifted]
    omega
  have isHalf : (n >>> 1).toNat = n.toNat / 2 := by
    rw [BitVec.toNat_ushiftRight, Nat.shiftRight_eq_div_pow, Nat.pow_one]
  have dividendFits : n.toNat < 2 * 2 ^ 31 * (2 * 2 ^ 31) := nBound
  obtain ⟨estimate, divided, isEstimate⟩ := @divl_eq (n >>> 1) _
    (by rw [isLeading]; exact normal.leading_positive) (by
      rw [isLeading, isHalf]
      exact normal.estimate_lt dividendFits)
  rw [isLeading, isHalf] at isEstimate
  let q : BitVec 64 := (estimate >>> (31 - s)).setWidth 64
  have isQ : q.toNat = n.toNat / 2 / (d.toNat * 2 ^ s / 2 ^ 32) / 2 ^ (31 - s) := by
    have bound : (estimate >>> (31 - s)).toNat < 2 ^ 64 :=
      Nat.lt_trans (BitVec.isLt _) (by decide)
    change ((estimate >>> (31 - s)).setWidth 64).toNat = _
    rw [BitVec.toNat_setWidth, Nat.mod_eq_of_lt bound, BitVec.toNat_ushiftRight,
      Nat.shiftRight_eq_div_pow, isEstimate]
  have least : n.toNat / d.toNat ≤ q.toNat := by
    rw [isQ]
    exact normal.estimate_ge
  have most : q.toNat ≤ n.toNat / d.toNat + 1 := by
    rw [isQ]
    exact normal.estimate_le long dividendFits
  refine ⟨if n - (q - 1) * d < d then q - 1 else q, ?_, ?_⟩
  · rw [isS] at divided
    rw [udiv64_corrects long whole divided, ← isS]
  · exact corrected_word (by omega) whole least most

theorem udiv64_eq (nonzero : d ≠ 0) : udiv64 n d = some (n / d) := by
  have positive : 0 < d.toNat := Nat.pos_of_ne_zero (BitVec.toNat_ne_iff_ne.mpr nonzero)
  have quotient : ∃ q, udiv64 n d = some q ∧ q.toNat = n.toNat / d.toNat := by
    cases Nat.lt_or_ge d.toNat (2 ^ 32) with
    | inl short => exact udiv64_short positive short
    | inr long =>
        cases Nat.lt_or_ge n.toNat d.toNat with
        | inl less =>
            have notShort : ¬d >>> 32 = 0 :=
              fun zero => Nat.not_lt.mpr long (high_zero_iff.mp zero)
            refine ⟨0, ?_, (Nat.div_eq_of_lt less).symm⟩
            unfold udiv64
            rw [if_neg notShort, if_pos (BitVec.lt_def.mpr less)]
            rfl
        | inr whole => exact udiv64_long long whole
  obtain ⟨q, divided, isQ⟩ := quotient
  rw [divided, Option.some_inj, ← BitVec.toNat_inj, isQ, BitVec.toNat_udiv]

end Unsigned

section Signed

variable {n d : BitVec 64}

theorem magnitude_ne_zero (nonzero : d ≠ 0) : magnitude d ≠ 0 := by
  unfold magnitude
  split
  · exact nonzero
  · simpa using nonzero

theorem sdiv64_eq (nonzero : d ≠ 0) : sdiv64 n d = some (n.sdiv d) := by
  unfold sdiv64
  rw [udiv64_eq (magnitude_ne_zero nonzero), BitVec.sdiv_eq, BitVec.msb_eq_toInt,
    BitVec.msb_eq_toInt]
  by_cases nSign : n.toInt < 0 <;> by_cases dSign : d.toInt < 0 <;>
    simp [magnitude, nSign, dSign, Int.not_le.mpr, Int.not_lt.mp]

theorem divdi3_truncates (nonzero : d ≠ 0) (defined : ¬(n = BitVec.intMin 64 ∧ d = -1)) :
    ∃ q, divdi3 n d = some q ∧ q.toInt = n.toInt.tdiv d.toInt := by
  refine ⟨n.sdiv d, sdiv64_eq nonzero, ?_⟩
  apply BitVec.toInt_sdiv_of_ne_or_ne
  rw [← not_and_or]
  exact defined

/-- The remainder before it is narrowed. -/
theorem signed_remainder (n d : BitVec 64) :
    (n - d * n.sdiv d).toInt = n.toInt.tmod d.toInt := by
  have bounded : (n.toInt.tmod d.toInt).bmod (2 ^ 64) = n.toInt.tmod d.toInt := by
    rw [← BitVec.toInt_srem, BitVec.toInt_bmod_cancel]
  rw [BitVec.toInt_sub, BitVec.toInt_mul, BitVec.toInt_sdiv, Int.mul_bmod_bmod,
    Int.sub_bmod_bmod, ← Int.tmod_def, bounded]

end Signed

/-- The unsigned quotient is the floor and no DIVL traps; the signed one truncates toward zero. -/
theorem quotients_are_exact :
    (∀ n d : BitVec 64, d ≠ 0 → ∃ q, udiv64 n d = some q ∧ q.toNat = n.toNat / d.toNat) ∧
      ∀ n d : BitVec 64, d ≠ 0 → ¬(n = BitVec.intMin 64 ∧ d = -1) →
        ∃ q, divdi3 n d = some q ∧ q.toInt = n.toInt.tdiv d.toInt := by
  constructor
  · intro n d nonzero
    exact ⟨n / d, udiv64_eq nonzero, BitVec.toNat_udiv⟩
  · intro n d nonzero defined
    exact divdi3_truncates nonzero defined

/-- The least word by one, and a quotient the estimate misses by one. -/
theorem quotients_are_exact_extremes :
    (∃ q, udiv64 0xFFFFFFFFFFFFFFFF 0x1FFFFFFFF = some q ∧ q.toNat = 0x80000000) ∧
      ∃ q, divdi3 (BitVec.intMin 64) 1 = some q ∧ q.toInt = -2 ^ 63 :=
  ⟨quotients_are_exact.1 0xFFFFFFFFFFFFFFFF 0x1FFFFFFFF (by decide),
    quotients_are_exact.2 (BitVec.intMin 64) 1 (by decide) (by decide)⟩

section Remainders

def UnsignedRemainder (n d : BitVec 64) : Prop :=
  ∃ q r, udivdi3 n d = some q ∧ umoddi3 n d = some r ∧ r = n - d * q ∧ r < d

def SignedRemainder (n d : BitVec 64) : Prop :=
  ∃ r, moddi3 n d = some r ∧ r.toInt = n.toInt.tmod d.toInt ∧
    (0 < r.toInt → 0 < n.toInt) ∧ (r.toInt < 0 → n.toInt < 0) ∧
    r.toInt.natAbs < d.toInt.natAbs

variable {n d : BitVec 64}

theorem umoddi3_eq (nonzero : d ≠ 0) :
    umoddi3 n d = some (((n - d * (n / d)).setWidth 32).setWidth 64) := by
  simp only [umoddi3, umod64, udiv64_eq nonzero]
  rfl

theorem unsigned_remainder (n d : BitVec 64) : (n - d * (n / d)).toNat = n.toNat % d.toNat := by
  have nBound := n.isLt
  have below := Nat.mul_div_le n.toNat d.toNat
  have parts := Nat.div_add_mod n.toNat d.toNat
  have product : (d * (n / d)).toNat = d.toNat * (n.toNat / d.toNat) := by
    rw [BitVec.toNat_mul, BitVec.toNat_udiv, Nat.mod_eq_of_lt (by omega)]
  rw [BitVec.toNat_sub_of_le (BitVec.le_def.mpr (by rw [product]; exact below)), product]
  omega

theorem unsigned_remainder_iff (nonzero : d ≠ 0) :
    UnsignedRemainder n d ↔ n.toNat % d.toNat < 2 ^ 32 := by
  have positive : 0 < d.toNat := Nat.pos_of_ne_zero (BitVec.toNat_ne_iff_ne.mpr nonzero)
  have whole := unsigned_remainder n d
  have narrow : (((n - d * (n / d)).setWidth 32).setWidth 64).toNat =
      n.toNat % d.toNat % 2 ^ 32 := by
    rw [BitVec.toNat_setWidth, BitVec.toNat_setWidth, whole]
    omega
  constructor
  · intro right
    obtain ⟨q, r, divided, reduced, isRemainder, _⟩ := right
    have isQ : n / d = q := Option.some.inj ((udiv64_eq nonzero).symm.trans divided)
    have isR := Option.some.inj ((umoddi3_eq nonzero).symm.trans reduced)
    rw [isR, isRemainder, ← isQ, whole] at narrow
    rw [narrow]
    exact Nat.mod_lt _ (by decide)
  · intro fits
    rw [Nat.mod_eq_of_lt fits] at narrow
    refine ⟨n / d, _, udiv64_eq nonzero, umoddi3_eq nonzero, ?_, ?_⟩
    · rw [← BitVec.toNat_inj, narrow, whole]
    · rw [BitVec.lt_def, narrow]
      exact Nat.mod_lt _ positive

theorem moddi3_eq (nonzero : d ≠ 0) :
    moddi3 n d = some (((n - d * n.sdiv d).setWidth 32).signExtend 64) := by
  simp only [moddi3, smod64, sdiv64_eq nonzero]
  rfl

theorem signed_remainder_iff (nonzero : d ≠ 0) :
    SignedRemainder n d ↔
      -2 ^ 31 ≤ n.toInt.tmod d.toInt ∧ n.toInt.tmod d.toInt < 2 ^ 31 := by
  have divisor : d.toInt ≠ 0 := by
    rw [← BitVec.toInt_zero, Ne, BitVec.toInt_inj]
    exact nonzero
  have whole := signed_remainder n d
  have narrow : (((n - d * n.sdiv d).setWidth 32).signExtend 64).toInt =
      (n.toInt.tmod d.toInt).bmod (2 ^ 32) := by
    rw [BitVec.toInt_signExtend_of_le (by decide), BitVec.toInt_setWidth, ← whole,
      BitVec.toInt_eq_toNat_bmod, Int.bmod_bmod_of_dvd (by decide)]
  constructor
  · intro right
    obtain ⟨r, reduced, isRemainder, _⟩ := right
    have isR := Option.some.inj ((moddi3_eq nonzero).symm.trans reduced)
    rw [isR, isRemainder] at narrow
    have low := @Int.le_bmod (n.toInt.tmod d.toInt) (2 ^ 32) (by decide)
    have high := @Int.bmod_lt (n.toInt.tmod d.toInt) (2 ^ 32) (by decide)
    rw [← narrow] at low high
    exact ⟨low, high⟩
  · intro fits
    rw [Int.bmod_eq_of_le fits.1 fits.2] at narrow
    refine ⟨_, moddi3_eq nonzero, narrow, ?_, ?_, ?_⟩
    all_goals rw [narrow]
    · intro positive
      by_contra negative
      have opposite := Int.tmod_nonneg d.toInt (Int.neg_nonneg.mpr (Int.not_lt.mp negative))
      rw [Int.neg_tmod] at opposite
      omega
    · intro negative
      by_contra nonnegative
      have same := Int.tmod_nonneg d.toInt (Int.not_lt.mp nonnegative)
      omega
    · rw [Int.natAbs_tmod]
      exact Nat.mod_lt _ (Int.natAbs_pos.mpr divisor)

end Remainders

/-- The remainders are right exactly when they fit in the 32-bit results of the helpers. -/
theorem remainders_right_iff (n d : BitVec 64) (nonzero : d ≠ 0) :
    (UnsignedRemainder n d ↔ n.toNat % d.toNat < 2 ^ 32) ∧
      (¬(n = BitVec.intMin 64 ∧ d = -1) → (SignedRemainder n d ↔
        -2 ^ 31 ≤ n.toInt.tmod d.toInt ∧ n.toInt.tmod d.toInt < 2 ^ 31)) :=
  ⟨unsigned_remainder_iff nonzero, fun _ => signed_remainder_iff nonzero⟩

theorem remainders_right_iff_seven :
    (UnsignedRemainder 7 2 ↔ 1 < 2 ^ 32) ∧
      (SignedRemainder 7 2 ↔ (-2 ^ 31 : Int) ≤ 1 ∧ (1 : Int) < 2 ^ 31) :=
  ⟨(remainders_right_iff 7 2 (by decide)).1, (remainders_right_iff 7 2 (by decide)).2 (by decide)⟩

/-- 2^32 modulo 2^33 comes out as zero, and 2^31 modulo 2^32 as a negative remainder. -/
theorem wide_remainder_is_lost :
    ¬UnsignedRemainder 0x100000000 0x200000000 ∧ ¬SignedRemainder 0x80000000 0x100000000 := by
  rw [unsigned_remainder_iff (by decide), signed_remainder_iff (by decide)]
  decide

end UtSystems.Libc.Arithmetic

import Mathlib.Tactic.Ring
import Mathlib.Tactic.Linarith

/-!
# Division of two words by one

A machine divides two words by one word when the quotient fits in a word. Longer quotients are
put together from two such divisions; longer divisors are normalised first, and the quotient by
their upper word overestimates by at most one.
-/

namespace UtSystems.Lib.LongDivision

set_option autoImplicit false

section ShortDivisor

variable {base upper lower divisor : Nat}

/-- The remainder of the upper word leaves a second division whose quotient is one word. -/
theorem second_quotient_lt (positive : 0 < divisor) (fits : lower < base) :
    (base * (upper % divisor) + lower) / divisor < base := by
  rw [Nat.div_lt_iff_lt_mul positive]
  have remainder : upper % divisor + 1 ≤ divisor := Nat.mod_lt upper positive
  calc base * (upper % divisor) + lower < base * (upper % divisor) + base := by omega
    _ = base * (upper % divisor + 1) := by ring
    _ ≤ base * divisor := Nat.mul_le_mul_left base remainder

theorem two_step_quotient (positive : 0 < divisor) :
    (base * (upper % divisor) + lower) / divisor + base * (upper / divisor) =
      (base * upper + lower) / divisor := by
  have whole : base * upper + lower =
      base * (upper % divisor) + lower + divisor * (base * (upper / divisor)) := by
    conv_lhs => rw [← Nat.div_add_mod upper divisor]
    ring
  rw [whole, Nat.add_mul_div_left _ _ positive]

end ShortDivisor

section LongDivisor

/-- A divisor of two words shifted so that its upper word has its high bit set: the upper word
is `leading`, and `half` is the least word with that bit. -/
structure Normalised (divisor scale unscale half leading : Nat) : Prop where
  powers : scale * unscale = half
  unscalePositive : 0 < unscale
  high : half ≤ leading
  below : leading * (2 * half) ≤ divisor * scale
  above : divisor * scale < (leading + 1) * (2 * half)

variable {dividend divisor scale unscale half leading : Nat}

namespace Normalised

theorem half_positive (normal : Normalised divisor scale unscale half leading) : 0 < half := by
  cases half with
  | zero =>
      have above := normal.above
      omega
  | succ rest => exact Nat.succ_pos rest

theorem scale_positive (normal : Normalised divisor scale unscale half leading) : 0 < scale := by
  have half := normal.half_positive
  rw [← normal.powers] at half
  exact Nat.pos_of_mul_pos_right half

theorem leading_positive (normal : Normalised divisor scale unscale half leading) :
    0 < leading :=
  Nat.lt_of_lt_of_le normal.half_positive normal.high

theorem prefix_le (normal : Normalised divisor scale unscale half leading) :
    2 * (leading * unscale) ≤ divisor := by
  apply Nat.le_of_mul_le_mul_right _ normal.scale_positive
  calc 2 * (leading * unscale) * scale = leading * (2 * (scale * unscale)) := by ring
    _ = leading * (2 * half) := by rw [normal.powers]
    _ ≤ divisor * scale := normal.below

theorem prefix_near (normal : Normalised divisor scale unscale half leading) :
    divisor < 2 * (leading * unscale) + 2 * unscale := by
  apply Nat.lt_of_mul_lt_mul_right (a := scale)
  calc divisor * scale < (leading + 1) * (2 * half) := normal.above
    _ = (leading + 1) * (2 * (scale * unscale)) := by rw [normal.powers]
    _ = (2 * (leading * unscale) + 2 * unscale) * scale := by ring

theorem half_le_prefix (normal : Normalised divisor scale unscale half leading) :
    half * unscale ≤ leading * unscale :=
  Nat.mul_le_mul_right unscale normal.high

/-- The quotient of half the dividend by the leading word is one word. -/
theorem estimate_lt (normal : Normalised divisor scale unscale half leading)
    (fits : dividend < 2 * half * (2 * half)) : dividend / 2 / leading < 2 * half := by
  rw [Nat.div_lt_iff_lt_mul normal.leading_positive, Nat.div_lt_iff_lt_mul (by decide)]
  calc dividend < 2 * half * (2 * half) := fits
    _ = 2 * half * half * 2 := by ring
    _ ≤ 2 * half * leading * 2 :=
      Nat.mul_le_mul_right 2 (Nat.mul_le_mul_left (2 * half) normal.high)

theorem estimate_ge (normal : Normalised divisor scale unscale half leading) :
    dividend / divisor ≤ dividend / 2 / leading / unscale := by
  have leadingPositive := normal.leading_positive
  have unscalePositive := normal.unscalePositive
  rw [Nat.div_div_eq_div_mul, Nat.div_div_eq_div_mul]
  exact Nat.div_le_div_left normal.prefix_le (by positivity)

/-- A quotient by twice the prefix leaves less than a divisor for what the prefix leaves out. -/
theorem excess_le (normal : Normalised divisor scale unscale half leading)
    (long : 2 * half ≤ divisor) {estimate : Nat}
    (fits : estimate * (2 * (leading * unscale)) < 2 * half * (2 * half)) :
    estimate * (divisor - 2 * (leading * unscale)) ≤ divisor := by
  have near := normal.prefix_near
  have bounded := normal.prefix_le
  have low := normal.half_le_prefix
  have unscalePositive := normal.unscalePositive
  have short : estimate * unscale < 2 * half := by
    apply Nat.lt_of_mul_lt_mul_right (a := 2 * half)
    calc estimate * unscale * (2 * half) = estimate * (2 * (half * unscale)) := by ring
      _ ≤ estimate * (2 * (leading * unscale)) :=
        Nat.mul_le_mul_left estimate (Nat.mul_le_mul_left 2 low)
      _ < 2 * half * (2 * half) := fits
  have step : estimate * (divisor - 2 * (leading * unscale)) ≤ estimate * (2 * unscale - 1) :=
    Nat.mul_le_mul_left estimate (by omega)
  cases Nat.lt_or_ge unscale 2 with
  | inl one =>
      have isOne : unscale = 1 := by omega
      subst isOne
      calc estimate * (divisor - 2 * (leading * 1)) ≤ estimate * 1 := step
        _ ≤ divisor := by omega
  | inr more =>
      have double : estimate * (2 * unscale - 1) ≤ 2 * (estimate * unscale) := by
        calc estimate * (2 * unscale - 1) ≤ estimate * (2 * unscale) :=
              Nat.mul_le_mul_left estimate (Nat.sub_le _ _)
          _ = 2 * (estimate * unscale) := by ring
      have large : half * 2 ≤ half * unscale := Nat.mul_le_mul_left half more
      omega

/-- The estimate is at most one above the quotient. -/
theorem estimate_le (normal : Normalised divisor scale unscale half leading)
    (long : 2 * half ≤ divisor) (fits : dividend < 2 * half * (2 * half)) :
    dividend / 2 / leading / unscale ≤ dividend / divisor + 1 := by
  have half := normal.half_positive
  have bounded := normal.prefix_le
  have estimated : dividend / 2 / leading / unscale * (2 * (leading * unscale)) ≤ dividend := by
    rw [Nat.div_div_eq_div_mul, Nat.div_div_eq_div_mul]
    exact Nat.div_mul_le_self _ _
  have excess := normal.excess_le long (Nat.lt_of_le_of_lt estimated fits)
  rw [← Nat.sub_le_iff_le_add, Nat.le_div_iff_mul_le (by omega), Nat.sub_mul, Nat.one_mul]
  rw [Nat.mul_sub] at excess
  omega

end Normalised

end LongDivisor

section Correction

variable {dividend divisor estimate : Nat}

theorem estimate_times_le (most : estimate ≤ dividend / divisor + 1) :
    (estimate - 1) * divisor ≤ dividend :=
  Nat.le_trans (Nat.mul_le_mul_right divisor (Nat.sub_le_iff_le_add.mpr most))
    (Nat.div_mul_le_self dividend divisor)

/-- An estimate that is right or one too large is corrected by one look at the remainder. -/
theorem corrected_quotient (positive : 0 < divisor) (whole : divisor ≤ dividend)
    (least : dividend / divisor ≤ estimate) (most : estimate ≤ dividend / divisor + 1) :
    (if dividend - (estimate - 1) * divisor < divisor then estimate - 1 else estimate) =
      dividend / divisor := by
  have one : 0 < dividend / divisor := Nat.div_pos whole positive
  have below := estimate_times_le most
  have parts := Nat.div_add_mod' dividend divisor
  have remainder := Nat.mod_lt dividend positive
  cases Nat.lt_or_ge (dividend / divisor) estimate with
  | inl large =>
      have isNext : estimate - 1 = dividend / divisor := by omega
      rw [isNext, if_pos (by omega)]
  | inr exact_ =>
      have isQuotient : estimate = dividend / divisor := by omega
      have lower : (dividend / divisor - 1) * divisor + divisor =
          dividend / divisor * divisor := by
        rw [← Nat.succ_mul]
        congr 1
        omega
      rw [isQuotient, if_neg (by omega)]

end Correction

end UtSystems.Lib.LongDivision

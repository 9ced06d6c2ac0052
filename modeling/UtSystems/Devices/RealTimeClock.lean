import UtSystems.Lib.Bytes
import UtSystems.Lib.Calendar
import Mathlib.Tactic.IntervalCases
import Mathlib.Tactic.Ring

/-!
# The real-time clock

`rtc_get_time` of `devices/rtc.c`. `int` and `time_t` are words; `inb` is what the registers of the
clock hold at each read, counted from the call.
-/

namespace UtSystems.Devices.RealTimeClock

open Lib.Bytes Lib.Calendar

set_option autoImplicit false

/-- `RTC_REG_SEC` to `RTC_REG_YEAR`. -/
inductive Reg where
  | sec
  | min
  | hour
  | mday
  | mon
  | year
  deriving DecidableEq, Repr

def daysPerMonth : List Word := [31, 28, 31, 30, 31, 30, 31, 31, 30, 31, 30, 31]

def bcdToBin (x : Byte) : Word := (x &&& 0x0f).setWidth 32 + (x >>> 4).setWidth 32 * 10

structure Components where
  sec : Word
  min : Word
  hour : Word
  mday : Word
  mon : Word
  year : Word

/-- The body of the loop, from the read `at_` on. -/
def readComponents (inb : Nat → Reg → Byte) (at_ : Nat) : Components where
  sec := bcdToBin (inb at_ .sec)
  min := bcdToBin (inb (at_ + 1) .min)
  hour := bcdToBin (inb (at_ + 2) .hour)
  mday := bcdToBin (inb (at_ + 3) .mday)
  mon := bcdToBin (inb (at_ + 4) .mon)
  year := bcdToBin (inb (at_ + 5) .year)

/-- So many rounds of the loop; none if it has not ended. -/
def readLoop (inb : Nat → Reg → Byte) : Nat → Nat → Option Components
  | 0, _ => none
  | rounds + 1, at_ =>
      let read := readComponents inb at_
      if read.sec ≠ bcdToBin (inb (at_ + 6) .sec) then readLoop inb rounds (at_ + 7) else some read

/-- The years since 1970. -/
def sinceEpoch (year : Word) : Word :=
  (if year.slt 70 then year + 100 else year) - 70

def yearSeconds (year : Word) : Word := (year * 365 + (year - 1).sdiv 4) * 24 * 60 * 60

/-- The loop over the months. -/
def addMonths (mon time : Word) : Word :=
  (List.range mon.toNat).foldl (fun time i => time + daysPerMonth.getD i 0 * 24 * 60 * 60) time

/-- `rtc_get_time` with the components read. -/
def breakDown (read : Components) : Word :=
  let year := sinceEpoch read.year
  let time := addMonths read.mon (yearSeconds year)
  let time := if BitVec.slt 2 read.mon ∧ year.srem 4 = 0 then time + 24 * 60 * 60 else time
  let time := time + (read.mday - 1) * 24 * 60 * 60
  let time := time + read.hour * 60 * 60
  let time := time + read.min * 60
  time + read.sec

def rtcGetTime (inb : Nat → Reg → Byte) (rounds : Nat) : Option Word :=
  (readLoop inb rounds 0).map breakDown

/-- The register for a number of two digits. -/
def bcd (value : Nat) : Byte := BitVec.ofNat 8 (value / 10 * 16 + value % 10)

/-- The clock is set to the moment, and stands during the call. -/
structure Presents (inb : Nat → Reg → Byte) (moment : Moment) : Prop where
  sec : ∀ n, inb n .sec = bcd moment.second
  min : ∀ n, inb n .min = bcd moment.minute
  hour : ∀ n, inb n .hour = bcd moment.hour
  mday : ∀ n, inb n .mday = bcd moment.day
  mon : ∀ n, inb n .mon = bcd moment.month
  year : ∀ n, inb n .year = bcd (moment.year % 100)

theorem bcd_to_bin {value : Nat} (small : value < 100) :
    bcdToBin (bcd value) = BitVec.ofNat 32 value := by
  revert value
  decide +kernel

theorem years_since {year : Nat} (small : year < 68) :
    sinceEpoch (BitVec.ofNat 32 ((1970 + year) % 100)) = BitVec.ofNat 32 year := by
  revert year
  decide +kernel

/-- The leap days are counted as if 1974 had had the first one. -/
theorem year_seconds {year : Nat} (small : year < 68) :
    yearSeconds (BitVec.ofNat 32 year) = BitVec.ofNat 32 (86400 * (365 * year + (year - 1) / 4)) := by
  revert year
  decide +kernel

theorem leap_since {year : Nat} (small : year < 68) :
    isLeap (1970 + year) = decide (year % 4 = 2) := by
  revert year
  decide +kernel

/-- The days before the first of January. -/
theorem days_before_since {year : Nat} (small : year < 68) :
    daysBefore 1970 (1970 + year) 1 = 365 * year + (year + 1) / 4 := by
  induction year with
  | zero => rfl
  | succ year ih =>
      have before := ih (by omega)
      rw [← Nat.add_assoc, days_before_year (by omega), before, year_days, leap_since (by omega)]
      simp only [decide_eq_true_eq]
      split
      · omega
      · omega

/-- The days of the months before `month` in a year that is not a leap year. -/
def commonDays (month : Nat) : Nat := ∑ m ∈ Finset.Ico 1 month, monthDays 1970 m

theorem common_days_succ {month : Nat} (positive : 1 ≤ month) :
    commonDays (month + 1) = commonDays month + monthDays 1970 month :=
  Finset.sum_Ico_succ_top positive _

theorem days_per_month {i : Nat} (inside : i < 12) :
    daysPerMonth.getD i 0 * 24 * 60 * 60 = BitVec.ofNat 32 (86400 * monthDays 1970 (i + 1)) := by
  revert i
  decide +kernel

theorem common_days_le {month : Nat} (small : month ≤ 13) : commonDays month ≤ 365 := by
  revert month
  decide +kernel

/-- The days of the months before `month`. -/
theorem days_of_months (year : Nat) {month : Nat} (isMonth : 1 ≤ month ∧ month ≤ 12) :
    ∑ m ∈ Finset.Ico 1 month, monthDays year m =
      commonDays month + if isLeap year = true ∧ 2 < month then 1 else 0 := by
  obtain ⟨least, most⟩ := isMonth
  unfold commonDays monthDays
  have common : isLeap 1970 = false := rfl
  rw [common]
  cases isLeap year with
  | true => interval_cases month <;> rfl
  | false => interval_cases month <;> rfl

/-- The loop counts the days of `mon` too. -/
theorem add_months {month : Nat} (small : month ≤ 12) (time : Nat) :
    addMonths (BitVec.ofNat 32 month) (BitVec.ofNat 32 time) =
      BitVec.ofNat 32 (time + 86400 * commonDays (month + 1)) := by
  have count : (BitVec.ofNat 32 month).toNat = month := by
    rw [BitVec.toNat_ofNat]
    omega
  unfold addMonths
  rw [count]
  induction month with
  | zero => rfl
  | succ month ih =>
      have before := ih (by omega) (by rw [BitVec.toNat_ofNat]; omega)
      rw [List.range_succ, List.foldl_append, List.foldl_cons, List.foldl_nil, before,
        days_per_month small, common_days_succ (Nat.succ_pos month), ← BitVec.ofNat_add, Nat.mul_add,
        Nat.add_assoc]

/-- The days that the clock adds up, counted from 0. -/
def clockDays (year month day : Nat) : Nat :=
  365 * year + (year - 1) / 4 + commonDays (month + 1) +
    (if 2 < month ∧ year % 4 = 0 then 1 else 0) + (day - 1)

section Reading

variable {inb : Nat → Reg → Byte} {moment : Moment}

theorem read_loop_presents (presents : Presents inb moment) (rounds : Nat) :
    readLoop inb (rounds + 1) 0 = some {
      sec := BitVec.ofNat 32 moment.second
      min := BitVec.ofNat 32 moment.minute
      hour := BitVec.ofNat 32 moment.hour
      mday := BitVec.ofNat 32 moment.day
      mon := BitVec.ofNat 32 moment.month
      year := BitVec.ofNat 32 (moment.year % 100) } := by
  have second := moment.isSecond
  have minute := moment.isMinute
  have hour := moment.isHour
  have day := day_le moment
  have month := moment.isMonth
  unfold readLoop readComponents
  dsimp only
  rw [presents.sec, presents.sec, if_neg (fun differs => differs rfl), presents.min, presents.hour,
    presents.mday, presents.mon, presents.year, bcd_to_bin (by omega), bcd_to_bin (by omega),
    bcd_to_bin (by omega), bcd_to_bin (by omega), bcd_to_bin (by omega),
    bcd_to_bin (Nat.mod_lt _ (by decide))]

theorem yesterday {day : Nat} (positive : 1 ≤ day) :
    BitVec.ofNat 32 day - 1 = BitVec.ofNat 32 (day - 1) := by
  obtain ⟨before, rfl⟩ := Nat.exists_eq_add_of_le' positive
  rw [BitVec.ofNat_add, Nat.add_sub_cancel]
  exact BitVec.add_sub_cancel _ _

theorem rtc_get_time_value (presents : Presents inb moment) {year : Nat}
    (isYear : moment.year = 1970 + year) (small : year < 68) (rounds : Nat) :
    rtcGetTime inb (rounds + 1) = some (BitVec.ofNat 32
      (86400 * clockDays year moment.month moment.day +
        (3600 * moment.hour + 60 * moment.minute + moment.second))) := by
  obtain ⟨least, most⟩ := moment.isMonth
  have day := moment.isDay.1
  have dayLe := day_le moment
  have hour := moment.isHour
  have minute := moment.isMinute
  have second := moment.isSecond
  have late : BitVec.slt 2 (BitVec.ofNat 32 moment.month) = decide (2 < moment.month) := by
    clear hour minute second day dayLe presents isYear
    generalize moment.month = month at least most
    interval_cases month <;> rfl
  have fourth : ((BitVec.ofNat 32 year).srem 4 = 0) = (year % 4 = 0) := by
    clear hour minute second day dayLe presents isYear late
    revert year
    decide +kernel
  unfold rtcGetTime
  rw [read_loop_presents presents, Option.map_some, isYear]
  unfold breakDown clockDays
  dsimp only
  rw [years_since small, year_seconds small, add_months most]
  simp only [late, fourth, decide_eq_true_eq]
  have sixty : (60 : Word) = BitVec.ofNat 32 60 := rfl
  have oneDay : (24 : Word) * 60 * 60 = BitVec.ofNat 32 86400 := rfl
  have twentyFour : (24 : Word) = BitVec.ofNat 32 24 := rfl
  rw [oneDay, yesterday day, sixty, twentyFour]
  congr 1
  split
  · simp only [← BitVec.ofNat_mul, ← BitVec.ofNat_add]
    congr 1
    ring
  · simp only [← BitVec.ofNat_mul, ← BitVec.ofNat_add]
    congr 1
    ring

end Reading

/-- Whatever the date and the time from 1970 to 2037, the clock is at least 26 days ahead. -/
theorem rtc_get_time_ahead (moment : Moment) (inb : Nat → Reg → Byte) (rounds : Nat)
    (presents : Presents inb moment) (first : 1970 ≤ moment.year) (last : moment.year ≤ 2037) :
    ∃ time, rtcGetTime inb (rounds + 1) = some time ∧
      moment.secondsSince 1970 + 26 * 86400 ≤ time.toNat := by
  obtain ⟨year, isYear⟩ := Nat.exists_eq_add_of_le first
  have small : year < 68 := by omega
  obtain ⟨least, most⟩ := moment.isMonth
  have day := moment.isDay.1
  have dayLe := day_le moment
  have hour := moment.isHour
  have minute := moment.isMinute
  have second := moment.isSecond
  have whole := @common_days_le (moment.month + 1) (by omega)
  have more := common_days_succ least
  have long : 28 ≤ monthDays 1970 moment.month := by
    unfold monthDays
    split
    · decide
    · split
      · decide
      · decide
  refine ⟨_, rtc_get_time_value presents isYear small rounds, ?_⟩
  have clock : clockDays year moment.month moment.day < 49000 := by
    unfold clockDays
    split
    · omega
    · omega
  have value : (BitVec.ofNat 32 (86400 * clockDays year moment.month moment.day +
      (3600 * moment.hour + 60 * moment.minute + moment.second))).toNat =
      86400 * clockDays year moment.month moment.day +
        (3600 * moment.hour + 60 * moment.minute + moment.second) := by
    rw [BitVec.toNat_ofNat]
    omega
  have days : moment.daysSince 1970 + 26 ≤ clockDays year moment.month moment.day := by
    unfold Moment.daysSince clockDays
    rw [days_before_month, isYear, days_before_since small, days_of_months _ moment.isMonth,
      leap_since small]
    simp only [decide_eq_true_eq]
    split
    · split
      · omega
      · omega
    · split
      · omega
      · omega
  rw [value]
  unfold Moment.secondsSince
  omega

/-- A clock that stands at the moment. -/
def clockAt (moment : Moment) : Nat → Reg → Byte
  | _, .sec => bcd moment.second
  | _, .min => bcd moment.minute
  | _, .hour => bcd moment.hour
  | _, .mday => bcd moment.day
  | _, .mon => bcd moment.month
  | _, .year => bcd (moment.year % 100)

theorem clock_at_presents (moment : Moment) : Presents (clockAt moment) moment :=
  ⟨fun _ => rfl, fun _ => rfl, fun _ => rfl, fun _ => rfl, fun _ => rfl, fun _ => rfl⟩

def epoch : Moment where
  year := 1970
  month := 1
  day := 1
  hour := 0
  minute := 0
  second := 0
  isMonth := by decide
  isDay := by decide
  isHour := by decide
  isMinute := by decide
  isSecond := by decide

theorem rtc_get_time_ahead_epoch :
    ∃ time, rtcGetTime (clockAt epoch) 1 = some time ∧
      epoch.secondsSince 1970 + 26 * 86400 ≤ time.toNat :=
  rtc_get_time_ahead epoch (clockAt epoch) 0 (clock_at_presents epoch) (by decide) (by decide)

/-- At the epoch, January counts already. -/
theorem epoch_is_february :
    rtcGetTime (clockAt epoch) 1 = some 2678400 ∧ epoch.secondsSince 1970 = 0 := by
  refine ⟨?_, rfl⟩
  decide +kernel

end UtSystems.Devices.RealTimeClock

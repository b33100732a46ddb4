import TigerClaw.Library.Calendar
import TigerClaw.Library.Checked

/-!
# The clock and the dice

`runRandomNumber` and `renderCurrentTimeIso8601` of `cli/commands/live_runner.zig`.

* `renderCurrentTimeIso8601`: the date and the time that are printed, with the arithmetic of each
  width as the code has it.  `renderCurrentTimeIso8601_spec`: they are those of the calendar.
* `runRandomNumber`: over any generator that keeps to its bound.  `inRange_iff`: the number
  is in its range exactly where the length of the range is an `i64`.
-/

namespace TigerClaw
namespace Cli

namespace SmallTools

/-! ## Widths -/

/-- An operation on `i64`. -/
def i64 (n : ℤ) : Outcome Empty ℤ := if -2 ^ 63 ≤ n ∧ n < 2 ^ 63 then .ok n else .trap .overflow

/-- An operation on `u32`. -/
def u32 (n : ℤ) : Outcome Empty ℕ := if 0 ≤ n ∧ n < 2 ^ 32 then .ok n.toNat else .trap .overflow

/-- `@intCast` to an unsigned type. -/
def intCast (bits : ℕ) (n : ℤ) : Outcome Empty ℕ :=
  if 0 ≤ n ∧ n < 2 ^ bits then .ok n.toNat else .trap .intCast

/-- `@intCast` to `i64`. -/
def castI64 (n : ℤ) : Outcome Empty ℤ :=
  if -2 ^ 63 ≤ n ∧ n < 2 ^ 63 then .ok n else .trap .intCast

/-- `a -% b` on `u32`. -/
def subWrap (a b : ℕ) : ℕ := (a + 2 ^ 32 - b) % 2 ^ 32

/-- `a +% b` on `u32`. -/
def addWrap (a b : ℕ) : ℕ := (a + b) % 2 ^ 32

theorem i64_eq {n : ℤ} (h : -2 ^ 63 ≤ n ∧ n < 2 ^ 63) : i64 n = .ok n := if_pos h

theorem castI64_eq {n : ℤ} (h : -2 ^ 63 ≤ n ∧ n < 2 ^ 63) : castI64 n = .ok n := if_pos h

theorem u32_eq {n : ℤ} {m : ℕ} (h : n = m) (hm : m < 2 ^ 32) : u32 n = .ok m := by
  rw [u32, if_pos (by omega), h, Int.toNat_natCast]

theorem intCast_eq {bits n : ℕ} (h : (n : ℤ) < 2 ^ bits) : intCast bits n = .ok n :=
  if_pos ⟨Int.natCast_nonneg n, h⟩

/-! ## The clock -/

/-- What is printed. -/
structure Civil where
  year : ℤ
  month : ℕ
  day : ℕ
  hour : ℕ
  minute : ℕ
  second : ℕ
  deriving DecidableEq

/-- The year of an era, with the operators that wrap. -/
def yearOfEra (doe : ℕ) : ℕ :=
  subWrap (addWrap (subWrap doe (doe / 1460)) (doe / 36524)) (doe / 146096) / 365

/-- None of them wraps. -/
def NoWrap (doe : ℕ) : Prop :=
  doe / 1460 ≤ doe ∧ doe - doe / 1460 + doe / 36524 < 2 ^ 32 ∧
    doe / 146096 ≤ doe - doe / 1460 + doe / 36524

/-- The day of the era, counted from the first of March of a year that 400 divides. -/
def dayOfEra (nowNs : ℤ) : ℕ := ((nowNs / 1000000000 / 86400 + 719468) % 146097).toNat

/-- The era, of 400 years. -/
def eraOf (d0 : ℤ) : Outcome Empty ℤ :=
  if 0 ≤ d0 then .ok (d0.fdiv 146097)
  else do
    let n ← i64 (d0 - 146096)
    .ok (n.fdiv 146097)

/-- The months are counted from March on. -/
def monthOf (mp : ℕ) : Outcome Empty ℕ := if mp < 10 then u32 (mp + 3) else u32 ((mp : ℤ) - 9)

def yearOf (y : ℤ) (m : ℕ) : Outcome Empty ℤ := if m ≤ 2 then i64 (y + 1) else .ok y

/-- `civil_from_days`: the year, the month and the day. -/
def civilFromDays (days : ℤ) : Outcome Empty (ℤ × ℕ × ℕ) := do
  let d0 ← i64 (days + 719468)
  let era ← eraOf d0
  let eraDays ← i64 (era * 146097)
  let eraDay ← i64 (d0 - eraDays)
  let doe ← intCast 32 eraDay
  let yoe := yearOfEra doe
  let eraYears ← i64 (era * 400)
  let y ← i64 (yoe + eraYears)
  let yoeDays ← u32 (365 * yoe)
  let withLeaps ← u32 (yoeDays + yoe / 4)
  let beforeYear ← u32 ((withLeaps : ℤ) - yoe / 100)
  let doy ← u32 ((doe : ℤ) - beforeYear)
  let doyTimes5 ← u32 (5 * doy)
  let doyTimes5 ← u32 (doyTimes5 + 2)
  let mp := doyTimes5 / 153
  let mpTimes153 ← u32 (153 * mp)
  let mpTimes153 ← u32 (mpTimes153 + 2)
  let d ← u32 ((doy : ℤ) - (mpTimes153 / 5 : ℕ))
  let d ← u32 (d + 1)
  let m ← monthOf mp
  let year ← yearOf y m
  .ok (year, m, d)

def renderCurrentTimeIso8601 (nowNs : ℤ) : Outcome Empty Civil := do
  let secs ← castI64 (nowNs.tdiv 1000000000)
  let days := secs.fdiv 86400
  let secsOfDay := secs.fmod 86400
  let hh ← intCast 8 (secsOfDay.tdiv 3600)
  let mm ← intCast 8 ((secsOfDay.fmod 3600).tdiv 60)
  let ss ← intCast 8 (secsOfDay.fmod 60)
  let date ← civilFromDays days
  .ok { year := date.1, month := date.2.1, day := date.2.2, hour := hh, minute := mm, second := ss }

theorem subWrap_eq {a b : ℕ} (h : b ≤ a) (ha : a < 2 ^ 32) : subWrap a b = a - b := by
  rw [subWrap]
  omega

theorem addWrap_eq {a b : ℕ} (h : a + b < 2 ^ 32) : addWrap a b = a + b := by
  rw [addWrap, Nat.mod_eq_of_lt h]

theorem noWrap {doe : ℕ} (h : doe < 146097) : NoWrap doe := by
  refine ⟨Nat.div_le_self _ _, ?_, ?_⟩
  · omega
  · omega

theorem yearOfEra_eq {doe : ℕ} (h : doe < 146097) :
    yearOfEra doe = (doe - doe / 1460 + doe / 36524 - doe / 146096) / 365 := by
  obtain ⟨hle, hlt, hle'⟩ := noWrap h
  rw [yearOfEra, subWrap_eq hle (by omega), addWrap_eq hlt, subWrap_eq hle' hlt]

/-- **The year of an era** is found by leaving out the days that leap years have added. -/
theorem yearOfEra_of_split {doe c q t doy : ℕ} (hc : c < 4) (hq : q < 25) (ht : t < 4)
    (hdoy : doy ≤ 365) (hdoe : doe = 36524 * c + 1461 * q + 365 * t + doy)
    (hleap : doy = 365 → t = 3 ∧ (q < 24 ∨ c = 3)) :
    yearOfEra doe = 100 * c + 4 * q + t := by
  have h36524 : doe / 36524 = c + if doy = 365 ∧ q = 24 then 1 else 0 := by
    split <;> omega
  have h146096 : doe / 146096 = if doy = 365 ∧ q = 24 then 1 else 0 := by
    split <;> omega
  have h1460 : doe / 1460 = 25 * c + q + if 1460 ≤ 24 * c + q + 365 * t + doy then 1 else 0 := by
    split <;> omega
  rw [yearOfEra_eq (by omega), h1460, h36524, h146096]
  split <;> split <;> omega

/-- What the code makes of the day of a year that begins in March: none of its operators fails. -/
theorem monthAndDay_eq {y doy : ℕ} (hy : y < 2 ^ 62) (hdoy : doy ≤ 365) :
    (do
      let doyTimes5 ← u32 (5 * doy)
      let doyTimes5 ← u32 (doyTimes5 + 2)
      let mp := doyTimes5 / 153
      let mpTimes153 ← u32 (153 * mp)
      let mpTimes153 ← u32 (mpTimes153 + 2)
      let d ← u32 ((doy : ℤ) - (mpTimes153 / 5 : ℕ))
      let d ← u32 (d + 1)
      let m ← monthOf mp
      let year ← yearOf (y : ℤ) m
      .ok (year, m, d) : Outcome Empty (ℤ × ℕ × ℕ)) =
      .ok ((Calendar.marchDate y doy).1, (Calendar.marchDate y doy).2) := by
  obtain ⟨mp, hmp⟩ : ∃ mp, mp = (5 * doy + 2) / 153 := ⟨_, rfl⟩
  have hfive : u32 (5 * (doy : ℤ)) = .ok (5 * doy) := u32_eq (by omega) (by omega)
  have hfive' : u32 (((5 * doy : ℕ) : ℤ) + 2) = .ok (5 * doy + 2) := u32_eq (by omega) (by omega)
  have hmonths : u32 (153 * (mp : ℤ)) = .ok (153 * mp) := u32_eq (by omega) (by omega)
  have hmonths' : u32 (((153 * mp : ℕ) : ℤ) + 2) = .ok (153 * mp + 2) :=
    u32_eq (by omega) (by omega)
  have hday : u32 ((doy : ℤ) - ((153 * mp + 2) / 5 : ℕ)) = .ok (doy - (153 * mp + 2) / 5) :=
    u32_eq (by omega) (by omega)
  have hday' : u32 (((doy - (153 * mp + 2) / 5 : ℕ) : ℤ) + 1) =
      .ok (doy - (153 * mp + 2) / 5 + 1) := u32_eq (by omega) (by omega)
  rw [hfive, Outcome.ok_bind, hfive', Outcome.ok_bind, ← hmp]
  dsimp only
  rw [hmonths, Outcome.ok_bind, hmonths', Outcome.ok_bind, hday, Outcome.ok_bind, hday',
    Outcome.ok_bind, Calendar.marchDate, ← hmp]
  by_cases hlate : mp < 10
  · have hm : monthOf mp = .ok (mp + 3) := by
      rw [monthOf, if_pos hlate]
      exact u32_eq (by omega) (by omega)
    have hyear : yearOf (y : ℤ) (mp + 3) = .ok (y : ℤ) := by
      rw [yearOf, if_neg (by omega)]
    rw [if_pos hlate, hm, Outcome.ok_bind, hyear, Outcome.ok_bind]
  · have hm : monthOf mp = .ok (mp - 9) := by
      rw [monthOf, if_neg hlate]
      exact u32_eq (by omega) (by omega)
    have hyear : yearOf (y : ℤ) (mp - 9) = .ok ((y + 1 : ℕ) : ℤ) := by
      rw [yearOf, if_pos (by omega)]
      exact i64_eq (by omega)
    rw [if_neg hlate, hm, Outcome.ok_bind, hyear, Outcome.ok_bind]

/-- What the date is computed to be. -/
theorem civilFromDays_eq {days : ℤ} {n era doe c q t doy : ℕ} (hn : days + 719468 = n)
    (hfit : n < 2 ^ 62) (hera : era = n / 146097) (hdoe : doe = n % 146097) (hc : c < 4)
    (hq : q < 25) (ht : t < 4) (hdoy : doy ≤ 365)
    (hsplit : doe = 36524 * c + 1461 * q + 365 * t + doy)
    (hleap : doy = 365 → t = 3 ∧ (q < 24 ∨ c = 3)) :
    civilFromDays days =
      .ok ((Calendar.marchDate (400 * era + (100 * c + 4 * q + t)) doy).1,
        (Calendar.marchDate (400 * era + (100 * c + 4 * q + t)) doy).2) := by
  have hyoe := yearOfEra_of_split hc hq ht hdoy hsplit hleap
  obtain ⟨yoe, hyoe'⟩ : ∃ yoe, yoe = 100 * c + 4 * q + t := ⟨_, rfl⟩
  rw [← hyoe'] at hyoe ⊢
  have hd0 : i64 (days + 719468) = .ok (n : ℤ) := by
    rw [hn]
    exact i64_eq (by omega)
  have heraOf : eraOf (n : ℤ) = .ok (era : ℤ) := by
    rw [eraOf, if_pos (Int.natCast_nonneg n), Int.fdiv_eq_ediv_of_nonneg _ (by decide), hera,
      Int.natCast_ediv]
    norm_num
  have heraDays : i64 ((era : ℤ) * 146097) = .ok ((era : ℤ) * 146097) := i64_eq (by omega)
  have heraDay : i64 ((n : ℤ) - (era : ℤ) * 146097) = .ok (doe : ℤ) := by
    rw [show (n : ℤ) - (era : ℤ) * 146097 = doe by omega]
    exact i64_eq (by omega)
  have hdoe' : intCast 32 (doe : ℤ) = .ok doe := intCast_eq (by omega)
  have heraYears : i64 ((era : ℤ) * 400) = .ok ((era : ℤ) * 400) := i64_eq (by omega)
  have hy : i64 ((yoe : ℤ) + (era : ℤ) * 400) = .ok ((400 * era + yoe : ℕ) : ℤ) := by
    rw [show (yoe : ℤ) + (era : ℤ) * 400 = ((400 * era + yoe : ℕ) : ℤ) by omega]
    exact i64_eq (by omega)
  have hquarter : yoe / 4 = 25 * c + q := by omega
  have hcentury : yoe / 100 = c := by omega
  have hyoeDays : u32 (365 * (yoe : ℤ)) = .ok (365 * yoe) := u32_eq (by omega) (by omega)
  have hwithLeaps : u32 (((365 * yoe : ℕ) : ℤ) + (yoe : ℤ) / 4) = .ok (365 * yoe + yoe / 4) :=
    u32_eq (by omega) (by omega)
  have hbefore : u32 (((365 * yoe + yoe / 4 : ℕ) : ℤ) - (yoe : ℤ) / 100) =
      .ok (365 * yoe + 24 * c + q) := u32_eq (by omega) (by omega)
  have hdoy' : u32 ((doe : ℤ) - (365 * yoe + 24 * c + q : ℕ)) = .ok doy :=
    u32_eq (by omega) (by omega)
  rw [civilFromDays, hd0, Outcome.ok_bind, heraOf, Outcome.ok_bind, heraDays, Outcome.ok_bind,
    heraDay, Outcome.ok_bind, hdoe', Outcome.ok_bind]
  dsimp only
  rw [hyoe, heraYears, Outcome.ok_bind, hy, Outcome.ok_bind, hyoeDays, Outcome.ok_bind, hwithLeaps,
    Outcome.ok_bind, hbefore, Outcome.ok_bind, hdoy', Outcome.ok_bind]
  exact monthAndDay_eq (by omega) hdoy

/-- The date is one of the calendar, the time one of a day, and together they are so many seconds
after the first of January 1970. -/
structure CivilOf (secs : ℤ) (c : Civil) : Prop where
  year : 0 ≤ c.year
  month : 1 ≤ c.month ∧ c.month ≤ 12
  day : 1 ≤ c.day ∧ c.day ≤ Calendar.daysInMonth c.year.toNat c.month
  time : c.hour < 24 ∧ c.minute < 60 ∧ c.second < 60
  seconds : ((Calendar.dayNumber c.year.toNat c.month c.day : ℤ) - Calendar.dayNumber 1970 1 1) *
    86400 + c.hour * 3600 + c.minute * 60 + c.second = secs

theorem dayNumber_epoch : Calendar.dayNumber 1970 1 1 = 719528 := by
  have h := Calendar.daysBeforeYear_eq 1970
  have hjanuary : Calendar.daysBeforeMonth 1970 1 = 0 := rfl
  rw [Calendar.dayNumber, hjanuary]
  omega

theorem timeOfDay (s : ℕ) : s / 3600 * 3600 + s % 3600 / 60 * 60 + s % 60 = s := by
  omega

/-- **The date and the time that are printed are those of the calendar**, and no operator wraps. -/
theorem renderCurrentTimeIso8601_spec {nowNs : ℤ} (h0 : 0 ≤ nowNs)
    (hfit : nowNs / 1000000000 < 2 ^ 63) :
    (∃ c, renderCurrentTimeIso8601 nowNs = .ok c ∧ CivilOf (nowNs / 1000000000) c) ∧
      NoWrap (dayOfEra nowNs) := by
  obtain ⟨s, hs⟩ : ∃ s : ℕ, (s : ℤ) = nowNs / 1000000000 :=
    ⟨(nowNs / 1000000000).toNat, by omega⟩
  obtain ⟨n, hn⟩ : ∃ n, n = s / 86400 + 719468 := ⟨_, rfl⟩
  obtain ⟨era, hera⟩ : ∃ era, era = n / 146097 := ⟨_, rfl⟩
  obtain ⟨doe, hdoe⟩ : ∃ doe, doe = n % 146097 := ⟨_, rfl⟩
  have hlt : doe < 146097 := by omega
  have hdoeEra : dayOfEra nowNs = doe := by
    rw [dayOfEra, ← hs]
    omega
  refine ⟨?_, hdoeEra ▸ noWrap hlt⟩
  obtain ⟨c, q, t, doy, hc, hq, ht, hdoy, hsplit, hleap⟩ := Calendar.era_split hlt
  obtain ⟨year, hyear⟩ : ∃ year, year = 400 * era + (100 * c + 4 * q + t) := ⟨_, rfl⟩
  have hsecs : nowNs.tdiv 1000000000 = (s : ℤ) := by
    rw [Int.tdiv_eq_ediv_of_nonneg h0, hs]
  have hdays : ((s : ℤ)).fdiv 86400 = ((s / 86400 : ℕ) : ℤ) := by
    rw [Int.fdiv_eq_ediv_of_nonneg _ (by decide)]
    omega
  have hrest : ((s : ℤ)).fmod 86400 = ((s % 86400 : ℕ) : ℤ) := by
    rw [Int.fmod_eq_emod_of_nonneg _ (by decide)]
    omega
  have hhour : (((s % 86400 : ℕ) : ℤ)).tdiv 3600 = ((s % 86400 / 3600 : ℕ) : ℤ) := by
    rw [Int.tdiv_eq_ediv_of_nonneg (by omega)]
    omega
  have hminute : ((((s % 86400 : ℕ) : ℤ)).fmod 3600).tdiv 60 =
      ((s % 86400 % 3600 / 60 : ℕ) : ℤ) := by
    rw [Int.fmod_eq_emod_of_nonneg _ (by decide), Int.tdiv_eq_ediv_of_nonneg (by omega)]
    omega
  have hsecond : (((s % 86400 : ℕ) : ℤ)).fmod 60 = ((s % 86400 % 60 : ℕ) : ℤ) := by
    rw [Int.fmod_eq_emod_of_nonneg _ (by decide)]
    omega
  have hdate := @civilFromDays_eq ((s / 86400 : ℕ) : ℤ) n era doe c q t doy (by omega) (by omega)
    hera hdoe hc hq ht hdoy hsplit hleap
  rw [← hyear] at hdate
  have hnumber := @Calendar.dayNumber_of_march year doy hdoy
  obtain ⟨hmonth, hday⟩ := @Calendar.marchDate_valid year doy hdoy fun h365 => by
    obtain ⟨rfl, hlast⟩ := hleap h365
    rw [hyear, show 400 * era + (100 * c + 4 * q + 3) + 1 = 400 * era + 100 * c + 4 * q + 3 + 1 by
      omega]
    exact Calendar.isLeap_of_era hlast hq
  refine ⟨{
    year := (Calendar.marchDate year doy).1
    month := (Calendar.marchDate year doy).2.1
    day := (Calendar.marchDate year doy).2.2
    hour := s % 86400 / 3600
    minute := s % 86400 % 3600 / 60
    second := s % 86400 % 60 }, ?_, ?_⟩
  · rw [renderCurrentTimeIso8601, hsecs, castI64_eq (by omega), Outcome.ok_bind]
    dsimp only
    rw [hdays, hrest, hhour, hminute, hsecond, intCast_eq (by omega), Outcome.ok_bind,
      intCast_eq (by omega), Outcome.ok_bind, intCast_eq (by omega), Outcome.ok_bind, hdate,
      Outcome.ok_bind]
  · constructor
    · exact Int.natCast_nonneg _
    · exact hmonth
    · exact hday
    · dsimp only
      omega
    · have hdays : Calendar.dayNumber (Calendar.marchDate year doy).1
          (Calendar.marchDate year doy).2.1 (Calendar.marchDate year doy).2.2 = n + 60 := by
        have hcentury : year / 100 = 4 * era + c := by omega
        have hquarter : year / 4 = 100 * era + 25 * c + q := by omega
        have hfour : year / 400 = era := by omega
        omega
      have htime := timeOfDay (s % 86400)
      rw [dayNumber_epoch, Int.toNat_natCast]
      dsimp only
      rw [hdays]
      omega

/-- The last day of a February. -/
theorem renderCurrentTimeIso8601_spec_leap :
    (∃ c, renderCurrentTimeIso8601 1709164800000000000 = .ok c ∧
        CivilOf (1709164800000000000 / 1000000000) c) ∧
      NoWrap (dayOfEra 1709164800000000000) :=
  renderCurrentTimeIso8601_spec (by decide) (by decide)

example : renderCurrentTimeIso8601 1709164800000000000 =
    .ok { year := 2024, month := 2, day := 29, hour := 0, minute := 0, second := 0 } := by
  decide +kernel

/-! ## The dice -/

inductive RandomError where
  | emptyRange
  deriving DecidableEq

/-- `maxInt(i64)`. -/
def maxInt64 : ℤ := 2 ^ 63 - 1

/-- An operation on `i64`, in a function that has errors. -/
def checked64 (n : ℤ) : Outcome RandomError ℤ :=
  if -2 ^ 63 ≤ n ∧ n < 2 ^ 63 then .ok n else .trap .overflow

/-- `@intCast`, in a function that has errors. -/
def castInt (lo hi n : ℤ) : Outcome RandomError ℤ :=
  if lo ≤ n ∧ n < hi then .ok n else .trap .intCast

/-- The number before it is printed.  `uintLessThan` is what the generator gives for a seed and a
bound. -/
def runRandomNumber (uintLessThan : ℤ → ℤ → ℤ) (nowNs : ℤ) (min max : Int64) :
    Outcome RandomError ℤ :=
  if max < min then .error .emptyRange
  else do
    let seed ← castInt 0 (2 ^ 64) (nowNs.emod maxInt64)
    let difference ← checked64 (max.toInt - min.toInt)
    let length ← checked64 (difference + 1)
    let span ← castInt 0 (2 ^ 64) length
    let pick ← castInt (-2 ^ 63) (2 ^ 63) (uintLessThan seed span)
    checked64 (min.toInt + pick)

/-- The generator keeps to its bound. -/
def LessThan (uintLessThan : ℤ → ℤ → ℤ) : Prop :=
  ∀ seed bound, 0 < bound → 0 ≤ uintLessThan seed bound ∧ uintLessThan seed bound < bound

/-- A number of the range is returned. -/
def InRange (uintLessThan : ℤ → ℤ → ℤ) (nowNs : ℤ) (min max : Int64) : Prop :=
  ∃ value, runRandomNumber uintLessThan nowNs min max = .ok value ∧ min.toInt ≤ value ∧
    value ≤ max.toInt

/-- **A number of the range is returned exactly where the length of the range is an `i64`.** -/
theorem inRange_iff {uintLessThan : ℤ → ℤ → ℤ} (h : LessThan uintLessThan) (nowNs : ℤ)
    {min max : Int64} (hle : min ≤ max) :
    InRange uintLessThan nowNs min max ↔ max.toInt - min.toInt + 1 < 2 ^ 63 := by
  have hle' := Int64.le_iff_toInt_le.mp hle
  have hmin := min.le_toInt
  have hmax := max.toInt_lt
  have hseed : castInt 0 (2 ^ 64) (nowNs.emod maxInt64) = .ok (nowNs.emod maxInt64) := by
    have hnonneg : 0 ≤ nowNs.emod maxInt64 := Int.emod_nonneg _ (by decide)
    have hlt : nowNs.emod maxInt64 < maxInt64 := Int.emod_lt_of_pos _ (by decide)
    refine if_pos ⟨hnonneg, hlt.trans (by decide)⟩
  rw [InRange, runRandomNumber, if_neg (Int64.not_lt.mpr hle), hseed, Outcome.ok_bind]
  by_cases hfits : max.toInt - min.toInt + 1 < 2 ^ 63
  · obtain ⟨hpick, hpick'⟩ := h (nowNs.emod maxInt64) (max.toInt - min.toInt + 1) (by omega)
    obtain ⟨pick, hpickEq⟩ : ∃ pick, pick = uintLessThan (nowNs.emod maxInt64)
      (max.toInt - min.toInt + 1) := ⟨_, rfl⟩
    rw [← hpickEq] at hpick hpick'
    have hdifference : checked64 (max.toInt - min.toInt) = .ok (max.toInt - min.toInt) :=
      if_pos (by omega)
    have hlength : checked64 (max.toInt - min.toInt + 1) = .ok (max.toInt - min.toInt + 1) :=
      if_pos (by omega)
    have hspan : castInt 0 (2 ^ 64) (max.toInt - min.toInt + 1) =
        .ok (max.toInt - min.toInt + 1) := if_pos (by omega)
    have hcast : castInt (-2 ^ 63) (2 ^ 63) pick = .ok pick := if_pos (by omega)
    have hsum : checked64 (min.toInt + pick) = .ok (min.toInt + pick) := if_pos (by omega)
    rw [hdifference, Outcome.ok_bind, hlength, Outcome.ok_bind, hspan, Outcome.ok_bind, ← hpickEq,
      hcast, Outcome.ok_bind, hsum]
    exact iff_of_true ⟨_, rfl, by omega, by omega⟩ hfits
  · refine iff_of_false ?_ hfits
    rintro ⟨value, hvalue, -⟩
    by_cases hdifference : max.toInt - min.toInt < 2 ^ 63
    · rw [checked64, if_pos (by omega), Outcome.ok_bind, checked64, if_neg (by omega)] at hvalue
      cases hvalue
    · rw [checked64, if_neg (by omega)] at hvalue
      cases hvalue

/-- A range of one number. -/
theorem inRange_iff_one : InRange (fun _ _ => 0) 0 5 5 :=
  (inRange_iff (fun _ _ hbound => ⟨le_refl _, hbound⟩) 0 (by decide)).mpr (by decide)

/-- Of all the numbers that can be asked for none is returned. -/
theorem runRandomNumber_traps :
    runRandomNumber (fun _ _ => 0) 0 Int64.minValue Int64.maxValue = .trap .overflow ∧
      ¬ InRange (fun _ _ => 0) 0 Int64.minValue Int64.maxValue := by
  have htrap : runRandomNumber (fun _ _ => 0) 0 Int64.minValue Int64.maxValue =
      .trap .overflow := by decide
  refine ⟨htrap, ?_⟩
  rintro ⟨value, hvalue, -⟩
  rw [htrap] at hvalue
  cases hvalue

end SmallTools

end Cli
end TigerClaw

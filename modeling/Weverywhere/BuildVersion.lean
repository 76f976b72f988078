import Weverywhere.Calendar
import Mathlib.Data.UInt

/-!
The version of a build: year, month, and the hours since the month began. It is computed
by `compute_version` and `civil_from_days` in `build.rs`, and by `compute_version` in
`scripts/_version.py`.
-/
namespace Weverywhere.BuildVersion

open Calendar

/-- The result of an `i64` operation; `none` is an overflow. -/
def i64 (x : ℤ) : Option ℤ := if -2 ^ 63 ≤ x ∧ x < 2 ^ 63 then some x else none

/-- The result of a `u32` operation. -/
def u32 (x : ℤ) : Option ℕ := if 0 ≤ x ∧ x < 2 ^ 32 then some x.toNat else none

/-- `x as u32` -/
def asU32 (x : ℤ) : ℕ := (x % 2 ^ 32).toNat

def civilFromDays (days : ℤ) : Option (ℤ × ℕ × ℕ) := do
  let z ← i64 (days + 719468)
  -- The whole `if` is divided.
  let dividend ← (if z ≥ 0 then some z else i64 (z - 146096))
  let era := dividend.tdiv 146097
  let eraStart ← i64 (era * 146097)
  let doe ← i64 (z - eraStart)
  let doe1 ← i64 (doe - doe.tdiv 1460)
  let doe2 ← i64 (doe1 + doe.tdiv 36524)
  let doe3 ← i64 (doe2 - doe.tdiv 146096)
  let yoe := doe3.tdiv 365
  let eraYear ← i64 (era * 400)
  let y ← i64 (yoe + eraYear)
  let start1 ← i64 (365 * yoe)
  let start2 ← i64 (start1 + yoe.tdiv 4)
  let start3 ← i64 (start2 - yoe.tdiv 100)
  let doy ← i64 (doe - start3)
  let mp1 ← i64 (5 * doy)
  let mp2 ← i64 (mp1 + 2)
  let mp := mp2.tdiv 153
  let monthStart1 ← i64 (153 * mp)
  let monthStart2 ← i64 (monthStart1 + 2)
  let d1 ← i64 (doy - monthStart2.tdiv 5)
  let d2 ← i64 (d1 + 1)
  let d := asU32 d2
  let m1 ← (if mp < 10 then i64 (mp + 3) else i64 (mp - 9))
  let m := asU32 m1
  let year ← (if m ≤ 2 then i64 (y + 1) else some y)
  some (year, m, d)

/-- The numbers of a version. -/
structure Version where
  year : ℤ
  month : ℕ
  hoursInMonth : ℕ
  deriving DecidableEq

namespace Version

/-- The month has two digits. -/
def format (v : Version) : String :=
  let month := if v.month < 10 then "0" ++ toString v.month else toString v.month
  toString v.year ++ "." ++ month ++ "." ++ toString v.hoursInMonth

/-- The order of versions. -/
def Less (v w : Version) : Prop :=
  v.year < w.year ∨ v.year = w.year ∧
    (v.month < w.month ∨ v.month = w.month ∧ v.hoursInMonth < w.hoursInMonth)

end Version

def dayNumber (secs : UInt64) : ℤ := (secs / 86400).toInt64.toInt

/-- `secs` is what the clock shows. -/
def version (secs : UInt64) : Option Version := do
  let days := dayNumber secs
  let secsOfDay := secs % 86400
  let hour := (secsOfDay / 3600).toUInt32.toNat
  let (year, month, day) ← civilFromDays days
  let dayIndex ← u32 (day - 1)
  let dayHours ← u32 (dayIndex * 24)
  let hoursInMonth ← u32 (dayHours + hour)
  some ⟨year, month, hoursInMonth⟩

def computeVersion (secs : UInt64) : Option String := (version secs).map Version.format

def epoch : Date := ⟨1970, 1, 1⟩

/-- `datetime.now(timezone.utc)`, the date and the hour; no date is after the year 9999. -/
def datetimeNow (secs : UInt64) : Option (Date × ℕ) :=
  let today := epoch.after (secs.toNat / 86400)
  if today.year ≤ 9999 then some (today, secs.toNat % 86400 / 3600) else none

/-- `compute_version` of `scripts/_version.py` -/
def pyComputeVersion (secs : UInt64) : Option String := do
  let (now, hour) ← datetimeNow secs
  let hoursInMonth := (now.day - 1) * 24 + hour
  some (Version.format ⟨now.year, now.month, hoursInMonth⟩)

def dateFromDays (days : ℤ) : Option Date :=
  (civilFromDays days).map fun (year, month, day) => ⟨year, month, day⟩

/-- At `secs`, so many whole hours have passed since the month of `today` began. -/
def HoursSinceMonth (secs : UInt64) (today : Date) (hours : ℕ) : Prop :=
  ∃ first, epoch.after first = { today with day := 1 } ∧ first * 86400 ≤ secs.toNat ∧
    hours = (secs.toNat - first * 86400) / 3600

/-- The date of a day number. -/
def civil (days : ℤ) : Date := (marchDateOf (days + 719468)).toDate

theorem i64_eq {x : ℤ} (hlow : -2 ^ 63 ≤ x) (hhigh : x < 2 ^ 63) : i64 x = some x :=
  if_pos ⟨hlow, hhigh⟩

theorem i64_nat {x : ℤ} {n : ℕ} (hx : x = n) (hn : n < 2 ^ 63) : i64 x = some (n : ℤ) := by
  subst hx
  exact i64_eq (by omega) (by omega)

theorem u32_nat {x : ℤ} {n : ℕ} (hx : x = n) (hn : n < 2 ^ 32) : u32 x = some n := by
  subst hx
  exact if_pos ⟨by omega, by omega⟩

theorem asU32_nat {n : ℕ} (hn : n < 2 ^ 32) : asU32 n = n := by
  unfold asU32
  omega

theorem tdiv_nat (m : ℕ) (n : ℤ) : (m : ℤ).tdiv n = m / n :=
  Int.tdiv_eq_ediv_of_nonneg (Int.natCast_nonneg m)

theorem bind_of_eq {α β : Type} {x : Option α} {a : α} {f : α → Option β} (h : x = some a) :
    (x >>= f) = f a := by
  rw [h]
  rfl

/-- What the `if` gives to the division for the era: it rounds down on both sides of zero. -/
theorem exists_dividend {era : ℤ} {doe : ℕ} (hdoe : doe < 146097)
    (hlow : -2 ^ 63 + 146096 ≤ era * 146097 + doe) :
    ∃ dividend, (if era * 146097 + doe ≥ 0 then some (era * 146097 + doe)
      else i64 (era * 146097 + doe - 146096)) = some dividend ∧
      dividend.tdiv 146097 = era := by
  by_cases hz : era * 146097 + doe ≥ 0
  · refine ⟨era * 146097 + doe, if_pos hz, ?_⟩
    rw [Int.tdiv_eq_ediv_of_nonneg hz]
    omega
  · refine ⟨era * 146097 + doe - 146096, ?_, ?_⟩
    · rw [if_neg hz, i64_eq (by omega) (by omega)]
    · have hera : era = -(-era) := (Int.neg_neg era).symm
      have hneg : era * 146097 + doe - 146096 = -((-era) * 146097 + (146096 - doe)) := by omega
      rw [hneg, Int.neg_tdiv, Int.tdiv_eq_ediv_of_nonneg (by omega)]
      omega

/-- The `i64` arithmetic gives the date of the day wherever the first sum is in range. -/
theorem civilFromDays_eq {days : ℤ} (hlow : -2 ^ 63 ≤ days) (hhigh : days + 719468 < 2 ^ 63) :
    civilFromDays days = some ((civil days).year, (civil days).month, (civil days).day) := by
  obtain ⟨era, doe, hdoe, hz⟩ := exists_era (days + 719468)
  obtain ⟨hyear, hfirst, hlast⟩ := yearOfEra_spec hdoe
  have hlength := marchYearStart_succ hyear era
  have hshort := marchYearLength_eq (yearOfEra doe + era * 400)
  obtain ⟨dividend, hdividend, hera⟩ := @exists_dividend era doe hdoe (by omega)
  have hsum : i64 (days + 719468) = some (era * 146097 + doe) := by
    rw [hz]
    exact i64_eq (by omega) (by omega)
  have hstart : i64 (era * 146097) = some (era * 146097) := i64_eq (by omega) (by omega)
  have hrest : i64 (era * 146097 + doe - era * 146097) = some (doe : ℤ) :=
    i64_nat (by omega) (by omega)
  have hdoe1 : i64 (doe - (doe : ℤ).tdiv 1460) = some ((doe - doe / 1460 : ℕ) : ℤ) :=
    i64_nat (by rw [tdiv_nat]; omega) (by omega)
  have hdoe2 : i64 ((doe - doe / 1460 : ℕ) + (doe : ℤ).tdiv 36524) =
      some ((doe - doe / 1460 + doe / 36524 : ℕ) : ℤ) :=
    i64_nat (by rw [tdiv_nat]; omega) (by omega)
  have hdoe3 : i64 ((doe - doe / 1460 + doe / 36524 : ℕ) - (doe : ℤ).tdiv 146096) =
      some (leaplessDays doe : ℤ) :=
    i64_nat (by rw [tdiv_nat, leaplessDays]; omega) (by rw [leaplessDays]; omega)
  have hyoe : (leaplessDays doe : ℤ).tdiv 365 = yearOfEra doe := by
    rw [tdiv_nat, yearOfEra]
    omega
  have hdate : civil days = MarchDate.toDate
      ⟨yearOfEra doe + era * 400, doe - marchYearStart (yearOfEra doe)⟩ := by
    rw [civil, hz, marchDateOf_era era hdoe]
  simp only [MarchDate.toDate] at hdate
  generalize yearOfEra doe = y at *
  have heraYear : i64 (era * 400) = some (era * 400) := i64_eq (by omega) (by omega)
  have hy : i64 (y + era * 400) = some (y + era * 400) := i64_eq (by omega) (by omega)
  have hstart1 : i64 (365 * y) = some ((365 * y : ℕ) : ℤ) := i64_nat (by omega) (by omega)
  have hstart2 : i64 ((365 * y : ℕ) + (y : ℤ).tdiv 4) = some ((365 * y + y / 4 : ℕ) : ℤ) :=
    i64_nat (by rw [tdiv_nat]; omega) (by omega)
  have hstart3 : i64 ((365 * y + y / 4 : ℕ) - (y : ℤ).tdiv 100) =
      some (marchYearStart y : ℤ) :=
    i64_nat (by rw [tdiv_nat, marchYearStart]; omega) (by omega)
  have hdoy : i64 (doe - marchYearStart y) = some ((doe - marchYearStart y : ℕ) : ℤ) :=
    i64_nat (by omega) (by omega)
  have hday : doe - marchYearStart y < 366 := by omega
  generalize doe - marchYearStart y = doy at *
  have hmp1 : i64 (5 * doy) = some ((5 * doy : ℕ) : ℤ) := i64_nat (by omega) (by omega)
  have hmp2 : i64 ((5 * doy : ℕ) + 2) = some ((5 * doy + 2 : ℕ) : ℤ) :=
    i64_nat (by omega) (by omega)
  have hmp : ((5 * doy + 2 : ℕ) : ℤ).tdiv 153 = marchMonth doy := by
    rw [tdiv_nat, marchMonth]
    omega
  have hmonthStart : (153 * marchMonth doy + 2) / 5 ≤ doy := by
    rw [marchMonth]
    omega
  have hmonth : marchMonth doy ≤ 11 := by
    rw [marchMonth]
    omega
  have hdayOf : marchDay doy = doy - (153 * marchMonth doy + 2) / 5 + 1 := rfl
  generalize marchMonth doy = mp at *
  have hmonthStart1 : i64 (153 * mp) = some ((153 * mp : ℕ) : ℤ) :=
    i64_nat (by omega) (by omega)
  have hmonthStart2 : i64 ((153 * mp : ℕ) + 2) = some ((153 * mp + 2 : ℕ) : ℤ) :=
    i64_nat (by omega) (by omega)
  have hd1 : i64 (doy - ((153 * mp + 2 : ℕ) : ℤ).tdiv 5) =
      some ((doy - (153 * mp + 2) / 5 : ℕ) : ℤ) :=
    i64_nat (by rw [tdiv_nat]; omega) (by omega)
  have hd2 : i64 ((doy - (153 * mp + 2) / 5 : ℕ) + 1) = some (marchDay doy : ℤ) :=
    i64_nat (by omega) (by omega)
  have hd : asU32 (marchDay doy) = marchDay doy := asU32_nat (by omega)
  have hm1 : (if (mp : ℤ) < 10 then i64 (mp + 3) else i64 (mp - 9)) =
      some (civilMonth mp : ℤ) := by
    rw [civilMonth]
    split_ifs
    · exact i64_nat (by omega) (by omega)
    · omega
    · omega
    · exact i64_nat (by omega) (by omega)
  have hm : asU32 (civilMonth mp) = civilMonth mp := asU32_nat (by
    rw [civilMonth]
    split_ifs <;> omega)
  have hyearOf : (if civilMonth mp ≤ 2 then i64 (y + era * 400 + 1) else some (y + era * 400)) =
      some (if civilMonth mp ≤ 2 then y + era * 400 + 1 else y + era * 400) := by
    split_ifs
    · exact i64_eq (by omega) (by omega)
    · rfl
  rw [hdate]
  refine (bind_of_eq hsum).trans ((bind_of_eq hdividend).trans ?_)
  rw [hera]
  refine (bind_of_eq hstart).trans ((bind_of_eq hrest).trans ?_)
  refine (bind_of_eq hdoe1).trans ((bind_of_eq hdoe2).trans ((bind_of_eq hdoe3).trans ?_))
  rw [hyoe]
  refine (bind_of_eq heraYear).trans ((bind_of_eq hy).trans ?_)
  refine (bind_of_eq hstart1).trans ((bind_of_eq hstart2).trans ((bind_of_eq hstart3).trans ?_))
  refine (bind_of_eq hdoy).trans ((bind_of_eq hmp1).trans ((bind_of_eq hmp2).trans ?_))
  rw [hmp]
  refine (bind_of_eq hmonthStart1).trans ((bind_of_eq hmonthStart2).trans ?_)
  refine (bind_of_eq hd1).trans ((bind_of_eq hd2).trans ((bind_of_eq hm1).trans ?_))
  rw [hd, hm]
  exact bind_of_eq hyearOf

theorem civil_zero : civil 0 = epoch := by decide +kernel

theorem civil_succ (days : ℤ) : civil (days + 1) = (civil days).next := by
  unfold civil
  rw [← toDate_marchDateOf_succ]
  congr 2
  omega

theorem civil_valid (days : ℤ) : (civil days).Valid := toDate_valid (marchDateOf_day_lt _)

theorem epoch_after (n : ℕ) : epoch.after n = civil n := by
  induction n with
  | zero => exact civil_zero.symm
  | succ n ih =>
    rw [Date.after_succ, ih, Nat.cast_succ, civil_succ]

theorem dateFromDays_eq {days : ℤ} (hlow : -2 ^ 63 ≤ days) (hhigh : days + 719468 < 2 ^ 63) :
    dateFromDays days = some (civil days) := by
  rw [dateFromDays, civilFromDays_eq hlow hhigh]
  rfl

theorem dateFromDays_overflow {days : ℤ} (h : 2 ^ 63 ≤ days + 719468) :
    dateFromDays days = none := by
  have hsum : i64 (days + 719468) = none := if_neg (by omega)
  rw [dateFromDays, civilFromDays, hsum]
  rfl

theorem dayNumber_eq (secs : UInt64) : dayNumber secs = (secs.toNat / 86400 : ℕ) := by
  have hsecs := secs.toNat_lt
  have hdays : (secs / 86400).toNat = secs.toNat / 86400 := UInt64.toNat_div _ _
  have hbits : dayNumber secs = (secs / 86400).toBitVec.toInt := rfl
  rw [← hdays, hbits, BitVec.toInt_eq_toNat_of_lt]
  · rfl
  · show 2 * (secs / 86400).toNat < 2 ^ 64
    omega

theorem hour_eq (secs : UInt64) :
    (secs % 86400 / 3600).toUInt32.toNat = secs.toNat % 86400 / 3600 := by
  have hhour : (secs % 86400 / 3600).toNat = secs.toNat % 86400 / 3600 := by
    rw [UInt64.toNat_div, UInt64.toNat_mod]
    rfl
  rw [UInt64.toNat_toUInt32, hhour]
  omega

theorem version_eq (secs : UInt64) :
    version secs = some
      ⟨(epoch.after (secs.toNat / 86400)).year, (epoch.after (secs.toNat / 86400)).month,
        ((epoch.after (secs.toNat / 86400)).day - 1) * 24 + secs.toNat % 86400 / 3600⟩ := by
  have hsecs := secs.toNat_lt
  have hcivil := @civilFromDays_eq (secs.toNat / 86400 : ℕ) (by omega) (by omega)
  have hvalid := civil_valid (secs.toNat / 86400 : ℕ)
  have hday := hvalid.day_pos
  have hmonth := hvalid.day_le.trans (daysInMonth_le _ _)
  rw [epoch_after]
  generalize civil (secs.toNat / 86400 : ℕ) = today at *
  have hhour := hour_eq secs
  rw [← hhour]
  have hindex : u32 (today.day - 1) = some (today.day - 1) := u32_nat (by omega) (by omega)
  have hhours : u32 ((today.day - 1 : ℕ) * 24) = some ((today.day - 1) * 24) :=
    u32_nat (by omega) (by omega)
  have hsum : u32 (((today.day - 1) * 24 : ℕ) + ((secs % 86400 / 3600).toUInt32.toNat : ℕ)) =
      some ((today.day - 1) * 24 + (secs % 86400 / 3600).toUInt32.toNat) :=
    u32_nat (by omega) (by omega)
  unfold version
  rw [dayNumber_eq]
  exact (bind_of_eq hcivil).trans ((bind_of_eq hindex).trans ((bind_of_eq hhours).trans
    (bind_of_eq hsum)))

theorem hoursSinceMonth (secs : UInt64) :
    HoursSinceMonth secs (epoch.after (secs.toNat / 86400))
      (((epoch.after (secs.toNat / 86400)).day - 1) * 24 + secs.toNat % 86400 / 3600) := by
  obtain ⟨first, hfirst, hmonth⟩ := Date.first_of_month (d := epoch) rfl (secs.toNat / 86400)
  refine ⟨first, hmonth, ?_, ?_⟩ <;> omega

/-- The days before an hour and the hour of its day are in the order of the hours. -/
theorem version_less {secs later : UInt64} (h : secs.toNat / 3600 < later.toNat / 3600) :
    ∀ v ∈ version secs, ∀ w ∈ version later, v.Less w := by
  intro v hv w hw
  rw [version_eq, Option.mem_some_iff] at hv hw
  subst hv hw
  rcases Nat.lt_or_ge (secs.toNat / 86400) (later.toNat / 86400) with hday | hday
  · have hbefore := Date.after_before epoch hday
    have hpos : 1 ≤ (epoch.after (secs.toNat / 86400)).day := by
      rw [epoch_after]
      exact (civil_valid _).day_pos
    unfold Date.Before at hbefore
    unfold Version.Less
    simp only
    omega
  · have hsame : secs.toNat / 86400 = later.toNat / 86400 := by omega
    rw [← hsame]
    refine Or.inr ⟨rfl, Or.inr ⟨rfl, ?_⟩⟩
    simp only
    omega

theorem pyComputeVersion_eq {secs : UInt64} {text : String}
    (h : pyComputeVersion secs = some text) : computeVersion secs = some text := by
  rw [computeVersion, version_eq]
  unfold pyComputeVersion datetimeNow at h
  simp only at h
  split_ifs at h
  · exact h
  · exact absurd h (by simp)

/-- The year 10000 begins 2932897 days after the epoch. -/
theorem year_le_iff (days : ℕ) : (epoch.after days).year ≤ 9999 ↔ days < 2932897 := by
  have hlast : epoch.after 2932896 = ⟨9999, 12, 31⟩ := by
    rw [epoch_after]
    decide +kernel
  have hnext : epoch.after 2932897 = ⟨10000, 1, 1⟩ := by
    rw [epoch_after]
    decide +kernel
  constructor
  · intro hyear
    by_contra hlate
    rcases Nat.eq_or_lt_of_le (not_lt.mp hlate) with hfirst | hlater
    · rw [← hfirst, hnext] at hyear
      exact absurd hyear (by decide)
    · have hbefore := Date.after_before epoch hlater
      rw [hnext, Date.Before] at hbefore
      dsimp only at hbefore
      omega
  · intro hearly
    rcases Nat.eq_or_lt_of_le (Nat.le_of_lt_succ hearly) with hday | hearlier
    · rw [hday, hlast]
    · have hbefore := Date.after_before epoch hearlier
      rw [hlast, Date.Before] at hbefore
      dsimp only at hbefore
      omega

/-- The script has a version for every instant before the year 10000, and for no other. -/
theorem pyComputeVersion_isSome_iff (secs : UInt64) :
    (pyComputeVersion secs).isSome = true ↔ secs.toNat < 253402300800 := by
  have hyear := year_le_iff (secs.toNat / 86400)
  have hsecs : secs.toNat / 86400 < 2932897 ↔ secs.toNat < 253402300800 := by omega
  rw [← hsecs, ← hyear]
  unfold pyComputeVersion datetimeNow
  dsimp only
  split_ifs with hdate
  · exact iff_of_true rfl hdate
  · exact iff_of_false nofun hdate

/-- The dates are those of the calendar, day by day, wherever the day arithmetic is in
range; it is for every clock. The version has the month of its date and the hours since
that month began, later hours have later versions, and the script computes the same. -/
theorem build_version_follows_calendar :
    dateFromDays 0 = some ⟨1970, 1, 1⟩ ∧
      (∀ days : ℤ, -2 ^ 63 ≤ days → days + 719468 < 2 ^ 63 →
        ∃ date, dateFromDays days = some date ∧ date.Valid ∧ date.day ≤ 31 ∧
          (days + 1 + 719468 < 2 ^ 63 → dateFromDays (days + 1) = some date.next)) ∧
      (∀ days : ℤ, 2 ^ 63 ≤ days + 719468 → dateFromDays days = none) ∧
      ∀ secs : UInt64, ∃ today v,
        dateFromDays (dayNumber secs) = some today ∧
          today = epoch.after (secs.toNat / 86400) ∧
          version secs = some v ∧ v.year = today.year ∧ v.month = today.month ∧
          HoursSinceMonth secs today v.hoursInMonth ∧
          (∀ later, secs.toNat / 3600 < later.toNat / 3600 →
            ∃ w, version later = some w ∧ v.Less w) ∧
          ∀ text, pyComputeVersion secs = some text → computeVersion secs = some text := by
  refine ⟨?_, ?_, fun days => dateFromDays_overflow, ?_⟩
  · rw [dateFromDays_eq (by decide) (by decide), civil_zero]
    rfl
  · intro days hlow hhigh
    have hvalid := civil_valid days
    refine ⟨civil days, dateFromDays_eq hlow hhigh, hvalid,
      hvalid.day_le.trans (daysInMonth_le _ _), ?_⟩
    intro hnext
    rw [dateFromDays_eq (by omega) hnext, civil_succ]
  · intro secs
    have hsecs := secs.toNat_lt
    refine ⟨_, _, ?_, rfl, version_eq secs, rfl, rfl, hoursSinceMonth secs, ?_,
      fun text => pyComputeVersion_eq⟩
    · rw [dayNumber_eq, dateFromDays_eq (by omega) (by omega), epoch_after]
    · intro later hlater
      exact ⟨_, version_eq later,
        version_less hlater _ (version_eq secs) _ (version_eq later)⟩

/-- The script's own example, and the hour after it. -/
theorem version_of_sixteenth_august :
    computeVersion 1786892400 = some "2026.08.375" ∧
      (∃ w, version 1786896000 = some w ∧ Version.Less ⟨2026, 8, 375⟩ w) ∧
      dateFromDays 20682 = some ⟨2026, 8, 17⟩ := by
  obtain ⟨_, hnext, _, hversion⟩ := build_version_follows_calendar
  obtain ⟨_, v, -, -, hv, -, -, -, hlater, hpy⟩ := hversion 1786892400
  have hparts : version 1786892400 = some ⟨2026, 8, 375⟩ := by decide +kernel
  have hdate : dateFromDays 20681 = some ⟨2026, 8, 16⟩ := by decide +kernel
  refine ⟨hpy _ ?_, ?_, ?_⟩
  · have hday : epoch.after ((1786892400 : UInt64).toNat / 86400) = ⟨2026, 8, 16⟩ := by
      rw [epoch_after]
      decide +kernel
    unfold pyComputeVersion datetimeNow
    rw [hday]
    decide +kernel
  · rw [hparts, Option.some.injEq] at hv
    rw [hv]
    exact hlater 1786896000 (by decide)
  · obtain ⟨date, heq, -, -, hsucc⟩ := hnext 20681 (by decide) (by decide)
    rw [hdate, Option.some.injEq] at heq
    subst heq
    exact hsucc (by decide)

end Weverywhere.BuildVersion

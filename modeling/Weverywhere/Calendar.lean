import Mathlib.Algebra.Order.Ring.Int
import Mathlib.Tactic.ByContra
import Mathlib.Tactic.Push

/-!
The proleptic Gregorian calendar: leap years, month lengths and the next date. Years are
also counted from March, so that the leap day is the last one; 400 of them are an era of
146097 days, and the place of a day in its era tells its year and its day in the year.
-/
namespace Weverywhere.Calendar

structure Date where
  year : ℤ
  month : ℕ
  day : ℕ
  deriving DecidableEq

def IsLeap (year : ℤ) : Prop := year % 4 = 0 ∧ (year % 100 ≠ 0 ∨ year % 400 = 0)

instance : DecidablePred IsLeap := fun _ => inferInstanceAs (Decidable (_ ∧ _))

def daysInMonth (year : ℤ) (month : ℕ) : ℕ :=
  if month = 2 then if IsLeap year then 29 else 28
  else if month = 4 ∨ month = 6 ∨ month = 9 ∨ month = 11 then 30
  else 31

namespace Date

structure Valid (d : Date) : Prop where
  month_pos : 1 ≤ d.month
  month_le : d.month ≤ 12
  day_pos : 1 ≤ d.day
  day_le : d.day ≤ daysInMonth d.year d.month

def next (d : Date) : Date :=
  if d.day < daysInMonth d.year d.month then { d with day := d.day + 1 }
  else if d.month < 12 then ⟨d.year, d.month + 1, 1⟩
  else ⟨d.year + 1, 1, 1⟩

/-- The order of dates. -/
def Before (d e : Date) : Prop :=
  d.year < e.year ∨ d.year = e.year ∧
    (d.month < e.month ∨ d.month = e.month ∧ d.day < e.day)

end Date

theorem daysInMonth_le (year : ℤ) (month : ℕ) : daysInMonth year month ≤ 31 := by
  unfold daysInMonth
  split_ifs <;> omega

namespace Date

theorem next_day_pos (d : Date) : 1 ≤ d.next.day := by
  unfold Date.next
  split_ifs <;> exact Nat.le_add_left 1 _

/-- Only the first of a month comes from another month. -/
theorem of_next_day {d : Date} (hday : 1 < d.next.day) :
    d = { d.next with day := d.next.day - 1 } := by
  unfold Date.next at hday ⊢
  split_ifs at hday ⊢
  · rfl
  · exact absurd hday (Nat.lt_irrefl 1)
  · exact absurd hday (Nat.lt_irrefl 1)

theorem before_next (d : Date) : d.Before d.next := by
  unfold Date.next
  split_ifs
  · exact Or.inr ⟨rfl, Or.inr ⟨rfl, Nat.lt_succ_self _⟩⟩
  · exact Or.inr ⟨rfl, Or.inl (Nat.lt_succ_self _)⟩
  · exact Or.inl (Int.lt_succ d.year)

theorem Before.trans {a b c : Date} (hab : a.Before b) (hbc : b.Before c) : a.Before c := by
  unfold Before at hab hbc ⊢
  omega

/-- The date that comes `n` days after `d`. -/
def after (d : Date) (n : ℕ) : Date := Date.next^[n] d

theorem after_succ (d : Date) (n : ℕ) : d.after (n + 1) = (d.after n).next :=
  Function.iterate_succ_apply' Date.next n d

theorem after_before (d : Date) {m n : ℕ} (h : m < n) : (d.after m).Before (d.after n) := by
  induction n, h using Nat.le_induction with
  | base =>
    rw [after_succ]
    exact before_next _
  | succ n _ ih =>
    rw [after_succ]
    exact ih.trans (before_next _)

/-- Going back from a date, one comes to the first of its month, `day - 1` days before. -/
theorem first_of_month {d : Date} (hd : d.day = 1) (n : ℕ) :
    ∃ first, first + ((d.after n).day - 1) = n ∧
      d.after first = { d.after n with day := 1 } := by
  induction n with
  | zero =>
    refine ⟨0, ?_, ?_⟩
    · show 0 + (d.day - 1) = 0
      omega
    · show d = { d with day := 1 }
      rw [← hd]
  | succ n ih =>
    rw [after_succ]
    by_cases hday : 1 < (d.after n).next.day
    · obtain ⟨first, hn, hfirst⟩ := ih
      have hback := of_next_day hday
      rw [hback] at hn hfirst
      exact ⟨first, by simp only at hn; omega, hfirst⟩
    · have hone : (d.after n).next.day = 1 := by
        have := next_day_pos (d.after n)
        omega
      refine ⟨n + 1, by omega, ?_⟩
      rw [after_succ, ← hone]

end Date

/-! Years from March. -/

/-- The days of an era before its year `y`. -/
def marchYearStart (y : ℕ) : ℕ := 365 * y + y / 4 - y / 100 + y / 400

/-- A day of the year `year` from March; `day` is how many days come before it. -/
structure MarchDate where
  year : ℤ
  day : ℕ

/-- The number of days of such a year: it ends with the February of the next. -/
def marchYearLength (year : ℤ) : ℕ := if IsLeap (year + 1) then 366 else 365

/-- Months from March. -/
def marchMonth (day : ℕ) : ℕ := (5 * day + 2) / 153

def marchDay (day : ℕ) : ℕ := day - (153 * marchMonth day + 2) / 5 + 1

def civilMonth (month : ℕ) : ℕ := if month < 10 then month + 3 else month - 9

def MarchDate.toDate (d : MarchDate) : Date :=
  let month := civilMonth (marchMonth d.day)
  ⟨if month ≤ 2 then d.year + 1 else d.year, month, marchDay d.day⟩

/-- The length of a month from March; that of the last one is given. -/
def marchMonthLength (february month : ℕ) : ℕ :=
  if month = 11 then february
  else if month = 1 ∨ month = 3 ∨ month = 6 ∨ month = 8 then 30
  else 31

theorem daysInMonth_civilMonth (year : ℤ) {month : ℕ} (h : month ≤ 11) :
    daysInMonth (if civilMonth month ≤ 2 then year + 1 else year) (civilMonth month) =
      marchMonthLength (marchYearLength year - 337) month := by
  have hall : month = 0 ∨ month = 1 ∨ month = 2 ∨ month = 3 ∨ month = 4 ∨ month = 5 ∨ month = 6 ∨
      month = 7 ∨ month = 8 ∨ month = 9 ∨ month = 10 ∨ month = 11 := by omega
  rcases hall with rfl | rfl | rfl | rfl | rfl | rfl | rfl | rfl | rfl | rfl | rfl | rfl <;>
    simp [civilMonth, daysInMonth, marchMonthLength, marchYearLength]
  split_ifs <;> rfl

/-- The days of a year from March fill its months one after the other. -/
theorem marchDay_succ {day : ℕ} (h : day < 365) :
    marchMonth day ≤ 11 ∧ 1 ≤ marchDay day ∧
      (marchDay day < marchMonthLength 29 (marchMonth day) ∧
          marchMonth (day + 1) = marchMonth day ∧ marchDay (day + 1) = marchDay day + 1 ∨
        marchDay day = marchMonthLength 29 (marchMonth day) ∧ marchMonth day < 11 ∧
          marchMonth (day + 1) = marchMonth day + 1 ∧ marchDay (day + 1) = 1) := by
  revert day
  decide +kernel

theorem marchYearLength_eq (year : ℤ) :
    marchYearLength year = 365 ∨ marchYearLength year = 366 := by
  unfold marchYearLength
  split_ifs
  · exact Or.inr rfl
  · exact Or.inl rfl

/-- The last month starts 337 days after the first of March. -/
theorem marchDay_of_last {day : ℕ} (h : marchMonth day = 11) : marchDay day = day - 337 + 1 := by
  unfold marchDay
  rw [h]

/-- The last month is the only one whose length depends on the year. -/
theorem marchMonthLength_of_ne {february month : ℕ} (h : month ≠ 11) :
    marchMonthLength february month = marchMonthLength 29 month := by
  unfold marchMonthLength
  rw [if_neg h, if_neg h]

theorem marchDay_le {year : ℤ} {day : ℕ} (h : day < marchYearLength year) :
    marchMonth day ≤ 11 ∧ 1 ≤ marchDay day ∧
      marchDay day ≤ marchMonthLength (marchYearLength year - 337) (marchMonth day) := by
  have hlength := marchYearLength_eq year
  have hmonth : marchMonth day ≤ 11 := by
    unfold marchMonth
    omega
  refine ⟨hmonth, Nat.le_add_left 1 _, ?_⟩
  by_cases hlast : marchMonth day = 11
  · have hstart : 337 ≤ day := by
      unfold marchMonth at hlast
      omega
    rw [marchDay_of_last hlast, hlast]
    simp only [marchMonthLength, if_true]
    omega
  · have hday : day < 365 := by
      unfold marchMonth at hlast
      omega
    rw [marchMonthLength_of_ne hlast]
    rcases (marchDay_succ hday).2.2 with ⟨hlt, _⟩ | ⟨heq, _⟩
    · exact hlt.le
    · exact heq.le

theorem toDate_valid {d : MarchDate} (h : d.day < marchYearLength d.year) : d.toDate.Valid := by
  obtain ⟨hmonth, hday, hle⟩ := marchDay_le h
  refine ⟨?_, ?_, hday, ?_⟩
  · simp only [MarchDate.toDate, civilMonth]
    split_ifs <;> omega
  · simp only [MarchDate.toDate, civilMonth]
    split_ifs <;> omega
  · rw [← daysInMonth_civilMonth d.year hmonth] at hle
    exact hle

/-- The year changes after the tenth month from March. -/
theorem civilMonth_succ (year : ℤ) {month : ℕ} (h : month < 11) :
    (⟨if civilMonth (month + 1) ≤ 2 then year + 1 else year, civilMonth (month + 1), 1⟩ : Date) =
      if civilMonth month < 12 then
        ⟨if civilMonth month ≤ 2 then year + 1 else year, civilMonth month + 1, 1⟩
      else ⟨(if civilMonth month ≤ 2 then year + 1 else year) + 1, 1, 1⟩ := by
  by_cases hten : month < 10
  · by_cases hnine : month = 9
    · subst hnine
      rfl
    · have hcivil : civilMonth month = month + 3 := if_pos hten
      have hnext : civilMonth (month + 1) = month + 4 := if_pos (by omega)
      rw [hcivil, hnext, if_neg (by omega), if_pos (by omega), if_neg (by omega)]
  · have hmonth : month = 10 := by omega
    subst hmonth
    rfl

/-- The next day of a year is the next date. -/
theorem toDate_succ {year : ℤ} {day : ℕ} (h : day + 1 < marchYearLength year) :
    MarchDate.toDate ⟨year, day + 1⟩ = (MarchDate.toDate ⟨year, day⟩).next := by
  have hlength := marchYearLength_eq year
  obtain ⟨hmonth, _, hstep⟩ := marchDay_succ (show day < 365 by omega)
  have hdays := daysInMonth_civilMonth year hmonth
  rcases hstep with ⟨hlt, hsame, hnext⟩ | ⟨heq, hlt, hsucc, hfirst⟩
  · have hbelow : marchDay day < marchMonthLength (marchYearLength year - 337)
        (marchMonth day) := by
      by_cases hlast : marchMonth day = 11
      · have hstart : 337 ≤ day := by
          unfold marchMonth at hlast
          omega
        rw [marchDay_of_last hlast, hlast]
        simp only [marchMonthLength, if_true]
        omega
      · rw [marchMonthLength_of_ne hlast]
        exact hlt
    simp only [MarchDate.toDate, Date.next, hsame, hnext, hdays, hbelow, if_true]
  · have hfull : ¬marchDay day < marchMonthLength (marchYearLength year - 337)
        (marchMonth day) := by
      rw [marchMonthLength_of_ne (by omega), heq]
      exact Nat.lt_irrefl _
    simp only [MarchDate.toDate, Date.next, hsucc, hfirst, hdays, hfull, if_false]
    exact civilMonth_succ year hlt

/-- After the last day of a year comes the first of March. -/
theorem toDate_last {year : ℤ} {day : ℕ} (h : day + 1 = marchYearLength year) :
    MarchDate.toDate ⟨year + 1, 0⟩ = (MarchDate.toDate ⟨year, day⟩).next := by
  have hlength := marchYearLength_eq year
  have hmonth : marchMonth day = 11 := by
    unfold marchMonth
    omega
  have hdays := daysInMonth_civilMonth year hmonth.le
  have hfull : ¬marchDay day < marchMonthLength (marchYearLength year - 337)
      (marchMonth day) := by
    rw [marchDay_of_last hmonth, hmonth]
    simp only [marchMonthLength, if_true]
    omega
  simp only [MarchDate.toDate, Date.next, hdays, hfull, if_false]
  rw [hmonth]
  rfl

/-! Eras. -/

/-- The days of an era before `day`, without leap days. -/
def leaplessDays (day : ℕ) : ℕ := day - day / 1460 + day / 36524 - day / 146096

def yearOfEra (day : ℕ) : ℕ := leaplessDays day / 365

theorem leaplessDays_le_succ {day : ℕ} (h : day < 146096) :
    leaplessDays day ≤ leaplessDays (day + 1) := by
  unfold leaplessDays
  omega

theorem leaplessDays_mono {a b : ℕ} (hab : a ≤ b) (hb : b < 146097) :
    leaplessDays a ≤ leaplessDays b := by
  induction b, hab using Nat.le_induction with
  | base => exact le_rfl
  | succ b _ ih => exact (ih (by omega)).trans (leaplessDays_le_succ (by omega))

/-- The first and the last day of each year of an era are placed in it. -/
theorem leaplessDays_year_bounds {y : ℕ} (h : y < 400) :
    365 * y ≤ leaplessDays (marchYearStart y) ∧
      leaplessDays (marchYearStart (y + 1) - 1) < 365 * (y + 1) := by
  revert y
  decide +kernel

theorem marchYearStart_mono : Monotone marchYearStart := by
  apply monotone_nat_of_le_succ
  intro y
  unfold marchYearStart
  omega

theorem marchYearStart_succ {y : ℕ} (h : y < 400) (era : ℤ) :
    marchYearStart (y + 1) = marchYearStart y + marchYearLength (y + era * 400) := by
  have hleap : IsLeap (y + era * 400 + 1) ↔ (y + 1) % 4 = 0 ∧
      ((y + 1) % 100 ≠ 0 ∨ (y + 1) % 400 = 0) := by
    unfold IsLeap
    omega
  unfold marchYearLength marchYearStart
  rw [if_congr hleap rfl rfl]
  split_ifs <;> omega

theorem yearOfEra_spec {day : ℕ} (h : day < 146097) :
    yearOfEra day < 400 ∧ marchYearStart (yearOfEra day) ≤ day ∧
      day < marchYearStart (yearOfEra day + 1) := by
  have hyear : yearOfEra day < 400 := by
    unfold yearOfEra leaplessDays
    omega
  have hlow : 365 * yearOfEra day ≤ leaplessDays day := Nat.mul_div_le _ _
  have hhigh : leaplessDays day < 365 * (yearOfEra day + 1) := Nat.lt_mul_div_succ _ (by decide)
  refine ⟨hyear, ?_, ?_⟩
  · by_contra hlt
    cases hy : yearOfEra day with
    | zero =>
      rw [hy] at hlt
      exact hlt (Nat.zero_le _)
    | succ y =>
      rw [hy] at hlt hlow hyear
      have hmono := leaplessDays_mono (a := day) (b := marchYearStart (y + 1) - 1) (by omega) (by
        unfold marchYearStart
        omega)
      have hend := (leaplessDays_year_bounds (y := y) (by omega)).2
      omega
  · by_contra hge
    by_cases hlast : yearOfEra day + 1 = 400
    · rw [hlast] at hge
      exact hge h
    · have hmono := leaplessDays_mono (Nat.not_lt.mp hge) h
      have hfirst := (leaplessDays_year_bounds (y := yearOfEra day + 1) (by omega)).1
      omega

/-- A year is found from any of its days. -/
theorem yearOfEra_eq {day y : ℕ} (h : day < 146097) (hlow : marchYearStart y ≤ day)
    (hhigh : day < marchYearStart (y + 1)) : yearOfEra day = y := by
  obtain ⟨_, hfirst, hlast⟩ := yearOfEra_spec h
  rcases Nat.lt_trichotomy (yearOfEra day) y with hlt | heq | hgt
  · have hmono : marchYearStart (yearOfEra day + 1) ≤ marchYearStart y := marchYearStart_mono hlt
    omega
  · exact heq
  · have hmono : marchYearStart (y + 1) ≤ marchYearStart (yearOfEra day) := marchYearStart_mono hgt
    omega

/-- The day `day` days after the first of March of the year 0. -/
def marchDateOf (day : ℤ) : MarchDate :=
  let era := day / 146097
  let doe := (day % 146097).toNat
  ⟨yearOfEra doe + era * 400, doe - marchYearStart (yearOfEra doe)⟩

theorem marchDateOf_era (era : ℤ) {doe : ℕ} (h : doe < 146097) :
    marchDateOf (era * 146097 + doe) =
      ⟨yearOfEra doe + era * 400, doe - marchYearStart (yearOfEra doe)⟩ := by
  have hera : (era * 146097 + doe) / 146097 = era := by omega
  have hdoe : ((era * 146097 + doe) % 146097).toNat = doe := by omega
  simp only [marchDateOf, hera, hdoe]

theorem exists_era (day : ℤ) : ∃ (era : ℤ) (doe : ℕ), doe < 146097 ∧ day = era * 146097 + doe :=
  ⟨day / 146097, (day % 146097).toNat, by omega, by omega⟩

theorem marchDateOf_day_lt (day : ℤ) :
    (marchDateOf day).day < marchYearLength (marchDateOf day).year := by
  obtain ⟨era, doe, hdoe, rfl⟩ := exists_era day
  obtain ⟨hyear, hlow, hhigh⟩ := yearOfEra_spec hdoe
  have hsucc := marchYearStart_succ hyear era
  rw [marchDateOf_era era hdoe]
  show doe - marchYearStart (yearOfEra doe) < marchYearLength (yearOfEra doe + era * 400)
  omega

/-- The next day is in the same year, or it is the first of March. -/
theorem toDate_marchDateOf_succ (day : ℤ) :
    (marchDateOf (day + 1)).toDate = (marchDateOf day).toDate.next := by
  obtain ⟨era, doe, hdoe, rfl⟩ := exists_era day
  obtain ⟨hyear, hlow, hhigh⟩ := yearOfEra_spec hdoe
  have hsucc := marchYearStart_succ hyear era
  rw [marchDateOf_era era hdoe]
  by_cases hlast : doe + 1 = marchYearStart (yearOfEra doe + 1)
  · have hnext : marchDateOf (era * 146097 + doe + 1) = ⟨yearOfEra doe + era * 400 + 1, 0⟩ := by
      by_cases hera : doe + 1 = 146097
      · have hfour : yearOfEra doe = 399 := yearOfEra_eq hdoe (by
          unfold marchYearStart
          omega) (by
          unfold marchYearStart
          omega)
        have hday : era * 146097 + doe + 1 = (era + 1) * 146097 + (0 : ℕ) := by omega
        rw [hday, marchDateOf_era (era + 1) (by decide), hfour]
        simp only [MarchDate.mk.injEq]
        exact ⟨by simp only [yearOfEra, leaplessDays]; omega, rfl⟩
      · have hday : era * 146097 + doe + 1 = era * 146097 + (doe + 1 : ℕ) := by omega
        have hnext : yearOfEra (doe + 1) = yearOfEra doe + 1 := yearOfEra_eq (by omega) hlast.ge (by
          unfold marchYearStart at hlast ⊢
          omega)
        rw [hday, marchDateOf_era era (by omega), hnext]
        simp only [MarchDate.mk.injEq]
        exact ⟨by omega, by omega⟩
    rw [hnext]
    exact toDate_last (by omega)
  · have hday : era * 146097 + doe + 1 = era * 146097 + (doe + 1 : ℕ) := by omega
    have hstart : marchYearStart 400 = 146097 := rfl
    have hinside : doe + 1 < 146097 := by
      unfold marchYearStart at hlast hhigh
      omega
    have hsame : yearOfEra (doe + 1) = yearOfEra doe := yearOfEra_eq hinside (by omega) (by omega)
    rw [hday, marchDateOf_era era hinside, hsame, Nat.sub_add_comm hlow]
    exact toDate_succ (by omega)

end Weverywhere.Calendar

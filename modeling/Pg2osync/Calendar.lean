import Mathlib.Tactic.IntervalCases
import Mathlib.Tactic.Ring
import Mathlib.Tactic.SplitIfs

/-!
# The Gregorian calendar

Days are counted from the first of January of year 0. A date is found from its count of days
by eras of 400 years, which begin in March, so that the day a leap year adds is the last of
its year.
-/

namespace Calendar

/-! ## Counting days -/

/-- A year of 366 days. -/
def IsLeap (year : ℕ) : Prop :=
  year % 4 = 0 ∧ (year % 100 ≠ 0 ∨ year % 400 = 0)

instance (year : ℕ) : Decidable (IsLeap year) :=
  inferInstanceAs (Decidable (_ ∧ _))

/-- The day that a leap year adds. -/
def leapDay (year : ℕ) : ℕ :=
  if IsLeap year then 1 else 0

/-- The days of a year. -/
def yearLength (year : ℕ) : ℕ :=
  365 + leapDay year

/-- The days of a month. -/
def monthLength (year : ℕ) : ℕ → ℕ
  | 2 => 28 + leapDay year
  | 4 | 6 | 9 | 11 => 30
  | _ => 31

/-- The days before a year. -/
def daysBeforeYear : ℕ → ℕ
  | 0 => 0
  | year + 1 => daysBeforeYear year + yearLength year

/-- The days of a year before a month, of which January is the first. -/
def daysBeforeMonth (year : ℕ) : ℕ → ℕ
  | 0 | 1 => 0
  | month + 2 => daysBeforeMonth year (month + 1) + monthLength year (month + 1)

/-- A date. -/
structure Date : Type where
  /-- its year -/
  year : ℕ
  /-- its month -/
  month : ℕ
  /-- its day -/
  day : ℕ
  deriving DecidableEq, Repr

/-- There is such a day. -/
def Date.IsDay (d : Date) : Prop :=
  1 ≤ d.month ∧ d.month ≤ 12 ∧ 1 ≤ d.day ∧ d.day ≤ monthLength d.year d.month

instance (d : Date) : Decidable d.IsDay :=
  inferInstanceAs (Decidable (_ ∧ _))

/-- The days before a date. -/
def Date.number (d : Date) : ℕ :=
  daysBeforeYear d.year + daysBeforeMonth d.year d.month + (d.day - 1)

theorem leapDay_le (year : ℕ) : leapDay year ≤ 1 := by
  rw [leapDay]
  split <;> omega

/-- The leap years up to one, which begins later by the days they added. -/
theorem daysBeforeYear_eq (year : ℕ) :
    daysBeforeYear year + leapDay year + year / 100 = 365 * year + year / 4 + year / 400 + 1 := by
  induction year with
  | zero => rfl
  | succ year ih =>
    rw [daysBeforeYear, yearLength]
    have hfours : (year + 1) / 4 = year / 4 + if (year + 1) % 4 = 0 then 1 else 0 := by
      split <;> omega
    have hcenturies : (year + 1) / 100 = year / 100 + if (year + 1) % 100 = 0 then 1 else 0 := by
      split <;> omega
    have heras : (year + 1) / 400 = year / 400 + if (year + 1) % 400 = 0 then 1 else 0 := by
      split <;> omega
    have hleap : leapDay (year + 1) + (if (year + 1) % 100 = 0 then 1 else 0) =
        (if (year + 1) % 4 = 0 then 1 else 0) + if (year + 1) % 400 = 0 then 1 else 0 := by
      by_cases h : IsLeap (year + 1)
      · obtain ⟨h4, h100⟩ := id h
        rw [leapDay, if_pos h]
        split_ifs <;> omega
      · rw [leapDay, if_neg h]
        simp only [IsLeap, not_and_or, not_or, not_not] at h
        split_ifs <;> omega
    omega

theorem daysBeforeMonth_eq (year : ℕ) {month : ℕ} (h3 : 3 ≤ month) (h12 : month ≤ 12) :
    daysBeforeMonth year month = 59 + leapDay year + (153 * (month - 3) + 2) / 5 := by
  interval_cases month <;> simp only [daysBeforeMonth, monthLength] <;> omega

/-! ## Finding a date -/

/-- The date a number of days after the first of March of year 0. -/
def civil (z : ℕ) : Date :=
  let era := z / 146097
  let doe := z % 146097
  let yoe := (doe - doe / 1460 + doe / 36524 - doe / 146096) / 365
  let y := yoe + era * 400
  let doy := doe - (365 * yoe + yoe / 4 - yoe / 100)
  let mp := (5 * doy + 2) / 153
  let d := doy - (153 * mp + 2) / 5 + 1
  let m := if mp < 10 then mp + 3 else mp - 9
  ⟨if m ≤ 2 then y + 1 else y, m, d⟩

/-- The days of an era before one of its years. -/
def daysBeforeYearOfEra (yoe : ℕ) : ℕ :=
  365 * yoe + yoe / 4 - yoe / 100

/-- The year of an era is found: of its centuries, groups of four years and years, each is as
long as the others of its kind, or the last and one day longer or shorter. -/
theorem yearOfEra_eq {yoe doy : ℕ} (hyoe : yoe < 400) (hdoy : doy ≤ 365)
    (hleap : doy = 365 → IsLeap (yoe + 1)) {doe : ℕ} (hdoe : doe = daysBeforeYearOfEra yoe + doy) :
    (doe - doe / 1460 + doe / 36524 - doe / 146096) / 365 = yoe := by
  obtain ⟨c, q, r, hc, hq, hr, rfl⟩ : ∃ c q r, c < 4 ∧ q < 25 ∧ r < 4 ∧ yoe = 100 * c + 4 * q + r :=
    ⟨yoe / 100, yoe % 100 / 4, yoe % 4, by omega, by omega, by omega, by omega⟩
  have hdays : doe = 36524 * c + 1461 * q + 365 * r + doy := by
    rw [hdoe, daysBeforeYearOfEra]
    omega
  clear hdoe
  rcases Nat.lt_or_ge doy 365 with hlt | hge
  · have hcenturies : doe / 36524 = c := by omega
    have hera : doe / 146096 = 0 := by omega
    have hgroups : doe / 1460 = 25 * c + q + (24 * c + q + 365 * r + doy) / 1460 := by omega
    omega
  · obtain rfl : doy = 365 := by omega
    obtain ⟨h4, h100⟩ := hleap rfl
    obtain rfl : r = 3 := by omega
    have hgroups : doe / 1460 = 25 * c + q + 1 := by omega
    by_cases hlast : q = 24
    · -- only the last century of an era ends with a leap year
      obtain rfl : c = 3 := by omega
      omega
    · have hcenturies : doe / 36524 = c := by omega
      have hera : doe / 146096 = 0 := by omega
      omega

theorem exists_yearOfEra {doe : ℕ} (h : doe < 146097) :
    ∃ yoe doy, yoe < 400 ∧ doy ≤ 365 ∧ (doy = 365 → IsLeap (yoe + 1)) ∧
      doe = daysBeforeYearOfEra yoe + doy := by
  obtain ⟨c, rest, hc, hrest, hdoe⟩ : ∃ c rest, c < 4 ∧ rest ≤ 36524 ∧ doe = 36524 * c + rest ∧
      (rest = 36524 → c = 3) := by
    by_cases hlast : doe = 146096
    · exact ⟨3, 36524, by omega, by omega, by omega, fun _ => rfl⟩
    · exact ⟨doe / 36524, doe % 36524, by omega, by omega, by omega, by omega⟩
  obtain ⟨r, doy, hr, hdoy, hgroup⟩ : ∃ r doy, r < 4 ∧ doy ≤ 365 ∧ rest % 1461 = 365 * r + doy ∧
      (doy = 365 → r = 3) := by
    by_cases hlast : rest % 1461 = 1460
    · exact ⟨3, 365, by omega, by omega, by omega, fun _ => rfl⟩
    · exact ⟨rest % 1461 / 365, rest % 1461 % 365, by omega, by omega, by omega, by omega⟩
  obtain ⟨q, hq⟩ : ∃ q, q = rest / 1461 := ⟨_, rfl⟩
  have hfours : (100 * c + 4 * q + r) / 4 = 25 * c + q := by omega
  have hcenturies : (100 * c + 4 * q + r) / 100 = c := by omega
  refine ⟨100 * c + 4 * q + r, doy, by omega, hdoy, fun hlong => ?_, ?_⟩
  · constructor <;> omega
  · rw [daysBeforeYearOfEra]
    omega

/-- The date of a day of a year that begins in March. -/
def marchDate (year doy : ℕ) : Date :=
  let mp := (5 * doy + 2) / 153
  let month := if mp < 10 then mp + 3 else mp - 9
  ⟨if month ≤ 2 then year + 1 else year, month, doy - (153 * mp + 2) / 5 + 1⟩

theorem civil_eq {era yoe doy : ℕ} (hyoe : yoe < 400) (hdoy : doy ≤ 365)
    (hleap : doy = 365 → IsLeap (yoe + 1)) :
    civil (146097 * era + (daysBeforeYearOfEra yoe + doy)) = marchDate (yoe + era * 400) doy := by
  have hlt : daysBeforeYearOfEra yoe + doy < 146097 := by
    rcases Nat.lt_or_ge doy 365 with hlt | hge
    · rw [daysBeforeYearOfEra]
      omega
    · obtain ⟨h4, h100⟩ := hleap (by omega)
      rw [daysBeforeYearOfEra]
      omega
  have hera : (146097 * era + (daysBeforeYearOfEra yoe + doy)) / 146097 = era := by omega
  have hdoe : (146097 * era + (daysBeforeYearOfEra yoe + doy)) % 146097 =
      daysBeforeYearOfEra yoe + doy := by omega
  have hrest : daysBeforeYearOfEra yoe + doy - (365 * yoe + yoe / 4 - yoe / 100) = doy := by
    rw [daysBeforeYearOfEra]
    omega
  simp only [civil, hera, hdoe, yearOfEra_eq hyoe hdoy hleap rfl, hrest, marchDate]

theorem marchDate_injective {y y' doy doy' : ℕ} (hdoy : doy ≤ 365) (hdoy' : doy' ≤ 365)
    (h : marchDate y doy = marchDate y' doy') : y = y' ∧ doy = doy' := by
  simp only [marchDate, Date.mk.injEq] at h
  obtain ⟨hyear, hmonth, hday⟩ := h
  have hmp : (5 * doy + 2) / 153 = (5 * doy' + 2) / 153 := by
    split at hmonth <;> split at hmonth <;> omega
  rw [hmp] at hyear hday
  constructor
  · split_ifs at hyear <;> omega
  · omega

theorem civil_injective {z z' : ℕ} (h : civil z = civil z') : z = z' := by
  have hsplit : ∀ n : ℕ, n = 146097 * (n / 146097) + n % 146097 := fun n => by omega
  obtain ⟨yoe, doy, hyoe, hdoy, hleap, hdoe⟩ := exists_yearOfEra (Nat.mod_lt z (by decide))
  obtain ⟨yoe', doy', hyoe', hdoy', hleap', hdoe'⟩ :=
    exists_yearOfEra (Nat.mod_lt z' (by decide))
  rw [hsplit z, hsplit z', hdoe, hdoe', civil_eq hyoe hdoy hleap, civil_eq hyoe' hdoy' hleap'] at h
  obtain ⟨hyear, rfl⟩ := marchDate_injective hdoy hdoy' h
  obtain rfl : yoe = yoe' := by omega
  omega

/-- The year that began in March, of a date. -/
def Date.marchYear (d : Date) : ℕ :=
  if d.month ≤ 2 then d.year - 1 else d.year

/-- The number of a month in a year that begins in March. -/
def marchMonth (month : ℕ) : ℕ :=
  if month ≤ 2 then month + 9 else month - 3

/-- The days of such a year before a date. -/
def Date.marchDay (d : Date) : ℕ :=
  (153 * marchMonth d.month + 2) / 5 + (d.day - 1)

/-- Months that begin in March, five of them 153 days long, are found from a day. -/
theorem marchMonth_found {year month day : ℕ} (h1 : 1 ≤ month) (h12 : month ≤ 12)
    (hlast : day ≤ monthLength year month) :
    (5 * ((153 * marchMonth month + 2) / 5 + (day - 1)) + 2) / 153 = marchMonth month := by
  have hleap := leapDay_le year
  interval_cases month <;> simp only [monthLength] at hlast <;> simp [marchMonth] <;> omega

variable {d : Date}

theorem marchDate_of (h : d.IsDay) (hyear : 1 ≤ d.year) : marchDate d.marchYear d.marchDay = d := by
  obtain ⟨year, month, day⟩ := d
  obtain ⟨h1, h12, hday, hlast⟩ := h
  have hmonth := marchMonth_found h1 h12 hlast
  simp only [marchDate, Date.marchYear, Date.marchDay, hmonth, Date.mk.injEq]
  simp only [marchMonth] at *
  refine ⟨?_, ?_, by omega⟩
  · split_ifs <;> omega
  · split_ifs <;> omega

theorem Date.IsDay.marchDay_le (h : d.IsDay) :
    d.marchDay ≤ 365 ∧ (d.marchDay = 365 → IsLeap d.year ∧ d.month = 2) := by
  obtain ⟨year, month, day⟩ := d
  obtain ⟨h1, h12, hday, hlast⟩ := h
  simp only [Date.marchDay] at *
  have hleap := leapDay_le year
  have hcommon : ¬IsLeap year → leapDay year = 0 := fun hnot => if_neg hnot
  by_cases h : IsLeap year
  · interval_cases month <;> simp only [monthLength] at hlast <;> simp [h, marchMonth] <;> omega
  · have := hcommon h
    interval_cases month <;> simp only [monthLength] at hlast <;> simp [h, marchMonth] <;> omega

theorem days_of_year (year : ℕ) :
    146097 * (year / 400) + daysBeforeYearOfEra (year % 400) + year / 100 =
      365 * year + year / 4 + year / 400 := by
  have hfours : year % 400 / 4 + 100 * (year / 400) = year / 4 := by omega
  have hcenturies : year % 400 / 100 + 4 * (year / 400) = year / 100 := by omega
  rw [daysBeforeYearOfEra]
  omega

theorem Date.IsDay.number_eq (h : d.IsDay) (hyear : 1 ≤ d.year) :
    d.number = 60 + (146097 * (d.marchYear / 400) +
      (daysBeforeYearOfEra (d.marchYear % 400) + d.marchDay)) := by
  obtain ⟨year, month, day⟩ := d
  obtain ⟨h1, h12, hday, hlast⟩ := h
  simp only [Date.number, Date.marchYear, Date.marchDay, marchMonth] at *
  by_cases hwinter : month ≤ 2
  · obtain ⟨last, rfl⟩ : ∃ last, year = last + 1 := ⟨year - 1, by omega⟩
    have hyears := daysBeforeYear_eq last
    have hdays := days_of_year last
    rw [if_pos hwinter, if_pos hwinter, daysBeforeYear, yearLength, Nat.add_sub_cancel]
    interval_cases month <;> simp only [daysBeforeMonth, monthLength] <;> omega
  · have hyears := daysBeforeYear_eq year
    have hdays := days_of_year year
    rw [if_neg hwinter, if_neg hwinter, daysBeforeMonth_eq year (by omega) h12]
    omega

/-- A date is found from its number. -/
theorem civil_number (h : d.IsDay) (hyear : 1 ≤ d.year) : civil (d.number - 60) = d := by
  obtain ⟨hle, hlong⟩ := h.marchDay_le
  have hsplit : d.marchYear % 400 + d.marchYear / 400 * 400 = d.marchYear := by omega
  rw [h.number_eq hyear, Nat.add_sub_cancel_left,
    civil_eq (Nat.mod_lt _ (by decide)) hle fun hday => ?_, hsplit, marchDate_of h hyear]
  obtain ⟨⟨h4, h100⟩, hmonth⟩ := hlong hday
  have hmarch : d.marchYear + 1 = d.year := by
    rw [Date.marchYear, if_pos (by omega)]
    omega
  constructor <;> omega

theorem sixty_le_number (h : d.IsDay) (hyear : 1 ≤ d.year) : 60 ≤ d.number := by
  rw [h.number_eq hyear]
  omega

end Calendar

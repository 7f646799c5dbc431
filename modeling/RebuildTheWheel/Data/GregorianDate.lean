import Mathlib.Tactic.IntervalCases

namespace RebuildTheWheel.Data

/-! The dates of the proleptic Gregorian calendar, and their numbers by Gauss' formula. -/

namespace Gregorian

def IsLeap (year : Int) : Prop := year % 4 = 0 ∧ (year % 100 ≠ 0 ∨ year % 400 = 0)

instance (year : Int) : Decidable (IsLeap year) := inferInstanceAs (Decidable (_ ∧ _))

def daysIn (year month : Nat) : Nat :=
  if month = 2 then (if IsLeap year then 29 else 28)
  else if month = 4 ∨ month = 6 ∨ month = 9 ∨ month = 11 then 30
  else 31

theorem daysIn_pos (year month : Nat) : 1 ≤ daysIn year month := by
  rw [daysIn]
  split
  · split <;> decide
  · split <;> decide

theorem daysIn_le (year month : Nat) : daysIn year month ≤ 31 := by
  rw [daysIn]
  split
  · split <;> decide
  · split <;> decide

structure Date where
  year : Nat
  month : Nat
  day : Nat
  month_pos : 1 ≤ month
  month_le : month ≤ 12
  day_pos : 1 ≤ day
  day_le : day ≤ daysIn year month

namespace Date

theorem ext_iff' {d e : Date} : d = e ↔ d.year = e.year ∧ d.month = e.month ∧ d.day = e.day := by
  obtain ⟨year, month, day, _, _, _, _⟩ := d
  obtain ⟨year', month', day', _, _, _, _⟩ := e
  simp only [mk.injEq]

/-- The day after -/
def next (d : Date) : Date :=
  if h : d.day < daysIn d.year d.month then
    { d with day := d.day + 1, day_pos := Nat.succ_pos _, day_le := h }
  else if h' : d.month < 12 then
    ⟨d.year, d.month + 1, 1, Nat.succ_pos _, h', Nat.le_refl 1, daysIn_pos _ _⟩
  else ⟨d.year + 1, 1, 1, Nat.le_refl 1, by decide, Nat.le_refl 1, daysIn_pos _ _⟩

end Date

/-- January 1, 1970 -/
def epoch : Date := ⟨1970, 1, 1, by decide, by decide, by decide, by decide⟩

/-- The date of a day, counted from the epoch -/
def dateOf : Nat → Date
  | 0 => epoch
  | n + 1 => (dateOf n).next

/-- The day of the week of a day, 0 for Sunday; the epoch was a Thursday. -/
def weekdayOf : Nat → Fin 7
  | 0 => 4
  | n + 1 => weekdayOf n + 1

/-! Days are counted from March 1, 1 BC, in years that begin with March. -/

/-- The days before a year -/
def yearStart (year : Int) : Int := 365 * year + year / 4 - year / 100 + year / 400

/-- The days before a month, from 1 for March on -/
def monthStart (month : Int) : Int := 367 * month / 12 - 30

/-- The year from March on that a month is in, and the number of the month in it -/
def march (year month : Nat) : Int × Int :=
  if month ≤ 2 then (year - 1, month + 10) else (year, month - 2)

/-- The days before a date -/
def serial (year month day : Nat) : Int :=
  yearStart (march year month).1 + monthStart (march year month).2 + day - 1

def Date.serial (d : Date) : Int := Gregorian.serial d.year d.month d.day

theorem yearStart_succ (year : Int) :
    yearStart (year + 1) = yearStart year + 365 + if IsLeap (year + 1) then 1 else 0 := by
  rw [yearStart, yearStart]
  split
  · next hleap =>
    rw [IsLeap] at hleap
    omega
  · next hleap =>
    rw [IsLeap] at hleap
    omega

theorem yearStart_mono {year year' : Int} (h : year < year') :
    yearStart (year + 1) ≤ yearStart year' := by
  unfold yearStart
  omega

theorem eq_of_yearStart {year year' : Int} (day : Int) (h : yearStart year ≤ day)
    (hlt : day < yearStart (year + 1)) (h' : yearStart year' ≤ day)
    (hlt' : day < yearStart (year' + 1)) : year = year' := by
  rcases Int.lt_trichotomy year year' with hless | heq | hmore
  · have := yearStart_mono hless
    omega
  · exact heq
  · have := yearStart_mono hmore
    omega

theorem serial_succ_day (year month day : Nat) :
    serial year month (day + 1) = serial year month day + 1 := by
  rw [serial, serial]
  omega

theorem serial_succ_month {year month : Nat} (hpos : 1 ≤ month) (hlt : month < 12) :
    serial year (month + 1) 1 = serial year month (daysIn year month) + 1 := by
  have hyear := yearStart_succ (year - 1)
  rw [Int.sub_add_cancel] at hyear
  by_cases hleap : IsLeap year
  · rw [if_pos hleap] at hyear
    interval_cases month <;> simp [serial, march, monthStart, daysIn, hleap] <;> omega
  · rw [if_neg hleap] at hyear
    interval_cases month <;> simp [serial, march, monthStart, daysIn, hleap] <;> omega

theorem serial_succ_year (year : Nat) :
    serial (year + 1) 1 1 = serial year 12 (daysIn year 12) + 1 := by
  simp [serial, march, monthStart, daysIn]
  omega

theorem Date.serial_next (d : Date) : d.next.serial = d.serial + 1 := by
  rw [next, Date.serial, Date.serial]
  split
  · exact serial_succ_day _ _ _
  · next hday =>
    have hend : d.day = daysIn d.year d.month := Nat.le_antisymm d.day_le (Nat.not_lt.mp hday)
    rw [hend]
    split
    · next hmonth => exact serial_succ_month d.month_pos hmonth
    · next hmonth =>
      have htwelve : d.month = 12 := Nat.le_antisymm d.month_le (Nat.not_lt.mp hmonth)
      rw [htwelve]
      exact serial_succ_year d.year

theorem serial_dateOf (n : Nat) : (dateOf n).serial = 719468 + n := by
  induction n with
  | zero => simp [dateOf, epoch, Date.serial, serial, march, yearStart, monthStart]
  | succ n ih =>
      rw [dateOf, Date.serial_next, ih]
      omega

theorem weekdayOf_val (n : Nat) : (weekdayOf n).val = (4 + n) % 7 := by
  induction n with
  | zero => rfl
  | succ n ih =>
      rw [weekdayOf, Fin.val_add, ih]
      change ((4 + n) % 7 + 1) % 7 = _
      omega

theorem monthStart_mono {month month' : Int} (h : month < month') :
    monthStart (month + 1) ≤ monthStart month' := by
  unfold monthStart
  omega

theorem eq_of_monthStart {month month' : Int} (day : Int) (h : monthStart month ≤ day)
    (hlt : day < monthStart (month + 1)) (h' : monthStart month' ≤ day)
    (hlt' : day < monthStart (month' + 1)) : month = month' := by
  rcases Int.lt_trichotomy month month' with hless | heq | hmore
  · have := monthStart_mono hless
    omega
  · exact heq
  · have := monthStart_mono hmore
    omega

/-- A day lies in its month and in its year. -/
theorem serial_bounds {year month day : Nat} (hpos : 1 ≤ month) (hle : month ≤ 12)
    (hday : day ≤ daysIn year month) :
    monthStart (march year month).2 + day - 1 < monthStart ((march year month).2 + 1) ∧
      0 ≤ monthStart (march year month).2 ∧
      serial year month day < yearStart ((march year month).1 + 1) := by
  rw [yearStart_succ, serial]
  by_cases hleap : IsLeap year
  · interval_cases month <;> simp [march, monthStart, daysIn, hleap] at hday ⊢ <;> omega
  · interval_cases month <;> simp [march, monthStart, daysIn, hleap] at hday ⊢ <;> omega

theorem march_injective {year month year' month' : Nat} (hpos : 1 ≤ month) (hpos' : 1 ≤ month')
    (hle : month ≤ 12) (hle' : month' ≤ 12) (h : march year month = march year' month') :
    year = year' ∧ month = month' := by
  rw [march, march] at h
  split at h
  · next hsmall =>
    split at h
    · obtain ⟨hyear, hmonth⟩ := Prod.mk.inj h
      omega
    · obtain ⟨hyear, hmonth⟩ := Prod.mk.inj h
      omega
  · next hlarge =>
    split at h
    · obtain ⟨hyear, hmonth⟩ := Prod.mk.inj h
      omega
    · obtain ⟨hyear, hmonth⟩ := Prod.mk.inj h
      omega

theorem Date.eq_of_serial {d e : Date} (h : d.serial = e.serial) : d = e := by
  obtain ⟨hmonth, hpos, hyear⟩ := serial_bounds d.month_pos d.month_le d.day_le
  obtain ⟨hmonth', hpos', hyear'⟩ := serial_bounds e.month_pos e.month_le e.day_le
  have hday := d.day_pos
  have hday' := e.day_pos
  have hd : d.serial = yearStart (march d.year d.month).1 +
    monthStart (march d.year d.month).2 + d.day - 1 := rfl
  have he : e.serial = yearStart (march e.year e.month).1 +
    monthStart (march e.year e.month).2 + e.day - 1 := rfl
  have hsame : (march d.year d.month).1 = (march e.year e.month).1 :=
    eq_of_yearStart d.serial (by omega) hyear (by omega) (h ▸ hyear')
  rw [hsame] at hd
  have hsame' : (march d.year d.month).2 = (march e.year e.month).2 :=
    eq_of_monthStart (monthStart (march d.year d.month).2 + d.day - 1) (by omega) hmonth
      (by omega) (by omega)
  rw [hsame'] at hd
  obtain ⟨hy, hm⟩ := march_injective d.month_pos e.month_pos d.month_le e.month_le
    (Prod.ext hsame hsame')
  exact Date.ext_iff'.mpr ⟨hy, hm, by omega⟩

end Gregorian

end RebuildTheWheel.Data

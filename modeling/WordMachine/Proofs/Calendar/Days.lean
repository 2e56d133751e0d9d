-- The calendar: leap years, the lengths of months, and the date that comes after a date. Days are counted in two
-- ways that agree: by going from each date to the next, and by adding up the lengths of years and months.

namespace WordMachine

structure CalendarDay where
  year : Nat
  month : Nat
  day : Nat
  deriving DecidableEq, Repr

def LeapYear (year : Nat) : Prop := year % 4 = 0 ∧ (year % 100 ≠ 0 ∨ year % 400 = 0)

instance (year : Nat) : Decidable (LeapYear year) :=
  inferInstanceAs (Decidable (year % 4 = 0 ∧ (year % 100 ≠ 0 ∨ year % 400 = 0)))

def monthLength (year month : Nat) : Nat :=
  if month = 2 then if LeapYear year then 29 else 28
  else if month = 4 ∨ month = 6 ∨ month = 9 ∨ month = 11 then 30
  else 31

def yearLength (year : Nat) : Nat := if LeapYear year then 366 else 365

def daysInYears : Nat → Nat
  | 0 => 0
  | count + 1 => daysInYears count + yearLength (1970 + count)

def daysInMonths (year : Nat) : Nat → Nat
  | 0 => 0
  | count + 1 => daysInMonths year count + monthLength year (count + 1)

theorem daysInMonths_year (year : Nat) : daysInMonths year 12 = yearLength year := by
  by_cases leap : LeapYear year
  · simp [daysInMonths,monthLength,yearLength,leap]
  · simp [daysInMonths,monthLength,yearLength,leap]

namespace CalendarDay

variable {d e : CalendarDay}

structure Valid (d : CalendarDay) : Prop where
  month : 1 ≤ d.month ∧ d.month ≤ 12
  day : 1 ≤ d.day ∧ d.day ≤ monthLength d.year d.month

def next (d : CalendarDay) : CalendarDay :=
  if d.day < monthLength d.year d.month then {d with day := d.day + 1}
  else if d.month < 12 then {d with month := d.month + 1,day := 1}
  else {year := d.year + 1,month := 1,day := 1}

def dayCount (d : CalendarDay) : Nat :=
  daysInYears (d.year - 1970) + daysInMonths d.year (d.month - 1) + (d.day - 1)

def Before (d e : CalendarDay) : Prop :=
  d.year < e.year ∨ d.year = e.year ∧ (d.month < e.month ∨ d.month = e.month ∧ d.day < e.day)

theorem Before.trans {f : CalendarDay} (first : d.Before e) (second : e.Before f) : d.Before f := by
  unfold Before at *
  omega

theorem monthLength_pos (year month : Nat) : 1 ≤ monthLength year month := by
  unfold monthLength
  split
  · split <;> decide
  · split <;> decide

theorem Valid.next (valid : d.Valid) : d.next.Valid := by
  obtain ⟨month,day⟩ := valid
  unfold CalendarDay.next
  split
  · rename_i within
    exact ⟨month,Nat.le_add_left 1 _,within⟩
  · split
    · rename_i within
      exact ⟨⟨Nat.le_add_left 1 _,within⟩,Nat.le_refl 1,monthLength_pos _ _⟩
    · exact ⟨⟨Nat.le_refl 1,(by decide : 1 ≤ 12)⟩,Nat.le_refl 1,monthLength_pos _ _⟩

theorem before_next (d : CalendarDay) : d.Before d.next := by
  unfold CalendarDay.next Before
  split
  · simp
  · split
    · simp
    · simp

theorem dayCount_next (valid : d.Valid) (since : 1970 ≤ d.year) : d.next.dayCount = d.dayCount + 1 := by
  obtain ⟨⟨first,last⟩,day,ends⟩ := valid
  unfold CalendarDay.next
  split
  · simp only [dayCount]
    omega
  · rename_i ended
    split
    · have month : d.month = d.month - 1 + 1 := by omega
      have grown : daysInMonths d.year d.month =
          daysInMonths d.year (d.month - 1) + monthLength d.year d.month := by
        rw [month,daysInMonths,Nat.add_sub_cancel]
      simp only [dayCount,Nat.add_sub_cancel,grown]
      omega
    · have month : d.month = 12 := by omega
      have months : daysInMonths d.year 12 = daysInMonths d.year 11 + monthLength d.year 12 := rfl
      have years : daysInYears (d.year + 1 - 1970) = daysInYears (d.year - 1970) + yearLength d.year := by
        rw [Nat.sub_add_comm since,daysInYears,Nat.add_sub_of_le since]
      have counted : d.dayCount = daysInYears (d.year - 1970) + daysInMonths d.year 11 + (d.day - 1) := by
        rw [dayCount,month]
      change daysInYears (d.year + 1 - 1970) + 0 + 0 = _
      rw [daysInMonths_year] at months
      rw [month] at ends ended
      omega

def after : Nat → CalendarDay
  | 0 => ⟨1970,1,1⟩
  | days + 1 => (after days).next

theorem year_next (d : CalendarDay) : d.year ≤ d.next.year := by
  unfold CalendarDay.next
  split
  · exact Nat.le_refl _
  · split
    · exact Nat.le_refl _
    · exact Nat.le_succ _

theorem after_spec (days : Nat) : (after days).Valid ∧ 1970 ≤ (after days).year ∧ (after days).dayCount = days := by
  induction days with
  | zero => exact ⟨⟨by decide,by decide⟩,by decide,rfl⟩
  | succ days ih =>
    obtain ⟨valid,since,counted⟩ := ih
    refine ⟨valid.next,Nat.le_trans since (year_next _),?_⟩
    rw [after,dayCount_next valid since,counted]

theorem after_before {days later : Nat} (earlier : days < later) : (after days).Before (after later) := by
  induction later with
  | zero => cases earlier
  | succ later ih =>
    rcases Nat.lt_succ_iff_lt_or_eq.mp earlier with less | rfl
    · exact (ih less).trans (before_next _)
    · exact before_next _

end CalendarDay

end WordMachine

import WordMachine.Calendar
import WordMachine.Proofs.Calendar.Days

-- The computation undoes the sum of the lengths of years and months, once that sum is taken over years that begin in
-- March; so it follows the calendar from day to day.

namespace WordMachine

theorem daysInYears_eq (count : Nat) : daysInYears count + 719162 =
    365 * (1969 + count) + (1969 + count) / 4 - (1969 + count) / 100 + (1969 + count) / 400 := by
  induction count with
  | zero => rfl
  | succ count ih =>
    rw [daysInYears,yearLength]
    by_cases leap : LeapYear (1970 + count)
    · rw [if_pos leap]
      unfold LeapYear at leap
      omega
    · rw [if_neg leap]
      unfold LeapYear at leap
      omega

-- Months counted from March, which is zero. January and February belong to the year before.
def fromMarch (month : Nat) : Nat := if month ≤ 2 then month + 9 else month - 3

theorem month_cases {month : Nat} (first : 1 ≤ month) (last : month ≤ 12) :
    month = 1 ∨ month = 2 ∨ month = 3 ∨ month = 4 ∨ month = 5 ∨ month = 6 ∨ month = 7 ∨ month = 8 ∨
      month = 9 ∨ month = 10 ∨ month = 11 ∨ month = 12 := by omega

-- From March on, every five months have 153 days; 306 days are left for ten months.
theorem daysInMonths_eq {year month : Nat} (first : 1 ≤ month) (last : month ≤ 12) :
    daysInMonths year (month - 1) + 306 =
      (153 * fromMarch month + 2) / 5 + if month ≤ 2 then 0 else yearLength year := by
  by_cases leap : LeapYear year
  · rcases month_cases first last with rfl | rfl | rfl | rfl | rfl | rfl | rfl | rfl | rfl | rfl | rfl | rfl <;>
      simp [daysInMonths,monthLength,yearLength,fromMarch,leap]
  · rcases month_cases first last with rfl | rfl | rfl | rfl | rfl | rfl | rfl | rfl | rfl | rfl | rfl | rfl <;>
      simp [daysInMonths,monthLength,yearLength,fromMarch,leap]

theorem monthLength_le {year month : Nat} (first : 1 ≤ month) (last : month ≤ 12) :
    (153 * fromMarch month + 2) / 5 + monthLength year month ≤ (153 * (fromMarch month + 1) + 2) / 5 := by
  by_cases leap : LeapYear year
  · rcases month_cases first last with rfl | rfl | rfl | rfl | rfl | rfl | rfl | rfl | rfl | rfl | rfl | rfl <;>
      simp [monthLength,fromMarch,leap]
  · rcases month_cases first last with rfl | rfl | rfl | rfl | rfl | rfl | rfl | rfl | rfl | rfl | rfl | rfl <;>
      simp [monthLength,fromMarch,leap]

namespace CalendarDay

variable {d : CalendarDay}

def marchYear (d : CalendarDay) : Nat := if d.month ≤ 2 then d.year - 1 else d.year

def dayOfYear (d : CalendarDay) : Nat := (153 * fromMarch d.month + 2) / 5 + (d.day - 1)

theorem marchYear_le (d : CalendarDay) : d.marchYear ≤ d.year ∧ d.year ≤ d.marchYear + 1 := by
  unfold marchYear
  split <;> omega

theorem dayCount_march (valid : d.Valid) (since : 1970 ≤ d.year) : d.dayCount + 719468 =
    365 * d.marchYear + d.marchYear / 4 - d.marchYear / 100 + d.marchYear / 400 + d.dayOfYear := by
  obtain ⟨⟨first,last⟩,_,_⟩ := valid
  have months := @daysInMonths_eq d.year d.month first last
  unfold dayCount dayOfYear marchYear
  by_cases early : d.month ≤ 2
  · have years := daysInYears_eq (d.year - 1970)
    have shifted : 1969 + (d.year - 1970) = d.year - 1 := by omega
    rw [shifted] at years
    rw [if_pos early] at months ⊢
    omega
  · have years := daysInYears_eq (d.year - 1970 + 1)
    have shifted : 1969 + (d.year - 1970 + 1) = d.year := by omega
    rw [daysInYears,Nat.add_sub_of_le since,shifted] at years
    rw [if_neg early] at months ⊢
    omega

theorem dayOfYear_month (valid : d.Valid) : (5 * d.dayOfYear + 2) / 153 = fromMarch d.month := by
  obtain ⟨⟨first,last⟩,day,ends⟩ := valid
  have room := @monthLength_le d.year d.month first last
  unfold dayOfYear
  exact Nat.div_eq_of_lt_le (by omega) (by omega)

theorem dayOfYear_le (valid : d.Valid) (since : 1970 ≤ d.year) :
    d.dayOfYear ≤ 364 ∨ d.dayOfYear = 365 ∧ LeapYear (d.marchYear + 1) := by
  obtain ⟨⟨first,last⟩,day,ends⟩ := valid
  unfold dayOfYear marchYear
  by_cases february : d.month = 2
  · have march : fromMarch d.month = 11 := by rw [february]; rfl
    have year : d.year - 1 + 1 = d.year := by omega
    rw [monthLength,if_pos february] at ends
    rw [march,if_pos (Nat.le_of_eq february),year]
    by_cases leap : LeapYear d.year
    · rw [if_pos leap] at ends
      by_cases least : d.day ≤ 28
      · exact .inl (by omega)
      · exact .inr ⟨by omega,leap⟩
    · rw [if_neg leap] at ends
      exact .inl (by omega)
  · have room := @monthLength_le d.year d.month first last
    have march : fromMarch d.month ≤ 10 := by
      unfold fromMarch
      split <;> omega
    exact .inl (by omega)

end CalendarDay

theorem cycle_split (year : Nat) : 365 * year + year / 4 - year / 100 + year / 400 =
    146097 * (year / 400) + (365 * (year % 400) + year % 400 / 4 - year % 400 / 100) := by
  have quarters : year / 4 = 100 * (year / 400) + year % 400 / 4 := by omega
  have centuries : year / 100 = 4 * (year / 400) + year % 400 / 100 := by omega
  omega

-- A year of 366 days is the last of its four, and the last of a century only at the end of the cycle.
theorem dayOfCycle_split {year day : Nat} (inCycle : year < 400)
    (inYear : day ≤ 364 ∨ day = 365 ∧ LeapYear (year + 1)) :
    ∃ century quarter rest, century ≤ 3 ∧ quarter ≤ 24 ∧ rest ≤ 3 ∧ year = 100 * century + 4 * quarter + rest ∧
      365 * year + year / 4 - year / 100 + day = 36524 * century + 1461 * quarter + 365 * rest + day ∧
      (day = 365 → rest = 3 ∧ (quarter = 24 → century = 3)) := by
  refine ⟨year / 100,year % 100 / 4,year % 4,?_,?_,?_,?_,?_,?_⟩
  · omega
  · omega
  · omega
  · omega
  · omega
  · intro last
    unfold LeapYear at inYear
    omega

theorem yearOfCycle_eq {century quarter rest day days : Nat} (c : century ≤ 3) (q : quarter ≤ 24) (r : rest ≤ 3)
    (inYear : day ≤ 365) (last : day = 365 → rest = 3 ∧ (quarter = 24 → century = 3))
    (split : days = 36524 * century + 1461 * quarter + 365 * rest + day) :
    (days - days / 1460 + days / 36524 - days / 146096) / 365 = 100 * century + 4 * quarter + rest := by
  by_cases final : days = 146096
  · have parts : century = 3 ∧ quarter = 24 ∧ rest = 3 := by omega
    obtain ⟨rfl,rfl,rfl⟩ := parts
    rw [final]
  · have centuries : days / 36524 = century := Nat.div_eq_of_lt_le (by omega) (by omega)
    have cycles : days / 146096 = 0 := Nat.div_eq_of_lt (by omega)
    rw [centuries,cycles]
    -- The first correction is made a little early in the last of four years.
    by_cases late : 1460 ≤ quarter + 24 * century + 365 * rest + day
    · have quarters : days / 1460 = 25 * century + quarter + 1 := Nat.div_eq_of_lt_le (by omega) (by omega)
      rw [quarters]
      exact Nat.div_eq_of_lt_le (by omega) (by omega)
    · have quarters : days / 1460 = 25 * century + quarter := Nat.div_eq_of_lt_le (by omega) (by omega)
      rw [quarters]
      exact Nat.div_eq_of_lt_le (by omega) (by omega)

theorem toInt_of_lt {days : UInt64} (small : days.toNat < 9223372036854775808) : days.toInt64.toInt = days.toNat := by
  have half : 2 * days.toBitVec.toNat < 2 ^ 64 := by
    change 2 * days.toNat < _
    omega
  exact BitVec.toInt_eq_toNat_of_lt half

def subtract (a b : Nat) : Option Nat := if b ≤ a then some (a - b) else none

theorem subtract_eq_some {a b c : Nat} : subtract a b = some c ↔ b ≤ a ∧ c = a - b := by
  unfold subtract
  split
  · rename_i within
    simp [within,eq_comm]
  · rename_i under
    simp [under]

namespace Date

def monthNumber (monthFromMarch : Nat) : Option Nat :=
  if monthFromMarch < 10 then some (monthFromMarch + 3) else subtract monthFromMarch 9

theorem monthNumber_eq_some {n month : Nat} (named : monthNumber n = some month) :
    month = if n < 10 then n + 3 else n - 9 := by
  unfold monthNumber at named
  split at named
  · rename_i early
    cases named
    rw [if_pos early]
  · rename_i late
    rw [if_neg late]
    exact (subtract_eq_some.mp named).2

def uncutYear (year : Int) : Option UInt32 :=
  if 0 ≤ year ∧ year < 4294967296 then some (UInt32.ofInt year) else none

theorem uncutYear_eq_some {year : Int} {y : UInt32} (fits : uncutYear year = some y) : y = UInt32.ofInt year := by
  unfold uncutYear at fits
  split at fits
  · exact (Option.some.inj fits).symm
  · cases fits

-- The steps of `ofDays`, each of which fails where it would lose something.
def ofCycle (cycle : Int) (dayOfCycle : Nat) : Option Date := do
  let withoutLeapDays ← subtract dayOfCycle (dayOfCycle / 1460)
  let commonDays ← subtract (withoutLeapDays + dayOfCycle / 36524) (dayOfCycle / 146096)
  let yearOfCycle := commonDays / 365
  let yearStart ← subtract (365 * yearOfCycle + yearOfCycle / 4) (yearOfCycle / 100)
  let dayOfYear ← subtract dayOfCycle yearStart
  let monthFromMarch := (5 * dayOfYear + 2) / 153
  let dayOfMonth ← subtract dayOfYear ((153 * monthFromMarch + 2) / 5)
  let month ← monthNumber monthFromMarch
  let year ← uncutYear (cycle * 400 + yearOfCycle + if month ≤ 2 then 1 else 0)
  return {year,month,day := dayOfMonth + 1}

def ofDaysChecked (days : UInt64) : Option Date :=
  let sinceMarch := days.toInt64.toInt + epoch
  ofCycle (sinceMarch / cycleDays) (sinceMarch % cycleDays).toNat

theorem ofDays_of_checked {days : UInt64} {date : Date} (checked : ofDaysChecked days = some date) :
    ofDays days = date := by
  simp only [ofDaysChecked,ofCycle,Option.bind_eq_bind,Option.bind_eq_some_iff,subtract_eq_some] at checked
  obtain ⟨_,⟨_,rfl⟩,_,⟨_,rfl⟩,_,⟨_,rfl⟩,_,⟨_,rfl⟩,_,⟨_,rfl⟩,month,named,year,fits,made⟩ := checked
  cases monthNumber_eq_some named
  cases uncutYear_eq_some fits
  cases made
  rfl

end Date

namespace CalendarDay

variable {d : CalendarDay}

theorem monthNumber_fromMarch (valid : d.Valid) : Date.monthNumber (fromMarch d.month) = some d.month := by
  obtain ⟨⟨first,last⟩,_⟩ := valid
  unfold Date.monthNumber fromMarch
  by_cases early : d.month ≤ 2
  · rw [if_pos early,if_neg (by omega),subtract_eq_some]
    omega
  · rw [if_neg early,if_pos (by omega)]
    congr 1
    omega

theorem dayCount_cycle (valid : d.Valid) (since : 1970 ≤ d.year) : ∃ days, days < 146097 ∧
    d.dayCount + 719468 = 146097 * (d.marchYear / 400) + days ∧
    days = 365 * (d.marchYear % 400) + d.marchYear % 400 / 4 - d.marchYear % 400 / 100 + d.dayOfYear ∧
    (days - days / 1460 + days / 36524 - days / 146096) / 365 = d.marchYear % 400 := by
  have inYear : d.dayOfYear ≤ 364 ∨ d.dayOfYear = 365 ∧ LeapYear (d.marchYear % 400 + 1) := by
    rcases dayOfYear_le valid since with common | ⟨last,leap⟩
    · exact .inl common
    · refine .inr ⟨last,?_⟩
      unfold LeapYear at leap ⊢
      omega
  have short : d.dayOfYear ≤ 365 := by omega
  obtain ⟨century,quarter,rest,c,q,r,year,split,last⟩ := dayOfCycle_split (Nat.mod_lt d.marchYear (by decide)) inYear
  have bound : 36524 * century + 1461 * quarter + 365 * rest + d.dayOfYear < 146097 := by
    clear split
    omega
  refine ⟨_,split ▸ bound,?_,rfl,?_⟩
  · rw [dayCount_march valid since,cycle_split,Nat.add_assoc]
  · rw [yearOfCycle_eq c q r short last split,year]

theorem year_marchYear (since : 1970 ≤ d.year) : ((d.marchYear / 400 : Nat) : Int) * 400 +
    (d.marchYear % 400 : Nat) + (if d.month ≤ 2 then 1 else 0) = d.year := by
  unfold marchYear
  split <;> omega

theorem ofCycle_eq (valid : d.Valid) (since : 1970 ≤ d.year) (fits : d.year < 4294967296) {days : Nat}
    (split : days = 365 * (d.marchYear % 400) + d.marchYear % 400 / 4 - d.marchYear % 400 / 100 + d.dayOfYear)
    (year : (days - days / 1460 + days / 36524 - days / 146096) / 365 = d.marchYear % 400) :
    Date.ofCycle (d.marchYear / 400 : Nat) days = some ⟨UInt32.ofNat d.year,d.month,d.day⟩ := by
  have leapDays := subtract_eq_some.mpr ⟨Nat.div_le_self days 1460,rfl⟩
  have once : days / 146096 ≤ days / 36524 := Nat.div_le_div_left (by decide) (by decide)
  have corrected := subtract_eq_some.mpr ⟨Nat.le_trans once (Nat.le_add_left _ (days - days / 1460)),rfl⟩
  have yearStart := subtract_eq_some.mpr
    ⟨(by omega : d.marchYear % 400 / 100 ≤ 365 * (d.marchYear % 400) + d.marchYear % 400 / 4),rfl⟩
  have dayOfYear : subtract days (365 * (d.marchYear % 400) + d.marchYear % 400 / 4 - d.marchYear % 400 / 100) =
      some d.dayOfYear := subtract_eq_some.mpr (by omega)
  have dayOfMonth : subtract d.dayOfYear ((153 * fromMarch d.month + 2) / 5) = some (d.day - 1) :=
    subtract_eq_some.mpr (by unfold CalendarDay.dayOfYear; omega)
  have uncut : Date.uncutYear ((d.marchYear / 400 : Nat) * 400 + (d.marchYear % 400 : Nat) +
      if d.month ≤ 2 then 1 else 0) = some (UInt32.ofNat d.year) := by
    rw [year_marchYear since,Date.uncutYear,if_pos (by omega),UInt32.ofInt]
    congr 2
    omega
  have day : d.day - 1 + 1 = d.day := Nat.sub_add_cancel valid.day.1
  unfold Date.ofCycle
  simp only [Option.bind_eq_bind,Option.bind_some,leapDays,corrected,year,yearStart,dayOfYear,dayOfYear_month valid,
    dayOfMonth,monthNumber_fromMarch valid,uncut,day]
  rfl

theorem checked_dayCount (valid : d.Valid) (since : 1970 ≤ d.year) (fits : d.year < 4294967296)
    {days : UInt64} (counted : days.toNat = d.dayCount) :
    Date.ofDaysChecked days = some ⟨UInt32.ofNat d.year,d.month,d.day⟩ := by
  obtain ⟨dayOfCycle,inCycle,total,split,year⟩ := dayCount_cycle valid since
  have small : days.toNat < 9223372036854775808 := by
    have bound := d.marchYear_le
    omega
  have sinceMarch : days.toInt64.toInt + Date.epoch = (146097 * (d.marchYear / 400) + dayOfCycle : Nat) := by
    rw [toInt_of_lt small,counted,Date.epoch,← total]
    rfl
  have cycle : (days.toInt64.toInt + Date.epoch) / Date.cycleDays = (d.marchYear / 400 : Nat) := by
    rw [sinceMarch,Date.cycleDays]
    omega
  have rest : ((days.toInt64.toInt + Date.epoch) % Date.cycleDays).toNat = dayOfCycle := by
    rw [sinceMarch,Date.cycleDays]
    omega
  simp only [Date.ofDaysChecked,cycle,rest]
  exact ofCycle_eq valid since fits split year

theorem year_lt (valid : d.Valid) (since : 1970 ≤ d.year) (bound : d.dayCount ≤ 1500000000000) :
    d.year < 4294967296 := by
  have march := dayCount_march valid since
  have near := d.marchYear_le
  omega

end CalendarDay

namespace Date

def named (d : Date) : CalendarDay := ⟨d.year.toNat,d.month,d.day⟩

theorem ofDays_dayCount {d : CalendarDay} (valid : d.Valid) (since : 1970 ≤ d.year)
    (bound : d.dayCount ≤ 1500000000000) {days : UInt64} (counted : days.toNat = d.dayCount) :
    ofDaysChecked days = some (ofDays days) ∧ (ofDays days).named = d := by
  have fits := CalendarDay.year_lt valid since bound
  have checked := CalendarDay.checked_dayCount valid since fits counted
  rw [ofDays_of_checked checked]
  refine ⟨checked,?_⟩
  rw [named,UInt32.toNat_ofNat_of_lt' fits]

theorem ofDays_after {days : UInt64} (bound : days.toNat ≤ 1500000000000) :
    ofDaysChecked days = some (ofDays days) ∧ (ofDays days).named = .after days.toNat := by
  obtain ⟨valid,since,counted⟩ := CalendarDay.after_spec days.toNat
  exact ofDays_dayCount valid since (by omega) counted.symm

end Date

-- No subtraction goes below zero on the way, and no year is cut.
theorem dates_follow_calendar :
    Date.ofDays 0 = ⟨1970,1,1⟩ ∧
    (∀ days : UInt64, days.toNat < 1500000000000 →
      (Date.ofDays days).named.Valid ∧
      (Date.ofDays (days + 1)).named = (Date.ofDays days).named.next ∧
      Date.ofDaysChecked days = some (Date.ofDays days) ∧
      (Date.ofDays days).named.dayCount = days.toNat ∧
      ∀ later : UInt64, days < later → later.toNat < 1500000000000 →
        (Date.ofDays days).named.Before (Date.ofDays later).named) ∧
    ∀ date : CalendarDay, date.Valid → 1970 ≤ date.year → date.dayCount < 1500000000000 →
      (Date.ofDays (UInt64.ofNat date.dayCount)).named = date := by
  refine ⟨by decide,?_,?_⟩
  · intro days bound
    obtain ⟨valid,_,counted⟩ := CalendarDay.after_spec days.toNat
    obtain ⟨checked,reached⟩ := Date.ofDays_after (Nat.le_of_lt bound)
    have count : (days + 1).toNat = days.toNat + 1 := by
      rw [UInt64.toNat_add]
      exact Nat.mod_eq_of_lt (Nat.lt_trans (Nat.succ_lt_succ bound) (by decide))
    rw [reached]
    refine ⟨valid,?_,checked,counted,?_⟩
    · rw [(Date.ofDays_after (by omega)).2,count]
      rfl
    · intro later earlier within
      rw [(Date.ofDays_after (Nat.le_of_lt within)).2]
      exact CalendarDay.after_before (UInt64.lt_iff_toNat_lt.mp earlier)
  · intro date valid since bound
    have count : (UInt64.ofNat date.dayCount).toNat = date.dayCount :=
      UInt64.toNat_ofNat_of_lt' (Nat.lt_trans bound (by decide))
    exact (Date.ofDays_dayCount valid since (Nat.le_of_lt bound) count).2

def leapDay : CalendarDay := ⟨2000,2,29⟩

theorem leapDay_follows :
    (Date.ofDays 11016).named = leapDay ∧ (Date.ofDays 11017).named = ⟨2000,3,1⟩ ∧
      leapDay.Before (Date.ofDays 1499999999999).named ∧ (Date.ofDays 1499999999999).named.Valid := by
  obtain ⟨_,from1970,counted⟩ := dates_follow_calendar
  have reached : (Date.ofDays 11016).named = leapDay := counted leapDay ⟨by decide,by decide⟩ (by decide) (by decide)
  obtain ⟨_,next,_,_,ordered⟩ := from1970 11016 (by decide)
  obtain ⟨valid,_⟩ := from1970 1499999999999 (by decide)
  have before := ordered 1499999999999 (by decide) (by decide)
  rw [reached] at next before
  exact ⟨reached,next,before,valid⟩

end WordMachine

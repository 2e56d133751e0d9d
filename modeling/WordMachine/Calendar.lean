-- Gregorian dates from counts of days since the first of January 1970.

namespace WordMachine

structure Date where
  year : UInt32
  month : Nat
  day : Nat
  deriving DecidableEq, Repr

namespace Date

def epoch : Int := 719468

def cycleDays : Int := 146097

-- Years are counted from March here, so that a leap day is the last day of its year. The count is read as a signed
-- number, and a year outside 32 bits wraps.
def ofDays (days : UInt64) : Date :=
  let sinceMarch := days.toInt64.toInt + epoch
  let cycle := sinceMarch / cycleDays
  let dayOfCycle := (sinceMarch % cycleDays).toNat
  let yearOfCycle :=
    (dayOfCycle - dayOfCycle / 1460 + dayOfCycle / 36524 - dayOfCycle / 146096) / 365
  let dayOfYear := dayOfCycle - (365 * yearOfCycle + yearOfCycle / 4 - yearOfCycle / 100)
  let monthFromMarch := (5 * dayOfYear + 2) / 153
  let day := dayOfYear - (153 * monthFromMarch + 2) / 5 + 1
  let month := if monthFromMarch < 10 then monthFromMarch + 3 else monthFromMarch - 9
  let year := cycle * 400 + yearOfCycle + if month ≤ 2 then 1 else 0
  {year := UInt32.ofInt year,month,day}

end Date

def padded (width n : Nat) : String :=
  let shortest := Nat.toDigits 10 n
  String.ofList (List.replicate (width - shortest.length) '0' ++ shortest)

def timestamp (milliseconds : Nat) : String :=
  let seconds := milliseconds / 1000
  let date := Date.ofDays (UInt64.ofNat (seconds / 86400))
  padded 4 date.year.toNat ++ "-" ++ padded 2 date.month ++ "-" ++ padded 2 date.day ++ " " ++
    padded 2 (seconds / 3600 % 24) ++ ":" ++ padded 2 (seconds / 60 % 60) ++ ":" ++
    padded 2 (seconds % 60) ++ "." ++ padded 3 (milliseconds % 1000) ++ " "

end WordMachine

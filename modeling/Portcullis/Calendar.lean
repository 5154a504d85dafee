/-
  Portcullis.Calendar — dates and times of the Gregorian calendar, as values of a document.

  A `Date` has a year from 1 to 9999 and a day that its month has; a `Moment` adds the time
  of day and, optionally, an offset from universal time of less than a day.
-/

namespace Portcullis

def isLeapYear (year : Nat) : Bool := year % 4 = 0 && (year % 100 != 0 || year % 400 = 0)

def daysInMonth (year month : Nat) : Nat :=
  match month with
  | 2 => if isLeapYear year then 29 else 28
  | 4 | 6 | 9 | 11 => 30
  | _ => 31

structure Date where
  year : Nat
  month : Nat
  day : Nat
  deriving DecidableEq, Repr

namespace Date

def valid (d : Date) : Bool :=
  1 ≤ d.year && d.year ≤ 9999 && 1 ≤ d.month && d.month ≤ 12 && 1 ≤ d.day && d.day ≤ daysInMonth d.year d.month

def of? (year month day : Nat) : Option Date :=
  let d : Date := ⟨year, month, day⟩
  if d.valid then some d else none

/-- The number of days before the date in the calendar. -/
def dayNumber (d : Date) : Nat :=
  let y := d.year - 1
  let before := (List.range (d.month - 1)).foldl (fun n m => n + daysInMonth d.year (m + 1)) 0
  365 * y + y / 4 - y / 100 + y / 400 + before + d.day

end Date

/-- A date with a time of day; `offset` is the distance from universal time in minutes. -/
structure Moment where
  date : Date
  hour : Nat
  minute : Nat
  second : Nat
  micro : Nat
  offset : Option Int
  deriving DecidableEq, Repr

namespace Moment

def minutesPerDay : Int := 1440

def valid (m : Moment) : Bool :=
  m.date.valid && m.hour < 24 && m.minute < 60 && m.second < 60 && m.micro < 1000000 &&
    (m.offset.all fun o => -minutesPerDay < o && o < minutesPerDay)

/-- Whether two moments are the same: the same reading of the clock without offsets, the
    same instant with them, and never one of each kind. -/
def same (a b : Moment) : Bool :=
  let clock (m : Moment) : Int := (m.date.dayNumber * 24 + m.hour) * 60 + m.minute
  let fine (m : Moment) : Nat := m.second * 1000000 + m.micro
  match a.offset, b.offset with
  | none, none => clock a = clock b && fine a = fine b
  | some o, some p => clock a - o = clock b - p && fine a = fine b
  | _, _ => false

end Moment

end Portcullis

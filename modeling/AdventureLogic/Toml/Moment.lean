import AdventureLogic.Toml.Reading

/-!
# Dates and times

A moment is a date, a time of day, or both with a `T` or a blank between them;
if it has both, it may also say by how much its clock is ahead. Days are those
of the calendar, leap years included, and a minute may have a leap second.

Key definitions: `Date`, `Time`, `Moment`, `readMoment`.
-/

namespace AdventureLogic
namespace Toml

/-- A day of the calendar. -/
structure Date where
  year : Nat
  month : Nat
  day : Nat
  deriving DecidableEq, Inhabited

/-- A time of day. -/
structure Time where
  hour : Nat
  minute : Nat
  second : Nat
  nanosecond : Nat := 0
  deriving DecidableEq, Inhabited

/-- A date, a time of day, or both. -/
inductive Moment where
  | date (date : Date)
  | time (time : Time)
  /-- Both, with the minutes by which the clock is ahead, if they are known. -/
  | dateTime (date : Date) (time : Time) (offset : Option Int)
  deriving DecidableEq, Inhabited

namespace Date

/-- Whether a year has a leap day. -/
def isLeapYear (year : Nat) : Bool := year % 4 = 0 && (year % 100 ≠ 0 || year % 400 = 0)

/-- The number of days of a month. -/
def daysInMonth (year month : Nat) : Nat :=
  if month = 2 then if isLeapYear year then 29 else 28
  else if month = 4 ∨ month = 6 ∨ month = 9 ∨ month = 11 then 30
  else 31

end Date

/-- Reads the four digits of a year. -/
def readYear (s : List Char) : Option (Reading Nat s) :=
  match s with
  | a :: b :: c :: d :: _ =>
    if [a, b, c, d].all (isDigitOf 10) then
      some (Reading.first (ofDigits 10 [a, b, c, d])).later.later.later
    else none
  | _ => none

/-- Reads a date. -/
def readDate (s : List Char) : Option (Reading Date s) := do
  let year ← readYear s
  let first ← expect '-' year.rest
  let month ← readTwoDigits 1 12 first.rest
  let second ← expect '-' month.rest
  let day ← readTwoDigits 1 (Date.daysInMonth year.value month.value) second.rest
  return ⟨⟨year.value, month.value, day.value⟩, day.rest, by
    have h₁ := year.shorter
    have h₂ := first.shorter
    have h₃ := month.shorter
    have h₄ := second.shorter
    have h₅ := day.shorter
    omega⟩

/-- Reads a fraction of a second, in nanoseconds. Further digits do not count. -/
def readNanoseconds (s : List Char) : Option (Reading Nat s) :=
  match s with
  | '.' :: c :: rest =>
    if isDigitOf 10 c then
      let digits := c :: rest.takeWhile (isDigitOf 10)
      let value := ofDigits 10 ((digits ++ List.replicate 9 '0').take 9)
      some (Reading.firstWhile (isDigitOf 10) value).later
    else none
  | _ => none

/-- Reads hours and minutes. -/
def readClock (s : List Char) : Option (Reading (Nat × Nat) s) := do
  let hour ← readTwoDigits 0 23 s
  let colon ← expect ':' hour.rest
  let minute ← readTwoDigits 0 59 colon.rest
  return ⟨(hour.value, minute.value), minute.rest, by
    have h₁ := hour.shorter
    have h₂ := colon.shorter
    have h₃ := minute.shorter
    omega⟩

/-- Reads a time of day. -/
def readTime (s : List Char) : Option (Reading Time s) := do
  let clock ← readClock s
  let colon ← expect ':' clock.rest
  let second ← readTwoDigits 0 60 colon.rest
  have h : second.rest.length < s.length := by
    have h₁ := clock.shorter
    have h₂ := colon.shorter
    have h₃ := second.shorter
    omega
  match readNanoseconds second.rest with
  | some part =>
    return ⟨⟨clock.value.1, clock.value.2, second.value, part.value⟩, part.rest,
      Nat.lt_trans part.shorter h⟩
  | none => return ⟨⟨clock.value.1, clock.value.2, second.value, 0⟩, second.rest, h⟩

/-- Reads by how many minutes a clock is ahead. -/
def readOffset (s : List Char) : Option (Reading Int s) :=
  match s with
  | 'Z' :: _ => some (.first 0)
  | 'z' :: _ => some (.first 0)
  | text =>
    match sign? text with
    | some x =>
      x.andThen fun t => (readClock t).map fun y => y.map fun c =>
        if x.value then -(60 * (c.1 : Int) + c.2) else 60 * (c.1 : Int) + c.2
    | none => none

/-- Reads what may stand between a date and a time. -/
def timeMark? (s : List Char) : Option (Reading Unit s) :=
  match s with
  | 'T' :: _ => some (.first ())
  | 't' :: _ => some (.first ())
  | ' ' :: _ => some (.first ())
  | _ => none

/-- Reads the time after a date, with its offset if it has one. -/
def readTimeOfDate (s : List Char) : Option (Reading (Time × Option Int) s) := do
  let mark ← timeMark? s
  let time ← mark.andThen readTime
  match readOffset time.rest with
  | some offset =>
    return ⟨(time.value, some offset.value), offset.rest, Nat.lt_trans offset.shorter time.shorter⟩
  | none => return time.map (·, none)

/-- Reads a moment. -/
def readMoment (s : List Char) : Option (Reading Moment s) :=
  match readDate s with
  | some date =>
    match readTimeOfDate date.rest with
    | some time =>
      some ((time.map fun t => .dateTime date.value t.1 t.2).widen (Nat.le_of_lt date.shorter))
    | none => some (date.map .date)
  | none => (readTime s).map fun time => time.map .time

end Toml
end AdventureLogic

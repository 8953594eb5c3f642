import Concord.Time.Duration

/-!
Instants in nanoseconds since the start of 1970, dates in the calendar that they fall on, and a
clock that moves only when it is told to.
-/

namespace Concord

/-- A moment that a clock can tell. No clock here tells leap seconds. -/
structure Instant where
  nanos : Int
deriving DecidableEq, Repr, Inhabited

namespace Instant

/-- The start of 1970. -/
def epoch : Instant :=
  ⟨0⟩

/-- A number of milliseconds since the start of 1970. -/
def ofMillis (n : Int) : Instant :=
  ⟨n * Duration.nanosPerMilli⟩

/-- The milliseconds since the start of 1970. -/
def millis (t : Instant) : Int :=
  t.nanos / Duration.nanosPerMilli

/-- The first millisecond that has a date: the start of the year -262143. -/
def firstMilli : Int :=
  -8334601228800000

/-- The last millisecond that has a date: the end of the year 262142. -/
def lastMilli : Int :=
  8210266876799999

/-- Whether a number of nanoseconds since the start of 1970 has a date. -/
def inRange (nanos : Int) : Bool :=
  firstMilli * Duration.nanosPerMilli ≤ nanos
    && nanos < (lastMilli + 1) * Duration.nanosPerMilli

/-- Whether `t` comes before `u`. -/
def before (t u : Instant) : Bool :=
  t.nanos < u.nanos

/-- The longest delay that is ever added to an instant. -/
def longestDelay : Duration :=
  .ofMillis Int64.maxValue.toInt.toNat

/-- The instant `delay` after `now`, or `now` where that has no date. -/
def deadline (now : Instant) (delay : Duration) : Instant :=
  let due := now.nanos + delay.nanos
  if delay.nanos ≤ longestDelay.nanos ∧ inRange due then ⟨due⟩ else now

end Instant

/-- A clock that moves only when it is told to. Its counter of milliseconds has sixty-four bits
and wraps. -/
structure ManualClock where
  millis : Int64 := 0
deriving DecidableEq, Repr, Inhabited

namespace ManualClock

/-- The clock that stands at an instant. -/
def startingAt (t : Instant) : ManualClock :=
  ⟨Int64.ofInt t.millis⟩

/-- The clock moved forward by the whole milliseconds of a span. -/
def advance (c : ManualClock) (by_ : Duration) : ManualClock :=
  ⟨c.millis + Int64.ofInt (min by_.millis Int64.maxValue.toInt)⟩

/-- What the clock reads: a counter without a date reads as the start of 1970. -/
def now (c : ManualClock) : Instant :=
  let t := Instant.ofMillis c.millis.toInt
  if Instant.inRange t.nanos then t else .epoch

end ManualClock

/-- A date in the Gregorian calendar, continued backwards; the year before 1 is 0. -/
structure Date where
  year : Int
  month : Nat
  day : Nat
deriving DecidableEq, Repr

namespace Date

/-- Whether a year has a twenty-ninth of February. -/
def isLeapYear (year : Int) : Bool :=
  year % 4 = 0 && (year % 100 ≠ 0 || year % 400 = 0)

/-- The number of days of a month. -/
def monthDays (year : Int) (month : Nat) : Nat :=
  if month = 2 then (if isLeapYear year then 29 else 28)
  else if month = 4 || month = 6 || month = 9 || month = 11 then 30
  else 31

/-- Whether there is such a day. -/
def isValid (d : Date) : Bool :=
  1 ≤ d.month && d.month ≤ 12 && 1 ≤ d.day && d.day ≤ monthDays d.year d.month

/-- The days from the first of January 1970 to a date. Years are counted from March, so that the
leap day comes last. -/
def toDays (d : Date) : Int :=
  let year := if d.month ≤ 2 then d.year - 1 else d.year
  let era := year / 400
  let yearOfEra := year % 400
  let month : Int := if d.month ≤ 2 then d.month + 9 else d.month - 3
  let dayOfYear := (153 * month + 2) / 5 + d.day - 1
  era * 146097 + (yearOfEra * 365 + yearOfEra / 4 - yearOfEra / 100 + dayOfYear) - 719468

/-- The date a number of days after the first of January 1970. -/
def ofDays (days : Int) : Date :=
  let shifted := days + 719468
  let era := shifted / 146097
  let dayOfEra := shifted % 146097
  let yearOfEra :=
    (dayOfEra - dayOfEra / 1460 + dayOfEra / 36524 - dayOfEra / 146096) / 365
  let dayOfYear := dayOfEra - (365 * yearOfEra + yearOfEra / 4 - yearOfEra / 100)
  let shiftedMonth := (5 * dayOfYear + 2) / 153
  let day := dayOfYear - (153 * shiftedMonth + 2) / 5 + 1
  let month := if shiftedMonth < 10 then shiftedMonth + 3 else shiftedMonth - 9
  let year := yearOfEra + era * 400
  ⟨if month ≤ 2 then year + 1 else year, month.toNat, day.toNat⟩

end Date

end Concord

import Concord.Text.Blank
import Concord.Time.Instant

/-!
Moments as text: date, `T`, time of day and offset. Moments are written in universal time with
the fewest of three, six or nine digits after the point. Reading is more liberal: blanks may stand
around the parts, numbers may be short, years may carry a sign, and the offset may be anything
below a day. A text may also tell a leap second, which no clock does.
-/

namespace Concord

/-- A moment as a text tells it: an instant or, with `leap`, the moment a second later in the leap
second that follows the second of the instant. -/
structure Moment where
  instant : Instant
  leap : Bool := false
deriving DecidableEq, Repr

/-- What can be told as a moment. -/
class Timed (time : Type) where
  /-- The moment that is told. -/
  moment : time → Moment

instance : Timed Instant :=
  ⟨fun t => ⟨t, false⟩⟩

instance : Timed Moment :=
  ⟨id⟩

namespace Moment

namespace Writer

/-- A number with zeros in front up to a width. -/
def padded (width n : Nat) : List Char :=
  let digits := Nat.toDigits 10 n
  List.replicate (width - digits.length) '0' ++ digits

/-- A year: four digits, with a sign if it has more or is negative. -/
def year (y : Int) : List Char :=
  if 0 ≤ y ∧ y ≤ 9999 then padded 4 y.toNat
  else (if y < 0 then '-' else '+') :: padded 4 y.natAbs

/-- The digits after the second, in groups of three. -/
def fraction (nanos : Nat) : List Char :=
  if nanos = 0 then []
  else if nanos % 1000000 = 0 then '.' :: padded 3 (nanos / 1000000)
  else if nanos % 1000 = 0 then '.' :: padded 6 (nanos / 1000)
  else '.' :: padded 9 nanos

end Writer

/-- A moment in universal time. In a leap second it counts as second sixty. -/
def toText (t : Moment) : String :=
  let second : Int := Duration.nanosPerSecond
  let seconds := t.instant.nanos / second
  let date := Date.ofDays (seconds / 86400)
  let clock := (seconds % 86400).toNat
  String.ofList (Writer.year date.year ++ '-' :: Writer.padded 2 date.month
    ++ '-' :: Writer.padded 2 date.day
    ++ 'T' :: Writer.padded 2 (clock / 3600) ++ ':' :: Writer.padded 2 (clock / 60 % 60)
    ++ ':' :: Writer.padded 2 (clock % 60 + if t.leap then 1 else 0)
    ++ Writer.fraction (t.instant.nanos % second).toNat ++ ['Z'])

namespace Reader

/-- The number that decimal digits stand for. -/
def decimal (digits : List Char) : Nat :=
  digits.foldl (fun n c => 10 * n + (c.toNat - 48)) 0

/-- One digit up to `most` of them. -/
def digits (most : Nat) (cs : List Char) : Option (Nat × List Char) :=
  match (cs.take most).takeWhile Char.isDigit with
  | [] => none
  | found => some (decimal found, cs.drop found.length)

/-- A number of one or two digits after blanks. -/
def twoDigits (cs : List Char) : Option (Nat × List Char) :=
  digits 2 (Text.skipBlanks cs)

/-- A year after blanks: up to four digits, or any number of them after a sign. -/
def year (cs : List Char) : Option (Int × List Char) :=
  match Text.skipBlanks cs with
  | '-' :: rest => (digits rest.length rest).map fun found => (-(found.1 : Int), found.2)
  | '+' :: rest => (digits rest.length rest).map fun found => ((found.1 : Int), found.2)
  | rest => (digits 4 rest).map fun found => ((found.1 : Int), found.2)

/-- A mark after blanks. -/
def mark (c : Char) (cs : List Char) : Option (List Char) :=
  match Text.skipBlanks cs with
  | d :: rest => if d = c then some rest else none
  | [] => none

/-- Digits after a point, if there is one: nine count, further ones are dropped. -/
def fraction : List Char → Option (Nat × List Char)
  | '.' :: cs =>
      match cs.takeWhile Char.isDigit with
      | [] => none
      | found =>
          let kept := found.take 9
          some (decimal kept * Nat.pow 10 (9 - kept.length), cs.drop found.length)
  | cs => some (0, cs)

/-- The seconds that local time is ahead of universal time: `Z`, the letters `UTC`, or a sign,
two digits for hours and two for minutes with colons or blanks between them. -/
def offset (cs : List Char) : Option (Int × List Char) :=
  if (cs.take 3).map Char.toUpper = ['U', 'T', 'C'] then some (0, cs.drop 3)
  else
    match cs with
    | 'Z' :: rest => some (0, rest)
    | 'z' :: rest => some (0, rest)
    | sign :: h :: i :: rest =>
        let negative := sign = '-' || sign = '\u2212'
        match rest.dropWhile fun c => c = ':' || Text.isBlank c with
        | m :: n :: rest =>
            if (negative || sign = '+') && [h, i, m, n].all Char.isDigit && m < '6' then
              let size : Int := 3600 * decimal [h, i] + 60 * decimal [m, n]
              some (if negative then -size else size, rest)
            else none
        | _ => none
    | _ => none

/-- A date. -/
def date (cs : List Char) : Option (Date × List Char) := do
  let (year, cs) ← year cs
  let (month, cs) ← twoDigits (← mark '-' cs)
  let (day, cs) ← twoDigits (← mark '-' cs)
  return (⟨year, month, day⟩, cs)

end Reader

/-- The moment that a text tells. -/
def ofText? (s : String) : Option Moment := do
  let (date, cs) ← Reader.date s.toList
  let cs ← match cs with
    | 'T' :: rest => some rest
    | 't' :: rest => some rest
    | ' ' :: rest => some rest
    | _ => none
  let (hour, cs) ← Reader.twoDigits cs
  let (minute, cs) ← Reader.twoDigits (← Reader.mark ':' cs)
  let (second, cs) ← Reader.twoDigits (← Reader.mark ':' cs)
  let (fraction, cs) ← Reader.fraction cs
  let (offset, cs) ← Reader.offset (Text.skipBlanks cs)
  if !(Text.skipBlanks cs).isEmpty || !date.isValid || hour > 23 || minute > 59 || second > 60
      || offset.natAbs ≥ 86400 then none
  else
    let clock : Int := 3600 * hour + 60 * minute + min second 59
    let local_ := (date.toDays * 86400 + clock) * Duration.nanosPerSecond + fraction
    let nanos := local_ - offset * Duration.nanosPerSecond
    if Instant.inRange local_ ∧ Instant.inRange nanos then some ⟨⟨nanos⟩, second = 60⟩ else none

end Moment

end Concord

import Concord.Json.Basic
import Concord.Time.Instant
import Concord.Toml.Basic

/-!
The TOML values that are written as one bare word: truth values, integers in four bases, floats,
dates and times of day.
-/

namespace Concord.Toml.Scalar

/-- A list of characters of which each is a digit, with single underscores between digits. -/
def digits (isDigit : Char → Bool) : List Char → Option (List Char)
  | [] => none
  | [c] => if isDigit c then some [c] else none
  | c :: '_' :: rest => if isDigit c then (digits isDigit rest).map (c :: ·) else none
  | c :: rest => if isDigit c then (digits isDigit rest).map (c :: ·) else none

/-- The value of a digit in any base up to sixteen. -/
def digitValue (c : Char) : Nat :=
  if c.isDigit then c.toNat - 48 else if c.isLower then c.toNat - 87 else c.toNat - 55

/-- The number that digits of a base stand for. -/
def number (base : Nat) (ds : List Char) : Nat :=
  ds.foldl (fun n c => base * n + digitValue c) 0

/-- Whether a character is a digit of a base. -/
def isDigitOf (base : Nat) (c : Char) : Bool :=
  (c.isDigit || ('a' ≤ c && c ≤ 'f') || ('A' ≤ c && c ≤ 'F')) && digitValue c < base

/-- Decimal digits of which the first is zero only if there is no other. -/
def whole (cs : List Char) : Option (List Char) :=
  match digits Char.isDigit cs with
  | some ('0' :: _ :: _) => none
  | found => found

/-- A sign, if there is one, and what follows. -/
def signed : List Char → Bool × List Char
  | '-' :: cs => (true, cs)
  | '+' :: cs => (false, cs)
  | cs => (false, cs)

/-- An integer: a decimal one may have a sign, one in another base tells it first. -/
def integer? (cs : List Char) : Option Int :=
  let ofBase (base : Nat) (ds : List Char) : Option Int :=
    (digits (isDigitOf base) ds).map fun found => number base found
  match cs with
  | '0' :: 'x' :: ds => ofBase 16 ds
  | '0' :: 'o' :: ds => ofBase 8 ds
  | '0' :: 'b' :: ds => ofBase 2 ds
  | _ =>
      let (negative, ds) := signed cs
      (whole ds).map fun found =>
        if negative then -(number 10 found : Int) else number 10 found

/-- The digits after a point, if there is a point. -/
def fraction? : List Char → Option (List Char)
  | [] => some []
  | '.' :: ds => digits Char.isDigit ds
  | _ => none

/-- The number after the letter of an exponent, if there is one. -/
def exponent? : List Char → Option Int
  | [] => some 0
  | _ :: cs =>
      let (negative, ds) := signed cs
      (digits Char.isDigit ds).map fun found =>
        if negative then -(number 10 found : Int) else number 10 found

/-- A float. It has a fraction or an exponent, or is infinite or no number by name. -/
def float? (cs : List Char) : Option (Option Json.Number) :=
  let (negative, cs) := signed cs
  if cs = ['i', 'n', 'f'] || cs = ['n', 'a', 'n'] then some none
  else do
    let isExponent (c : Char) : Bool := c = 'e' || c = 'E'
    let mantissa := cs.takeWhile fun c => !isExponent c
    let high ← whole (mantissa.takeWhile (· ≠ '.'))
    let low ← fraction? (mantissa.dropWhile (· ≠ '.'))
    let shift ← exponent? (cs.dropWhile fun c => !isExponent c)
    return some
      { negative, significand := number 10 (high ++ low), places := low.length, exponent := shift
        integral := false }

/-- A number of two digits. -/
def twoDigits? : List Char → Option (Nat × List Char)
  | a :: b :: rest =>
      if a.isDigit && b.isDigit then some (number 10 [a, b], rest) else none
  | _ => none

/-- A date and what follows it. -/
def date? : List Char → Option (Date × List Char)
  | a :: b :: c :: d :: '-' :: rest => do
      let (month, rest) ← twoDigits? rest
      let '-' :: rest := rest | none
      let (day, rest) ← twoDigits? rest
      let date : Date := ⟨number 10 [a, b, c, d], month, day⟩
      if [a, b, c, d].all Char.isDigit && date.isValid then some (date, rest) else none
  | _ => none

/-- The seconds of a time of day, with a fraction or without, and what follows them. -/
def seconds? (cs : List Char) : Option (List Char) := do
  let (second, cs) ← twoDigits? cs
  if second > 60 then none
  else
    match cs with
    | '.' :: rest =>
        if (rest.takeWhile Char.isDigit).isEmpty then none else some (rest.dropWhile Char.isDigit)
    | rest => some rest

/-- A time of day, and what follows it. The seconds may be left out. -/
def timeOfDay? (cs : List Char) : Option (List Char) := do
  let (hour, cs) ← twoDigits? cs
  let ':' :: cs := cs | none
  let (minute, cs) ← twoDigits? cs
  if hour > 23 || minute > 59 then none
  else
    match cs with
    | ':' :: rest => seconds? rest
    | rest => some rest

/-- Whether the text is an offset from universal time. -/
def isOffset : List Char → Bool
  | ['Z'] => true
  | ['z'] => true
  | sign :: cs =>
      match twoDigits? cs with
      | some (hour, ':' :: cs) =>
          match twoDigits? cs with
          | some (minute, []) => (sign = '+' || sign = '-') && hour ≤ 23 && minute ≤ 59
          | _ => false
      | _ => false
  | [] => false

/-- Whether the text is a date, a time of day, or both, the last maybe with an offset. -/
def isMoment (cs : List Char) : Bool :=
  match date? cs with
  | some (_, []) => true
  | some (_, mark :: rest) =>
      (mark = 'T' || mark = 't') &&
        match timeOfDay? rest with
        | some offset => offset.isEmpty || isOffset offset
        | none => false
  | none =>
      match timeOfDay? cs with
      | some rest => rest.isEmpty
      | none => false

/-- The value of a bare word. -/
def ofWord? (cs : List Char) : Option Toml :=
  if cs = "true".toList then some (.bool true)
  else if cs = "false".toList then some (.bool false)
  else
    match integer? cs with
    | some i => some (.integer i)
    | none =>
        match float? cs with
        | some value => some (.float value)
        | none => if isMoment cs then some .moment else none

/-- Whether a character may stand in a bare word. -/
def isWordChar (c : Char) : Bool :=
  c.isAlphanum || c = '_' || c = '+' || c = '-' || c = '.' || c = ':'

/-- A bare word, and what follows it. A time of day may come after a date and a blank. -/
def word (cs : List Char) : List Char × List Char :=
  let found := cs.takeWhile isWordChar
  let rest := cs.dropWhile isWordChar
  match date? found, rest with
  | some (_, []), ' ' :: a :: b :: ':' :: more =>
      if a.isDigit && b.isDigit then
        let time := a :: b :: ':' :: more
        (found ++ 'T' :: time.takeWhile isWordChar, time.dropWhile isWordChar)
      else (found, rest)
  | _, _ => (found, rest)

end Concord.Toml.Scalar

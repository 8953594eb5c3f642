import Concord.Json.Basic

/-!
Reading JSON texts. Each reader takes what is left of the text and gives a value and what is left
after it, or nothing where the text does not continue with such a value. The depth of nesting is
not limited here but where a value is decoded.
-/

namespace Concord.Json

namespace Reader

/-- The characters that may stand between tokens. -/
def isBlank (c : Char) : Bool :=
  c = ' ' || c = '\t' || c = '\n' || c = '\r'

/-- What follows the blanks. -/
def skipBlanks (cs : List Char) : List Char :=
  cs.dropWhile isBlank

/-- The number that decimal digits stand for. -/
def decimal (digits : List Char) : Nat :=
  digits.foldl (fun n c => 10 * n + (c.toNat - 48)) 0

/-- At least one digit. -/
def digits (cs : List Char) : Option (List Char × List Char) :=
  match cs.takeWhile Char.isDigit with
  | [] => none
  | found => some (found, cs.dropWhile Char.isDigit)

/-- The digits before the point: a leading zero stands alone. -/
def whole (cs : List Char) : Option (List Char × List Char) :=
  match digits cs with
  | some ('0' :: _ :: _, _) => none
  | found => found

/-- The digits after a point, if there is one. -/
def fraction : List Char → Option (Option (List Char) × List Char)
  | '.' :: cs => (digits cs).map fun found => (some found.1, found.2)
  | cs => some (none, cs)

/-- The exponent after an `e`, if there is one. -/
def exponent : List Char → Option (Option Int × List Char)
  | c :: cs =>
      if c = 'e' || c = 'E' then
        match cs with
        | '-' :: cs => (digits cs).map fun found => (some (-(decimal found.1 : Int)), found.2)
        | '+' :: cs => (digits cs).map fun found => (some (decimal found.1 : Int), found.2)
        | cs => (digits cs).map fun found => (some (decimal found.1 : Int), found.2)
      else some (none, c :: cs)
  | [] => some (none, [])

/-- A number without its sign. -/
def unsigned (negative : Bool) (cs : List Char) : Option (Number × List Char) := do
  let (high, cs) ← whole cs
  let (low, cs) ← fraction cs
  let (shift, cs) ← exponent cs
  let number : Number :=
    { negative
      significand := decimal (high ++ low.getD [])
      places := (low.getD []).length
      exponent := shift.getD 0
      integral := low.isNone && shift.isNone }
  return (number, cs)

/-- A number. -/
def number : List Char → Option (Number × List Char)
  | '-' :: cs => unsigned true cs
  | cs => unsigned false cs

/-- A part of a string literal: a character, or a code unit given by its four digits. -/
inductive Piece where
  | char (c : Char)
  | unit (n : Nat)

/-- The value of a hexadecimal digit. -/
def hexDigit? (c : Char) : Option Nat :=
  if '0' ≤ c ∧ c ≤ '9' then some (c.toNat - 48)
  else if 'a' ≤ c ∧ c ≤ 'f' then some (c.toNat - 87)
  else if 'A' ≤ c ∧ c ≤ 'F' then some (c.toNat - 55)
  else none

/-- The number of four hexadecimal digits. -/
def hex4? (a b c d : Char) : Option Nat := do
  return 4096 * (← hexDigit? a) + 256 * (← hexDigit? b) + 16 * (← hexDigit? c)
    + (← hexDigit? d)

/-- The character after a backslash, other than `u`, stands for this one. -/
def escaped? : Char → Option Char
  | '"' => some '"'
  | '\\' => some '\\'
  | '/' => some '/'
  | 'b' => some '\x08'
  | 'f' => some '\x0c'
  | 'n' => some '\n'
  | 'r' => some '\r'
  | 't' => some '\t'
  | _ => none

/-- The parts of a string literal after its opening quote. Control characters have to be
escaped. -/
def pieces : List Char → Option (List Piece × List Char)
  | [] => none
  | '"' :: rest => some ([], rest)
  | '\\' :: 'u' :: a :: b :: c :: d :: rest =>
      (hex4? a b c d).bind fun n =>
        (pieces rest).map fun found => (.unit n :: found.1, found.2)
  | '\\' :: c :: rest =>
      (escaped? c).bind fun e => (pieces rest).map fun found => (.char e :: found.1, found.2)
  | c :: rest =>
      if c.toNat < 32 || c = '\\' then none
      else (pieces rest).map fun found => (.char c :: found.1, found.2)

/-- Whether a code unit is the first half of a surrogate pair. -/
def isLead (n : Nat) : Bool :=
  0xD800 ≤ n && n < 0xDC00

/-- Whether a code unit is the second half of a surrogate pair. -/
def isTrail (n : Nat) : Bool :=
  0xDC00 ≤ n && n < 0xE000

/-- The characters of a literal. Halves of surrogate pairs denote a character only where two
belong together. -/
def join : List Piece → Option (List Char)
  | [] => some []
  | .char c :: rest => (join rest).map (c :: ·)
  | .unit n :: rest =>
      if isLead n then
        match rest with
        | .unit m :: rest =>
            if isTrail m then
              (join rest).map (Char.ofNat (0x10000 + (n - 0xD800) * 0x400 + (m - 0xDC00)) :: ·)
            else none
        | _ => none
      else if isTrail n then none
      else (join rest).map (Char.ofNat n :: ·)

/-- A string after its opening quote. -/
def text (cs : List Char) : Option (Option String × List Char) :=
  (pieces cs).map fun found => ((join found.1).map String.ofList, found.2)

/-- A word that stands for a value of its own. -/
def word (expected : String) (value : Json) (cs : List Char) : Option (Json × List Char) :=
  if expected.toList.isPrefixOf cs then some (value, cs.drop expected.length) else none

mutual
/-- A value, where no blanks come first. The first argument bounds the number of steps. -/
def value : Nat → List Char → Option (Json × List Char)
  | 0, _ => none
  | fuel + 1, cs =>
      match cs with
      | '{' :: rest =>
          match skipBlanks rest with
          | '}' :: rest => some (.object [], rest)
          | rest => (members fuel rest).map fun found => (.object found.1, found.2)
      | '[' :: rest =>
          match skipBlanks rest with
          | ']' :: rest => some (.array [], rest)
          | rest => (items fuel rest).map fun found => (.array found.1, found.2)
      | '"' :: rest => (text rest).map fun found => (.text found.1, found.2)
      | 'n' :: _ => word "null" .null cs
      | 't' :: _ => word "true" (.bool true) cs
      | 'f' :: _ => word "false" (.bool false) cs
      | _ => (number cs).map fun found => (.number found.1, found.2)
/-- The items of an array up to its end; there is at least one. -/
def items : Nat → List Char → Option (List Json × List Char)
  | 0, _ => none
  | fuel + 1, cs =>
      (value fuel cs).bind fun (item, rest) =>
        match skipBlanks rest with
        | ']' :: rest => some ([item], rest)
        | ',' :: rest =>
            (items fuel (skipBlanks rest)).map fun found => (item :: found.1, found.2)
        | _ => none
/-- The members of an object up to its end; there is at least one. -/
def members : Nat → List Char → Option (List (Option String × Json) × List Char)
  | 0, _ => none
  | fuel + 1, cs =>
      match cs with
      | '"' :: rest =>
          (text rest).bind fun (name, rest) =>
            match skipBlanks rest with
            | ':' :: rest =>
                (value fuel (skipBlanks rest)).bind fun (member, rest) =>
                  match skipBlanks rest with
                  | '}' :: rest => some ([(name, member)], rest)
                  | ',' :: rest =>
                      (members fuel (skipBlanks rest)).map fun found =>
                        ((name, member) :: found.1, found.2)
                  | _ => none
            | _ => none
      | _ => none
end

end Reader

/-- The value that a JSON text starts with, and what is left after it. -/
def leading? (s : String) : Option (Json × List Char) :=
  let cs := s.toList
  Reader.value (2 * cs.length + 2) (Reader.skipBlanks cs)

/-- The value of a JSON text: one value with nothing but blanks around it. -/
def parse? (s : String) : Option Json :=
  (leading? s).bind fun found =>
    if (Reader.skipBlanks found.2).isEmpty then some found.1 else none

end Concord.Json

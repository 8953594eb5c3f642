import Concord.Json.Basic

/-!
Writing JSON texts, in a compact form without blanks and in an indented form with one item or
member a line.
-/

namespace Concord.Json

namespace Writer

/-- A decimal number. -/
def decimal (n : Nat) : List Char :=
  Nat.toDigits 10 n

/-- A number: digits alone for an integer, otherwise with an exponent. -/
def number (n : Number) : List Char :=
  (if n.negative then ['-'] else []) ++ decimal n.significand ++
    if n.integral then []
    else 'e' :: (if n.scale < 0 then ['-'] else []) ++ decimal n.scale.natAbs

/-- A character within a string: quotes, backslashes and control characters are escaped. -/
def char (c : Char) : List Char :=
  if c = '"' then ['\\', '"']
  else if c = '\\' then ['\\', '\\']
  else if c = '\x08' then ['\\', 'b']
  else if c = '\x0c' then ['\\', 'f']
  else if c = '\n' then ['\\', 'n']
  else if c = '\r' then ['\\', 'r']
  else if c = '\t' then ['\\', 't']
  else if c.toNat < 32 then
    ['\\', 'u', '0', '0', Nat.digitChar (c.toNat / 16), Nat.digitChar (c.toNat % 16)]
  else [c]

/-- A string; the literal that denotes no text is half of a surrogate pair. -/
def text : Option String → List Char
  | some s => '"' :: s.toList.flatMap char ++ ['"']
  | none => "\"\\ud800\"".toList

/-- A line break and `depth` steps of two blanks. -/
def newline (depth : Nat) : List Char :=
  '\n' :: List.replicate (2 * depth) ' '

mutual
/-- A value without blanks. -/
def compact : Json → List Char
  | .null => "null".toList
  | .bool true => "true".toList
  | .bool false => "false".toList
  | .number n => number n
  | .text s => text s
  | .array items => '[' :: compactItems items ++ [']']
  | .object members => '{' :: compactMembers members ++ ['}']
/-- Items with commas between them. -/
def compactItems : List Json → List Char
  | [] => []
  | [item] => compact item
  | item :: next :: rest => compact item ++ ',' :: compactItems (next :: rest)
/-- Members with commas between them. -/
def compactMembers : List (Option String × Json) → List Char
  | [] => []
  | [(name, member)] => text name ++ ':' :: compact member
  | (name, member) :: next :: rest =>
      text name ++ ':' :: compact member ++ ',' :: compactMembers (next :: rest)
end

mutual
/-- A value on lines of its own, `depth` steps inside. -/
def pretty (depth : Nat) : Json → List Char
  | .null => "null".toList
  | .bool true => "true".toList
  | .bool false => "false".toList
  | .number n => number n
  | .text s => text s
  | .array [] => "[]".toList
  | .array (item :: rest) =>
      '[' :: prettyItems (depth + 1) (item :: rest) ++ newline depth ++ [']']
  | .object [] => "\x7b\x7d".toList
  | .object (member :: rest) =>
      '{' :: prettyMembers (depth + 1) (member :: rest) ++ newline depth ++ ['}']
/-- Items, each on a new line, with commas between them. -/
def prettyItems (depth : Nat) : List Json → List Char
  | [] => []
  | [item] => newline depth ++ pretty depth item
  | item :: next :: rest =>
      newline depth ++ pretty depth item ++ ',' :: prettyItems depth (next :: rest)
/-- Members, each on a new line, with commas between them. -/
def prettyMembers (depth : Nat) : List (Option String × Json) → List Char
  | [] => []
  | [(name, member)] => newline depth ++ text name ++ ':' :: ' ' :: pretty depth member
  | (name, member) :: next :: rest =>
      newline depth ++ text name ++ ':' :: ' ' :: pretty depth member
        ++ ',' :: prettyMembers depth (next :: rest)
end

end Writer

/-- The compact text of a value. -/
def toCompact (j : Json) : String :=
  String.ofList (Writer.compact j)

/-- The indented text of a value. -/
def toPretty (j : Json) : String :=
  String.ofList (Writer.pretty 0 j)

end Concord.Json

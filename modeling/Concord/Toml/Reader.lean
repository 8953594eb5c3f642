import Concord.Json.Reader
import Concord.Toml.Scalar

/-!
Reading TOML documents. Each reader takes what is left of the text and gives a value and what is
left after it, or nothing where the text does not continue with such a value. Numeric arguments
that go down with every call bound the number of steps; the text never has more to offer.
-/

namespace Concord.Toml

namespace Reader

/-- The most arrays and inline tables that may be open at once, and the most parts of a key. -/
def maxDepth : Nat :=
  80

/-- Blanks within a line. -/
def isBlank (c : Char) : Bool :=
  c = ' ' || c = '\t'

/-- What follows the blanks. -/
def skipBlanks (cs : List Char) : List Char :=
  cs.dropWhile isBlank

/-- The characters that may stand in comments and strings: all but control characters, of which
the tab is allowed. -/
def isPlain (c : Char) : Bool :=
  c = '\t' || (32 ≤ c.toNat && c.toNat ≠ 127)

/-- What follows a line break. -/
def newline? : List Char → Option (List Char)
  | '\n' :: rest => some rest
  | '\r' :: '\n' :: rest => some rest
  | _ => none

/-- What follows a comment, if there is one. -/
def skipComment : List Char → List Char
  | '#' :: rest => rest.dropWhile isPlain
  | cs => cs

/-- What follows a line on which nothing but a comment is left. -/
def lineEnd? (cs : List Char) : Option (List Char) :=
  match skipComment (skipBlanks cs) with
  | [] => some []
  | rest => newline? rest

/-- What follows blanks, comments and line breaks. -/
def skipLines : Nat → List Char → List Char
  | 0, cs => cs
  | fuel + 1, cs =>
      let rest := skipComment (skipBlanks cs)
      match newline? rest with
      | some rest => skipLines fuel rest
      | none => rest

/-- The character after a backslash, other than `x`, `u` and `U`, stands for this one. -/
def escaped? : Char → Option Char
  | '"' => some '"'
  | '\\' => some '\\'
  | 'b' => some '\x08'
  | 'e' => some '\x1b'
  | 'f' => some '\x0c'
  | 'n' => some '\n'
  | 'r' => some '\r'
  | 't' => some '\t'
  | _ => none

/-- The character with a number of hexadecimal digits. -/
def scalar? (ds : List Char) : Option Char := do
  let n ← ds.foldlM (fun n c => (Json.Reader.hexDigit? c).map (16 * n + ·)) 0
  if n.isValidChar then some (Char.ofNat n) else none

/-- One more character in front of what was read. -/
def push (c : Char) (found : Option (List Char × List Char)) : Option (List Char × List Char) :=
  found.map fun f => (c :: f.1, f.2)

/-- A string with escapes after its opening quote. -/
def basic : List Char → Option (List Char × List Char)
  | [] => none
  | '"' :: rest => some ([], rest)
  | '\\' :: 'x' :: a :: b :: rest => (scalar? [a, b]).bind fun x => push x (basic rest)
  | '\\' :: 'u' :: a :: b :: c :: d :: rest =>
      (scalar? [a, b, c, d]).bind fun x => push x (basic rest)
  | '\\' :: 'U' :: a :: b :: c :: d :: e :: f :: g :: h :: rest =>
      (scalar? [a, b, c, d, e, f, g, h]).bind fun x => push x (basic rest)
  | '\\' :: c :: rest => (escaped? c).bind fun x => push x (basic rest)
  | c :: rest => if isPlain c && c ≠ '\\' then push c (basic rest) else none

/-- Up to two quotes right after the end of a string of several lines belong to it. -/
def closing (quote : Char) : List Char → List Char × List Char
  | a :: b :: rest =>
      if a = quote then
        if b = quote then ([a, b], rest) else ([a], b :: rest)
      else ([], a :: b :: rest)
  | [a] => if a = quote then ([a], []) else ([], [a])
  | [] => ([], [])

/-- A string with escapes of several lines. A backslash at the end of a line takes away the blanks
and line breaks that follow; `joining` tells that this is under way. -/
def multiBasic (joining : Bool) : List Char → Option (List Char × List Char)
  | [] => none
  | '"' :: '"' :: '"' :: rest => some (closing '"' rest)
  | '\\' :: 'x' :: a :: b :: rest =>
      (scalar? [a, b]).bind fun x => push x (multiBasic false rest)
  | '\\' :: 'u' :: a :: b :: c :: d :: rest =>
      (scalar? [a, b, c, d]).bind fun x => push x (multiBasic false rest)
  | '\\' :: 'U' :: a :: b :: c :: d :: e :: f :: g :: h :: rest =>
      (scalar? [a, b, c, d, e, f, g, h]).bind fun x => push x (multiBasic false rest)
  | '\\' :: c :: rest =>
      match escaped? c with
      | some x => push x (multiBasic false rest)
      | none =>
          if (newline? (skipBlanks (c :: rest))).isSome then multiBasic true rest else none
  | '\r' :: '\n' :: rest =>
      if joining then multiBasic true rest else push '\r' (push '\n' (multiBasic false rest))
  | c :: rest =>
      if joining && (isBlank c || c = '\n') then multiBasic true rest
      else if (isPlain c && c ≠ '\\') || c = '\n' then push c (multiBasic false rest)
      else none

/-- A string without escapes after its opening quote. -/
def literal : List Char → Option (List Char × List Char)
  | [] => none
  | '\'' :: rest => some ([], rest)
  | c :: rest => if isPlain c then push c (literal rest) else none

/-- A string without escapes of several lines. -/
def multiLiteral : List Char → Option (List Char × List Char)
  | [] => none
  | '\'' :: '\'' :: '\'' :: rest => some (closing '\'' rest)
  | '\r' :: '\n' :: rest => push '\r' (push '\n' (multiLiteral rest))
  | c :: rest => if isPlain c || c = '\n' then push c (multiLiteral rest) else none

/-- The line break right after the start of a string of several lines does not count. -/
def skipNewline (cs : List Char) : List Char :=
  (newline? cs).getD cs

/-- A string of any form. -/
def text : List Char → Option (String × List Char)
  | '"' :: '"' :: '"' :: rest => told (multiBasic false (skipNewline rest))
  | '\'' :: '\'' :: '\'' :: rest => told (multiLiteral (skipNewline rest))
  | '"' :: rest => told (basic rest)
  | '\'' :: rest => told (literal rest)
  | _ => none
where
  told (found : Option (List Char × List Char)) : Option (String × List Char) :=
    found.map fun f => (String.ofList f.1, f.2)

/-- The characters that need no quotes in a key. -/
def isBareChar (c : Char) : Bool :=
  c.isAlphanum || c = '_' || c = '-'

/-- One part of a key. -/
def keyPart : List Char → Option (String × List Char)
  | '"' :: rest => text.told (basic rest)
  | '\'' :: rest => text.told (literal rest)
  | cs =>
      match cs.takeWhile isBareChar with
      | [] => none
      | found => some (String.ofList found, cs.dropWhile isBareChar)

/-- A key: parts with points between them, but no more than a number of them. -/
def key : Nat → List Char → Option (List String × List Char)
  | 0, _ => none
  | fuel + 1, cs =>
      (keyPart cs).bind fun (part, rest) =>
        match skipBlanks rest with
        | '.' :: rest => (key fuel (skipBlanks rest)).map fun f => (part :: f.1, f.2)
        | rest => some ([part], rest)

/-- What follows an equals sign and the blanks around it. -/
def equals? (cs : List Char) : Option (List Char) :=
  match skipBlanks cs with
  | '=' :: rest => some (skipBlanks rest)
  | _ => none

/-- What follows an equals sign and the blanks, comments and line breaks around it. -/
def equalsBetweenLines? (cs : List Char) : Option (List Char) :=
  match skipLines cs.length cs with
  | '=' :: rest => some (skipLines rest.length rest)
  | _ => none

mutual
/-- A value. The second argument is the number of arrays and inline tables that may still be
opened. -/
def value : Nat → Nat → List Char → Option (Toml × List Char)
  | 0, _, _ => none
  | fuel + 1, depth, cs =>
      match cs, depth with
      | '[' :: _, 0 => none
      | '{' :: _, 0 => none
      | '[' :: rest, depth + 1 => (items fuel depth rest).map fun f => (.array f.1, f.2)
      | '{' :: rest, depth + 1 =>
          (members fuel depth [] rest).map fun f => (.table (membersOf f.1), f.2)
      | '"' :: _, _ => (text cs).map fun f => (.text f.1, f.2)
      | '\'' :: _, _ => (text cs).map fun f => (.text f.1, f.2)
      | _, _ => (Scalar.ofWord? (Scalar.word cs).1).map fun v => (v, (Scalar.word cs).2)
/-- The items of an array up to its end. A comma may follow the last. -/
def items : Nat → Nat → List Char → Option (List Toml × List Char)
  | 0, _, _ => none
  | fuel + 1, depth, cs =>
      match skipLines cs.length cs with
      | ']' :: rest => some ([], rest)
      | cs =>
          (value fuel depth cs).bind fun (item, rest) =>
            match skipLines rest.length rest with
            | ']' :: rest => some ([item], rest)
            | ',' :: rest => (items fuel depth rest).map fun f => (item :: f.1, f.2)
            | _ => none
/-- The members of an inline table up to its end, added to those that were read before. A comma may
follow the last. -/
def members : Nat → Nat → Entries → List Char → Option (Entries × List Char)
  | 0, _, _, _ => none
  | fuel + 1, depth, entries, cs =>
      match skipLines cs.length cs with
      | '}' :: rest => some (entries, rest)
      | cs =>
          (key maxDepth cs).bind fun (names, rest) =>
            (equalsBetweenLines? rest).bind fun rest =>
              (value fuel depth rest).bind fun (v, rest) =>
                (entries.atLast Entries.along (Entries.define v) names).bind fun entries =>
                  match skipLines rest.length rest with
                  | '}' :: rest => some (entries, rest)
                  | ',' :: rest => members fuel depth entries rest
                  | _ => none
end

/-- The key of a header up to its closing brackets, and the next line. -/
def header? (brackets : List Char) (cs : List Char) : Option (List String × List Char) := do
  let (names, rest) ← key maxDepth (skipBlanks cs)
  let rest := skipBlanks rest
  if brackets.isPrefixOf rest then
    return (names, ← lineEnd? (rest.drop brackets.length))
  else none

/-- The lines of a document, added to the entries that were read before, of which the ones after
the header belong to the table that it leads to. -/
def lines : Nat → Entries → List String → List Char → Option Entries
  | 0, _, _, _ => none
  | fuel + 1, entries, header, cs =>
      match skipLines cs.length cs with
      | [] => some entries
      | '[' :: '[' :: rest => do
          let (names, rest) ← header? [']', ']'] rest
          lines fuel (← entries.atLast Entries.below Entries.stateNext names) names rest
      | '[' :: rest => do
          let (names, rest) ← header? [']'] rest
          lines fuel (← entries.atLast Entries.below Entries.state names) names rest
      | cs => do
          let (names, rest) ← key maxDepth cs
          let (v, rest) ← value cs.length maxDepth (← equals? rest)
          let add (table : Entries) := table.atLast Entries.along (Entries.define v) names
          lines fuel (← entries.below add header) header (← lineEnd? rest)

end Reader

/-- The table of a TOML text. A byte order mark at its start does not count. -/
def parse? (s : String) : Option Toml :=
  let cs := match s.toList with
    | '\ufeff' :: rest => rest
    | cs => cs
  (Reader.lines (cs.length + 1) [] [] cs).map fun entries => .table (membersOf entries)

end Concord.Toml

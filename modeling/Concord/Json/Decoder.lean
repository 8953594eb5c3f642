import Std.Data.ExtTreeMap
import Concord.Json.Basic

/-!
Decoding JSON values into typed ones. A decoder is told how many arrays and objects may still be
open at once, and it counts those that it enters. Members that a record does not know are skipped
unseen: they may nest as deep as they like and hold strings that denote no text.
-/

namespace Concord

/-- Reads a value of a type from a JSON value, given the number of arrays and objects that may
still be open at once. -/
abbrev Decoder (α : Type) :=
  Nat → Json → Option α

namespace Decoder

/-- The number of arrays and objects that may be open at once in a text. -/
def maxDepth : Nat :=
  127

/-- A string. -/
def text : Decoder String
  | _, .text s => s
  | _, _ => none

/-- A truth value. -/
def bool : Decoder Bool
  | _, .bool b => some b
  | _, _ => none

/-- An integer from `low` to `high`. -/
def int (low high : Int) : Decoder Int
  | _, .number n => n.toInt?.bind fun i => if low ≤ i ∧ i ≤ high then some i else none
  | _, _ => none

/-- A natural number of at most `high`. -/
def nat (high : Nat) : Decoder Nat :=
  fun depth j => (int 0 high depth j).map Int.toNat

/-- A value or null. -/
def option (d : Decoder α) : Decoder (Option α)
  | _, .null => some none
  | depth, j => (d depth j).map some

/-- An array of values. -/
def list (d : Decoder α) : Decoder (List α)
  | depth + 1, .array items => items.mapM (d depth)
  | _, _ => none

/-- An object as a map; a repeated name keeps its last value. -/
def dict (d : Decoder α) : Decoder (Std.ExtTreeMap String α)
  | depth + 1, .object members => do
      let entries ← members.mapM fun m => do return (← m.1, ← d depth m.2)
      return entries.foldl (fun found entry => found.insert entry.1 entry.2) ∅
  | _, _ => none

/-- Whether a value can be held for later: no string in it denotes no text, numbers are finite when
they are rounded in steps, and no more than `depth` arrays and objects are open at once. -/
def holdable : Nat → Json → Bool
  | _, .null => true
  | _, .bool _ => true
  | _, .number n => n.isHoldable
  | _, .text s => s.isSome
  | 0, .array _ => false
  | 0, .object _ => false
  | depth + 1, .array items => items.all (holdable depth)
  | depth + 1, .object members => members.all fun m => m.1.isSome && holdable depth m.2

/-- The members of a record that its type knows, and the depth that is left for their values. -/
structure Fields where
  depth : Nat
  members : List (String × Json)

namespace Fields

/-- The value of a field. -/
def get? (f : Fields) (name : String) : Option Json :=
  f.members.lookup name

/-- A field that has to be there. -/
def required (f : Fields) (name : String) (d : Decoder α) : Option α :=
  (f.get? name).bind (d f.depth)

/-- A field that has a default. -/
def withDefault (f : Fields) (name : String) (d : Decoder α) (default : α) : Option α :=
  match f.get? name with
  | none => some default
  | some j => d f.depth j

end Fields

/-- The members with the given names. A name that denotes no text is an error wherever it stands,
and so is a known name that is given twice. -/
def known? (names : List String) (members : List (Option String × Json))
    : Option (List (String × Json)) := do
  let members ← members.mapM fun m => do return (← m.1, m.2)
  let found := members.filter fun m => names.contains m.1
  if (found.map Prod.fst).Nodup then some found else none

/-- A record with these fields: an object that has them as members, or an array of their values
in this order, of which the last may be missing. -/
def fields? (names : List String) : Decoder Fields
  | depth + 1, .object members => (known? names members).map (Fields.mk depth)
  | depth + 1, .array items =>
      if items.length ≤ names.length then some ⟨depth, names.zip items⟩ else none
  | _, _ => none

/-- One of a few words, given as a string or as the only member, of value null, of an object. -/
def choice (options : List (String × α)) : Decoder α
  | _, .text (some s) => options.lookup s
  | _ + 1, .object [(some s, .null)] => options.lookup s
  | _, _ => none

/-- Like `choice`, for a value that was held before it is decoded: the object's member may also be
an empty object. -/
def heldChoice (options : List (String × α)) : Decoder α
  | _, .object [(some s, .object [])] => options.lookup s
  | depth, j => choice options depth j

/-- The tag and the remaining fields of a record whose shape depends on a tag: an object that has
the tag once as a member, or an array that starts with it. All values are held until the tag is
known. -/
def tagged? (tag : String) : Decoder (String × Json × Nat)
  | depth + 1, .object members => do
      let rest := members.filter fun m => m.1 ≠ some tag
      if !(members.all fun m => m.1.isSome) || !(rest.all fun m => holdable depth m.2) then none
      else
        match members.filter fun m => m.1 = some tag with
        | [(_, .text (some found))] => some (found, .object rest, depth + 1)
        | _ => none
  | depth + 1, .array (.text (some found) :: items) =>
      if items.all (holdable depth) then some (found, .array items, depth + 1) else none
  | _, _ => none

/-- Decodes a value of a text. -/
def run (d : Decoder α) (j : Json) : Option α :=
  d maxDepth j

end Decoder

end Concord

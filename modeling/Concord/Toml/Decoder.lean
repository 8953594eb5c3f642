import Concord.Toml.Basic

/-!
Decoding TOML values into typed ones. Members that a table's type does not know are skipped, but
their numbers have to be in range.
-/

namespace Concord.Toml

mutual
/-- Whether a value can be skipped: integers fit a hundred and twenty-eight bits with or without
sign, and floats are finite unless they say otherwise. -/
def isReadable : Toml → Bool
  | .integer i => -2 ^ 127 ≤ i && i < 2 ^ 128
  | .float (some n) => n.isFinite
  | .array items => areReadable items
  | .table members => haveReadable members
  | _ => true
/-- Whether all items can be skipped. -/
def areReadable : List Toml → Bool
  | [] => true
  | item :: rest => isReadable item && areReadable rest
/-- Whether the values of all members can be skipped. -/
def haveReadable : List (String × Toml) → Bool
  | [] => true
  | (_, v) :: rest => isReadable v && haveReadable rest
end

/-- The members of a table whose type knows these names, or their values in this order in an
array, of which the last may be missing. A date or a time of day counts as a table without any of
them. -/
def fields? (names : List String) : Toml → Option (List (String × Toml))
  | .table members =>
      if haveReadable (members.filter fun m => !names.contains m.1) then some members else none
  | .array items => some (names.zip items)
  | .moment => some []
  | _ => none

/-- A field that has a default. -/
def field (fields : List (String × Toml)) (name : String) (d : Toml → Option α) (usual : α)
    : Option α :=
  match fields.lookup name with
  | none => some usual
  | some v => d v

/-- A natural number of at most `high`. -/
def nat? (high : Nat) : Toml → Option Nat
  | .integer i => if 0 ≤ i ∧ i ≤ high then some i.toNat else none
  | _ => none

/-- A string. -/
def text? : Toml → Option String
  | .text s => some s
  | _ => none

end Concord.Toml

import Concord.Json.Number

/-!
JSON values as their texts give them. Objects keep every member in order, and a string literal that
holds half of a surrogate pair is kept as a literal that denotes no text.
-/

namespace Concord

/-- A JSON value. -/
inductive Json where
  | null
  | bool (value : Bool)
  | number (value : Json.Number)
  /-- A string; `none` for a literal that denotes no text. -/
  | text (value : Option String)
  | array (items : List Json)
  | object (members : List (Option String × Json))
deriving Inhabited

namespace Json

/-- The string of a text. -/
def ofText (s : String) : Json :=
  .text (some s)

/-- The number of an integer. -/
def ofInt (i : Int) : Json :=
  .number (.ofInt i)

/-- The object with these members. -/
def record (members : List (String × Json)) : Json :=
  .object (members.map fun m => (some m.1, m.2))

/-- The array of the items of a list. -/
def ofList (f : α → Json) (items : List α) : Json :=
  .array (items.map f)

/-- A value or null. -/
def ofOption (f : α → Json) : Option α → Json
  | none => .null
  | some a => f a

end Json

end Concord

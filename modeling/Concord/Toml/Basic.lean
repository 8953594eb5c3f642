import Concord.Json.Basic

/-!
TOML values, and documents while they are read. A table may be known before it is stated: because
a header names a table below it, or because a dotted key leads through it. Who may add to it
depends on that.
-/

namespace Concord

/-- A TOML value. Of floats only finite numbers are told apart, and of moments nothing. -/
inductive Toml where
  | text (value : String)
  | bool (value : Bool)
  | integer (value : Int)
  /-- A number with a fraction or an exponent; `none` for one that is not finite by name. -/
  | float (value : Option Json.Number)
  /-- A date, a time of day, or both. -/
  | moment
  | array (items : List Toml)
  | table (members : List (String × Toml))
deriving Inhabited

namespace Toml

/-- How a table of a document came to be. -/
inductive TableForm where
  /-- A header names a table below it. -/
  | implied
  /-- A dotted key leads through it. -/
  | dotted
  /-- A header states it. -/
  | stated
deriving DecidableEq, Repr

/-- What a key of a document stands for. -/
inductive Item where
  | value (v : Toml)
  | table (form : TableForm) (entries : List (String × Item))
  /-- Tables that are stated one after the other, and the last of them. -/
  | tables (before : List (List (String × Item))) (last : List (String × Item))

/-- The keys of a table of a document. -/
abbrev Entries :=
  List (String × Item)

namespace Entries

/-- Changes what a key stands for, or adds it. -/
def change (key : String) (f : Option Item → Option Item) : Entries → Option Entries
  | [] => (f none).map fun item => [(key, item)]
  | (name, item) :: rest =>
      if name = key then (f (some item)).map fun changed => (name, changed) :: rest
      else (change key f rest).map ((name, item) :: ·)

/-- Changes the table that the keys of a header lead to. Tables that are missing on the way are
implied, and of several the last is meant. -/
def below (f : Entries → Option Entries) : List String → Entries → Option Entries
  | [], entries => f entries
  | key :: rest, entries =>
      entries.change key fun
        | none => (below f rest []).map (.table .implied)
        | some (.value _) => none
        | some (.table form inner) => (below f rest inner).map (.table form)
        | some (.tables before last) => (below f rest last).map (.tables before)

/-- Changes the table that the leading parts of a dotted key lead to. It has to be a table made by
dotted keys, and no table on the way may be stated. -/
def along (f : Entries → Option Entries) : List String → Entries → Option Entries
  | [], entries => f entries
  | key :: rest, entries =>
      entries.change key fun
        | none => (along f rest []).map (.table .dotted)
        | some (.table .dotted inner) => (along f rest inner).map (.table .dotted)
        | some (.table .implied inner) =>
            if rest.isEmpty then none else (along f rest inner).map (.table .implied)
        | some (.tables before last) =>
            if rest.isEmpty then none else (along f rest last).map (.tables before)
        | some _ => none

/-- Gives a new key its value. -/
def define (v : Toml) (key : String) (entries : Entries) : Option Entries :=
  entries.change key fun
    | none => some (.value v)
    | some _ => none

/-- States a table that is new or only implied so far. -/
def state (key : String) (entries : Entries) : Option Entries :=
  entries.change key fun
    | none => some (.table .stated [])
    | some (.table .implied inner) => some (.table .stated inner)
    | some _ => none

/-- States one more table of several. -/
def stateNext (key : String) (entries : Entries) : Option Entries :=
  entries.change key fun
    | none => some (.tables [] [])
    | some (.tables before last) => some (.tables (before ++ [last]) [])
    | some _ => none

/-- Does something at the last of several keys, in the table that the others lead to. -/
def atLast (walk : (Entries → Option Entries) → List String → Entries → Option Entries)
    (f : String → Entries → Option Entries) (keys : List String) (entries : Entries)
    : Option Entries :=
  keys.getLast?.bind fun key => walk (f key) keys.dropLast entries

end Entries

mutual
/-- The value that an item comes to. -/
def Item.toToml : Item → Toml
  | .value v => v
  | .table _ entries => .table (membersOf entries)
  | .tables before last => .array (tablesOf before ++ [.table (membersOf last)])
/-- The members of a table. -/
def membersOf : List (String × Item) → List (String × Toml)
  | [] => []
  | (key, item) :: rest => (key, item.toToml) :: membersOf rest
/-- The values of tables. -/
def tablesOf : List (List (String × Item)) → List Toml
  | [] => []
  | entries :: rest => .table (membersOf entries) :: tablesOf rest
end

end Toml

end Concord

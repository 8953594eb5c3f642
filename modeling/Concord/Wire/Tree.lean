import Concord.HashTree.Diff
import Concord.HashTree.Record
import Concord.Json.Decoder
import Concord.Json.Reader
import Concord.Json.Writer

/-!
The JSON form of keys, attributes, tree records and differences, and the JSON text of trees.
-/

namespace Concord

namespace Wire

/-- A key as the array of its segments. -/
def key (k : Key) : Json :=
  .ofList .ofText k.segments

/-- A scalar as the JSON value of its form. -/
def scalar : Scalar → Json
  | .null => .null
  | .bool value => .bool value
  | .int value => .ofInt value.toInt
  | .text value => .ofText value

/-- Attributes as an object in name order. -/
def attributes (a : Attributes) : Json :=
  .record (a.toList.map fun entry => (entry.1, scalar entry.2))

/-- Tags as an object in name order. -/
def metadata (m : Metadata) : Json :=
  .record (m.toList.map fun entry => (entry.1, .ofText entry.2))

mutual
/-- A record; attributes are left out where there are none. -/
def record : NodeRecord → Json
  | ⟨k, partialHash, fullHash, dummy, error, tags, values, children⟩ =>
      .record ([("key", key k), ("partial_hash", .ofText partialHash),
          ("full_hash", .ofText fullHash), ("dummy", .bool dummy), ("error", .bool error),
          ("metadata", metadata tags)]
        ++ (if values.isEmpty then [] else [("attributes", attributes values)])
        ++ [("children", .array (records children))])
/-- Records in order. -/
def records : List NodeRecord → List Json
  | [] => []
  | r :: rest => record r :: records rest
end

/-- A difference. -/
def diff (d : TreeDiff) : Json :=
  .record [("add", .ofList key d.add), ("remove", .ofList key d.remove)]

end Wire

namespace Decode

/-- A key. -/
def key : Decoder Key :=
  fun depth j => (Decoder.list Decoder.text depth j).map Key.mk

/-- A scalar; integers have to fit sixty-four bits with sign. -/
def scalar : Decoder Scalar
  | _, .null => some .null
  | _, .bool value => some (.bool value)
  | depth, .number n =>
      (Decoder.int Int64.minValue.toInt Int64.maxValue.toInt depth (.number n)).map fun i =>
        .int (Int64.ofInt i)
  | _, .text value => value.map .text
  | _, _ => none

/-- Attributes. -/
def attributes : Decoder Attributes :=
  Decoder.dict scalar

/-- Tags. -/
def metadata : Decoder Metadata :=
  Decoder.dict Decoder.text

/-- The fields of a record in the order of its array form. -/
def recordFields : List String :=
  ["key", "partial_hash", "full_hash", "dummy", "error", "metadata", "attributes", "children"]

/-- A record from its fields, with a decoder for its children. -/
def recordOfFields (f : Decoder.Fields) (children : Decoder (List NodeRecord))
    : Option NodeRecord := do
  return { key := ← f.required "key" key
           partialHash := ← f.required "partial_hash" Decoder.text
           fullHash := ← f.required "full_hash" Decoder.text
           dummy := ← f.withDefault "dummy" Decoder.bool false
           error := ← f.withDefault "error" Decoder.bool false
           metadata := ← f.withDefault "metadata" metadata ∅
           attributes := ← f.withDefault "attributes" attributes ∅
           children := ← f.withDefault "children" children [] }

/-- A record with its children. -/
def record : Decoder NodeRecord
  | depth + 2, j => do
      recordOfFields (← Decoder.fields? recordFields (depth + 2) j) fun _ items =>
        match items with
        | .array items => items.mapM (record depth)
        | _ => none
  | depth, j => do
      recordOfFields (← Decoder.fields? recordFields depth j) fun _ _ => none

/-- A difference. -/
def diff : Decoder TreeDiff := fun depth j => do
  let f ← Decoder.fields? ["add", "remove"] depth j
  return { add := ← f.required "add" (Decoder.list key)
           remove := ← f.required "remove" (Decoder.list key) }

end Decode

namespace HashTree

/-- The JSON value of a tree: its root record, or null if it is empty. -/
def toJson (t : HashTree) : Json :=
  .ofOption Wire.record t.toRecord?

/-- The compact JSON text of a tree. -/
def toText (t : HashTree) : String :=
  t.toJson.toCompact

/-- The indented JSON text of a tree. -/
def toIndentedText (t : HashTree) : String :=
  t.toJson.toPretty

/-- The error of a text that is no record. -/
def unreadable : TreeError :=
  .serialization "the text is not a tree record"

/-- The tree of a JSON text. -/
def ofText (s : String) : Except TreeError HashTree :=
  match (Json.parse? s).bind (Decoder.option Decode.record).run with
  | some record => ofRecord? record
  | none => .error unreadable

/-- The tree that a JSON text tells first of all. A record that describes no tree is refused for
that, even where more text follows it; otherwise nothing may follow. -/
def ofLeadingText (s : String) : Except TreeError HashTree := do
  let some (j, rest) := Json.leading? s | .error unreadable
  let some record := (Decoder.option Decode.record).run j | .error unreadable
  let t ← ofRecord? record
  if (Json.Reader.skipBlanks rest).isEmpty then .ok t else .error unreadable

end HashTree

end Concord

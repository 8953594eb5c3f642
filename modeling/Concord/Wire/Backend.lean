import Concord.Backend.Object
import Concord.Wire.Tree

/-!
The JSON form of objects, of the changes of observed trees, and of kinds.
-/

namespace Concord

namespace Wire

/-- The members of an object. -/
def objectMembers (o : StoredObject) : List (String × Json) :=
  [("owner", .ofText o.owner.toText), ("attributes", attributes o.attributes),
    ("observed", attributes o.observed)]

/-- An object. -/
def object (o : StoredObject) : Json :=
  .record (objectMembers o)

/-- A change of an observed tree, told by its type. -/
def event : TreeEvent → Json
  | .upsert k values tags =>
      .record [("type", .ofText "upsert"), ("key", key k), ("attributes", attributes values),
        ("metadata", metadata tags)]
  | .delete k => .record [("type", .ofText "delete"), ("key", key k)]
  | .markError k error =>
      .record [("type", .ofText "mark_error"), ("key", key k), ("error", .bool error)]

/-- A kind. -/
def kind (k : TreeKind) : Json :=
  .ofText k.toText

end Wire

namespace Decode

/-- The words for owners. -/
def owners : List (String × Owner) :=
  [("local", .local), ("remote", .remote), ("released", .released)]

/-- The words for kinds. -/
def kinds : List (String × TreeKind) :=
  [("config", .config), ("operational", .operational), ("monitored", .monitored)]

/-- The fields of an object in the order of its array form. -/
def objectFields : List String :=
  ["owner", "attributes", "observed"]

/-- An object from its fields. -/
def objectOfFields (f : Decoder.Fields) (owner : Decoder Owner) : Option StoredObject := do
  return { owner := ← f.withDefault "owner" owner .local
           attributes := ← f.withDefault "attributes" attributes ∅
           observed := ← f.withDefault "observed" attributes ∅ }

/-- An object. -/
def object : Decoder StoredObject := fun depth j => do
  objectOfFields (← Decoder.fields? objectFields depth j) (Decoder.choice owners)

/-- An object beside its key: one JSON object with the members of both. All members but the key
are held until the object is decoded from them. -/
def objectEntry : Decoder (Key × StoredObject)
  | depth + 1, .object members => do
      let keys ← Decoder.known? ["key"] members
      let held := members.filter fun m => m.1 ≠ some "key"
      if held.all fun m => Decoder.holdable depth m.2 then
        let found ← (keys.lookup "key").bind (key depth)
        let f : Decoder.Fields := ⟨depth, ← Decoder.known? objectFields held⟩
        return (found, ← objectOfFields f (Decoder.heldChoice owners))
      else none
  | _, _ => none

/-- A change of an observed tree. -/
def event : Decoder TreeEvent := fun depth j => do
  let (tag, rest, depth) ← Decoder.tagged? "type" depth j
  if tag = "upsert" then
    let f ← Decoder.fields? ["key", "attributes", "metadata"] depth rest
    return .upsert (← f.required "key" key) (← f.required "attributes" attributes)
      (← f.withDefault "metadata" metadata ∅)
  else if tag = "delete" then
    let f ← Decoder.fields? ["key"] depth rest
    return .delete (← f.required "key" key)
  else if tag = "mark_error" then
    let f ← Decoder.fields? ["key", "error"] depth rest
    return .markError (← f.required "key" key) (← f.required "error" Decoder.bool)
  else none

/-- A kind. -/
def kind : Decoder TreeKind :=
  Decoder.choice kinds

end Decode

end Concord

import Concord.Backend.Memory
import Concord.Document.Error
import Concord.Document.Files
import Concord.Wire.Backend

/-!
State files: the objects of a backing system as a JSON document. They are loaded into a backend
and captured from one, and give the trees that the backend would.
-/

namespace Concord

/-- The objects of a backing system with their keys. -/
structure StateFile where
  objects : List (Key × StoredObject) := []
deriving DecidableEq, Inhabited

namespace Wire

/-- A state file: in each object its key comes first. -/
def stateFile (s : StateFile) : Json :=
  .record [("objects",
    .ofList (fun entry => .record (("key", key entry.1) :: objectMembers entry.2)) s.objects)]

end Wire

/-- Decodes a state file. -/
def Decode.stateFile : Decoder StateFile := fun depth j => do
  let f ← Decoder.fields? ["objects"] depth j
  return ⟨← f.withDefault "objects" (Decoder.list objectEntry) []⟩

namespace StateFile

/-- The indented JSON text of a state file. -/
def toText (s : StateFile) : String :=
  (Wire.stateFile s).toPretty

/-- The state file of a JSON text. -/
def ofText? (text : String) : Option StateFile :=
  (Json.parse? text).bind Decode.stateFile.run

/-- Reads the state file at a path. -/
def load (read : FileReader) (path : String) : Except DocumentError StateFile :=
  match read path with
  | .error fault => .error (.fileReadFailed path fault.message)
  | .ok text =>
      match ofText? text with
      | some s => .ok s
      | none => .error (.jsonParseFailed path "the text is not a state file")

/-- The roots of all objects, in order. -/
def roots (s : StateFile) : List String :=
  (Std.ExtTreeSet.ofList (s.objects.filterMap fun entry => entry.1.root?)).toList

/-- Puts every object into a backend, in order. -/
def seed (s : StateFile) (m : Memory) : Memory :=
  s.objects.foldl (fun m entry => m.insert entry.1 entry.2) m

/-- Every object of a backend. -/
def capture (m : Memory) : StateFile :=
  ⟨m.objects.toList⟩

/-- The trees of a kind with their roots. -/
def trees (s : StateFile) (kind : TreeKind) : Except DocumentError (List (String × HashTree)) :=
  let m := s.seed { name := "state" }
  s.roots.mapM fun root =>
    match m.load root kind with
    | .ok t => .ok (root, t)
    | .error e => .error (.inContext root e.message)

end StateFile

end Concord

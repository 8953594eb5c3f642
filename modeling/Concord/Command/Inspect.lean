import Concord.Command.Basic
import Concord.Document.StateFile

/-!
The commands that only look at state files: they print trees, and the differences of trees, by
root.
-/

namespace Concord

namespace StateFile

/-- Reads the state file at a path for a command. -/
def openFile (read : FileReader) (path : String) : Except CommandError StateFile :=
  match load read path with
  | .ok s => .ok s
  | .error e => .error ((CommandError.ofDocument e).within s!"Failed to load state file {path}")

/-- The trees of a kind for a command. -/
def treesOf (s : StateFile) (kind : TreeKind)
    : Except CommandError (List (String × HashTree)) :=
  (s.trees kind).mapError .ofDocument

/-- The roots of two state files, in order. -/
def rootsOfBoth (s t : StateFile) : List String :=
  (Std.ExtTreeSet.ofList (s.roots ++ t.roots)).toList

/-- What has to be done, by root, so that the second trees become the first; a root that is missing
has an empty tree, and one without a difference is left out. -/
def differences (roots : List String) (desired observed : List (String × HashTree))
    : List (String × TreeDiff) :=
  let treeOf (trees : List (String × HashTree)) (root : String) := (trees.lookup root).getD ∅
  (roots.map fun root => (root, (treeOf desired root).diff (treeOf observed root))).filter
    fun entry => !entry.2.isEmpty

end StateFile

namespace Command

/-- The trees of a kind in a state file. -/
def trees (read : FileReader) (state : String) (kind : TreeKind)
    : Except CommandError (List (String × HashTree)) := do
  (← StateFile.openFile read state).treesOf kind

/-- What has to be done, by root, so that the observed state file becomes the desired one. -/
def differences (read : FileReader) (desired observed : String) (kind : TreeKind)
    : Except CommandError (List (String × TreeDiff)) := do
  let desired ← StateFile.openFile read desired
  let wanted ← desired.treesOf kind
  let observed ← StateFile.openFile read observed
  let given ← observed.treesOf kind
  return StateFile.differences (desired.rootsOfBoth observed) wanted given

/-- The indented JSON text of trees by root. -/
def treesText (trees : List (String × HashTree)) : String :=
  (Json.record (trees.map fun entry => (entry.1, entry.2.toJson))).toPretty

/-- The indented JSON text of differences by root. -/
def differencesText (differences : List (String × TreeDiff)) : String :=
  (Json.record (differences.map fun entry => (entry.1, Wire.diff entry.2))).toPretty

end Command

end Concord

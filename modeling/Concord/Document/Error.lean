/-!
What can go wrong with files and the documents in them, and the wording of each case.
-/

namespace Concord

/-- Why a document could not be read, written or used. -/
inductive DocumentError where
  | fileReadFailed (path reason : String)
  | fileWriteFailed (path reason : String)
  | jsonParseFailed (path reason : String)
  | tomlParseFailed (path reason : String)
  | jsonEncodeFailed (reason : String)
  /-- A document does not describe what it should. -/
  | invalidRecord (reason : String)
  /-- A configuration cannot be worked with. -/
  | invalidConfig (reason : String)
deriving DecidableEq, Repr

namespace DocumentError

/-- The wording of an error. -/
def message : DocumentError → String
  | .fileReadFailed path reason => s!"failed to read file '{path}': {reason}"
  | .fileWriteFailed path reason => s!"failed to write file '{path}': {reason}"
  | .jsonParseFailed path reason => s!"JSON parse error in '{path}': {reason}"
  | .tomlParseFailed path reason => s!"TOML parse error in '{path}': {reason}"
  | .jsonEncodeFailed reason => s!"JSON encode error: {reason}"
  | .invalidRecord reason => s!"invalid record: {reason}"
  | .invalidConfig reason => s!"invalid configuration: {reason}"

/-- The error of a document that does not describe what it should, within a context. -/
def inContext (context reason : String) : DocumentError :=
  .invalidRecord s!"{context}: {reason}"

end DocumentError

end Concord

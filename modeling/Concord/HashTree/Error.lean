import Concord.Key

/-!
What can go wrong with a hash tree, and the wording of each case.
-/

namespace Concord

/-- Why an operation on a tree, or reading one, failed. -/
inductive TreeError where
  /-- The key starts with another segment than the tree's root. -/
  | inconsistentRoot (root : String) (key : Key)
  /-- There is no node at the key. -/
  | notFound (key : Key)
  /-- A record does not describe a well-formed tree. -/
  | invalidRecord (reason : String)
  /-- A text is no record. -/
  | serialization (reason : String)
deriving DecidableEq, Repr

/-- The wording of a tree error. -/
def TreeError.message : TreeError → String
  | .inconsistentRoot root key => s!"key '{key.toText}' is not rooted at '{root}'"
  | .notFound key => s!"node '{key.toText}' not found"
  | .invalidRecord reason => s!"invalid tree record: {reason}"
  | .serialization reason => s!"tree serialization failed: {reason}"

end Concord

import Concord.Backend.Object
import Concord.Document.Error
import Concord.Reconcile.Error

/-!
What the program can be asked to do, and what can go wrong when it does it.
-/

namespace Concord

/-- How a fabric is to be brought into line: from what state file to which, for how many passes at
most, and where the state in the end is written. -/
structure RunOptions where
  desired : String
  observed : Option String := none
  maxPasses : Option UInt64 := none
  output : Option String := none
deriving DecidableEq, Repr

/-- What the program can be asked to do. -/
inductive Command where
  /-- To print the trees of a state file. -/
  | tree (state : String) (kind : TreeKind)
  /-- To print what has to be done so that one state file becomes the other. -/
  | diff (desired observed : String) (kind : TreeKind)
  /-- To bring a fabric into line. -/
  | run (options : RunOptions)
deriving DecidableEq, Repr

/-- What is at the bottom of a failed command. -/
inductive CommandCause where
  | document (error : DocumentError)
  | reconcile (error : ReconcileError)
deriving DecidableEq, Repr

/-- Why a command failed: a cause, and what it kept the program from, the widest first. -/
structure CommandError where
  contexts : List String := []
  cause : CommandCause
deriving DecidableEq, Repr

namespace CommandError

/-- A document error without a context. -/
def ofDocument (e : DocumentError) : CommandError where
  cause := .document e

/-- A reconciliation error without a context. -/
def ofReconcile (e : ReconcileError) : CommandError where
  cause := .reconcile e

/-- The error within a wider context. -/
def within (context : String) (e : CommandError) : CommandError :=
  { e with contexts := context :: e.contexts }

/-- The wording of the cause. -/
def causeMessage (e : CommandError) : String :=
  match e.cause with
  | .document e => e.message
  | .reconcile e => e.message

end CommandError

end Concord

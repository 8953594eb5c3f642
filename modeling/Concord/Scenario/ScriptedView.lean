import Concord.Backend.Object
import Concord.Reconcile.Sink

/-!
A view that behaves by script: it holds a tree per root, hides and rejects keys, fails and breaks
down on demand, and writes down what it was asked to push and to reset. Two of them and a sink of
status changes that can be shut are surroundings for a reconciler.
-/

namespace Concord.Scenario

/-- What a scripted view can be made to fail at. -/
inductive Operation where
  | tree
  | getResources
  | getResourcesForDelete
  | pushResources
  | serve
  | reset
  | settle
deriving DecidableEq, Repr

/-- The name of an operation in errors. -/
def Operation.name : Operation → String
  | .tree => "tree"
  | .getResources => "get_resources"
  | .getResourcesForDelete => "get_resources_for_delete"
  | .pushResources => "push_resources"
  | .serve => "serve"
  | .reset => "reset"
  | .settle => "settle"

/-- A view that behaves by script. A fault holds for every root, or for one. -/
structure ScriptedView where
  name : String
  roots : List String
  trees : Std.ExtTreeMap String HashTree := ∅
  rejected : KeySet := ∅
  hidden : KeySet := ∅
  faults : List (Operation × Option String) := []
  panics : List String := []
  duplicate : Bool := false
  pushed : List ResourceBatch := []
  resets : List String := []

namespace ScriptedView

/-- The tree of a root. -/
def tree (v : ScriptedView) (root : String) : HashTree :=
  (v.trees[root]?).getD ∅

/-- Puts a tree in the place of the one that the root of a key has. -/
def setTree (v : ScriptedView) (key : Key) (t : HashTree) : ScriptedView :=
  { v with trees := v.trees.insert (key.root?.getD "") t }

/-- The tree that a key belongs to. -/
def treeOf (v : ScriptedView) (key : Key) : HashTree :=
  v.tree (key.root?.getD "")

/-- Writes attributes at a key. -/
def put (v : ScriptedView) (key : Key) (attributes : Attributes) : ScriptedView :=
  match (v.treeOf key).add key attributes with
  | .ok t => v.setTree key t
  | .error _ => v

/-- Takes the node at a key away, and leaves a tombstone where there are nodes below it. -/
def drop (v : ScriptedView) (key : Key) : ScriptedView :=
  v.setTree key ((v.treeOf key).discard key)

/-- Flags or unflags the node at a key. -/
def mark (v : ScriptedView) (key : Key) (error : Bool) : Except ReconcileError ScriptedView :=
  match (v.treeOf key).setError key error with
  | .ok t => .ok (v.setTree key t)
  | .error e => .error (.ofTree e)

/-- The error of an operation that is made to fail, for everyone or for the root given. -/
def fault? (v : ScriptedView) (operation : Operation) (root : Option String)
    : Option ReconcileError :=
  if v.faults.any fun f => f.1 = operation && (f.2 = none || (f.2 = root && root.isSome)) then
    some (.viewFailed v.name operation.name "scripted fault")
  else none

/-- Clears all faults and breakdowns. -/
def heal (v : ScriptedView) : ScriptedView :=
  { v with faults := [], panics := [] }

/-- A list, or the list twice if the view gives duplicates. -/
def doubled (v : ScriptedView) (resources : List α) : List α :=
  if v.duplicate then resources ++ resources else resources

/-- The resources at keys that are not hidden and have a node. -/
def resources (v : ScriptedView) (keys : List Key) : List Resource :=
  v.doubled <| keys.filterMap fun key =>
    if v.hidden.contains key then none
    else ((v.treeOf key).find? key).map fun n => .ofKey key n.content.attributes

/-- References to the keys that are not hidden. -/
def references (v : ScriptedView) (keys : List Key) : List Resource :=
  v.doubled ((keys.filter fun key => !v.hidden.contains key).map .reference)

/-- The root that a batch is about: that of its first resource to create, or else to delete. -/
def batchRoot? (batch : ResourceBatch) : Option String :=
  ((batch.create ++ batch.delete).head?).bind Resource.root?

/-- Writes a batch down and applies it, except for rejected keys: first what is to be deleted. -/
def push (v : ScriptedView) (batch : ResourceBatch) : ScriptedView :=
  let accepted (resources : List Resource) :=
    resources.filter fun r => !v.rejected.contains r.key
  let v := { v with pushed := v.pushed ++ [batch] }
  let v := (accepted batch.delete).foldl (fun v r => v.drop r.key) v
  (accepted batch.create).foldl (fun v r => v.put r.key r.attributes) v

end ScriptedView

/-- Two scripted views and a sink. -/
structure Stage where
  desired : ScriptedView
  observed : ScriptedView
  sink : StatusSink := {}

namespace Stage

/-- The view of a side. -/
def view (s : Stage) : Side → ScriptedView
  | .desired => s.desired
  | .observed => s.observed

/-- Puts a view in the place of the one of a side. -/
def setView (s : Stage) (side : Side) (v : ScriptedView) : Stage :=
  match side with
  | .desired => { s with desired := v }
  | .observed => { s with observed := v }

/-- A reply that fails if there is a fault. -/
def orFault (fault : Option ReconcileError) (answer : α) : Reply α :=
  match fault with
  | some e => .failed e
  | none => .answered answer

/-- How the views and the sink answer. -/
def ask (q : Question) (s : Stage) : Reply q.Answer × Stage :=
  match q with
  | .tree side root =>
      let v := s.view side
      if v.panics.contains root then (.panicked, s)
      else (orFault (v.fault? .tree (some root)) (v.tree root), s)
  | .resources keys =>
      let root := keys.head?.bind Key.root?
      (orFault (s.desired.fault? .getResources root) (s.desired.resources keys), s)
  | .resourcesForDelete keys =>
      let root := keys.head?.bind Key.root?
      (orFault (s.observed.fault? .getResourcesForDelete root) (s.observed.references keys), s)
  | .report transitions =>
      let (reply, sink) := s.sink.report transitions
      (reply, { s with sink })
  | .push batch =>
      match s.observed.fault? .pushResources (ScriptedView.batchRoot? batch) with
      | some e => (.failed e, s)
      | none => (.answered (), { s with observed := s.observed.push batch })
  | .reset side root =>
      let v := s.view side
      match v.fault? .reset (some root) with
      | some e => (.failed e, s)
      | none => (.answered (), s.setView side { v with resets := v.resets ++ [root] })

/-- The surroundings that two scripted views and a sink are. -/
def surroundings : Surroundings Stage where
  roots side s := (s.view side).roots
  ask
  serve side roots s :=
    let v := s.view side
    match v.fault? .serve none with
    | some e => (.error e, s)
    | none => (.ok (), s.setView side { v with roots })
  settle side s :=
    match (s.view side).fault? .settle none with
    | some e => (.error e, s)
    | none => (.ok (), s)

end Stage

end Concord.Scenario

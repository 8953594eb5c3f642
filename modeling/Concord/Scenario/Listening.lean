import Concord.Backend.Memory

/-!
A backend in memory, and streams of its changes that are kept under names.
-/

namespace Concord.Scenario

/-- A backend and its streams under names. -/
structure Listening where
  memory : Memory
  streams : Std.ExtTreeMap String Nat := ∅

namespace Listening

/-- Changes the streams of the backend. -/
def setChannels (l : Listening) (channels : Channels) : Listening :=
  { l with memory := { l.memory with channels } }

/-- Drops the stream under a name. -/
def unsubscribe (l : Listening) (name : String) : Listening :=
  match l.streams[name]? with
  | none => l
  | some stream =>
      { l.setChannels (l.memory.channels.close stream) with streams := l.streams.erase name }

/-- Opens a stream of the changes of a root, which replaces the one under the same name. -/
def subscribe (l : Listening) (name root : String) (kind : TreeKind) : Listening :=
  let l := l.unsubscribe name
  let (stream, channels) := l.memory.channels.subscribe root kind
  { l.setChannels channels with streams := l.streams.insert name stream }

/-- Takes everything that is queued on the stream under a name. -/
def events (l : Listening) (name : String) : List TreeEvent × Listening :=
  match l.streams[name]? with
  | none => ([], l)
  | some stream =>
      let channels := l.memory.channels
      let (events, channels) := channels.take stream (channels.queued stream)
      (events, l.setChannels channels)

end Listening

end Concord.Scenario

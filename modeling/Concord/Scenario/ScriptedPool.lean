import Concord.Scenario.ScriptedBackend
import Concord.Universe.Site

/-!
Workers that observe a scripted backend, and the changes that it is told to send them.
-/

namespace Concord.Scenario

/-- A scripted backend and the workers that observe it. -/
abbrev ScriptedPool :=
  Site ScriptedBackend

namespace ScriptedPool

/-- Changes the backend. -/
def script (p : ScriptedPool) (f : ScriptedBackend → ScriptedBackend) : ScriptedPool :=
  { p with backend := f p.backend }

/-- Sends a change on the streams of a root, and wakes those who listen. -/
def emit (p : ScriptedPool) (root : String) (kind : TreeKind) (event : TreeEvent) : ScriptedPool :=
  Site.wakeListeners (p.script fun b => { b with channels := b.channels.send root kind event }) root

/-- Ends the streams of a root, and wakes those who listen. -/
def endStreams (p : ScriptedPool) (root : String) : ScriptedPool :=
  Site.wakeListeners (p.script fun b => { b with channels := b.channels.endRoot root }) root

end ScriptedPool

end Concord.Scenario

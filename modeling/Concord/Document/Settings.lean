import Concord.Document.Error
import Concord.Document.Files
import Concord.Text.Blank
import Concord.Toml.Decoder
import Concord.Toml.Reader
import Concord.Wire.Reconcile

/-!
The settings of the program: a TOML document with a table for each of its parts. Every key may be
left out.
-/

namespace Concord

/-- What is written to the log. -/
structure LogConfig where
  filter : String := "info"
deriving DecidableEq, Repr, Inhabited

/-- The settings of all parts. -/
structure Settings where
  reconciler : ReconcilerConfig := {}
  loop : LoopConfig := {}
  log : LogConfig := {}
deriving DecidableEq, Repr, Inhabited

/-- Settings as a JSON object with a member for each part. -/
def Wire.settings (s : Settings) : Json :=
  .record [("reconciler", reconcilerConfig s.reconciler), ("loop", loopConfig s.loop),
    ("log", .record [("filter", .ofText s.log.filter)])]

namespace Settings

/-- The file that is read where no other is named. -/
def defaultFile : String :=
  "fabsync.toml"

/-- A number of thirty-two bits. -/
def word? (v : Toml) : Option UInt32 :=
  (Toml.nat? (UInt32.size - 1) v).map UInt32.ofNat

/-- A number of sixty-four bits. -/
def count? (v : Toml) : Option UInt64 :=
  (Toml.nat? (UInt64.size - 1) v).map UInt64.ofNat

/-- A span of time in whole milliseconds. -/
def millis? (v : Toml) : Option Duration :=
  (Toml.nat? (UInt64.size - 1) v).map Duration.ofMillis

/-- The configuration of a reconciler. -/
def reconciler? (v : Toml) : Option ReconcilerConfig := do
  let usual : ReconcilerConfig := {}
  let f ← v.fields? ["max_create_retry", "base_backoff_ms", "max_backoff_ms",
    "failed_retry_margin", "max_concurrent_roots"]
  return {
    maxCreateRetry := ← Toml.field f "max_create_retry" word? usual.maxCreateRetry
    baseBackoff := ← Toml.field f "base_backoff_ms" millis? usual.baseBackoff
    maxBackoff := ← Toml.field f "max_backoff_ms" millis? usual.maxBackoff
    failedRetryMargin := ← Toml.field f "failed_retry_margin" word? usual.failedRetryMargin
    maxConcurrentRoots := ← Toml.field f "max_concurrent_roots" count? usual.maxConcurrentRoots }

/-- The configuration of a loop. -/
def loop? (v : Toml) : Option LoopConfig := do
  let usual : LoopConfig := {}
  let f ← v.fields? ["busy_interval_ms", "idle_interval_ms"]
  return {
    busyInterval := ← Toml.field f "busy_interval_ms" millis? usual.busyInterval
    idleInterval := ← Toml.field f "idle_interval_ms" millis? usual.idleInterval }

/-- The configuration of the log. -/
def log? (v : Toml) : Option LogConfig := do
  let usual : LogConfig := {}
  let f ← v.fields? ["filter"]
  return { filter := ← Toml.field f "filter" Toml.text? usual.filter }

/-- The settings in a document. -/
def ofToml? (v : Toml) : Option Settings := do
  let f ← v.fields? ["reconciler", "loop", "log"]
  return {
    reconciler := ← Toml.field f "reconciler" reconciler? {}
    loop := ← Toml.field f "loop" loop? {}
    log := ← Toml.field f "log" log? {} }

/-- The verdict on a part, which the error names. -/
def checked (part : String) : Except ReconcileError Unit → Except DocumentError Unit
  | .ok _ => .ok ()
  | .error (.invalidConfig reason) => .error (.invalidConfig s!"[{part}] {reason}")
  | .error e => .error (.invalidConfig s!"[{part}] {e.message}")

/-- Refuses the first part that cannot be worked with. -/
def validate (s : Settings) : Except DocumentError Unit := do
  checked "reconciler" s.reconciler.validate
  checked "loop" s.loop.validate
  if s.log.filter.toList.all Text.isBlank then
    .error (.invalidConfig "[log] filter must not be empty")
  else .ok ()

/-- The settings in the file at a path. -/
def ofFile (read : FileReader) (path : String) : Except DocumentError Settings :=
  match read path with
  | .error fault => .error (.fileReadFailed path fault.message)
  | .ok text =>
      match (Toml.parse? text).bind ofToml? with
      | some s => .ok s
      | none => .error (.tomlParseFailed path "the text is not a settings document")

/-- The settings in the file that is named, or else in the default file if there is one. They have
to be such that they can be worked with. -/
def load (read : FileReader) (path : Option String) : Except DocumentError Settings := do
  let s ← match path, read defaultFile with
    | some path, _ => ofFile read path
    | none, .error .notFound => .ok {}
    | none, _ => ofFile read defaultFile
  s.validate
  return s

end Settings

end Concord

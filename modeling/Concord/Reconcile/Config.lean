import Concord.Reconcile.Error
import Concord.Reconcile.Tracker

/-!
The configuration of reconciliation and of its loop, and what makes one unusable.
-/

namespace Concord

/-- How often and how fast a pass tries things, and how many roots it works on at once. -/
structure ReconcilerConfig where
  maxCreateRetry : UInt32 := 5
  baseBackoff : Duration := .ofMillis 1000
  maxBackoff : Duration := .ofMillis 60000
  failedRetryMargin : UInt32 := 5
  maxConcurrentRoots : UInt64 := 8
deriving DecidableEq, Repr, Inhabited

namespace ReconcilerConfig

/-- Refuses the first value that cannot be worked with. -/
def validate (c : ReconcilerConfig) : Except ReconcileError Unit :=
  if c.maxCreateRetry = 0 then .error (.invalidConfig "max_create_retry must be at least 1")
  else if c.maxConcurrentRoots = 0 then
    .error (.invalidConfig "max_concurrent_roots must be at least 1")
  else if c.maxBackoff.nanos < c.baseBackoff.nanos then
    .error (.invalidConfig "base_backoff must not exceed max_backoff")
  else .ok ()

/-- The limits of tracking that follow from a configuration. -/
def trackerLimits (c : ReconcilerConfig) : TrackerLimits :=
  { TrackerLimits.ofMaxCreateRetry c.maxCreateRetry with
    baseBackoff := c.baseBackoff
    maxBackoff := c.maxBackoff
    failedRetryMargin := c.failedRetryMargin }

/-- A configuration that is put together bit by bit, with the two views that a reconciler needs.
The result is the configuration if both views are there and it can be worked with. -/
def build (c : ReconcilerConfig) (desired observed : Bool)
    : Except ReconcileError ReconcilerConfig :=
  if !desired then .error (.invalidConfig "Desired view is required")
  else if !observed then .error (.invalidConfig "Observed view is required")
  else c.validate.map fun _ => c

end ReconcilerConfig

/-- How long the loop pauses after a pass that left work behind and after one that did not. -/
structure LoopConfig where
  busyInterval : Duration := .ofMillis 100
  idleInterval : Duration := .ofMillis 1000
deriving DecidableEq, Repr, Inhabited

/-- Refuses to loop without a pause when nothing is to be done. -/
def LoopConfig.validate (c : LoopConfig) : Except ReconcileError Unit :=
  if c.idleInterval.nanos = 0 then .error (.invalidConfig "idle_interval must be positive")
  else .ok ()

end Concord

import Concord.Reconcile.View

/-!
Where changes of status go: a log that can be shut, and then refuses all of them.
-/

namespace Concord

/-- A sink of status changes that refuses all of them while it is shut. -/
structure StatusSink where
  isOpen : Bool := true
  log : StatusLog := {}

/-- Takes changes in, unless the sink is shut. -/
def StatusSink.report (s : StatusSink) (transitions : List StatusTransition)
    : Reply Unit × StatusSink :=
  if s.isOpen then (.answered (), { s with log := s.log.record transitions })
  else (.failed (.statusFailed "sink closed"), s)

end Concord

/-!
Spans of time in whole nanoseconds, of at most two to the sixty-fourth seconds, the delay before a
retry, which is a base delay doubled with every attempt up to a bound, and the longest pause that
is taken at once. Attempts are counted in thirty-two bits.
-/

namespace Concord

/-- A span of time in nanoseconds. -/
structure Duration where
  nanos : Nat
deriving DecidableEq, Repr, Inhabited

namespace Duration

/-- The number of nanoseconds in a second. -/
def nanosPerSecond : Nat :=
  1000000000

/-- The number of nanoseconds in a millisecond. -/
def nanosPerMilli : Nat :=
  1000000

/-- The longest span: its seconds fill sixty-four bits. -/
def longest : Duration :=
  ⟨UInt64.size * nanosPerSecond - 1⟩

/-- A number of milliseconds. -/
def ofMillis (n : Nat) : Duration :=
  ⟨n * nanosPerMilli⟩

/-- A number of seconds and of nanoseconds. -/
def ofParts (seconds nanos : Nat) : Duration :=
  ⟨seconds * nanosPerSecond + nanos⟩

/-- The whole seconds of a span. -/
def seconds (d : Duration) : Nat :=
  d.nanos / nanosPerSecond

/-- The nanoseconds of a span beyond its whole seconds. -/
def subsecond (d : Duration) : Nat :=
  d.nanos % nanosPerSecond

/-- The whole milliseconds of a span. -/
def millis (d : Duration) : Nat :=
  d.nanos / nanosPerMilli

/-- The sum of two spans, the longest if it is longer. -/
def add (d e : Duration) : Duration :=
  ⟨min (d.nanos + e.nanos) longest.nanos⟩

/-- A multiple of a span, the longest if it is longer. -/
def times (d : Duration) (n : Nat) : Duration :=
  ⟨min (d.nanos * n) longest.nanos⟩

/-- The shorter of two spans. -/
def shorter (d e : Duration) : Duration :=
  if d.nanos ≤ e.nanos then d else e

end Duration

/-- A number in thirty-two bits, the largest of them if it does not fit. -/
def saturated (n : Nat) : UInt32 :=
  UInt32.ofNat (min n (UInt32.size - 1))

/-- Sum of two numbers of thirty-two bits, the largest of them if it does not fit. -/
def saturatingAdd (a b : UInt32) : UInt32 :=
  saturated (a.toNat + b.toNat)

/-- The factor by which the delay grows: two to the number of attempts, and the largest number of
thirty-two bits where that does not fit. -/
def backoffFactor (attempt : Nat) : Nat :=
  if attempt < 32 then Nat.pow 2 attempt else UInt32.size - 1

/-- The delay after a number of attempts: the base delay grown, but no longer than `bound`. -/
def backoff (attempt : Nat) (base bound : Duration) : Duration :=
  (base.times (backoffFactor attempt)).shorter bound

/-- The longest pause in milliseconds: thirty years of 365 days. -/
def longestPause : Nat :=
  30 * 365 * 86400 * 1000

/-- The milliseconds that a pause takes if a number of them is asked for. -/
def pauseOf (millis : Nat) : Nat :=
  min millis longestPause

end Concord

import VersionedContent.Settings.Encoding
import VersionedContent.Time.Duration

/-!
# Backoff

How long a worker waits when there is nothing to do: each time twice as long as
the time before, up to a limit, and from the start again after it found work.
The time is doubled before it is cut to the limit, and a worker cannot go on when
the doubled time is no duration.
-/

namespace VersionedContent

/-- The waiting times of a worker. -/
structure Backoff where
  /-- The first waiting time. -/
  initial : Duration
  /-- The longest waiting time. -/
  max : Duration
  /-- The next waiting time. -/
  current : Duration
  deriving DecidableEq, Repr

namespace Backoff

/-- The waiting times between two numbers of milliseconds; a worker waits at least one. -/
def new (pollIntervalMs pollMaxBackoffMs : UInt64) : Backoff :=
  let initial := Duration.ofMillis (Max.max pollIntervalMs 1)
  { initial := initial, max := Max.max (.ofMillis pollMaxBackoffMs) initial, current := initial }

/-- The waiting times of the settings, which count milliseconds in 64 bits. -/
def ofSettings (settings : MigrationSettings) : Backoff :=
  new (.ofNat settings.pollIntervalMs) (.ofNat settings.pollMaxBackoffMs)

/-- The waiting times from the start. -/
def reset (backoff : Backoff) : Backoff := { backoff with current := backoff.initial }

/-- The time to wait now, and the waiting times after it, if the time can be doubled. -/
def nextDelay? (backoff : Backoff) : Option (Duration × Backoff) :=
  (backoff.current.times? 2).map fun doubled =>
    (backoff.current, { backoff with current := min doubled backoff.max })

end Backoff

end VersionedContent

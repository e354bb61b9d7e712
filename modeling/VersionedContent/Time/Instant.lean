import VersionedContent.Time.Civil

/-!
# Instants

An instant is a second of universal time and a fraction of it. During a leap
second the fraction runs on past one second, so instants order by second first
and by fraction second.

Milliseconds convert to instants within the calendar's range, the years
-262143 to 262142.
-/

namespace VersionedContent

/-- A point of universal time. -/
structure Instant where
  /-- Seconds since the start of 1970. -/
  seconds : Int
  /-- Nanoseconds into the second; a leap second has twice as many. -/
  nanos : Nat
  deriving DecidableEq, Repr

namespace Instant

/-- Whether the first instant precedes the second. -/
def before (a b : Instant) : Bool :=
  a.seconds < b.seconds || (a.seconds == b.seconds && a.nanos < b.nanos)

/-- Whole milliseconds since the start of 1970. -/
def toMillis (t : Instant) : Int := t.seconds * 1000 + (t.nanos / 1000000 : Nat)

/-- The first year of the calendar's range. -/
def firstYear : Int := -262143

/-- The last year of the calendar's range. -/
def lastYear : Int := 262142

/-- First millisecond of the year -262143. -/
def minMillis : Int := -8334601228800000

/-- Last millisecond of the year 262142. -/
def maxMillis : Int := 8210266876799999

/-- The instant a number of milliseconds after the start of 1970, within the calendar's range. -/
def ofMillis? (millis : Int) : Option Instant :=
  if minMillis ≤ millis ∧ millis ≤ maxMillis then
    some ⟨millis / 1000, (millis % 1000).toNat * 1000000⟩
  else none

/-- The day on which an instant falls. -/
def date (t : Instant) : CivilDate := CivilDate.ofDays (t.seconds / 86400)

/-- An instant does not precede itself. -/
theorem not_before_self (t : Instant) : before t t = false := by simp [before]

/-- Converting milliseconds forth and back. -/
theorem toMillis_ofMillis? {millis : Int} {t : Instant} (h : ofMillis? millis = some t) :
    t.toMillis = millis := by
  unfold ofMillis? at h
  split at h
  · cases h
    simp only [toMillis]
    omega
  · cases h

end Instant

end VersionedContent

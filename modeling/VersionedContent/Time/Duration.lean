/-!
# Durations

A duration is a number of whole seconds, of 64 bits, and a fraction of a second
in nanoseconds. Durations order by seconds first and by fraction second. A
multiple whose seconds take more than 64 bits is no duration.
-/

namespace VersionedContent

/-- A span of time. -/
structure Duration where
  /-- Whole seconds. -/
  seconds : Nat
  /-- Nanoseconds beyond them. -/
  nanos : Nat
  /-- Seconds take 64 bits. -/
  seconds_lt : seconds < 18446744073709551616
  /-- Nanoseconds make no whole second. -/
  nanos_lt : nanos < 1000000000
  deriving DecidableEq, Repr

namespace Duration

/-- A number of milliseconds. -/
def ofMillis (millis : UInt64) : Duration where
  seconds := millis.toNat / 1000
  nanos := millis.toNat % 1000 * 1000000
  seconds_lt := by
    have := millis.toNat_lt
    omega
  nanos_lt := by omega

/-- All nanoseconds of a duration. -/
def toNanos (d : Duration) : Nat := d.seconds * 1000000000 + d.nanos

instance : LE Duration where
  le a b := a.seconds < b.seconds ∨ (a.seconds = b.seconds ∧ a.nanos ≤ b.nanos)

instance : DecidableLE Duration := fun a b =>
  inferInstanceAs (Decidable (a.seconds < b.seconds ∨ (a.seconds = b.seconds ∧ a.nanos ≤ b.nanos)))

instance : Max Duration := maxOfLe

instance : Min Duration := minOfLe

/-- A multiple of a duration, if its seconds take no more than 64 bits. -/
def times? (d : Duration) (n : Nat) : Option Duration :=
  if h : d.seconds * n + d.nanos * n / 1000000000 < 18446744073709551616 then
    some {
      seconds := d.seconds * n + d.nanos * n / 1000000000
      nanos := d.nanos * n % 1000000000
      seconds_lt := h
      nanos_lt := Nat.mod_lt _ (by decide) }
  else none

/-- Milliseconds have a million nanoseconds each. -/
theorem toNanos_ofMillis (millis : UInt64) :
    (ofMillis millis).toNanos = millis.toNat * 1000000 := by
  simp only [toNanos, ofMillis]
  omega

/-- Durations order by their nanoseconds. -/
theorem le_iff {a b : Duration} : a ≤ b ↔ a.toNanos ≤ b.toNanos := by
  have ha := a.nanos_lt
  have hb := b.nanos_lt
  change a.seconds < b.seconds ∨ (a.seconds = b.seconds ∧ a.nanos ≤ b.nanos) ↔ _
  simp only [toNanos]
  omega

/-- The longer of two durations. -/
theorem toNanos_max (a b : Duration) : (max a b).toNanos = max a.toNanos b.toNanos := by
  change (if a ≤ b then b else a).toNanos = _
  split
  · next h => exact (Nat.max_eq_right (le_iff.mp h)).symm
  · next h =>
    rw [le_iff] at h
    omega

/-- The shorter of two durations. -/
theorem toNanos_min (a b : Duration) : (min a b).toNanos = min a.toNanos b.toNanos := by
  change (if a ≤ b then a else b).toNanos = _
  split
  · next h => exact (Nat.min_eq_left (le_iff.mp h)).symm
  · next h =>
    rw [le_iff] at h
    omega

/-- A multiple has as many times the nanoseconds. -/
theorem toNanos_of_times? {d multiple : Duration} {n : Nat} (h : d.times? n = some multiple) :
    multiple.toNanos = d.toNanos * n := by
  unfold times? at h
  split at h
  · cases h
    have hdiv := Nat.div_add_mod (d.nanos * n) 1000000000
    simp only [toNanos, Nat.add_mul, Nat.mul_right_comm d.seconds]
    omega
  · cases h

/-- There is a multiple just when 64 bits count its seconds. -/
theorem times?_isSome_iff (d : Duration) (n : Nat) :
    (d.times? n).isSome = true ↔ d.toNanos * n < 18446744073709551616 * 1000000000 := by
  have hseconds : (d.times? n).isSome = true ↔
      d.seconds * n + d.nanos * n / 1000000000 < 18446744073709551616 := by
    unfold times?
    split <;> simp_all
  rw [hseconds, toNanos, Nat.add_mul, Nat.mul_right_comm d.seconds]
  omega

end Duration

end VersionedContent

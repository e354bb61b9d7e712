import VersionedContent.Proofs.Site.Sound

/-!
# How long workers wait

Waiting times are followed over any calls for a next time and for a new start. One
invariant carries them: how often the time has been doubled since the last start
says what it is, and the longest time is far from the end of the durations. So
there always is a next time, and no worker stops for want of one.
-/

namespace VersionedContent

namespace Backoff

/-- What is asked of waiting times. -/
inductive Call where
  /-- The time to wait now. -/
  | next
  /-- To start again. -/
  | reset
  deriving DecidableEq, Repr

/-- The waiting times after a call, if there are any. -/
def call (backoff : Backoff) : Call → Option Backoff
  | .next => backoff.nextDelay?.map Prod.snd
  | .reset => some backoff.reset

/-- The waiting times after calls in a row, if there are any. -/
def callAll (backoff : Backoff) (calls : List Call) : Option Backoff := calls.foldlM call backoff

/-- How many times have been waited since the last start, if it were `k` before a call. -/
def Call.count (k : Nat) : Call → Nat
  | next => k + 1
  | reset => 0

/-- How many times have been waited since the last start. -/
def streak (calls : List Call) : Nat := calls.foldl Call.count 0

/-- A start and as many calls for a next time make a streak of that length. -/
theorem streak_replicate (before : List Call) (k : Nat) :
    streak (before ++ .reset :: List.replicate k .next) = k := by
  have hfold (n : Nat) : (List.replicate k Call.next).foldl Call.count n = n + k := by
    induction k generalizing n with
    | zero => rfl
    | succ k ih =>
      rw [List.replicate_succ, List.foldl_cons, ih, Call.count]
      omega
  rw [streak, List.foldl_append, List.foldl_cons, Call.count, hfold, Nat.zero_add]

/-- Whether the times go from a first number of milliseconds to a last one, and the first one has
been doubled a number of times. -/
structure Doubled (first last k : Nat) (backoff : Backoff) : Prop where
  /-- The first time. -/
  initial : backoff.initial.toNanos = first * 1000000
  /-- The longest time. -/
  max : backoff.max.toNanos = last * 1000000
  /-- The next time. -/
  current : backoff.current.toNanos = min (first * 2 ^ k) last * 1000000
  /-- The first time is no longer than the longest. -/
  first_le : first ≤ last
  /-- The longest time takes 64 bits in milliseconds. -/
  last_lt : last < 18446744073709551616

variable {first last k : Nat} {backoff : Backoff}

/-- The next time lies between the first and the longest one. -/
theorem Doubled.bounds (h : Doubled first last k backoff) :
    first * 1000000 ≤ backoff.current.toNanos ∧ backoff.current.toNanos ≤ last * 1000000 := by
  have hpow : first ≤ first * 2 ^ k := Nat.le_mul_of_pos_right first (Nat.two_pow_pos k)
  have hle := h.first_le
  rw [h.current]
  omega

/-- The next time can be doubled. -/
theorem Doubled.double_lt (h : Doubled first last k backoff) :
    backoff.current.toNanos * 2 < 18446744073709551616 * 1000000000 := by
  have hle := h.bounds.2
  have hlast := h.last_lt
  omega

/-- There is a next time, after which the first one has been doubled once more. -/
theorem Doubled.exists_next (h : Doubled first last k backoff) :
    ∃ next, backoff.nextDelay? = some (backoff.current, next) ∧
      Doubled first last (k + 1) next := by
  obtain ⟨doubled, hd⟩ :=
    Option.isSome_iff_exists.mp ((Duration.times?_isSome_iff _ 2).mpr h.double_lt)
  refine ⟨{ backoff with current := min doubled backoff.max }, by rw [nextDelay?, hd]; rfl,
    h.initial, h.max, ?_, h.first_le, h.last_lt⟩
  dsimp only
  -- The limit is put on the doubled time, so it does not matter that it was on the time before.
  rw [Duration.toNanos_min, Duration.toNanos_of_times? hd, h.current, h.max, Nat.pow_succ,
    ← Nat.mul_assoc]
  omega

/-- A new start undoes the doubling. -/
theorem Doubled.reset (h : Doubled first last k backoff) :
    Doubled first last 0 backoff.reset where
  initial := h.initial
  max := h.max
  current := by
    rw [Backoff.reset, h.initial, Nat.pow_zero, Nat.mul_one, Nat.min_eq_left h.first_le]
  first_le := h.first_le
  last_lt := h.last_lt

/-- A call changes how often the first time has been doubled. -/
theorem Doubled.call (h : Doubled first last k backoff) (call : Call) :
    ∃ next, backoff.call call = some next ∧ Doubled first last (call.count k) next := by
  cases call with
  | next =>
    obtain ⟨next, hnext, hdoubled⟩ := h.exists_next
    exact ⟨next, by rw [Backoff.call, hnext]; rfl, hdoubled⟩
  | reset => exact ⟨backoff.reset, rfl, h.reset⟩

/-- Calls in a row change how often the first time has been doubled. -/
theorem Doubled.callAll (h : Doubled first last k backoff) (calls : List Call) :
    ∃ next, backoff.callAll calls = some next ∧
      Doubled first last (calls.foldl Call.count k) next := by
  induction calls generalizing k backoff with
  | nil => exact ⟨backoff, rfl, h⟩
  | cons call rest ih =>
    obtain ⟨middle, hcall, hmiddle⟩ := h.call call
    obtain ⟨next, hrest, hnext⟩ := ih hmiddle
    refine ⟨next, ?_, hnext⟩
    rw [Backoff.callAll, List.foldlM_cons, hcall]
    exact hrest

/-- New waiting times have not been doubled. -/
theorem doubled_new (interval limit : UInt64) :
    Doubled (Max.max interval.toNat 1) (Max.max limit.toNat (Max.max interval.toNat 1)) 0
      (new interval limit) := by
  have hinterval := interval.toNat_lt
  have hlimit := limit.toNat_lt
  have hfirst : (Max.max interval 1).toNat = Max.max interval.toNat 1 := by
    change (if interval ≤ 1 then (1 : UInt64) else interval).toNat = _
    split
    · next h =>
      rw [UInt64.le_iff_toNat_le] at h
      exact (Nat.max_eq_right h).symm
    · next h =>
      rw [UInt64.le_iff_toNat_le] at h
      exact (Nat.max_eq_left (Nat.le_of_not_le h)).symm
  have hinitial : (new interval limit).initial.toNanos = Max.max interval.toNat 1 * 1000000 := by
    rw [new, Duration.toNanos_ofMillis, hfirst]
  refine ⟨hinitial, ?_, hinitial.trans ?_, by omega, by omega⟩
  · rw [new, Duration.toNanos_max, Duration.toNanos_ofMillis, Duration.toNanos_ofMillis, hfirst]
    omega
  · rw [Nat.pow_zero]
    omega

/-- Whatever number of milliseconds a worker starts and ends its waiting with, and whatever it has
asked for so far, it has waiting times. The next one is the first, doubled once for each wait since
the last start, or the longest if that is shorter; it lies between these two, and it can be doubled
without taking more seconds than 64 bits count. -/
theorem waits_double_up_to_limit (settings : MigrationSettings) (interval limit : UInt64)
    (calls : List Call) :
    let first := Max.max interval.toNat 1
    let last := Max.max limit.toNat first
    ∃ backoff delay after,
      (ofSettings { settings with
        pollIntervalMs := interval.toNat, pollMaxBackoffMs := limit.toNat }).callAll calls =
          some backoff ∧
      backoff.nextDelay? = some (delay, after) ∧
      delay.toNanos = min (first * 2 ^ streak calls) last * 1000000 ∧
      first * 1000000 ≤ delay.toNanos ∧ delay.toNanos ≤ last * 1000000 ∧
      delay.toNanos * 2 < 18446744073709551616 * 1000000000 := by
  intro first last
  obtain ⟨backoff, hcalls, hdoubled⟩ := (doubled_new interval limit).callAll calls
  obtain ⟨after, hnext, -⟩ := hdoubled.exists_next
  refine ⟨backoff, backoff.current, after, ?_, hnext, hdoubled.current, hdoubled.bounds.1,
    hdoubled.bounds.2, hdoubled.double_lt⟩
  rw [ofSettings, UInt64.ofNat_toNat, UInt64.ofNat_toNat]
  exact hcalls

/-- A worker that starts with ten milliseconds and ends with twenty-five waits ten, twenty and
twenty-five, and ten again after a new start. -/
example :
    let waited (calls : List Call) : Option Nat :=
      ((ofSettings { pollIntervalMs := 10, pollMaxBackoffMs := 25 }).callAll calls).map
        (·.current.toNanos)
    [waited [], waited [.next], waited [.next, .next], waited [.next, .next, .reset]] =
      [some 10000000, some 20000000, some 25000000, some 10000000] := by
  decide

end Backoff

namespace Site

open VersionedContent.Action

/-- However a look for work goes, the worker does not stop, and its waiting times go on between the
same bounds. -/
theorem poll_of_doubled {first last k : Nat} {backoff next : Backoff}
    (h : backoff.Doubled first last k) {guard : WriteGuard} {site : Site} {polled : Poll}
    (hp : (outcome (poll guard backoff) site).1 = .ok (polled, next)) :
    polled ≠ .stopped ∧ ∃ k, next.Doubled first last k := by
  let P (answer : Poll × Backoff) : Prop := answer.1 ≠ .stopped ∧ ∃ k, answer.2.Doubled first last k
  let R (_ _ : Site) : Prop := True
  have hrefl : Std.Refl R := ⟨fun _ => trivial⟩
  have htrans : IsTrans Site R := ⟨fun _ _ _ _ _ => trivial⟩
  have hany {α : Type} (action : Action α) : Within (fun _ => True) R (fun _ => True) action :=
    fun _ _ => ⟨trivial, trivial, fun _ _ => trivial⟩
  obtain ⟨after, hnext, hdoubled⟩ := h.exists_next
  have hidle : P (idle backoff) := by
    rw [idle, hnext]
    exact ⟨Poll.noConfusion, k + 1, hdoubled⟩
  have hserve (claimed : Except Failure (Option Job)) :
      Within (fun _ => True) R P (serve backoff claimed) := by
    rcases claimed with failure | _ | job
    · exact within_pure hidle
    · exact within_pure hidle
    · exact within_bind (hany (process job)) fun finished _ =>
        within_pure ⟨Poll.noConfusion, 0, h.reset⟩
  have hpoll : Within (fun _ => True) R P (poll guard backoff) := by
    unfold poll
    dsimp only
    split <;> exact within_bind (hany _) fun claimed _ => hserve claimed
  exact (hpoll site trivial).2.2 _ hp

end Site

end VersionedContent

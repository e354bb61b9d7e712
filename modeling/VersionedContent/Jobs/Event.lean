import VersionedContent.Jobs.Job

/-!
# Events

Every job that ends is announced. A subscriber has a channel that holds a
bounded number of announcements it has not taken yet; when more arrive the
oldest are lost, and their number is told.
-/

namespace VersionedContent

/-- How a job ended. -/
inductive Outcome where
  /-- Well. -/
  | completed
  /-- Badly. -/
  | failed (message : String)
  deriving DecidableEq, Repr

/-- The announcement of a job that ended. -/
structure Event where
  /-- The job. -/
  jobId : Id
  /-- Its type. -/
  jobType : JobType
  /-- The branch it worked on. -/
  branchId : Option Id
  /-- How it ended. -/
  outcome : Outcome
  deriving DecidableEq, Repr

namespace Event

/-- The announcement of a job that ended. -/
def ofJob (job : Job) : Event where
  jobId := job.id
  jobType := job.kind.type
  branchId := job.kind.branchId?
  outcome := match job.error with
    | none => .completed
    | some error => .failed error.message

/-- Whether the job ended well. -/
def isSuccess (event : Event) : Bool := event.outcome = .completed

end Event

/-- What a subscriber has not taken yet. -/
structure EventChannel where
  /-- The number of announcements that the channel holds. -/
  capacity : Nat
  /-- The announcements, oldest first. -/
  waiting : List Event := []
  /-- How many were lost since the subscriber took the last one. -/
  lost : Nat := 0
  deriving DecidableEq, Repr

namespace EventChannel

/-- The smallest power of two that is not below a number. -/
def powerOfTwoFrom (n : Nat) : Nat := if n ≤ 1 then 1 else Nat.pow 2 ((n - 1).log2 + 1)

/-- An empty channel; capacities are powers of two. -/
def ofBuffer (buffer : Nat) : EventChannel := { capacity := powerOfTwoFrom buffer }

/-- Puts an announcement into the channel; the oldest one makes room. -/
def send (channel : EventChannel) (event : Event) : EventChannel :=
  if channel.waiting.length < channel.capacity then
    { channel with waiting := channel.waiting ++ [event] }
  else
    { channel with waiting := channel.waiting.tail ++ [event], lost := channel.lost + 1 }

/-- The channel after the subscriber took everything. -/
def drained (channel : EventChannel) : EventChannel := { channel with waiting := [], lost := 0 }

end EventChannel

end VersionedContent

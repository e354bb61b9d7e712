import VersionedContent.Jobs.Job

/-!
# The stages of a job

A job waits, runs and has ended, and tells at each stage when it got there and
what went wrong. What it was queued with it keeps.
-/

namespace VersionedContent

/-- A job that has ended neither waits nor runs. -/
theorem JobStatus.ne_of_isTerminal {status other : JobStatus} (h : status.isTerminal = true)
    (ho : other.isTerminal = false) : status ≠ other := by
  rintro rfl
  rw [h] at ho
  cases ho

namespace Job

/-- A job as it is logged once it has started. -/
def begun (job : Job) (startedAt : Instant) : Job :=
  { job with status := .started, startedAt := some startedAt }

/-- A job as it is logged once it has ended. -/
def ended (job : Job) (status : JobStatus) (error : Option JobError) (stoppedAt : Instant) :
    Job :=
  { job with status := status, error := error, stoppedAt := some stoppedAt }

/-- A job as it was queued. -/
def asQueued (job : Job) : Job := .queue job.id job.createdAt job.kind job.retryOf

@[simp] theorem asQueued_queue (id : Id) (createdAt : Instant) (kind : JobKind)
    (retryOf : Option Id) : (queue id createdAt kind retryOf).asQueued =
      queue id createdAt kind retryOf := rfl

@[simp] theorem asQueued_begun (job : Job) (startedAt : Instant) :
    (job.begun startedAt).asQueued = job.asQueued := rfl

@[simp] theorem asQueued_ended (job : Job) (status : JobStatus) (error : Option JobError)
    (stoppedAt : Instant) : (job.ended status error stoppedAt).asQueued = job.asQueued := rfl

/-- Jobs that were queued as one have an identifier. -/
theorem id_eq_of_asQueued_eq {job other : Job} (h : job.asQueued = other.asQueued) :
    job.id = other.id := by
  have hid := congrArg Job.id h
  exact hid

/-- Jobs that were queued as one do the same. -/
theorem kind_eq_of_asQueued_eq {job other : Job} (h : job.asQueued = other.asQueued) :
    job.kind = other.kind := by
  have hkind := congrArg Job.kind h
  exact hkind

/-- Whether what a job tells of its course fits its status. -/
structure Consistent (job : Job) : Prop where
  /-- It knows when it was started unless it waits. -/
  startedAt : job.startedAt.isSome = true ↔ job.status ≠ .queued
  /-- It knows when it ended once it has. -/
  stoppedAt : job.stoppedAt.isSome = true ↔ job.status.isTerminal = true
  /-- It knows what went wrong when it ended badly. -/
  error : job.error.isSome = true ↔ job.status = .failed

/-- What a job that has ended tells of its end. -/
inductive Ending : JobStatus → Option JobError → Prop
  /-- Nothing went wrong. -/
  | well : Ending .completed none
  /-- Something went wrong. -/
  | badly (error : JobError) : Ending .failed (some error)

/-- A job that tells of its end has ended. -/
theorem Ending.isTerminal {status : JobStatus} {error : Option JobError} (h : Ending status error) :
    status.isTerminal = true := by
  cases h <;> rfl

/-- Whether a job is another one, or what that one has become at its next stage. -/
def Reaches (job next : Job) : Prop :=
  next.asQueued = job.asQueued ∧ (next = job ∨ job.status.canBecome next.status = true)

variable {job : Job}

/-- A job that waits has no course to tell of. -/
theorem consistent_queue (id : Id) (createdAt : Instant) (kind : JobKind) (retryOf : Option Id) :
    (queue id createdAt kind retryOf).Consistent := by
  constructor <;> simp [queue, JobStatus.isTerminal]

/-- A job that waits may start. -/
theorem Consistent.begun (h : job.Consistent) (hs : job.status = .queued) (startedAt : Instant) :
    (job.begun startedAt).Consistent where
  startedAt := by simp [Job.begun]
  stoppedAt := by
    have hstopped := h.stoppedAt
    rw [hs] at hstopped
    exact hstopped
  error := by
    have herror := h.error
    rw [hs] at herror
    exact herror.trans (by simp [Job.begun])

/-- A job that runs may end. -/
theorem Consistent.ended (h : job.Consistent) (hs : job.status = .started) {status : JobStatus}
    {error : Option JobError} (he : Ending status error) (stoppedAt : Instant) :
    (job.ended status error stoppedAt).Consistent := by
  have hstarted : job.startedAt.isSome = true := h.startedAt.mpr (by rw [hs]; decide)
  cases he <;> constructor <;> simp [Job.ended, hstarted, JobStatus.isTerminal]

end Job

end VersionedContent

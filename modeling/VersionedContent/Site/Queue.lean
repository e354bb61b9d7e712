import VersionedContent.Site.Site

/-!
# The job queue

Queueing, starting, ending and administering jobs.
-/

namespace VersionedContent.Site

/-- Queues a job, which may repeat a failed one. -/
def enqueueJob (kind : JobKind) (retryOf : Option Id) : Action Job := do
  let job := Job.queue (← nextJobId) (← Action.now) kind retryOf
  addJob job
  return job

/-- Queues a job. -/
def enqueue (kind : JobKind) : Action Job := enqueueJob kind none

/-- Starts the next eligible job. -/
def claimNext : Action (Option Job) := do claimNextJob (← Action.now)

/-- The job of an identifier. -/
def job (id : Id) : Action Job := do
  Action.orNotFound "job" id (← Action.query fun store => store.jobs.find? id)

/-- Ends a running job. -/
def finish (id : Id) (status : JobStatus) (error : Option JobError) : Action Job := do
  match ← finishJob id status error (← Action.now) with
  | some job => return job
  | none =>
    let current ← job id
    throw (.conflict (.noTransition id current.status status))

/-- Ends a running job well. -/
def complete (id : Id) : Action Job := finish id .completed none

/-- Ends a running job badly. -/
def fail (id : Id) (error : JobError) : Action Job := finish id .failed (some error)

/-- The jobs that meet a filter, in the order of their creation. -/
def listJobs (filter : JobFilter) : Action (List Job) :=
  .query fun store => store.jobs.jobs.filter filter.accepts

/-- Queues a copy of a failed job. -/
def retry (id : Id) : Action Job := do
  let failed ← job id
  if failed.status ≠ .failed then throw (.conflict (.notFailed failed.id failed.status))
  enqueueJob failed.kind (some failed.id)

/-- Drops a job that does not run. -/
def deleteJob (id : Id) : Action Unit := do
  if ← Action.transact (Store.deleteJob id) then return
  let current ← job id
  throw (.conflict (.jobBusy current.id current.status))

/-- Drops all failed jobs and tells how many they were. -/
def purgeFailed : Action Nat := .transact (Store.deleteJobsWithStatus .failed)

/-- Drops all jobs and tells how many they were; not while one runs. -/
def clearJobs : Action Nat := do
  match ← Action.transact Store.clearJobs with
  | some count => return count
  | none => throw (.conflict .queueBusy)

end VersionedContent.Site

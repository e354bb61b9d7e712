import VersionedContent.Jobs.Job

/-!
# The job log

Jobs in the order of their creation, each under a sequence number that is never
used again, and an index from identifiers to sequence numbers. When two jobs
with one identifier are logged, the index knows the later one.

A job may start when it waits and no job of its scope runs; the first such job
is the next to start.
-/

namespace VersionedContent

/-- A job and its sequence number. -/
structure JobEntry where
  /-- Place in the order of creation. -/
  sequence : Nat
  /-- The job. -/
  job : Job
  deriving DecidableEq, Repr

/-- All jobs. -/
structure JobLog where
  /-- The jobs in the order of their creation. -/
  entries : List JobEntry := []
  /-- Sequence numbers by job identifier. -/
  index : Dict Nat := []
  /-- The sequence number of the next job. -/
  nextSequence : Nat := 0

namespace JobLog

/-- The jobs in the order of their creation. -/
def jobs (log : JobLog) : List Job := log.entries.map JobEntry.job

/-- The entry of a sequence number. -/
def entry? (log : JobLog) (sequence : Nat) : Option JobEntry :=
  log.entries.find? fun entry => entry.sequence = sequence

/-- The job of an identifier. -/
def find? (log : JobLog) (id : Id) : Option Job :=
  (Dict.get? log.index id).bind fun sequence => (log.entry? sequence).map JobEntry.job

/-- Logs a job. -/
def append (log : JobLog) (job : Job) : JobLog where
  entries := log.entries ++ [⟨log.nextSequence, job⟩]
  index := Dict.insert log.index job.id log.nextSequence
  nextSequence := log.nextSequence + 1

/-- Replaces the job of a sequence number. -/
def replace (log : JobLog) (sequence : Nat) (job : Job) : JobLog :=
  { log with
    entries := log.entries.map fun entry =>
      if entry.sequence = sequence then ⟨sequence, job⟩ else entry }

/-- Drops entries from the log and their identifiers from the index. -/
def drop (log : JobLog) (doomed : List JobEntry) : JobLog :=
  { log with
    entries := log.entries.filter fun entry =>
      !(doomed.any fun other => other.sequence = entry.sequence)
    index := doomed.foldl (fun index entry => Dict.erase index entry.job.id) log.index }

/-- Whether a job of a scope runs. -/
def isBusy (log : JobLog) (scope : String) : Bool :=
  log.jobs.any fun job => job.status = .started && job.scope = scope

/-- Whether a job may start. -/
def isEligible (log : JobLog) (job : Job) : Bool :=
  job.status = .queued && !log.isBusy job.scope

/-- The next job to start. -/
def nextEligible? (log : JobLog) : Option JobEntry :=
  log.entries.find? fun entry => log.isEligible entry.job

/-- Whether a job runs. -/
def isRunning (log : JobLog) : Bool := log.jobs.any fun job => job.status = .started

/-- Number of jobs that wait. -/
def waiting (log : JobLog) : Nat := log.jobs.countP fun job => job.status = .queued

/-- The next job to start waits, and no job of its scope runs. -/
theorem isEligible_of_nextEligible? {log : JobLog} {entry : JobEntry}
    (h : log.nextEligible? = some entry) :
    entry ∈ log.entries ∧ entry.job.status = .queued ∧ log.isBusy entry.job.scope = false := by
  have he := List.find?_some h
  simp only [isEligible, Bool.and_eq_true, decide_eq_true_eq, Bool.not_eq_true'] at he
  exact ⟨List.mem_of_find?_eq_some h, he⟩

/-- When no job is next, every job that waits has a running job in its scope. -/
theorem isBusy_of_nextEligible?_eq_none {log : JobLog} (h : log.nextEligible? = none)
    {entry : JobEntry} (hm : entry ∈ log.entries) (hq : entry.job.status = .queued) :
    log.isBusy entry.job.scope = true := by
  have he := List.find?_eq_none.1 h entry hm
  simpa [isEligible, hq] using he

end JobLog

end VersionedContent

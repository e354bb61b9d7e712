import VersionedContent.Proofs.Site.QueueCalls

/-!
# The course of the jobs

What is true of the jobs of a queue after any calls, and how one more call may
change them.
-/

namespace VersionedContent.Site

open VersionedContent.Action

variable {site : Site}

/-- Each job of an orderly log goes on by one stage at most, or is dropped while it does not run. -/
theorem Orderly.reaches_or_gone (h : site.Orderly) (call : QueueCall) {job : Job}
    (hj : job ∈ site.store.jobs.jobs) :
    (∃ next ∈ (call.after site).store.jobs.jobs, job.Reaches next) ∨
      job.status ≠ .started ∧ ∀ next ∈ (call.after site).store.jobs.jobs, next.id ≠ job.id := by
  rcases call.performs h with ho | ⟨ho, hstep⟩
  · rw [QueueCall.after, ho]
    exact .inl ⟨job, hj, rfl, .inl rfl⟩
  · rw [QueueCall.after, ho]
    exact hstep.reaches_or_gone h.log.toSound hj

/-- A job that comes waits. -/
theorem Orderly.came (h : site.Orderly) (call : QueueCall) {next : Job}
    (hn : next ∈ (call.after site).store.jobs.jobs) :
    (∃ job ∈ site.store.jobs.jobs, job.id = next.id) ∨ next.status = .queued := by
  rcases call.performs h with ho | ⟨ho, hstep⟩
  · rw [QueueCall.after, ho] at hn
    exact .inl ⟨next, hn, rfl⟩
  · rw [QueueCall.after, ho] at hn
    exact hstep.came h.log.toSound hn

/-- A call that fails reads the clock at most. -/
theorem Orderly.after_of_error (h : site.Orderly) {call : QueueCall} {failure : Failure}
    (he : (outcome call.action site).1 = .error failure) :
    call.after site = { site with clock := (call.after site).clock } := by
  rcases call.performs h with ho | ⟨ho, -⟩
  · rw [QueueCall.after, ho]
    rfl
  · rw [ho] at he
    cases he

/-- A job is answered with when it is listed. -/
theorem Orderly.outcome_job_iff (h : site.Orderly) (id : Id) (job : Job) :
    outcome (Site.job id) site = (.ok job, site) ↔ job ∈ site.store.jobs.jobs ∧ job.id = id := by
  rw [← h.log.find?_eq_some_iff, outcome_job]
  cases site.store.jobs.find? id <;> simp

/-- Whatever calls of the queue are made one after another: no two jobs of one scope run, what each
job tells of its course fits its status, and the jobs that are listed are those that are found. One
more call moves a job on by one stage at most, drops no job that runs, and changes nothing when it
fails. -/
theorem QueueCall.jobs_keep_course (clock : Clock) (bucketSize eventBuffer : Nat)
    (issued : Issued) (calls : List QueueCall) :
    let site := afterAll (.empty clock bucketSize eventBuffer issued) calls
    let jobs := site.store.jobs.jobs
    outcome (listJobs {}) site = (.ok jobs, site) ∧
      (jobs.map Job.id).Nodup ∧
      (∀ id job, outcome (Site.job id) site = (.ok job, site) ↔ job ∈ jobs ∧ job.id = id) ∧
      (jobs.Pairwise fun a b =>
        a.status = .started → b.status = .started → a.scope ≠ b.scope) ∧
      (∀ job ∈ jobs, (job.startedAt.isSome = true ↔ job.status ≠ .queued) ∧
        (job.stoppedAt.isSome = true ↔ job.status.isTerminal = true) ∧
          (job.error.isSome = true ↔ job.status = .failed)) ∧
      ∀ call : QueueCall,
        (∀ job ∈ jobs,
          (∃ next ∈ (call.after site).store.jobs.jobs, next.id = job.id ∧
            next.kind = job.kind ∧ next.createdAt = job.createdAt ∧
              next.retryOf = job.retryOf ∧
                (next = job ∨ job.status.canBecome next.status = true)) ∨
            job.status ≠ .started ∧
              ∀ next ∈ (call.after site).store.jobs.jobs, next.id ≠ job.id) ∧
          (∀ next ∈ (call.after site).store.jobs.jobs,
            (∃ job ∈ jobs, job.id = next.id) ∨ next.status = .queued) ∧
          ∀ failure, (outcome call.action site).1 = .error failure →
            call.after site = { site with clock := (call.after site).clock } := by
  intro site jobs
  have h : site.Orderly := (orderly_empty clock bucketSize eventBuffer issued).afterAll calls
  refine ⟨?_, h.log.nodup_ids, h.outcome_job_iff, List.pairwise_map.mpr h.log.apart, ?_, ?_⟩
  · have hall : jobs.filter (JobFilter.accepts {}) = jobs := List.filter_eq_self.mpr fun _ _ => rfl
    rw [listJobs, outcome_query, hall]
  · intro job hj
    obtain ⟨entry, hm, rfl⟩ := JobLog.mem_jobs.mp hj
    have hconsistent := h.log.consistent entry hm
    exact ⟨hconsistent.startedAt, hconsistent.stoppedAt, hconsistent.error⟩
  · refine fun call => ⟨fun job hj => ?_, fun next hn => h.came call hn,
      fun failure he => h.after_of_error he⟩
    refine (h.reaches_or_gone call hj).imp_left fun ⟨next, hn, hqueued, hstage⟩ => ?_
    have hfields := hqueued
    simp only [Job.asQueued, Job.queue, Job.mk.injEq, true_and] at hfields
    obtain ⟨hid, hkind, hcreated, hretry⟩ := hfields
    exact ⟨next, hn, hid, hkind, hcreated, hretry, hstage⟩

/-- Jobs at each of their stages. -/
example :
    (QueueCall.afterAll (.empty (.ticking ⟨0, 0⟩) 10 10)
      [.enqueue (.versionPurge "p" none), .enqueue (.versionPurge "q" none),
        .enqueue (.versionPurge "p" none), .enqueue (.versionPurge "p" none), .claimNext,
        .claimNext, .complete (label "j" 0), .fail (label "j" 1) { message := "no" },
        .claimNext]).store.jobs.jobs.map Job.status =
      [.completed, .failed, .started, .queued] := by
  decide +kernel

end VersionedContent.Site

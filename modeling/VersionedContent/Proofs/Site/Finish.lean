import VersionedContent.Proofs.Jobs.Stages
import VersionedContent.Proofs.Site.Sound

/-!
# How jobs start and end

What starting the next job and running a started one write to the log: a job is
changed in place, and a job that runs ends well exactly when its work has
nothing to report.
-/

namespace VersionedContent

namespace Site

open VersionedContent.Action

variable {site : Site}

/-- The next job is started in place, if there is one. -/
theorem outcome_claimNext (ho : site.outages = []) :
    outcome claimNext site =
      match site.store.jobs.nextEligible? with
      | none => (.ok none, ticked site)
      | some entry =>
        (.ok (some (entry.job.begun (site.clock.reading site.clock.reads))), { ticked site with
          store := { site.store with
            jobs := site.store.jobs.replace entry.sequence
              (entry.job.begun (site.clock.reading site.clock.reads)) } }) := by
  have hclaim := @outcome_unlessOut _ .claimNextJob none
    (transact (Store.claimNextJob (site.clock.reading site.clock.reads))) (ticked site) ho
  unfold claimNext claimNextJob
  rw [outcome_bind_of_ok (outcome_now site), hclaim, outcome_transact, Store.outcome_claimNextJob,
    show (ticked site).store = site.store from rfl]
  cases site.store.jobs.nextEligible? <;> rfl

/-- Starting a job changes the next one in place, if there is one. -/
theorem claimNext_spec (h : Sound site) :
    ∃ log, (outcome claimNext site).2.store = { site.store with jobs := log } ∧
      (log = site.store.jobs ∨ ∃ (entry : JobEntry) (job : Job),
        site.store.jobs.nextEligible? = some entry ∧ job.kind = entry.job.kind ∧
          job.status = .started ∧ log = site.store.jobs.replace entry.sequence job) := by
  rw [outcome_claimNext h.outages]
  cases site.store.jobs.nextEligible? with
  | none => exact ⟨_, rfl, .inl rfl⟩
  | some entry => exact ⟨_, rfl, .inr ⟨entry, entry.job.begun _, rfl, rfl, rfl, rfl⟩⟩

/-- A job that runs can be ended, well or badly. -/
theorem outcome_finish {entry : JobEntry} {issued : Series} (ho : site.outages = [])
    (hlog : site.store.jobs.Sound issued) (hm : entry ∈ site.store.jobs.entries)
    (hs : entry.job.status = .started) {status : JobStatus} (ht : status.isTerminal = true)
    (error : Option JobError) :
    outcome (finish entry.job.id status error) site =
      (.ok (entry.job.ended status error (site.clock.reading site.clock.reads)), { ticked site with
        store := { site.store with
          jobs := site.store.jobs.replace entry.sequence
            (entry.job.ended status error (site.clock.reading site.clock.reads)) } }) := by
  have hfinish := @outcome_unlessOut _ .finishJob none
    (transact (Store.finishJob entry.job.id status error (site.clock.reading site.clock.reads)))
    (ticked site) ho
  have hallowed := (JobStatus.canEnd_iff entry.job.status status).mpr ⟨hs, ht⟩
  have hfound : (Dict.get? (ticked site).store.jobs.index entry.job.id).bind
      (ticked site).store.jobs.entry? = some entry := hlog.entry?_of_mem hm
  have hwrite : outcome (Store.finishJob entry.job.id status error
      (site.clock.reading site.clock.reads)) (ticked site).store =
        (.ok (some (entry.job.ended status error (site.clock.reading site.clock.reads))),
          { site.store with
            jobs := site.store.jobs.replace entry.sequence
              (entry.job.ended status error (site.clock.reading site.clock.reads)) }) := by
    simp only [Store.outcome_finishJob, hfound, hallowed, Bool.false_eq_true, ite_false]
    rfl
  unfold finish finishJob
  rw [outcome_bind_of_ok (outcome_now site), outcome_bind, hfinish, outcome_transact, hwrite]
  rfl

/-- The end of a job is announced once, which leaves the records alone, and what is kept
compiled. -/
theorem outcome_announce (job : Job) (site : Site) :
    ∃ next, outcome (announce job) site = (.ok (), next) ∧ next.store = site.store ∧
      next.cache = site.cache ∧ next.events = site.events.send (.ofJob job) := by
  unfold announce
  cases job.kind.branchId? with
  | none => exact ⟨_, rfl, rfl, rfl, rfl⟩
  | some branchId =>
    dsimp only
    split
    · exact ⟨_, rfl, rfl, rfl, rfl⟩
    · exact ⟨_, rfl, rfl, rfl, rfl⟩

/-- However the work came out, the job tells of its end. -/
theorem ending_verdict (answer : Except Failure (List ContainerError)) :
    Job.Ending (verdict answer).1 (verdict answer).2 := by
  rcases answer with failure | errors
  · exact .badly _
  · cases errors with
    | nil => exact .well
    | cons error rest => exact .badly _

/-- However the work came out, the job has ended. -/
theorem isTerminal_verdict (answer : Except Failure (List ContainerError)) :
    (verdict answer).1.isTerminal = true :=
  (ending_verdict answer).isTerminal

/-- The end of a job that runs is recorded and announced. -/
theorem outcome_record {entry : JobEntry} {issued : Series} (ho : site.outages = [])
    (hlog : site.store.jobs.Sound issued) (hm : entry ∈ site.store.jobs.entries)
    (hs : entry.job.status = .started) {status : JobStatus} (ht : status.isTerminal = true)
    (error : Option JobError) :
    ∃ next, outcome (record entry.job status error) site =
        (.ok (some (entry.job.ended status error (site.clock.reading site.clock.reads))), next) ∧
      next.store = { site.store with
        jobs := site.store.jobs.replace entry.sequence
          (entry.job.ended status error (site.clock.reading site.clock.reads)) } ∧
      next.cache = site.cache ∧
      next.events = site.events.send
        (.ofJob (entry.job.ended status error (site.clock.reading site.clock.reads))) := by
  have hfinish := outcome_finish ho hlog hm hs ht error
  obtain ⟨announced, ha, hstore, hcache, hevents⟩ := outcome_announce
    (entry.job.ended status error (site.clock.reading site.clock.reads))
    { ticked site with
      store := { site.store with
        jobs := site.store.jobs.replace entry.sequence
          (entry.job.ended status error (site.clock.reading site.clock.reads)) } }
  refine ⟨announced, ?_, hstore, hcache, hevents⟩
  unfold record
  rw [outcome_bind_of_ok (outcome_attempt _ _), hfinish]
  dsimp only
  rw [outcome_bind_of_ok ha]
  rfl

/-- A job that has started is executed, and ends as its work came out, which is announced; what its
work has kept compiled is still kept. -/
theorem outcome_process_announced (h : Sound site) {entry : JobEntry}
    (hm : entry ∈ site.store.jobs.entries) (hs : entry.job.status = .started)
    {answer : Except Failure (List ContainerError)} {executed : Site}
    (he : outcome (execute entry.job.kind) site = (answer, executed)) :
    ∃ next, outcome (process entry.job) site =
        (.ok (some (entry.job.ended (verdict answer).1 (verdict answer).2
          (executed.clock.reading executed.clock.reads))), next) ∧
      next.store = { executed.store with
        jobs := site.store.jobs.replace entry.sequence
          (entry.job.ended (verdict answer).1 (verdict answer).2
            (executed.clock.reading executed.clock.reads)) } ∧
      next.cache = executed.cache ∧
      next.events = site.events.send (.ofJob (entry.job.ended (verdict answer).1
        (verdict answer).2 (executed.clock.reading executed.clock.reads))) := by
  obtain ⟨hsteady, hworks, -⟩ := within_execute h.chained.fresh entry.job.kind site h.steady
  rw [he] at hsteady hworks
  dsimp only at hsteady hworks
  have hjobs := hworks.jobs
  rw [process_eq, outcome_bind_of_ok (outcome_attempt _ _), he, ← hjobs, ← hworks.events]
  exact outcome_record hsteady.outages (hjobs ▸ h.logged) (hjobs ▸ hm) hs
    (isTerminal_verdict answer) _

/-- A job that has started is executed, and ends as its work came out. -/
theorem outcome_process (h : Sound site) {entry : JobEntry}
    (hm : entry ∈ site.store.jobs.entries) (hs : entry.job.status = .started)
    {answer : Except Failure (List ContainerError)} {executed : Site}
    (he : outcome (execute entry.job.kind) site = (answer, executed)) :
    ∃ next, outcome (process entry.job) site =
        (.ok (some (entry.job.ended (verdict answer).1 (verdict answer).2
          (executed.clock.reading executed.clock.reads))), next) ∧
      next.store = { executed.store with
        jobs := site.store.jobs.replace entry.sequence
          (entry.job.ended (verdict answer).1 (verdict answer).2
            (executed.clock.reading executed.clock.reads)) } := by
  obtain ⟨next, hrun, hstore, -⟩ := outcome_process_announced h hm hs he
  exact ⟨next, hrun, hstore⟩

/-- A job that has started is executed and ends, well only when there was nothing to report. -/
theorem process_spec (h : Sound site) {entry : JobEntry} (hm : entry ∈ site.store.jobs.entries)
    (hs : entry.job.status = .started) :
    ∃ done : Job, done.kind = entry.job.kind ∧
      (outcome (process entry.job) site).2.store =
        { (outcome (execute entry.job.kind) site).2.store with
          jobs := site.store.jobs.replace entry.sequence done } ∧
      (done.status = .completed ∧ (outcome (execute entry.job.kind) site).1 = .ok [] ∨
        done.status = .failed) := by
  rcases he : outcome (execute entry.job.kind) site with ⟨answer, executed⟩
  obtain ⟨next, ho, hstore⟩ := outcome_process h hm hs he
  refine ⟨entry.job.ended (verdict answer).1 (verdict answer).2
    (executed.clock.reading executed.clock.reads), rfl, by rw [ho]; exact hstore, ?_⟩
  rcases answer with failure | errors
  · exact .inr rfl
  · cases errors with
    | nil => exact .inl ⟨rfl, rfl⟩
    | cons error rest => exact .inr rfl

end Site

end VersionedContent

import VersionedContent.Proofs.Jobs.Lifecycle
import VersionedContent.Proofs.Site.Finish

/-!
# Calls of the queue

What each call of the queue does to a site whose log is orderly: it reads the
clock, makes one write to the log, and answers for it; a call that fails writes
nothing.
-/

namespace VersionedContent.Site

open VersionedContent.Action

/-- A call of the queue, with its arguments. -/
inductive QueueCall where
  | enqueue (kind : JobKind)
  | claimNext
  | complete (id : Id)
  | fail (id : Id) (error : JobError)
  | retry (id : Id)
  | delete (id : Id)
  | purgeFailed
  | clear
  deriving Repr

namespace QueueCall

/-- What a call does; it answers with the job that it queues, starts or ends. -/
def action : QueueCall → Action (Option Job)
  | enqueue kind => some <$> Site.enqueue kind
  | claimNext => Site.claimNext
  | complete id => some <$> Site.complete id
  | fail id error => some <$> Site.fail id error
  | retry id => some <$> Site.retry id
  | delete id => (fun _ => none) <$> Site.deleteJob id
  | purgeFailed => (fun _ => none) <$> Site.purgeFailed
  | clear => (fun _ => none) <$> Site.clearJobs

/-- The site that a call leaves, with whatever answer or failure. -/
def after (site : Site) (call : QueueCall) : Site := (outcome call.action site).2

/-- The site that calls leave, made one after another. -/
def afterAll (site : Site) (calls : List QueueCall) : Site := calls.foldl after site

/-- Whether a call queues a job. -/
def isInsertion : QueueCall → Bool
  | enqueue _ | retry _ => true
  | _ => false

/-- The jobs that a call with a certain answer has queued. -/
def queued (call : QueueCall) (answer : Option Job) : List Job :=
  if call.isInsertion then answer.toList else []

/-- The jobs that a call queues. -/
def insertedBy (site : Site) (call : QueueCall) : List Job :=
  match (outcome call.action site).1 with
  | .ok answer => call.queued answer
  | .error _ => []

/-- The jobs that calls queue, made one after another. -/
def inserted (site : Site) : List QueueCall → List Job
  | [] => []
  | call :: calls => call.insertedBy site ++ inserted (call.after site) calls

end QueueCall

/-- Whether the log of a site is orderly and no outage is planned. -/
structure Orderly (site : Site) : Prop where
  /-- No outage is planned. -/
  outages : site.outages = []
  /-- The log is orderly. -/
  log : site.store.jobs.Orderly site.issued.jobs

/-- A site with another log after its clock has been read. -/
def relogged (site : Site) (log : JobLog) (issued : Series) (reads : Nat) : Site :=
  { site with
    store := { site.store with jobs := log }
    clock := { site.clock with reads := reads }
    issued := { site.issued with jobs := issued } }

variable {site : Site}

/-- A site without records is orderly. -/
theorem orderly_empty (clock : Clock) (bucketSize eventBuffer : Nat) (issued : Issued) :
    (Site.empty clock bucketSize eventBuffer issued).Orderly :=
  ⟨rfl, JobLog.orderly_empty issued.jobs⟩

/-- A job is looked up in the log. -/
theorem outcome_job (id : Id) (site : Site) :
    outcome (job id) site =
      ((site.store.jobs.find? id).elim (.error (.notFound "job" id)) .ok, site) := by
  unfold job
  rw [outcome_bind_of_ok (outcome_query _ site)]
  cases site.store.jobs.find? id <;> rfl

/-- A call that looks for a job and then fails leaves the site as it is. -/
theorem outcome_job_throw (α : Type) (id : Id) (failure : Job → Failure) (site : Site) :
    ∃ found, outcome (do throw (failure (← job id)) : Action α) site = (.error found, site) := by
  rw [outcome_bind, outcome_job]
  cases site.store.jobs.find? id <;> exact ⟨_, rfl⟩

/-- Whether an action either fails, having read the clock at most, or answers and makes one write
to the log. -/
inductive Performs {α : Type} (site : Site) (queued : α → List Job) (action : Action α) : Prop
  /-- It fails. -/
  | refused {failure : Failure} {reads : Nat}
      (outcome_eq : outcome action site =
        (.error failure, site.relogged site.store.jobs site.issued.jobs reads))
  /-- It answers. -/
  | done {a : α} {log : JobLog} {issued : Series} {reads : Nat}
      (outcome_eq : outcome action site = (.ok a, site.relogged log issued reads))
      (step : site.store.jobs.Step site.issued.jobs (queued a) log issued)

/-- The answer may be put in other words. -/
theorem Performs.map {α β : Type} {queued : α → List Job} {action : Action α}
    (h : Performs site queued action) {f : α → β} {queued' : β → List Job}
    (hq : ∀ a, queued' (f a) = queued a) : Performs site queued' (f <$> action) := by
  cases h with
  | refused ho => exact .refused (by rw [outcome_map, ho]; rfl)
  | done ho hstep =>
    refine .done (by rw [outcome_map, ho]; rfl) ?_
    rw [hq]
    exact hstep

/-- A job is queued. -/
theorem performs_enqueueJob (ho : site.outages = []) (kind : JobKind) (retryOf : Option Id) :
    Performs site (fun job => [job]) (enqueueJob kind retryOf) :=
  .done (outcome_enqueueJob ho kind retryOf) (.queue _ _ _)

/-- The next job is started. -/
theorem performs_claimNext (h : site.Orderly) :
    Performs site (fun _ => []) claimNext := by
  have hclaim := outcome_claimNext h.outages
  cases hn : site.store.jobs.nextEligible? with
  | none =>
    rw [hn] at hclaim
    exact .done hclaim .stay
  | some entry =>
    rw [hn] at hclaim
    exact .done hclaim (.start entry hn _)

/-- A job that runs is ended. -/
theorem performs_finish (h : site.Orderly) (id : Id) {status : JobStatus}
    {error : Option JobError} (he : Job.Ending status error) :
    Performs site (fun _ => []) (finish id status error) := by
  have hterminal := he.isTerminal
  by_cases hrun : ∃ entry, (Dict.get? site.store.jobs.index id).bind site.store.jobs.entry? =
      some entry ∧ entry.job.status = .started
  · obtain ⟨entry, hfound, hs⟩ := hrun
    obtain ⟨hm, rfl⟩ := h.log.mem_of_entry? hfound
    exact .done (outcome_finish h.outages h.log.toSound hm hs hterminal error)
      (.finish entry hm hs he _)
  · have hdecline : outcome (Store.finishJob id status error
        (site.clock.reading site.clock.reads)) (ticked site).store =
          (.ok none, (ticked site).store) := by
      rw [Store.outcome_finishJob]
      cases hfound : (Dict.get? (ticked site).store.jobs.index id).bind
          (ticked site).store.jobs.entry? with
      | none => rfl
      | some entry =>
        have hidle : entry.job.status ≠ .started := fun hs => hrun ⟨entry, hfound, hs⟩
        exact if_pos (by simp [hidle])
    have hfinish := @outcome_unlessOut _ .finishJob none
      (transact (Store.finishJob id status error (site.clock.reading site.clock.reads)))
      (ticked site) h.outages
    obtain ⟨failure, hf⟩ := outcome_job_throw Job id
      (fun current => .conflict (.noTransition id current.status status)) (ticked site)
    have hrefused : outcome (finish id status error) site = (.error failure, ticked site) := by
      unfold finish finishJob
      rw [outcome_bind_of_ok (outcome_now site), outcome_bind, hfinish, outcome_transact, hdecline]
      exact hf
    exact .refused hrefused

/-- A copy of a failed job is queued. -/
theorem performs_retry (h : site.Orderly) (id : Id) :
    Performs site (fun job => [job]) (retry id) := by
  have hfound := outcome_job id site
  cases hf : site.store.jobs.find? id with
  | none =>
    rw [hf] at hfound
    exact .refused (outcome_bind_of_error hfound _)
  | some failed =>
    rw [hf] at hfound
    by_cases hs : failed.status = .failed
    · have hretry : outcome (retry id) site =
          outcome (enqueueJob failed.kind (some failed.id)) site := by
        unfold retry
        rw [outcome_bind_of_ok hfound]
        simp [hs]
      have hqueue := outcome_enqueueJob h.outages failed.kind (some failed.id)
      exact .done (hretry.trans hqueue) (.queue _ _ _)
    · have hrefused : outcome (retry id) site =
          (.error (.conflict (.notFailed failed.id failed.status)), site) := by
        unfold retry
        rw [outcome_bind_of_ok hfound]
        simp [hs]
      exact .refused hrefused

/-- A job that does not run is dropped. -/
theorem performs_deleteJob (h : site.Orderly) (id : Id) :
    Performs site (fun _ => []) (deleteJob id) := by
  by_cases hidle : ∃ entry ∈ site.store.jobs.entries, entry.job.id = id ∧
      entry.job.status ≠ .started
  · obtain ⟨entry, hm, rfl, hs⟩ := hidle
    have hfound := h.log.entry?_of_mem hm
    rw [h.log.indexed entry hm, Option.bind_some] at hfound
    have hdelete : outcome (Store.deleteJob entry.job.id) site.store =
        (.ok true, { site.store with jobs := { site.store.jobs with
          entries := site.store.jobs.entries.filter fun other => other.sequence ≠ entry.sequence
          index := Dict.erase site.store.jobs.index entry.job.id } }) := by
      simp only [Store.outcome_deleteJob, h.log.indexed entry hm, hfound, Option.any_some, hs,
        decide_false, Bool.false_eq_true, ite_false]
    have hdone : outcome (deleteJob entry.job.id) site = (.ok (), { site with
        store := { site.store with jobs := { site.store.jobs with
          entries := site.store.jobs.entries.filter fun other => other.sequence ≠ entry.sequence
          index := Dict.erase site.store.jobs.index entry.job.id } } }) := by
      unfold deleteJob
      rw [outcome_bind, outcome_transact, hdelete]
      rfl
    exact .done hdone (h.log.step_erase hm hs)
  · have hdecline : outcome (Store.deleteJob id) site.store = (.ok false, site.store) := by
      rw [Store.outcome_deleteJob]
      cases hi : Dict.get? site.store.jobs.index id with
      | none => rfl
      | some sequence =>
        obtain ⟨entry, hm, rfl⟩ := h.log.exact id sequence hi
        have hfound := h.log.entry?_of_mem hm
        rw [hi, Option.bind_some] at hfound
        have hs : entry.job.status = .started := by
          by_contra hs
          exact hidle ⟨entry, hm, rfl, hs⟩
        simp only [hfound, Option.any_some, hs, decide_true, ite_true]
    obtain ⟨failure, hf⟩ := outcome_job_throw Unit id
      (fun current => .conflict (.jobBusy current.id current.status)) site
    have hrefused : outcome (deleteJob id) site = (.error failure, site) := by
      unfold deleteJob
      rw [outcome_bind, outcome_transact, hdecline]
      exact hf
    exact .refused hrefused

/-- Failed jobs are dropped. -/
theorem performs_purgeFailed (h : site.Orderly) : Performs site (fun _ => []) purgeFailed := by
  refine .done (outcome_transact _ site) (h.log.step_drop fun entry hm => ?_)
  obtain ⟨hin, hs⟩ := List.mem_filter.mp hm
  exact ⟨hin, by rw [of_decide_eq_true hs]; decide⟩

/-- All jobs are dropped when none runs. -/
theorem performs_clearJobs (h : site.Orderly) : Performs site (fun _ => []) clearJobs := by
  cases hr : site.store.jobs.isRunning with
  | true =>
    have hrefused : outcome clearJobs site = (.error (.conflict .queueBusy), site) := by
      unfold clearJobs
      rw [outcome_bind, outcome_transact, Store.outcome_clearJobs, if_pos hr]
      rfl
    exact .refused hrefused
  | false =>
    have hdone : outcome clearJobs site = (.ok site.store.jobs.entries.length, { site with
        store := { site.store with
          jobs := { site.store.jobs with entries := [], index := [] } } }) := by
      unfold clearJobs
      rw [outcome_bind, outcome_transact, Store.outcome_clearJobs,
        if_neg (Bool.eq_false_iff.mp hr)]
      rfl
    exact .done hdone (h.log.step_clear hr)

/-- Every call of the queue makes one write to the log at most. -/
theorem QueueCall.performs (h : site.Orderly) (call : QueueCall) :
    Performs site call.queued call.action := by
  cases call with
  | enqueue kind => exact (performs_enqueueJob h.outages kind none).map fun _ => rfl
  | claimNext => exact performs_claimNext h
  | complete id => exact (performs_finish h id .well).map fun _ => rfl
  | fail id error => exact (performs_finish h id (.badly error)).map fun _ => rfl
  | retry id => exact (performs_retry h id).map fun _ => rfl
  | delete id => exact (performs_deleteJob h id).map fun _ => rfl
  | purgeFailed => exact (performs_purgeFailed h).map fun _ => rfl
  | clear => exact (performs_clearJobs h).map fun _ => rfl

/-- Every call of the queue keeps the log orderly. -/
theorem Orderly.after (h : site.Orderly) (call : QueueCall) : (call.after site).Orderly := by
  rcases call.performs h with ho | ⟨ho, hstep⟩
  · rw [QueueCall.after, ho]
    exact ⟨h.outages, h.log⟩
  · rw [QueueCall.after, ho]
    exact ⟨h.outages, hstep.orderly h.log⟩

/-- Calls of the queue keep the log orderly. -/
theorem Orderly.afterAll (h : site.Orderly) (calls : List QueueCall) :
    (QueueCall.afterAll site calls).Orderly := by
  induction calls generalizing site with
  | nil => exact h
  | cons call calls ih => exact ih (h.after call)

end VersionedContent.Site

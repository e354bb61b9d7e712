import VersionedContent.Proofs.Site.QueueCalls

/-!
# The order of claims

The log lists jobs in the order in which they were queued. The job that is
claimed is the first one that waits in a scope where none runs: within a scope
none is overtaken, and none waits for jobs of other scopes.
-/

namespace VersionedContent

/-- Whether two identifiers stand in a series in this order. -/
def Series.Before (series : Series) (first second : Id) : Prop :=
  ∃ i j, i < j ∧ first = series.label i ∧ second = series.label j

/-- Identifiers stand in a series in one order. -/
theorem Series.Before.asymm {series : Series} {first second : Id}
    (h : series.Before first second) : ¬ series.Before second first := by
  obtain ⟨i, j, hlt, rfl, rfl⟩ := h
  rintro ⟨k, l, hlt', hk, hl⟩
  have hjk := series.label_inj hk
  have hil := series.label_inj hl
  omega

namespace JobLog

variable {log : JobLog} {issued : Series}

/-- The next job to start is listed behind all that wait in a scope where none runs. -/
theorem exists_earlier_of_nextEligible? {entry : JobEntry} (hn : log.nextEligible? = some entry) :
    ∃ earlier later, log.entries = earlier ++ entry :: later ∧ ∀ other ∈ earlier,
      other.job.status = .queued → log.isBusy other.job.scope = true := by
  obtain ⟨-, earlier, later, hentries, hnot⟩ := List.find?_eq_some_iff_append.mp hn
  refine ⟨earlier, later, hentries, fun other ho hq => ?_⟩
  simpa [isEligible, hq] using hnot other ho

end JobLog

namespace Site

open VersionedContent.Action

variable {site : Site} {past : List Job}

/-- Whether the log lists some of the jobs that have been queued, in their order. -/
structure Records (site : Site) (past : List Job) : Prop where
  /-- The jobs are listed in the order in which they were queued. -/
  listed : (site.store.jobs.jobs.map Job.asQueued).Sublist past
  /-- Each job was queued under the next identifier, after those used up at first. -/
  ids : ∃ first, (List.range first).map site.issued.jobs.label ++ past.map Job.id =
    (List.range site.issued.jobs).map site.issued.jobs.label

/-- A call puts the jobs that it queues behind the others. -/
theorem Records.after (h : site.Records past) (ho : site.Orderly) (call : QueueCall) :
    (call.after site).Records (past ++ call.insertedBy site) := by
  rcases call.performs ho with hc | ⟨hc, hstep⟩
  · rw [QueueCall.after, QueueCall.insertedBy, hc, List.append_nil]
    exact ⟨h.listed, h.ids⟩
  · rw [QueueCall.after, QueueCall.insertedBy, hc]
    constructor
    · exact (hstep.sublist ho.log.toSound).trans (h.listed.append (List.Sublist.refl _))
    · obtain ⟨first, hids⟩ := h.ids
      have hadded := hstep.ids_added
      rw [hstep.issued_le.1] at hids hadded
      refine ⟨first, ?_⟩
      rw [List.map_append, ← List.append_assoc]
      exact (congrArg (· ++ _) hids).trans hadded

/-- Calls put the jobs that they queue behind the others. -/
theorem Records.afterAll (h : site.Records past) (ho : site.Orderly) (calls : List QueueCall) :
    (QueueCall.afterAll site calls).Records (past ++ QueueCall.inserted site calls) := by
  induction calls generalizing site past with
  | nil =>
    rw [QueueCall.inserted, List.append_nil]
    exact h
  | cons call calls ih =>
    rw [QueueCall.inserted, ← List.append_assoc]
    exact ih (h.after ho call) (ho.after call)

/-- Jobs are queued under identifiers that are given out one after another. -/
theorem Records.pairwise_ids (h : site.Records past) :
    (past.map Job.id).Pairwise site.issued.jobs.Before := by
  obtain ⟨first, hids⟩ := h.ids
  have hall : ((List.range site.issued.jobs).map site.issued.jobs.label).Pairwise
      site.issued.jobs.Before :=
    List.pairwise_map.mpr (List.pairwise_lt_range.imp fun hlt => ⟨_, _, hlt, rfl, rfl⟩)
  rw [← hids] at hall
  exact (List.pairwise_append.mp hall).2.1

/-- Of the jobs that are listed, those queued before another one are listed before it. -/
theorem Records.mem_earlier (h : site.Records past) {earlier later : List JobEntry}
    {entry other : JobEntry} (he : site.store.jobs.entries = earlier ++ entry :: later)
    (hm : other ∈ site.store.jobs.entries)
    (hs : [other.job.id, entry.job.id].Sublist (past.map Job.id)) : other ∈ earlier := by
  have hbefore : site.issued.jobs.Before other.job.id entry.job.id :=
    List.rel_of_pairwise_cons (h.pairwise_ids.sublist hs) List.mem_cons_self
  have hlisted : (earlier ++ entry :: later).Pairwise fun a b =>
      site.issued.jobs.Before a.job.id b.job.id := by
    have hids := h.pairwise_ids.sublist (h.listed.map Job.id)
    rw [JobLog.jobs, he, List.map_map, List.map_map, List.pairwise_map] at hids
    exact hids
  rw [he] at hm
  rcases List.mem_append.mp hm with hm | hm
  · exact hm
  · rcases List.mem_cons.mp hm with rfl | hm
    · exact absurd hbefore hbefore.asymm
    · have hafter := List.rel_of_pairwise_cons (List.pairwise_append.mp hlisted).2.1 hm
      exact absurd hbefore hafter.asymm

/-- Whatever calls of the queue are made one after another, the job that is claimed next waits in a
scope where none runs, and each job queued earlier that still waits is in a scope where one runs;
when no job is claimed, every job that waits is in such a scope. So a job is not claimed while one
of its scope still waits that was queued earlier. -/
theorem QueueCall.claims_keep_order (clock : Clock) (bucketSize eventBuffer : Nat)
    (issued : Issued) (calls : List QueueCall) :
    let start := Site.empty clock bucketSize eventBuffer issued
    let site := afterAll start calls
    let jobs := site.store.jobs.jobs
    let inserted := QueueCall.inserted start calls
    (inserted.map Job.id).Nodup ∧ (jobs.map Job.asQueued).Sublist inserted ∧
      ∃ claimed, (outcome Site.claimNext site).1 = .ok claimed ∧
        (claimed = none → ∀ job ∈ jobs, job.status = .queued →
          ∃ running ∈ jobs, running.status = .started ∧ running.scope = job.scope) ∧
        ∀ job, claimed = some job →
          (∃ waiting ∈ jobs, waiting.status = .queued ∧
            job = waiting.begun (site.clock.reading site.clock.reads)) ∧
          (∀ running ∈ jobs, running.status = .started → running.scope ≠ job.scope) ∧
          ∀ earlier ∈ jobs, [earlier.id, job.id].Sublist (inserted.map Job.id) →
            earlier.status = .queued → earlier.scope ≠ job.scope ∧
              ∃ running ∈ jobs, running.status = .started ∧ running.scope = earlier.scope := by
  intro start site jobs inserted
  have hstart : start.Orderly := orderly_empty clock bucketSize eventBuffer issued
  have ho : site.Orderly := hstart.afterAll calls
  have hempty : start.Records [] := ⟨.slnil, issued.jobs, List.append_nil _⟩
  have hr : site.Records inserted := hempty.afterAll hstart calls
  have hnodup : (inserted.map Job.id).Nodup :=
    hr.pairwise_ids.imp fun hlt he => (he ▸ hlt).asymm (he ▸ hlt)
  have hclaim := outcome_claimNext ho.outages
  refine ⟨hnodup, hr.listed, ?_⟩
  cases hn : site.store.jobs.nextEligible? with
  | none =>
    rw [hn] at hclaim
    refine ⟨none, congrArg Prod.fst hclaim, fun _ job hj hq => ?_, fun _ he => by cases he⟩
    obtain ⟨entry, hm, rfl⟩ := JobLog.mem_jobs.mp hj
    exact JobLog.isBusy_iff.mp (JobLog.isBusy_of_nextEligible?_eq_none hn hm hq)
  | some entry =>
    rw [hn] at hclaim
    obtain ⟨hm, hq, hidle⟩ := JobLog.isEligible_of_nextEligible? hn
    have hfree : ∀ running ∈ jobs, running.status = .started → running.scope ≠ entry.job.scope := by
      intro running hrun hs hscope
      rw [JobLog.isBusy_iff.mpr ⟨running, hrun, hs, hscope⟩] at hidle
      cases hidle
    refine ⟨_, congrArg Prod.fst hclaim, fun he => (by cases he), ?_⟩
    rintro job he
    obtain rfl := Option.some.inj he
    refine ⟨⟨entry.job, JobLog.job_mem_jobs hm, hq, rfl⟩, hfree, fun earlier hj hs hwait => ?_⟩
    obtain ⟨other, hin, rfl⟩ := JobLog.mem_jobs.mp hj
    obtain ⟨before, after, hentries, hbusy⟩ := JobLog.exists_earlier_of_nextEligible? hn
    have hbefore := hr.mem_earlier hentries hin hs
    obtain ⟨running, hrun, hstarted, hscope⟩ := JobLog.isBusy_iff.mp (hbusy other hbefore hwait)
    refine ⟨fun hsame => hfree running hrun hstarted (hscope.trans hsame), running, hrun, hstarted,
      hscope⟩

/-- A job that is queued again waits behind the others of its scope. -/
example :
    (QueueCall.afterAll (.empty (.ticking ⟨0, 0⟩) 10 10)
      [.enqueue (.versionPurge "p" none), .enqueue (.versionPurge "p" none),
        .enqueue (.versionPurge "q" none), .claimNext, .claimNext, .claimNext,
        .fail (label "j" 0) { message := "no" }, .retry (label "j" 0),
        .claimNext]).store.jobs.jobs.map Job.status =
      [.failed, .started, .started, .queued] := by
  decide +kernel

end Site

end VersionedContent

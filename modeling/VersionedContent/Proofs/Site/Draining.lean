import VersionedContent.Proofs.Jobs.Pending
import VersionedContent.Proofs.Site.Finish

/-!
# Running the jobs that may start

Running what waits runs the jobs that may start at first, one after another, in the
order in which they were queued, and nothing else. Each is executed on the content that
the ones before it have left, ends as its work came out, and is announced. Jobs whose
scope is held by a job that runs already go on waiting.
-/

namespace VersionedContent

namespace Site

open VersionedContent.Action

variable {site next last : Site} {ended waiting : List JobEntry} {entry : JobEntry}

/-- Whether a job has been run on a site: it was executed there, with another log, and has ended as
its work came out. -/
inductive Runs (site : Site) (job done : Job) (next : Site) : Prop
  | intro {claimed executed : Site} {answer : Except Failure (List ContainerError)}
      (sound : Sound claimed)
      (claimed_eq : claimed.store = { site.store with jobs := claimed.store.jobs })
      (executed_eq : outcome (execute job.kind) claimed = (answer, executed))
      (next_eq : next.store = { executed.store with jobs := next.store.jobs })
      (asQueued_eq : done.asQueued = job.asQueued)
      (status_eq : done.status = (verdict answer).1)
      (error_eq : done.error = (verdict answer).2) : Runs site job done next

/-- Whether jobs have been run on a site, one after another. -/
inductive RunsAll : Site → List Job → List Job → Site → Prop
  /-- No job has been run. -/
  | nil {site last : Site} (store_eq : last.store = site.store) : RunsAll site [] [] last
  /-- A job has been run, and then the others. -/
  | cons {site next last : Site} {job done : Job} {jobs rest : List Job}
      (first : Runs site job done next) (others : RunsAll next jobs rest last) :
      RunsAll site (job :: jobs) (done :: rest) last

/-- A job that has been run tells of its end. -/
theorem Runs.ending {job done : Job} (h : Runs site job done next) :
    Job.Ending done.status done.error := by
  cases h with
  | intro sound claimed executed next asQueued status error =>
    rw [status, error]
    exact ending_verdict _

/-- A job that has been run is the same job. -/
theorem Runs.asQueued_eq {job done : Job} (h : Runs site job done next) :
    done.asQueued = job.asQueued := by
  cases h with
  | intro sound claimed executed next asQueued => exact asQueued

/-- Jobs that have been run tell of their end. -/
theorem RunsAll.ending {jobs dones : List Job} (h : RunsAll site jobs dones last) :
    ∀ done ∈ dones, Job.Ending done.status done.error := by
  induction h with
  | nil store_eq => simp
  | cons first others ih => exact List.forall_mem_cons.mpr ⟨first.ending, ih⟩

/-- Jobs that have been run have ended. -/
theorem RunsAll.isTerminal {jobs dones : List Job} (h : RunsAll site jobs dones last) :
    ∀ done ∈ dones, done.status.isTerminal = true :=
  fun done hm => (h.ending done hm).isTerminal

/-- Jobs that have been run are the same jobs. -/
theorem RunsAll.map_asQueued {jobs dones : List Job} (h : RunsAll site jobs dones last) :
    dones.map Job.asQueued = jobs.map Job.asQueued := by
  induction h with
  | nil store_eq => rfl
  | cons first others ih => rw [List.map_cons, List.map_cons, ih, first.asQueued_eq]

/-- Jobs that have been run keep their identifiers. -/
theorem RunsAll.map_id {jobs dones : List Job} (h : RunsAll site jobs dones last) :
    dones.map Job.id = jobs.map Job.id := by
  have hids := congrArg (List.map Job.id) h.map_asQueued
  rw [List.map_map, List.map_map] at hids
  exact hids

/-- A list of one job is run as the job is. -/
theorem RunsAll.exists_of_single {job : Job} {dones : List Job}
    (h : RunsAll site [job] dones last) : ∃ done, dones = [done] ∧ Runs site job done last := by
  cases h with
  | cons first others =>
    cases others with
    | nil store_eq =>
      cases first with
      | intro sound claimed executed next asQueued status error =>
        exact ⟨_, rfl,
          .intro sound claimed executed (by rw [store_eq]; exact next) asQueued status error⟩

/-- The first of the jobs that may start is started in place. -/
theorem outcome_claimNext_of_eligible (h : Sound site)
    (he : site.store.jobs.eligible = entry :: waiting) :
    ∃ begun claimed, outcome claimNext site = (.ok (some begun), claimed) ∧ Sound claimed ∧
      claimed.store =
        { site.store with jobs := site.store.jobs.replace entry.sequence begun } ∧
      claimed.events = site.events ∧
      begun.asQueued = entry.job.asQueued ∧ begun.status = .started := by
  have hclaim := outcome_claimNext h.outages
  have hclaimed := (within_claimNext harmless_logs site ⟨h, rfl, rfl⟩).1.sound
  rw [site.store.jobs.nextEligible?_eq_head?, he, List.head?_cons] at hclaim
  rw [hclaim] at hclaimed
  exact ⟨_, _, hclaim, hclaimed, rfl, rfl, rfl, rfl⟩

/-- The first of the jobs that may start is started and run, and the others may start then. -/
theorem runs_head (h : Sound site) (he : site.store.jobs.eligible = entry :: waiting) :
    ∃ begun claimed done next, outcome claimNext site = (.ok (some begun), claimed) ∧
      outcome (process begun) claimed = (.ok (some done), next) ∧
      Sound next ∧ Runs site entry.job done next ∧
      next.store.jobs = site.store.jobs.replace entry.sequence done ∧
      next.store.jobs.eligible = waiting ∧ next.events = site.events.send (.ofJob done) := by
  obtain ⟨begun, claimed, hclaim, hsound, hstore, hevents, hbegun, hstarted⟩ :=
    outcome_claimNext_of_eligible h he
  have hkind : begun.kind = entry.job.kind := Job.kind_eq_of_asQueued_eq hbegun
  have hm : (⟨entry.sequence, begun⟩ : JobEntry) ∈ claimed.store.jobs.entries := by
    rw [hstore]
    exact List.mem_map.mpr ⟨entry, JobLog.mem_of_eligible_eq he, if_pos rfl⟩
  rcases hexec : outcome (execute begun.kind) claimed with ⟨answer, executed⟩
  obtain ⟨next, hrun, hnext, -, hsent⟩ := outcome_process_announced hsound hm hstarted hexec
  have hran := (harmless_process begun claimed ⟨hsound, rfl, rfl⟩).1.sound
  rw [hrun] at hran
  have hjobs : next.store.jobs = site.store.jobs.replace entry.sequence
      (begun.ended (verdict answer).1 (verdict answer).2
        (executed.clock.reading executed.clock.reads)) := by
    rw [hnext, hstore]
    exact JobLog.replace_replace _ _ _ _
  refine ⟨begun, claimed, _, next, hclaim, hrun, hran,
    .intro hsound (by rw [hstore]) (hkind ▸ hexec) (by rw [hnext]) hbegun rfl rfl, hjobs, ?_,
    hevents ▸ hsent⟩
  rw [hjobs, h.logged.eligible_replace he (isTerminal_verdict answer)]

/-- What running all jobs that may start leaves. -/
structure Drained (site : Site) (dones : List Job) (last : Site) : Prop where
  /-- They have been run, one after another. -/
  runs : RunsAll site (site.store.jobs.eligible.map JobEntry.job) dones last
  /-- The log holds what they have become, and the other jobs as they were. -/
  jobs_eq : last.store.jobs.jobs = site.store.jobs.jobs.map (Job.among dones)
  /-- No job may start any more. -/
  eligible_eq : last.store.jobs.eligible = []
  /-- The end of each has been announced once, in their order. -/
  events_eq : last.events = (dones.map Event.ofJob).foldl .send site.events

/-- When no job may start, running none leaves the log and the announcements. -/
theorem drained_nil (he : site.store.jobs.eligible = []) (hs : last.store = site.store)
    (hevents : last.events = site.events) : Drained site [] last where
  runs := by
    rw [he]
    exact .nil hs
  jobs_eq := by
    rw [hs]
    exact (List.map_id' _).symm
  eligible_eq := by rw [hs, he]
  events_eq := hevents

/-- The first of the jobs that may start is run before the others. -/
theorem Drained.cons {done : Job} {dones : List Job} (h : Sound site)
    (he : site.store.jobs.eligible = entry :: waiting) (hr : Runs site entry.job done next)
    (hjobs : next.store.jobs = site.store.jobs.replace entry.sequence done)
    (hrest : next.store.jobs.eligible = waiting)
    (hevents : next.events = site.events.send (.ofJob done)) (hd : Drained next dones last) :
    Drained site (done :: dones) last := by
  have hruns := hd.runs
  rw [hrest] at hruns
  have hid : done.id = entry.job.id := Job.id_eq_of_asQueued_eq hr.asQueued_eq
  -- the others have identifiers of their own, so what has become of the first one stays
  have hapart : ∀ other ∈ dones, other.id ≠ done.id := by
    intro other hm hother
    have hnodup := h.logged.nodup_eligible
    rw [he, List.map_cons, List.nodup_cons] at hnodup
    obtain ⟨job, hjob, hq⟩ := List.mem_map.mp (hruns.map_asQueued ▸ List.mem_map_of_mem hm)
    obtain ⟨queued, hqueued, rfl⟩ := List.mem_map.mp hjob
    exact hnodup.1 (List.mem_map.mpr
      ⟨queued, hqueued, (Job.id_eq_of_asQueued_eq hq).trans (hother.trans hid)⟩)
  constructor
  · rw [he]
    exact .cons hr hruns
  · rw [hd.jobs_eq, hjobs, h.logged.jobs_replace (JobLog.mem_of_eligible_eq he) hid, List.map_map]
    exact List.map_congr_left fun job _ => Job.among_among hapart job
  · exact hd.eligible_eq
  · rw [hd.events_eq, hevents]
    rfl

/-- When enough jobs may be claimed, all that may start are run. -/
theorem outcome_drain (h : Sound site) {fuel : Nat}
    (hf : site.store.jobs.eligible.length < fuel) :
    ∃ dones last, outcome (drain .ample fuel) site = (.ok dones, last) ∧
      Drained site dones last := by
  induction fuel generalizing site with
  | zero => cases hf
  | succ fuel ih =>
    cases he : site.store.jobs.eligible with
    | nil =>
      have hclaim := outcome_claimNext h.outages
      rw [site.store.jobs.nextEligible?_eq_head?, he, List.head?_nil] at hclaim
      refine ⟨[], ticked site, ?_, drained_nil he rfl rfl⟩
      rw [drain, outcome_bind_of_ok hclaim]
      rfl
    | cons entry waiting =>
      obtain ⟨begun, claimed, done, next, hclaim, hprocess, hnext, hruns, hjobs, hrest, hevents⟩ :=
        runs_head h he
      rw [he] at hf
      obtain ⟨dones, last, hdrain, hdrained⟩ := ih hnext (hrest ▸ Nat.lt_of_succ_lt_succ hf)
      refine ⟨done :: dones, last, ?_, hdrained.cons h he hruns hjobs hrest hevents⟩
      rw [drain, outcome_bind_of_ok hclaim]
      dsimp only
      rw [outcome_bind_of_ok hprocess, outcome_bind_of_ok hdrain]
      rfl

/-- Running what waits is claiming jobs as often as jobs wait, and once more. -/
theorem outcome_runPending_eq (site : Site) :
    outcome runPending site = outcome (drain .ample (site.store.jobs.waiting + 1)) site := by
  unfold runPending
  rw [outcome_bind_of_ok (outcome_query _ site), Limit.rounds_ample]

/-- All jobs that may start are run, in their order. -/
theorem outcome_runPending_eligible (h : Sound site) :
    ∃ dones last, outcome runPending site = (.ok dones, last) ∧ Drained site dones last := by
  rw [outcome_runPending_eq]
  exact outcome_drain h (Nat.lt_succ_of_le site.store.jobs.length_eligible_le)

/-- When all other jobs have ended, all jobs that wait are run, in their order. -/
theorem outcome_runPending (h : Sound site) (hw : site.store.jobs.Pending ended waiting) :
    ∃ dones last, outcome runPending site = (.ok dones, last) ∧
      RunsAll site (waiting.map JobEntry.job) dones last ∧
      last.store.jobs.jobs = ended.map JobEntry.job ++ dones := by
  obtain ⟨dones, last, hrun, hdrained⟩ := outcome_runPending_eligible h
  have hall := hdrained.runs
  rw [hw.eligible_eq] at hall
  refine ⟨dones, last, hrun, hall, ?_⟩
  rw [hdrained.jobs_eq, hw.map_among_eq h.logged hall.map_id]

end Site

end VersionedContent

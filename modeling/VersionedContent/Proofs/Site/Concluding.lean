import VersionedContent.Proofs.Site.Draining
import VersionedContent.Proofs.Site.Ending
import VersionedContent.Proofs.Site.Reach

/-!
# Running what waits comes to an end

On every reachable site, claiming and running jobs until none may start comes to an end
by itself, and so do the loops of each job. Each job that is run has ended then, whatever
went wrong in it, and no job queues another one, so that just the jobs that could start at
first are run. The others stay as they are, and each end is announced once.
-/

namespace VersionedContent

/-- What an announcement tells of a job that has ended. -/
structure Event.Announces (event : Event) (job : Job) : Prop where
  /-- It names the job. -/
  jobId_eq : event.jobId = job.id
  /-- It names the type of the job. -/
  jobType_eq : event.jobType = job.kind.type
  /-- It names the branch that the job worked on. -/
  branchId_eq : event.branchId = job.kind.branchId?
  /-- It tells that the job ended well, or what went wrong. -/
  outcome_eq : job.status = .completed ∧ job.error = none ∧ event.outcome = .completed ∨
    ∃ error, job.status = .failed ∧ job.error = some error ∧
      event.outcome = .failed error.message

/-- A job that tells of its end is announced as it ended. -/
theorem Event.announces_ofJob {job : Job} (h : Job.Ending job.status job.error) :
    (Event.ofJob job).Announces job := by
  refine ⟨rfl, rfl, rfl, ?_⟩
  rw [Event.ofJob]
  generalize job.status = status at h ⊢
  generalize job.error = error at h ⊢
  cases h with
  | well => exact .inl ⟨rfl, rfl, rfl⟩
  | badly error => exact .inr ⟨error, rfl, rfl, rfl⟩

/-- Jobs that tell of their end are announced as they ended, in their order. -/
theorem Event.forall₂_announces {jobs : List Job}
    (h : ∀ job ∈ jobs, Job.Ending job.status job.error) :
    List.Forall₂ Event.Announces (jobs.map Event.ofJob) jobs := by
  rw [List.forall₂_map_left_iff]
  exact List.forall₂_same.mpr fun job hm => Event.announces_ofJob (h job hm)

namespace Site

open VersionedContent.Action

variable {site : Site}

/-- Claiming jobs comes to an end when each of them is run to its end. -/
theorem endsAs_drain (more : Limit → Nat) (h : Workable site) {fuel : Nat}
    (hf : site.store.jobs.eligible.length < fuel) :
    EndsAs (fun limit => drain limit (more limit + fuel)) (drain .ample fuel) site := by
  induction fuel generalizing site with
  | zero => cases hf
  | succ fuel ih =>
    simp only [drain]
    refine (endsAs_const claimNext site).bind fun claimed started hclaim => ?_
    cases he : site.store.jobs.eligible with
    | nil =>
      have hnone := outcome_claimNext h.sound.outages
      rw [site.store.jobs.nextEligible?_eq_head?, he, List.head?_nil, hclaim] at hnone
      obtain rfl := Except.ok.inj (congrArg Prod.fst hnone)
      exact endsAs_const _ started
    | cons entry waiting =>
      obtain ⟨begun, _, done, next, hbegun, hprocess, -, -, -, hrest, -⟩ := runs_head h.sound he
      obtain ⟨hanswer, rfl⟩ := Prod.mk.inj (hclaim.symm.trans hbegun)
      obtain rfl := Except.ok.inj hanswer
      have hstarted : Workable started := by
        have hleft := h.of_harmless (within_claimNext harmless_logs)
        rwa [hclaim] at hleft
      have hran : Workable next := by
        have hleft := hstarted.of_harmless (harmless_process begun)
        rwa [hprocess] at hleft
      rw [he] at hf
      have hafter := ih hran (hrest ▸ Nat.lt_of_succ_lt_succ hf)
      exact (endsAs_process hstarted begun).bind_of_ok hprocess
        (hafter.bind fun _ last _ => endsAs_const _ last)

/-- Running what waits comes to an end. -/
theorem endsAs_runPending (h : Workable site) :
    EndsAs (fun limit => runPending limit) runPending site := by
  unfold runPending
  refine (endsAs_const _ site).bind_of_ok (outcome_query _ site) ?_
  exact .of_rounds (fun limit rounds => drain limit rounds)
    (endsAs_drain _ h (Nat.lt_succ_of_le site.store.jobs.length_eligible_le))

/-- On every reachable site running what waits comes to an end by itself: it answers so whenever
its loops may go round often enough, whatever would be done to one that is cut short. It runs just
the jobs that wait in a scope where no job runs, in the order in which they were queued, and each
of them has ended, well or badly. The log holds them as they ended and all other jobs as they were,
and no job may start any more. The end of each has been announced once, in their order. -/
theorem Reachable.runs_what_may_start (h : Reachable site) :
    ∃ dones last, outcome runPending site = (.ok dones, last) ∧
      (∃ enough, ∀ limit : Limit, (∀ n, enough ≤ limit.rounds n) →
        outcome (runPending limit) site = (.ok dones, last)) ∧
      dones.map Job.asQueued = (site.store.jobs.jobs.filter fun job => job.status = .queued ∧
        ∀ other ∈ site.store.jobs.jobs, other.status = .started → other.scope ≠ job.scope).map
          Job.asQueued ∧
      (∀ done ∈ dones, Job.Ending done.status done.error) ∧
      last.store.jobs.jobs = site.store.jobs.jobs.map (Job.among dones) ∧
      last.store.jobs.nextEligible? = none ∧
      ∃ events, last.events = events.foldl .send site.events ∧
        List.Forall₂ Event.Announces events dones := by
  have hworkable : Workable site := ⟨h.sound, h.historied⟩
  obtain ⟨dones, last, hrun, hdrained⟩ := outcome_runPending_eligible h.sound
  have hends := endsAs_runPending hworkable
  rw [EndsAs, hrun] at hends
  refine ⟨dones, last, hrun, hends, ?_, hdrained.runs.ending, hdrained.jobs_eq, ?_, _,
    hdrained.events_eq, Event.forall₂_announces hdrained.runs.ending⟩
  · rw [hdrained.runs.map_asQueued, JobLog.map_job_eligible]
  · rw [JobLog.nextEligible?_eq_head?, hdrained.eligible_eq, List.head?_nil]

/-- Beside a purge that runs already, another purge of its project goes on waiting, while an article
is moved to the next version, the way back is refused, and another project is purged. -/
theorem runs_what_may_start_beside_running_purge :
    let article (names : List String) : Definition :=
      { name := "article", fields := names.map fun name => { name := name, type := .string } }
    let calls : List Call :=
      [.createSchema .schema (article ["title"]), .createBranch "p" "main" none,
        .assignLatest "@b1" .schema "article",
        .addContent "@b1" "n" "en" "@v1" [("title", .string "one")] [.draft],
        .updateSchema .schema "article" (article ["title", "lead"]) [] none,
        .enqueue (.versionPurge "p" none), .claimNext, .enqueue (.versionPurge "p" none),
        .assignLatest "@b1" .schema "article", .enqueue (.schema "@b1" "@v2" "@v1"),
        .enqueue (.versionPurge "q" none)]
    let site := Call.afterAll (.empty (.ticking ⟨0, 0⟩) 10 10) calls
    site.store.jobs.jobs.map Job.status = [.started, .queued, .queued, .queued, .queued] ∧
      ∃ dones last, outcome runPending site = (.ok dones, last) ∧
        (∃ enough, ∀ limit : Limit, (∀ n, enough ≤ limit.rounds n) →
          outcome (runPending limit) site = (.ok dones, last)) ∧
        dones.map Job.asQueued = (site.store.jobs.jobs.drop 2).map Job.asQueued ∧
        last.store.jobs.jobs = site.store.jobs.jobs.take 2 ++ dones ∧
        dones.map Job.status = [.completed, .failed, .completed] ∧
        last.store.jobs.nextEligible? = none ∧
        last.events.waiting.map Event.isSuccess = [true, false, true] := by
  intro article calls site
  have hgiven : Call.areGiven (.empty (.ticking ⟨0, 0⟩) 10 10) calls = true := by decide +kernel
  have hreached : Reachable site :=
    (Managed.calls (.empty (.ticking ⟨0, 0⟩) 10 10) hgiven).reachable
  obtain ⟨dones, last, hrun, hends, hqueued, -, -, hnone, -⟩ := hreached.runs_what_may_start
  let ran := outcome runPending site
  have hjobs : ran.1.toOption.map (site.store.jobs.jobs.take 2 ++ ·) =
      some ran.2.store.jobs.jobs := by decide +kernel
  have hstatuses : ran.1.toOption.map (List.map Job.status) =
      some [.completed, .failed, .completed] := by decide +kernel
  have hevents : ran.2.events.waiting.map Event.isSuccess = [true, false, true] := by
    decide +kernel
  rw [show ran = (.ok dones, last) from hrun] at hjobs hstatuses hevents
  refine ⟨by decide +kernel, dones, last, hrun, hends, hqueued.trans ?_,
    (Option.some.inj hjobs).symm, Option.some.inj hstatuses, hnone, hevents⟩
  decide +kernel

end Site

end VersionedContent

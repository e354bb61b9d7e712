import VersionedContent.Proofs.Jobs.Eligible

/-!
# Jobs that wait while nothing runs

When some jobs of a log wait at its end, and all jobs before them have ended, just
these jobs may start. What they become stands after the jobs that had ended.
-/

namespace VersionedContent.JobLog

variable {log : JobLog} {ended waiting : List JobEntry} {entry : JobEntry} {job : Job}

/-- Whether the jobs of some entries have ended. -/
def AllEnded (entries : List JobEntry) : Prop :=
  ∀ entry ∈ entries, entry.job.status.isTerminal = true

instance (entries : List JobEntry) : Decidable (AllEnded entries) :=
  inferInstanceAs (Decidable (∀ entry ∈ entries, _))

/-- A job that has ended may not start. -/
theorem AllEnded.isEligible_eq_false (h : AllEnded ended) (hm : entry ∈ ended) :
    log.isEligible entry.job = false := by
  rw [isEligible, decide_eq_false (JobStatus.ne_of_isTerminal (h entry hm) rfl), Bool.false_and]

/-- Whether the jobs of a log have ended but for some at its end, which wait. -/
structure Pending (log : JobLog) (ended waiting : List JobEntry) : Prop where
  /-- The jobs that wait come last. -/
  entries_eq : log.entries = ended ++ waiting
  /-- The others have ended. -/
  ended : AllEnded ended
  /-- They wait. -/
  queued : ∀ entry ∈ waiting, entry.job.status = .queued

/-- Nothing waits when all jobs have ended. -/
theorem AllEnded.pending (h : AllEnded log.entries) : log.Pending log.entries [] :=
  ⟨(List.append_nil _).symm, h, by simp⟩

/-- A job that is logged waits after the others. -/
theorem Pending.append (h : log.Pending ended waiting) (hq : job.status = .queued) :
    (log.append job).Pending ended (waiting ++ [⟨log.nextSequence, job⟩]) where
  entries_eq := by rw [JobLog.append, h.entries_eq, List.append_assoc]
  ended := h.ended
  queued := List.forall_mem_append.mpr ⟨h.queued, by simpa using hq⟩

/-- Jobs that are logged wait in their order. -/
theorem Pending.exists_foldl_append {jobs : List Job} (h : log.Pending ended waiting)
    (hq : ∀ job ∈ jobs, job.status = .queued) :
    ∃ added, (jobs.foldl .append log).Pending ended (waiting ++ added) ∧
      added.map JobEntry.job = jobs := by
  induction jobs generalizing log waiting with
  | nil => exact ⟨[], by rwa [List.append_nil], rfl⟩
  | cons job rest ih =>
    obtain ⟨added, hpending, hjobs⟩ := ih (h.append (hq job List.mem_cons_self))
      fun other hm => hq other (List.mem_cons_of_mem _ hm)
    rw [List.append_assoc] at hpending
    exact ⟨⟨log.nextSequence, job⟩ :: added, hpending, congrArg (job :: ·) hjobs⟩

/-- No job runs. -/
theorem Pending.isBusy_eq_false (h : log.Pending ended waiting) (scope : String) :
    log.isBusy scope = false := by
  refine List.any_eq_false.mpr fun job hm hb => ?_
  simp only [Bool.and_eq_true, decide_eq_true_eq] at hb
  obtain ⟨other, ho, rfl⟩ := List.mem_map.mp hm
  rw [h.entries_eq] at ho
  rcases List.mem_append.mp ho with ho | ho
  · exact JobStatus.ne_of_isTerminal (h.ended other ho) rfl hb.1
  · rw [h.queued other ho] at hb
    cases hb.1

/-- The jobs that wait are those that may start. -/
theorem Pending.eligible_eq (h : log.Pending ended waiting) : log.eligible = waiting := by
  have hended : ended.filter (fun other => log.isEligible other.job) = [] :=
    List.filter_eq_nil_iff.mpr fun _ hm => by simp [h.ended.isEligible_eq_false hm]
  have hwaiting : waiting.filter (fun other => log.isEligible other.job) = waiting :=
    List.filter_eq_self.mpr fun other hm => by
      simp [isEligible, h.queued other hm, h.isBusy_eq_false]
  rw [eligible, h.entries_eq, List.filter_append, hended, hwaiting, List.nil_append]

/-- When the jobs that wait have become others, these come after the jobs that had ended. -/
theorem Pending.map_among_eq {issued : Series} {dones : List Job} (hlog : log.Sound issued)
    (h : log.Pending ended waiting)
    (hids : dones.map Job.id = (waiting.map JobEntry.job).map Job.id) :
    log.jobs.map (Job.among dones) = ended.map JobEntry.job ++ dones := by
  have hjobs : log.jobs = ended.map JobEntry.job ++ waiting.map JobEntry.job := by
    rw [jobs, h.entries_eq, List.map_append]
  have hnodup := hlog.nodup_ids
  rw [hjobs, List.map_append, List.nodup_append'] at hnodup
  obtain ⟨-, hwaiting, hapart⟩ := hnodup
  have hended : ∀ job ∈ ended.map JobEntry.job, Job.among dones job = job := fun job hm =>
    Job.among_eq_self fun done hdone hid =>
      hapart (List.mem_map_of_mem hm) (hids ▸ List.mem_map.mpr ⟨done, hdone, hid⟩)
  rw [hjobs, List.map_append, List.map_congr_left hended, List.map_id',
    Job.map_among_eq hids hwaiting]

end VersionedContent.JobLog

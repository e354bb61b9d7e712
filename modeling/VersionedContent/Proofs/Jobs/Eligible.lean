import VersionedContent.Proofs.Jobs.Lifecycle

/-!
# The jobs that may start

A job may start when it waits and no job of its scope runs. When the first of these jobs
has ended, the others may still start, and no other job may: what runs in a scope is what
ran there before.
-/

namespace VersionedContent

namespace Job

variable {job done : Job} {jobs dones : List Job}

/-- A job as it stands among some, and as it is when it is none of them. -/
def among (dones : List Job) (job : Job) : Job :=
  (dones.find? fun done => done.id = job.id).getD job

@[simp] theorem among_nil (job : Job) : among [] job = job := rfl

/-- The first of some jobs stands for the job that it is. -/
theorem among_cons_of_eq (h : done.id = job.id) : among (done :: dones) job = done := by
  have hfound : (done :: dones).find? (fun done => done.id = job.id) = some done :=
    List.find?_cons_of_pos (decide_eq_true h)
  rw [among, hfound, Option.getD_some]

/-- The first of some jobs does not matter to another job. -/
theorem among_cons_of_ne (h : done.id ≠ job.id) : among (done :: dones) job = among dones job := by
  rw [among, List.find?_cons_of_neg (by simpa using h), among]

/-- A job that is none of some jobs stays as it is. -/
theorem among_eq_self (h : ∀ done ∈ dones, done.id ≠ job.id) : among dones job = job := by
  have hnone : dones.find? (fun done => done.id = job.id) = none :=
    List.find?_eq_none.mpr fun done hm => by simpa using h done hm
  rw [among, hnone, Option.getD_none]

/-- Of some jobs the first one may be looked for before the others. -/
theorem among_among (h : ∀ other ∈ dones, other.id ≠ done.id) (job : Job) :
    among dones (among [done] job) = among (done :: dones) job := by
  by_cases hid : done.id = job.id
  · rw [among_cons_of_eq hid, among_cons_of_eq hid, among_eq_self h]
  · rw [among_cons_of_ne hid, among_cons_of_ne hid, among_nil]

/-- What jobs have become stands for all of them. -/
theorem map_among_eq (hids : dones.map Job.id = jobs.map Job.id) (hn : (jobs.map Job.id).Nodup) :
    jobs.map (among dones) = dones := by
  induction jobs generalizing dones with
  | nil => exact (List.map_eq_nil_iff.mp hids).symm
  | cons job jobs ih =>
    obtain ⟨done, rest, rfl, hid, hrest⟩ := List.map_eq_cons_iff.mp hids
    obtain ⟨hnew, hn⟩ := List.nodup_cons.mp hn
    have hskip : ∀ other ∈ jobs, among (done :: rest) other = among rest other := fun other hm =>
      among_cons_of_ne fun he => hnew (List.mem_map.mpr ⟨other, hm, he.symm.trans hid⟩)
    rw [List.map_cons, among_cons_of_eq hid, List.map_congr_left hskip, ih hrest hn]

end Job

namespace JobLog

variable {log : JobLog} {issued : Series} {entry : JobEntry} {rest : List JobEntry} {job : Job}

/-- The jobs that may start, with their sequence numbers. -/
def eligible (log : JobLog) : List JobEntry :=
  log.entries.filter fun entry => log.isEligible entry.job

/-- The jobs that may start are logged. -/
theorem mem_of_eligible_eq (he : log.eligible = entry :: rest) : entry ∈ log.entries := by
  have hm : entry ∈ log.eligible := he ▸ List.mem_cons_self
  exact (List.mem_filter.mp hm).1

/-- The first of the jobs that may start is the next to start. -/
theorem nextEligible?_eq_head? (log : JobLog) : log.nextEligible? = log.eligible.head? :=
  List.head?_filter.symm

/-- A job may start when it waits and no job of its scope runs. -/
theorem isEligible_iff : log.isEligible job = true ↔
    job.status = .queued ∧
      ∀ other ∈ log.jobs, other.status = .started → other.scope ≠ job.scope := by
  simp [isEligible, isBusy]

/-- The jobs that may start, in the order of the log. -/
theorem map_job_eligible (log : JobLog) :
    log.eligible.map JobEntry.job = log.jobs.filter fun job => job.status = .queued ∧
      ∀ other ∈ log.jobs, other.status = .started → other.scope ≠ job.scope := by
  rw [eligible, jobs, List.filter_map, ← jobs]
  refine congrArg (List.map JobEntry.job) (List.filter_congr fun entry _ => ?_)
  rw [Bool.eq_iff_iff, isEligible_iff]
  exact decide_eq_true_iff.symm

/-- No more jobs may start than wait. -/
theorem length_eligible_le (log : JobLog) : log.eligible.length ≤ log.waiting := by
  rw [eligible, ← List.countP_eq_length_filter, waiting, jobs, List.countP_map]
  exact List.countP_mono_left fun entry _ he => decide_eq_true (isEligible_iff.mp he).1

/-- No two jobs that may start have one identifier. -/
theorem Sound.nodup_eligible (h : log.Sound issued) :
    (log.eligible.map fun entry => entry.job.id).Nodup := by
  have hids := h.nodup_ids
  rw [jobs, List.map_map] at hids
  exact hids.sublist (List.filter_sublist.map _)

/-- A job is changed in place under its identifier, and the others stay. -/
theorem Sound.jobs_replace (h : log.Sound issued) (hm : entry ∈ log.entries)
    (hid : job.id = entry.job.id) :
    (log.replace entry.sequence job).jobs = log.jobs.map (Job.among [job]) := by
  rw [jobs, JobLog.replace, jobs, List.map_map, List.map_map]
  refine List.map_congr_left fun other ho => ?_
  by_cases hs : other.sequence = entry.sequence
  · obtain rfl := h.eq_of_sequence_eq ho hm hs
    simp [Job.among_cons_of_eq hid]
  · have hne : job.id ≠ other.job.id := fun he =>
      hs (congrArg JobEntry.sequence (h.eq_of_id_eq ho hm (he.symm.trans hid)))
    simp [hs, Job.among_cons_of_ne hne]

/-- When the first of the jobs that may start has ended, the others are those that may start. -/
theorem Sound.eligible_replace (h : log.Sound issued) (he : log.eligible = entry :: rest)
    (ht : job.status.isTerminal = true) : (log.replace entry.sequence job).eligible = rest := by
  obtain ⟨before, after, hentries, hbefore, hfirst, hafter⟩ := List.filter_eq_cons_iff.mp he
  have hnext := h.entries_replace hentries job
  have hqueued := (isEligible_iff.mp hfirst).1
  have hidle : job.status ≠ .started := JobStatus.ne_of_isTerminal ht rfl
  have hbusy : (log.replace entry.sequence job).isBusy = log.isBusy := by
    funext scope
    simp [isBusy, jobs, hnext, hentries, hidle, hqueued]
  have hsame : (log.replace entry.sequence job).isEligible = log.isEligible := by
    funext other
    rw [isEligible, hbusy, isEligible]
  have hdone : ¬ log.isEligible job = true := fun hq =>
    JobStatus.ne_of_isTerminal ht rfl (isEligible_iff.mp hq).1
  rw [eligible, hsame, hnext, List.filter_append, List.filter_eq_nil_iff.mpr hbefore,
    List.nil_append, List.filter_cons, if_neg hdone, hafter]

end JobLog

end VersionedContent

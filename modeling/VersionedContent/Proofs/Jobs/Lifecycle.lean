import VersionedContent.Proofs.Jobs.Log
import VersionedContent.Proofs.Jobs.Stages

/-!
# The log over the life of its jobs

A log is orderly when, besides being sound, its index knows no other jobs, no
two jobs of one scope run, and what each job tells of its course fits its
status. `Step` lists what a call of the queue may write. Each such write keeps a
log orderly and the jobs in the order in which they were queued, changes a job
by one stage at most, and drops no job that runs.
-/

namespace VersionedContent.JobLog

/-- Whether two jobs of a log do not run at once in one scope. -/
def Apart (a b : JobEntry) : Prop :=
  a.job.status = .started → b.job.status = .started → a.job.scope ≠ b.job.scope

/-- What holds of a log that is written to by calls of the queue only. -/
structure Orderly (log : JobLog) (issued : Series) : Prop extends Sound log issued where
  /-- The index knows no other job. -/
  exact : ∀ id sequence, Dict.get? log.index id = some sequence →
    ∃ entry ∈ log.entries, entry.job.id = id
  /-- No two jobs of one scope run. -/
  apart : log.entries.Pairwise Apart
  /-- What a job tells of its course fits its status. -/
  consistent : ∀ entry ∈ log.entries, entry.job.Consistent

/-- What a call of the queue may write to a log: the jobs that it queues, the log afterwards, and
how many identifiers have been given out then. -/
inductive Step (log : JobLog) (issued : Series) : List Job → JobLog → Series → Prop
  /-- Nothing is written. -/
  | stay : Step log issued [] log issued
  /-- A job is queued under the next identifier. -/
  | queue (createdAt : Instant) (kind : JobKind) (retryOf : Option Id) :
      Step log issued [.queue issued.next createdAt kind retryOf]
        (log.append (.queue issued.next createdAt kind retryOf)) (issued.advance 1)
  /-- The next job is started. -/
  | start (entry : JobEntry) (next : log.nextEligible? = some entry) (startedAt : Instant) :
      Step log issued [] (log.replace entry.sequence (entry.job.begun startedAt)) issued
  /-- A job that runs is ended. -/
  | finish (entry : JobEntry) (mem : entry ∈ log.entries) (running : entry.job.status = .started)
      {status : JobStatus} {error : Option JobError} (ending : Job.Ending status error)
      (stoppedAt : Instant) :
      Step log issued [] (log.replace entry.sequence (entry.job.ended status error stoppedAt))
        issued
  /-- Jobs that do not run are dropped with their identifiers. -/
  | drop (keep : JobEntry → Bool) (index : Dict Nat)
      (idle : ∀ entry ∈ log.entries, keep entry = false → entry.job.status ≠ .started)
      (known : ∀ id sequence, Dict.get? index id = some sequence ↔
        Dict.get? log.index id = some sequence ∧
          ∀ entry ∈ log.entries, entry.job.id = id → keep entry = true) :
      Step log issued [] { log with entries := log.entries.filter keep, index := index } issued

variable {log next : JobLog} {issued count : Series} {added : List Job}

/-- Logged jobs are the jobs of the entries. -/
theorem mem_jobs {job : Job} : job ∈ log.jobs ↔ ∃ entry ∈ log.entries, entry.job = job :=
  List.mem_map

/-- A job of an entry is logged. -/
theorem job_mem_jobs {entry : JobEntry} (hm : entry ∈ log.entries) : entry.job ∈ log.jobs :=
  List.mem_map_of_mem hm

/-- A scope is busy when one of its jobs runs. -/
theorem isBusy_iff {scope : String} :
    log.isBusy scope = true ↔ ∃ job ∈ log.jobs, job.status = .started ∧ job.scope = scope := by
  simp [isBusy]

/-- Entries with one identifier are one entry. -/
theorem Sound.eq_of_id_eq (h : log.Sound issued) {a b : JobEntry} (ha : a ∈ log.entries)
    (hb : b ∈ log.entries) (hid : a.job.id = b.job.id) : a = b := by
  refine h.eq_of_sequence_eq ha hb (Option.some.inj ?_)
  rw [← h.indexed a ha, ← h.indexed b hb, hid]

/-- No identifier is logged twice. -/
theorem Sound.nodup_ids (h : log.Sound issued) : (log.jobs.map Job.id).Nodup := by
  rw [jobs, List.map_map]
  refine List.pairwise_map.mpr (h.ordered.imp_of_mem fun ha hb hlt hid => ?_)
  rw [h.eq_of_id_eq ha hb hid] at hlt
  exact Nat.lt_irrefl _ hlt

/-- What an orderly log knows by an identifier is the job that has it. -/
theorem Orderly.mem_of_entry? (h : log.Orderly issued) {id : Id} {entry : JobEntry}
    (he : (Dict.get? log.index id).bind log.entry? = some entry) :
    entry ∈ log.entries ∧ entry.job.id = id := by
  obtain ⟨sequence, hi, -⟩ := Option.bind_eq_some_iff.mp he
  obtain ⟨known, hm, rfl⟩ := h.exact id sequence hi
  rw [h.entry?_of_mem hm] at he
  obtain rfl := Option.some.inj he
  exact ⟨hm, rfl⟩

/-- An orderly log finds the jobs that it lists. -/
theorem Orderly.find?_eq_some_iff (h : log.Orderly issued) {id : Id} {job : Job} :
    log.find? id = some job ↔ job ∈ log.jobs ∧ job.id = id := by
  have hfind : log.find? id = ((Dict.get? log.index id).bind log.entry?).map JobEntry.job := by
    rw [find?, Option.map_bind]
    rfl
  rw [hfind, Option.map_eq_some_iff]
  constructor
  · rintro ⟨entry, he, rfl⟩
    obtain ⟨hm, hid⟩ := h.mem_of_entry? he
    exact ⟨job_mem_jobs hm, hid⟩
  · rintro ⟨hm, rfl⟩
    obtain ⟨entry, hin, rfl⟩ := mem_jobs.mp hm
    exact ⟨entry, h.entry?_of_mem hin, rfl⟩

/-- Erasing keys leaves nothing under any of them. -/
theorem get?_foldl_erase_eq_none {doomed : List JobEntry} {index : Dict Nat} {id : Id}
    (h : ∃ entry ∈ doomed, entry.job.id = id) :
    Dict.get? (doomed.foldl (fun index entry => Dict.erase index entry.job.id) index) id =
      none := by
  induction doomed generalizing index with
  | nil =>
    obtain ⟨_, hm, _⟩ := h
    cases hm
  | cons first rest ih =>
    rw [List.foldl_cons]
    by_cases hrest : ∃ entry ∈ rest, entry.job.id = id
    · exact ih hrest
    · obtain ⟨entry, hm, hid⟩ := h
      rw [get?_foldl_erase rest _ fun other ho he => hrest ⟨other, ho, he⟩, Dict.get?_erase]
      rcases List.mem_cons.mp hm with rfl | hm
      · exact if_pos hid.symm
      · exact absurd ⟨entry, hm, hid⟩ hrest

/-- An empty log is orderly. -/
theorem orderly_empty (issued : Series) : Orderly {} issued where
  toSound := sound_nil 0 issued
  exact _ _ h := by cases h
  apart := .nil
  consistent _ h := by cases h

/-- A job that waits may be logged under the next identifier. -/
theorem Orderly.queue (h : log.Orderly issued) (createdAt : Instant) (kind : JobKind)
    (retryOf : Option Id) :
    (log.append (.queue issued.next createdAt kind retryOf)).Orderly (issued.advance 1) where
  toSound := h.toSound.append rfl
  exact id sequence hi := by
    have hget := Dict.get?_insert log.index issued.next id log.nextSequence
    rw [append, Job.queue] at hi
    rw [hget] at hi
    split at hi
    · next hid =>
      exact ⟨_, List.mem_append_right _ List.mem_cons_self, hid.symm⟩
    · obtain ⟨entry, hm, hid⟩ := h.exact id sequence hi
      exact ⟨entry, List.mem_append_left _ hm, hid⟩
  apart := by
    refine List.pairwise_append.mpr ⟨h.apart, List.pairwise_singleton _ _, fun a _ b hb => ?_⟩
    rw [List.mem_singleton] at hb
    intro _ hrun
    rw [hb] at hrun
    cases hrun
  consistent entry hm := by
    rcases List.mem_append.mp hm with hm | hm
    · exact h.consistent entry hm
    · rw [List.mem_singleton] at hm
      rw [hm]
      exact Job.consistent_queue _ _ _ _

/-- A job may go on in place, and may run when no job of its scope does. -/
theorem Orderly.replace (h : log.Orderly issued) {entry : JobEntry} (hm : entry ∈ log.entries)
    {job : Job} (hj : job.asQueued = entry.job.asQueued) (hc : job.Consistent)
    (hr : job.status = .started → log.isBusy job.scope = false) :
    (log.replace entry.sequence job).Orderly issued where
  toSound := h.toSound.replace hm (Job.id_eq_of_asQueued_eq hj)
  exact id sequence hi := by
    obtain ⟨other, ho, hid⟩ := h.exact id sequence hi
    by_cases hs : other.sequence = entry.sequence
    · rw [h.eq_of_sequence_eq ho hm hs, ← Job.id_eq_of_asQueued_eq hj] at hid
      exact ⟨_, List.mem_map.mpr ⟨entry, hm, if_pos rfl⟩, hid⟩
    · exact ⟨other, List.mem_map.mpr ⟨other, ho, if_neg hs⟩, hid⟩
  apart := by
    have hidle : ∀ other ∈ log.entries, job.status = .started → other.job.status = .started →
        job.scope ≠ other.job.scope := by
      intro other ho hrun hother hscope
      have hbusy := isBusy_iff.mpr ⟨other.job, job_mem_jobs ho, hother, hscope.symm⟩
      rw [hr hrun] at hbusy
      cases hbusy
    refine List.pairwise_map.mpr ((h.ordered.and h.apart).imp_of_mem ?_)
    rintro a b ha hb ⟨hlt, hapart⟩
    by_cases hsa : a.sequence = entry.sequence <;> by_cases hsb : b.sequence = entry.sequence <;>
      simp only [hsa, hsb, ite_true, ite_false] at hlt ⊢
    · exact absurd hlt (Nat.lt_irrefl _)
    · exact fun hrun hother => hidle b hb hrun hother
    · exact fun hother hrun => (hidle a ha hrun hother).symm
    · exact hapart
  consistent other ho := by
    obtain ⟨old, hin, rfl⟩ := List.mem_map.mp ho
    by_cases hs : old.sequence = entry.sequence
    · rw [if_pos hs]
      exact hc
    · rw [if_neg hs]
      exact h.consistent old hin

/-- Jobs may be dropped with their identifiers. -/
theorem Orderly.filter (h : log.Orderly issued) {keep : JobEntry → Bool} {index : Dict Nat}
    (hi : ∀ id sequence, Dict.get? index id = some sequence ↔
      Dict.get? log.index id = some sequence ∧
        ∀ entry ∈ log.entries, entry.job.id = id → keep entry = true) :
    Orderly { log with entries := log.entries.filter keep, index := index } issued where
  toSound := by
    refine h.toSound.filter keep fun entry hm hk => ?_
    rw [h.indexed entry hm, hi]
    refine ⟨h.indexed entry hm, fun other ho hid => ?_⟩
    rwa [h.eq_of_id_eq ho hm hid]
  exact id sequence hs := by
    obtain ⟨hs, hkept⟩ := (hi id sequence).mp hs
    obtain ⟨entry, hm, hid⟩ := h.exact id sequence hs
    exact ⟨entry, List.mem_filter.mpr ⟨hm, hkept entry hm hid⟩, hid⟩
  apart := h.apart.filter _
  consistent entry hm := h.consistent entry (List.mem_filter.mp hm).1

/-- A job that does not run may be dropped. -/
theorem Orderly.step_erase (h : log.Orderly issued) {entry : JobEntry} (hm : entry ∈ log.entries)
    (hs : entry.job.status ≠ .started) :
    log.Step issued [] { log with
      entries := log.entries.filter fun other => other.sequence ≠ entry.sequence
      index := Dict.erase log.index entry.job.id } issued := by
  refine .drop _ _ (fun other ho hk => ?_) fun id sequence => ?_
  · have hsequence : other.sequence = entry.sequence := by simpa using hk
    rwa [h.eq_of_sequence_eq ho hm hsequence]
  · rw [Dict.get?_erase]
    by_cases hid : id = entry.job.id
    · refine ⟨fun hi => by simp [hid] at hi, fun hi => ?_⟩
      have hkept := hi.2 entry hm hid.symm
      simp at hkept
    · rw [if_neg hid]
      refine ⟨fun hi => ⟨hi, fun other ho hother => ?_⟩, And.left⟩
      have hne : other.sequence ≠ entry.sequence := by
        intro hsequence
        rw [h.eq_of_sequence_eq ho hm hsequence] at hother
        exact hid hother.symm
      exact decide_eq_true hne

/-- Jobs that do not run may be dropped together. -/
theorem Orderly.step_drop (h : log.Orderly issued) {doomed : List JobEntry}
    (hd : ∀ entry ∈ doomed, entry ∈ log.entries ∧ entry.job.status ≠ .started) :
    log.Step issued [] (log.drop doomed) issued := by
  have hdoomed : ∀ entry ∈ log.entries,
      (doomed.any fun other => other.sequence = entry.sequence) = true ↔ entry ∈ doomed := by
    intro entry hm
    simp only [List.any_eq_true, decide_eq_true_eq]
    refine ⟨fun ⟨other, ho, hs⟩ => ?_, fun hin => ⟨entry, hin, rfl⟩⟩
    rwa [← h.eq_of_sequence_eq (hd other ho).1 hm hs]
  refine .drop _ _ (fun entry hm hk => ?_) fun id sequence => ?_
  · exact (hd entry ((hdoomed entry hm).mp (by simpa using hk))).2
  · by_cases hin : ∃ entry ∈ doomed, entry.job.id = id
    · obtain ⟨entry, hentry, rfl⟩ := hin
      have hm := (hd entry hentry).1
      refine ⟨fun hi => ?_, fun hi => ?_⟩
      · rw [get?_foldl_erase_eq_none ⟨entry, hentry, rfl⟩] at hi
        cases hi
      · have hkept := hi.2 entry hm rfl
        rw [(hdoomed entry hm).mpr hentry] at hkept
        cases hkept
    · have hother : ∀ entry ∈ doomed, entry.job.id ≠ id := fun entry hm he => hin ⟨entry, hm, he⟩
      rw [get?_foldl_erase doomed log.index hother]
      refine ⟨fun hi => ⟨hi, fun entry hm hid => ?_⟩, And.left⟩
      rw [Bool.not_eq_true', Bool.eq_false_iff, ne_eq, hdoomed entry hm]
      exact fun hentry => hother entry hentry hid

/-- All jobs may be dropped when none runs. -/
theorem Orderly.step_clear (h : log.Orderly issued) (hidle : log.isRunning = false) :
    log.Step issued [] { log with entries := [], index := [] } issued := by
  have hnone : log.entries.filter (fun _ => false) = [] := List.filter_eq_nil_iff.mpr (by simp)
  have hstep : log.Step issued []
      { log with entries := log.entries.filter (fun _ => false), index := [] } issued := by
    refine .drop _ _ (fun entry hm _ hs => ?_) fun id sequence => ?_
    · rw [isRunning, List.any_eq_false] at hidle
      exact hidle entry.job (job_mem_jobs hm) (decide_eq_true hs)
    · refine ⟨fun hi => (by cases hi), fun hi => ?_⟩
      obtain ⟨entry, hm, hid⟩ := h.exact id sequence hi.1
      exact absurd (hi.2 entry hm hid) Bool.false_ne_true
  rwa [hnone] at hstep

/-- Every write of a call keeps a log orderly. -/
theorem Step.orderly (hstep : Step log issued added next count) (h : log.Orderly issued) :
    next.Orderly count := by
  cases hstep with
  | stay => exact h
  | queue createdAt kind retryOf => exact h.queue createdAt kind retryOf
  | start entry hn startedAt =>
    obtain ⟨hm, hq, hidle⟩ := isEligible_of_nextEligible? hn
    exact h.replace hm rfl ((h.consistent _ hm).begun hq startedAt) fun _ => hidle
  | finish entry hm hs he stoppedAt =>
    refine h.replace hm rfl ((h.consistent _ hm).ended hs he stoppedAt) fun hrun => ?_
    cases he <;> cases hrun
  | drop keep index _ hi => exact h.filter hi

/-- A job that goes on in place stays where it was queued. -/
theorem Sound.map_asQueued_replace (h : log.Sound issued) {entry : JobEntry}
    (hm : entry ∈ log.entries) {job : Job} (hj : job.asQueued = entry.job.asQueued) :
    (log.replace entry.sequence job).jobs.map Job.asQueued = log.jobs.map Job.asQueued := by
  simp only [jobs, JobLog.replace, List.map_map]
  refine List.map_congr_left fun other ho => ?_
  by_cases hs : other.sequence = entry.sequence
  · simp [hj, h.eq_of_sequence_eq ho hm hs]
  · simp [hs]

/-- Jobs stay in the order in which they were queued, the new ones after the others. -/
theorem Step.sublist (hstep : Step log issued added next count) (h : log.Sound issued) :
    (next.jobs.map Job.asQueued).Sublist (log.jobs.map Job.asQueued ++ added) := by
  cases hstep with
  | stay => simp
  | queue createdAt kind retryOf => simp [jobs, append]
  | start entry hn startedAt =>
    rw [h.map_asQueued_replace (isEligible_of_nextEligible? hn).1 (Job.asQueued_begun _ _),
      List.append_nil]
  | finish entry hm _ _ stoppedAt =>
    rw [h.map_asQueued_replace hm (Job.asQueued_ended _ _ _ _), List.append_nil]
  | drop keep index _ _ =>
    rw [List.append_nil]
    exact (List.filter_sublist.map JobEntry.job).map Job.asQueued

/-- Identifiers are given out of one series. -/
theorem Step.issued_le (hstep : Step log issued added next count) : issued ≤ count := by
  cases hstep with
  | queue => exact issued.le_advance 1
  | _ => exact issued.le_refl

/-- New jobs take the next identifiers. -/
theorem Step.ids_added (hstep : Step log issued added next count) :
    (List.range issued).map issued.label ++ added.map Job.id =
      (List.range count).map count.label := by
  cases hstep with
  | queue createdAt kind retryOf => simp [List.range_succ, Job.queue, Series.next]
  | _ => simp

/-- A job that goes on in place by one stage is the only one to change. -/
theorem Sound.reaches_replace (h : log.Sound issued) {entry : JobEntry} (hm : entry ∈ log.entries)
    {changed : Job} (hc : entry.job.Reaches changed) {job : Job} (hj : job ∈ log.jobs) :
    ∃ other ∈ (log.replace entry.sequence changed).jobs, job.Reaches other := by
  obtain ⟨old, ho, rfl⟩ := mem_jobs.mp hj
  by_cases hs : old.sequence = entry.sequence
  · obtain rfl := h.eq_of_sequence_eq ho hm hs
    exact ⟨changed, mem_jobs.mpr ⟨_, List.mem_map.mpr ⟨old, hm, if_pos rfl⟩, rfl⟩, hc⟩
  · exact ⟨old.job, mem_jobs.mpr ⟨_, List.mem_map.mpr ⟨old, ho, if_neg hs⟩, rfl⟩, rfl, .inl rfl⟩

/-- A job goes on by one stage at most, or is dropped while it does not run. -/
theorem Step.reaches_or_gone (hstep : Step log issued added next count) (h : log.Sound issued)
    {job : Job} (hj : job ∈ log.jobs) :
    (∃ other ∈ next.jobs, job.Reaches other) ∨
      job.status ≠ .started ∧ ∀ other ∈ next.jobs, other.id ≠ job.id := by
  cases hstep with
  | stay => exact .inl ⟨job, hj, rfl, .inl rfl⟩
  | queue createdAt kind retryOf =>
    obtain ⟨entry, hm, rfl⟩ := mem_jobs.mp hj
    exact .inl ⟨entry.job, job_mem_jobs (List.mem_append_left _ hm), rfl, .inl rfl⟩
  | start entry hn startedAt =>
    obtain ⟨hm, hq, -⟩ := isEligible_of_nextEligible? hn
    have hreaches : entry.job.Reaches (entry.job.begun startedAt) := ⟨rfl, .inr (by rw [hq]; rfl)⟩
    exact .inl (h.reaches_replace hm hreaches hj)
  | @finish entry hm hs status error he stoppedAt =>
    have hreaches : entry.job.Reaches (entry.job.ended status error stoppedAt) := by
      refine ⟨rfl, .inr ?_⟩
      rw [hs]
      cases he <;> rfl
    exact .inl (h.reaches_replace hm hreaches hj)
  | drop keep index hidle _ =>
    obtain ⟨entry, hm, rfl⟩ := mem_jobs.mp hj
    cases hk : keep entry with
    | true =>
      exact .inl ⟨entry.job, job_mem_jobs (List.mem_filter.mpr ⟨hm, hk⟩), rfl, .inl rfl⟩
    | false =>
      refine .inr ⟨hidle entry hm hk, fun other ho hid => ?_⟩
      obtain ⟨kept, hkept, rfl⟩ := mem_jobs.mp ho
      obtain ⟨hin, hkk⟩ := List.mem_filter.mp hkept
      rw [h.eq_of_id_eq hin hm hid, hk] at hkk
      cases hkk

/-- A job that comes waits. -/
theorem Step.came (hstep : Step log issued added next count) (h : log.Sound issued) {other : Job}
    (ho : other ∈ next.jobs) : (∃ job ∈ log.jobs, job.id = other.id) ∨ other.status = .queued := by
  have hmem := (hstep.sublist h).subset (List.mem_map_of_mem ho)
  rcases List.mem_append.mp hmem with hm | hm
  · obtain ⟨job, hj, he⟩ := List.mem_map.mp hm
    exact .inl ⟨job, hj, Job.id_eq_of_asQueued_eq he⟩
  · cases hstep with
    | queue createdAt kind retryOf =>
      obtain ⟨entry, hin, rfl⟩ := mem_jobs.mp ho
      rcases List.mem_append.mp hin with hin | hin
      · exact .inl ⟨entry.job, job_mem_jobs hin, rfl⟩
      · rw [List.mem_singleton.mp hin]
        exact .inr rfl
    | _ => cases hm

end VersionedContent.JobLog

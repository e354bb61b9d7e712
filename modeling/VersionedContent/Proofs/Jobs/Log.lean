import Mathlib.Data.List.Nodup
import VersionedContent.Proofs.Store.Chain

/-!
# The job log in order

A log is sound when its sequence numbers increase and its index leads from the
identifier of each logged job to that job. Every write to the log keeps it so:
logging a job under a new identifier, changing a job in place, and dropping jobs.
What the writes that may be refused do to a log, sound or not, is told exactly.
-/

namespace VersionedContent

namespace JobLog

/-- What holds of a log whose jobs have identifiers that a series has given out. -/
structure Sound (log : JobLog) (issued : Series) : Prop where
  /-- Sequence numbers increase. -/
  ordered : log.entries.Pairwise fun a b => a.sequence < b.sequence
  /-- Sequence numbers have been given out. -/
  below : ∀ entry ∈ log.entries, entry.sequence < log.nextSequence
  /-- The index knows every job. -/
  indexed : ∀ entry ∈ log.entries, Dict.get? log.index entry.job.id = some entry.sequence
  /-- Identifiers are those that have been given out. -/
  fresh : ∀ entry ∈ log.entries, issued.HasGiven entry.job.id

variable {log : JobLog} {issued : Series}

/-- An empty log is sound, whatever its next sequence number. -/
theorem sound_nil (nextSequence : Nat) (issued : Series) :
    Sound { entries := [], index := [], nextSequence := nextSequence } issued where
  ordered := .nil
  below entry h := by cases h
  indexed entry h := by cases h
  fresh entry h := by cases h

/-- Two entries with one sequence number are one entry. -/
theorem Sound.eq_of_sequence_eq (h : Sound log issued) {a b : JobEntry} (ha : a ∈ log.entries)
    (hb : b ∈ log.entries) (hs : a.sequence = b.sequence) : a = b := by
  have hne : (log.entries.map JobEntry.sequence).Nodup :=
    List.pairwise_map.mpr (h.ordered.imp fun hlt => Nat.ne_of_lt hlt)
  exact List.inj_on_of_nodup_map hne ha hb hs

/-- A job is found by its identifier. -/
theorem Sound.entry?_of_mem (h : Sound log issued) {entry : JobEntry} (hm : entry ∈ log.entries) :
    (Dict.get? log.index entry.job.id).bind log.entry? = some entry := by
  rw [h.indexed entry hm, Option.bind_some, entry?]
  cases hf : log.entries.find? fun other => other.sequence = entry.sequence with
  | none =>
    have hne := List.find?_eq_none.mp hf entry hm
    simp at hne
  | some found =>
    have hs : found.sequence = entry.sequence := by simpa using List.find?_some hf
    rw [h.eq_of_sequence_eq (List.mem_of_find?_eq_some hf) hm hs]

/-- A job is logged under the next identifier. -/
theorem Sound.append (h : Sound log issued) {job : Job} (hid : job.id = issued.next) :
    Sound (log.append job) (issued.advance 1) := by
  have hnew : ∀ entry ∈ log.entries, entry.job.id ≠ job.id := by
    intro entry hm he
    have hgiven := h.fresh entry hm
    rw [he, hid] at hgiven
    exact issued.not_hasGiven_next hgiven
  constructor
  · refine List.pairwise_append.mpr ⟨h.ordered, by simp, fun a ha b hb => ?_⟩
    rw [List.mem_singleton] at hb
    rw [hb]
    exact h.below a ha
  · intro entry hm
    rcases List.mem_append.mp hm with hm | hm
    · exact Nat.lt_succ_of_lt (h.below entry hm)
    · rw [List.mem_singleton] at hm
      rw [hm]
      exact Nat.lt_succ_self _
  · intro entry hm
    change Dict.get? (Dict.insert log.index job.id log.nextSequence) entry.job.id = _
    rw [Dict.get?_insert]
    rcases List.mem_append.mp hm with hm | hm
    · rw [if_neg (hnew entry hm)]
      exact h.indexed entry hm
    · rw [List.mem_singleton] at hm
      rw [hm, if_pos rfl]
  · intro entry hm
    rcases List.mem_append.mp hm with hm | hm
    · exact (h.fresh entry hm).advance 1
    · rw [List.mem_singleton] at hm
      rw [hm]
      exact hid ▸ issued.hasGiven_next

/-- A job is changed in place under its identifier. -/
theorem Sound.replace (h : Sound log issued) {entry : JobEntry} (hm : entry ∈ log.entries)
    {job : Job} (hid : job.id = entry.job.id) : Sound (log.replace entry.sequence job) issued := by
  have hold : ∀ other ∈ (log.replace entry.sequence job).entries,
      ∃ old ∈ log.entries, other.sequence = old.sequence ∧ other.job.id = old.job.id := by
    intro other ho
    obtain ⟨old, hin, rfl⟩ := List.mem_map.mp ho
    refine ⟨old, hin, ?_⟩
    by_cases hs : old.sequence = entry.sequence
    · obtain rfl := h.eq_of_sequence_eq hin hm hs
      simp [hid]
    · simp [hs]
  constructor
  · refine List.pairwise_map.mpr (h.ordered.imp fun {a b} hlt => ?_)
    by_cases ha : a.sequence = entry.sequence <;> by_cases hb : b.sequence = entry.sequence <;>
      simp only [ha, hb, ite_true, ite_false] at hlt ⊢ <;> exact hlt
  · intro other ho
    obtain ⟨old, hin, hs, -⟩ := hold other ho
    rw [hs]
    exact h.below old hin
  · intro other ho
    obtain ⟨old, hin, hs, hi⟩ := hold other ho
    rw [hi, hs]
    exact h.indexed old hin
  · intro other ho
    obtain ⟨old, hin, -, hi⟩ := hold other ho
    rw [hi]
    exact h.fresh old hin

/-- A job is changed in place. -/
theorem Sound.entries_replace (h : Sound log issued) {before after : List JobEntry}
    {entry : JobEntry} (he : log.entries = before ++ entry :: after) (job : Job) :
    (log.replace entry.sequence job).entries = before ++ ⟨entry.sequence, job⟩ :: after := by
  have hordered := h.ordered
  rw [he] at hordered
  obtain ⟨-, hafter, hbefore⟩ := List.pairwise_append.mp hordered
  have hkept : ∀ entries : List JobEntry,
      (∀ other ∈ entries, other.sequence ≠ entry.sequence) → entries.map (fun other =>
        if other.sequence = entry.sequence then ⟨entry.sequence, job⟩ else other) = entries :=
    fun entries hne =>
      (List.map_congr_left fun other hm => if_neg (hne other hm)).trans (List.map_id _)
  rw [JobLog.replace, he, List.map_append, List.map_cons, if_pos rfl, hkept before, hkept after]
  · exact fun other hm => Nat.ne_of_gt (List.rel_of_pairwise_cons hafter hm)
  · exact fun other hm => Nat.ne_of_lt (hbefore other hm entry List.mem_cons_self)

/-- What is replaced twice is replaced once. -/
theorem replace_replace (log : JobLog) (sequence : Nat) (first second : Job) :
    (log.replace sequence first).replace sequence second = log.replace sequence second := by
  unfold replace
  rw [List.map_map]
  congr 2
  funext entry
  by_cases hs : entry.sequence = sequence <;> simp [hs]

/-- Jobs may be dropped while the index goes on to know the rest. -/
theorem Sound.filter (h : Sound log issued) (keep : JobEntry → Bool) {index : Dict Nat}
    (hi : ∀ entry ∈ log.entries, keep entry = true →
      Dict.get? index entry.job.id = Dict.get? log.index entry.job.id) :
    Sound { log with entries := log.entries.filter keep, index := index } issued where
  ordered := h.ordered.filter _
  below entry hm := h.below entry (List.mem_filter.mp hm).1
  indexed entry hm := by
    obtain ⟨hin, hk⟩ := List.mem_filter.mp hm
    exact (hi entry hin hk).trans (h.indexed entry hin)
  fresh entry hm := h.fresh entry (List.mem_filter.mp hm).1

/-- Erasing keys leaves the others as they are. -/
theorem get?_foldl_erase (doomed : List JobEntry) (index : Dict Nat) {id : Id}
    (h : ∀ entry ∈ doomed, entry.job.id ≠ id) :
    Dict.get? (doomed.foldl (fun index entry => Dict.erase index entry.job.id) index) id =
      Dict.get? index id := by
  induction doomed generalizing index with
  | nil => rfl
  | cons first rest ih =>
    rw [List.foldl_cons, ih _ fun entry hm => h entry (List.mem_cons_of_mem _ hm),
      Dict.get?_erase, if_neg (h first List.mem_cons_self).symm]

/-- Logged jobs are dropped with their identifiers. -/
theorem Sound.drop (h : Sound log issued) {doomed : List JobEntry}
    (hd : ∀ entry ∈ doomed, entry ∈ log.entries) : Sound (log.drop doomed) issued := by
  refine h.filter _ fun entry hm hk => get?_foldl_erase doomed log.index fun other ho he => ?_
  have hs : other.sequence = entry.sequence := by
    apply Option.some.inj
    rw [← h.indexed other (hd other ho), ← h.indexed entry hm, he]
  simp only [Bool.not_eq_true', List.any_eq_false, decide_eq_true_eq] at hk
  exact hk other ho hs

end JobLog

/-- Only a job that runs may be ended, and only by an end. -/
theorem JobStatus.canEnd_iff (status next : JobStatus) :
    (!status.canBecome next || status != .started) = false ↔
      status = .started ∧ next.isTerminal = true := by
  cases status <;> cases next <;> decide

/-- Whether a transaction writes to the log only, and leaves a sound log sound. -/
def Transaction.KeepsLog {α : Type} (transaction : Transaction α) : Prop :=
  ∀ store : Store, ∃ answer log, outcome transaction store = (answer, { store with jobs := log }) ∧
    ∀ issued, store.jobs.Sound issued → log.Sound issued

namespace Store

/-- The first job that may start is started. -/
theorem outcome_claimNextJob (startedAt : Instant) (store : Store) :
    outcome (claimNextJob startedAt) store =
      match store.jobs.nextEligible? with
      | none => (.ok none, store)
      | some entry =>
        let job := { entry.job with status := .started, startedAt := some startedAt }
        (.ok (some job), { store with jobs := store.jobs.replace entry.sequence job }) := by
  unfold claimNextJob
  rw [outcome_bind_of_ok (outcome_get store)]
  cases store.jobs.nextEligible? <;> rfl

/-- The job that an identifier leads to is ended, when it may be. -/
theorem outcome_finishJob (id : Id) (status : JobStatus) (error : Option JobError)
    (stoppedAt : Instant) (store : Store) :
    outcome (finishJob id status error stoppedAt) store =
      match (Dict.get? store.jobs.index id).bind store.jobs.entry? with
      | none => (.ok none, store)
      | some entry =>
        if !entry.job.status.canBecome status || entry.job.status != .started then
          (.ok none, store)
        else
          let job := { entry.job with
            status := status, error := error, stoppedAt := some stoppedAt }
          (.ok (some job), { store with jobs := store.jobs.replace entry.sequence job }) := by
  unfold finishJob
  rw [outcome_bind_of_ok (outcome_get store)]
  dsimp only
  cases (Dict.get? store.jobs.index id).bind store.jobs.entry? with
  | none => rfl
  | some entry =>
    dsimp only
    split <;> rfl

/-- A job is dropped with its identifier, when it does not run. -/
theorem outcome_deleteJob (id : Id) (store : Store) :
    outcome (deleteJob id) store =
      match Dict.get? store.jobs.index id with
      | none => (.ok false, store)
      | some sequence =>
        if (store.jobs.entry? sequence).any fun entry => entry.job.status = .started then
          (.ok false, store)
        else
          (.ok true, { store with
            jobs := { store.jobs with
              entries := store.jobs.entries.filter fun entry => entry.sequence ≠ sequence
              index := Dict.erase store.jobs.index id } }) := by
  unfold deleteJob
  rw [outcome_bind_of_ok (outcome_get store)]
  cases Dict.get? store.jobs.index id with
  | none => rfl
  | some sequence =>
    dsimp only
    split <;> rfl

/-- All jobs are dropped, when none runs. -/
theorem outcome_clearJobs (store : Store) :
    outcome clearJobs store =
      if store.jobs.isRunning then (.ok none, store)
      else (.ok (some store.jobs.entries.length),
        { store with jobs := { store.jobs with entries := [], index := [] } }) := by
  unfold clearJobs
  rw [outcome_bind_of_ok (outcome_get store)]
  split <;> rfl

/-- Starting a job changes it in place. -/
theorem keepsLog_claimNextJob (startedAt : Instant) : (claimNextJob startedAt).KeepsLog := by
  intro store
  rw [outcome_claimNextJob]
  cases hn : store.jobs.nextEligible? with
  | none => exact ⟨_, store.jobs, rfl, fun _ h => h⟩
  | some entry =>
    obtain ⟨hm, -, -⟩ := JobLog.isEligible_of_nextEligible? hn
    exact ⟨_, _, rfl, fun issued h => h.replace hm rfl⟩

/-- Ending a job changes it in place. -/
theorem keepsLog_finishJob (id : Id) (status : JobStatus) (error : Option JobError)
    (stoppedAt : Instant) : (finishJob id status error stoppedAt).KeepsLog := by
  intro store
  rw [outcome_finishJob]
  cases he : (Dict.get? store.jobs.index id).bind store.jobs.entry? with
  | none => exact ⟨_, store.jobs, rfl, fun _ h => h⟩
  | some entry =>
    obtain ⟨sequence, -, hf⟩ := Option.bind_eq_some_iff.mp he
    dsimp only
    split
    · exact ⟨_, store.jobs, rfl, fun _ h => h⟩
    · exact ⟨_, _, rfl, fun issued h => h.replace (List.mem_of_find?_eq_some hf) rfl⟩

/-- Jobs of a status are dropped with their identifiers. -/
theorem keepsLog_deleteJobsWithStatus (status : JobStatus) :
    (deleteJobsWithStatus status).KeepsLog := by
  intro store
  exact ⟨_, _, rfl, fun issued h => h.drop fun entry hm => (List.mem_filter.mp hm).1⟩

/-- A job that does not run is dropped with its identifier. -/
theorem keepsLog_deleteJob (id : Id) : (deleteJob id).KeepsLog := by
  intro store
  rw [outcome_deleteJob]
  cases hi : Dict.get? store.jobs.index id with
  | none => exact ⟨_, store.jobs, rfl, fun _ h => h⟩
  | some sequence =>
    dsimp only
    split
    · exact ⟨_, store.jobs, rfl, fun _ h => h⟩
    · refine ⟨_, _, rfl, fun issued h => h.filter _ fun entry hm hk => ?_⟩
      rw [Dict.get?_erase, if_neg]
      intro he
      rw [← he, h.indexed entry hm] at hi
      simp [Option.some.inj hi] at hk

/-- All jobs are dropped with their identifiers. -/
theorem keepsLog_clearJobs : clearJobs.KeepsLog := by
  intro store
  rw [outcome_clearJobs]
  split
  · exact ⟨_, store.jobs, rfl, fun _ h => h⟩
  · exact ⟨_, _, rfl, fun issued _ => JobLog.sound_nil _ issued⟩

end Store

end VersionedContent

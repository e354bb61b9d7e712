import VersionedContent.Proofs.Jobs.Log

/-!
# The jobs of a branch in line

The jobs of a branch that wait or run stand in line in the order of their
creation, and only the first of them may run: new jobs go to the end of the
line, the job that starts is the first, and the job that ends leaves it.
-/

namespace VersionedContent.JobLog

variable {log : JobLog} {issued : Series} {branchId : Id}

/-- Whether a job works on a branch and has not ended. -/
def isLive (branchId : Id) (entry : JobEntry) : Bool :=
  entry.job.kind.branchId? = some branchId && !entry.job.status.isTerminal

/-- The jobs of a branch that wait or run, in the order of their creation. -/
def live (log : JobLog) (branchId : Id) : List JobEntry := log.entries.filter (isLive branchId)

/-- A job of the branch that has not ended is live. -/
theorem isLive_iff {entry : JobEntry} :
    isLive branchId entry = true ↔
      entry.job.kind.branchId? = some branchId ∧ entry.job.status.isTerminal = false := by
  simp [isLive]

/-- Jobs of one branch share a scope. -/
theorem scope_eq {job : Job} (h : job.kind.branchId? = some branchId) :
    job.scope = "branch:" ++ branchId := by
  unfold Job.scope
  cases hk : job.kind with
  | versionPurge projectId before => simp [hk, JobKind.branchId?] at h
  | _ => simp_all [JobKind.branchId?, JobKind.scope]

/-- A job that is logged goes to the end of the line of its branch. -/
theorem live_append (log : JobLog) (job : Job) (branchId : Id) :
    (log.append job).live branchId =
      log.live branchId ++
        if isLive branchId ⟨log.nextSequence, job⟩ then [⟨log.nextSequence, job⟩] else [] := by
  simp only [live, append, List.filter_append, List.filter_singleton]
  cases isLive branchId ⟨log.nextSequence, job⟩ <;> rfl

/-- A job that ends leaves the line. -/
theorem live_replace_of_isTerminal {job : Job} (hj : job.status.isTerminal = true)
    (sequence : Nat) :
    (log.replace sequence job).live branchId =
      (log.live branchId).filter fun entry => entry.sequence ≠ sequence := by
  unfold live replace
  dsimp only
  induction log.entries with
  | nil => rfl
  | cons entry rest ih =>
    have hdead : isLive branchId ⟨sequence, job⟩ = false := by simp [isLive, hj]
    by_cases hs : entry.sequence = sequence
    · by_cases hl : isLive branchId entry = true
      · simp [hs, hdead, hl, ih]
      · simp [hs, hdead, hl, ih]
    · by_cases hl : isLive branchId entry = true
      · simp [hs, hl, ih]
      · simp [hs, hl, ih]

/-- Changing a job in place changes the line in place, when the job stays in it or out of it. -/
theorem live_replace (h : log.Sound issued) {entry : JobEntry} (hm : entry ∈ log.entries)
    {job : Job} (hl : isLive branchId ⟨entry.sequence, job⟩ = isLive branchId entry) :
    (log.replace entry.sequence job).live branchId =
      (log.live branchId).map fun other =>
        if other.sequence = entry.sequence then ⟨entry.sequence, job⟩ else other := by
  unfold live replace
  dsimp only
  rw [List.filter_map]
  congr 1
  refine List.filter_congr fun other ho => ?_
  simp only [Function.comp]
  split_ifs with hs
  · rw [hl, h.eq_of_sequence_eq hm ho hs.symm]
  · rfl

/-- The live jobs of a branch as moves between schema versions: each job makes the move at its
place, and all but the first wait. -/
structure Line (log : JobLog) (branchId : Id) (first : Nat) (moves : List (Id × Id)) : Prop where
  /-- Each job makes the move at its place. -/
  kinds : (log.live branchId).map (fun entry => entry.job.kind) =
    moves.map fun move => .schema branchId move.1 move.2
  /-- All jobs but the first wait. -/
  waiting : ∀ entry ∈ (log.live branchId).tail, entry.job.status = .queued
  /-- All jobs were logged after a certain one. -/
  recent : ∀ entry ∈ log.live branchId, first ≤ entry.sequence

/-- Whether a job of a branch that was logged after a certain one has failed. -/
def FailedSince (log : JobLog) (branchId : Id) (first : Nat) : Prop :=
  ∃ entry ∈ log.entries, first ≤ entry.sequence ∧ entry.job.kind.branchId? = some branchId ∧
    entry.job.status = .failed

variable {first : Nat} {moves : List (Id × Id)}

/-- A move that is queued goes to the end of the line. -/
theorem Line.append (h : log.Line branchId first moves) (hf : first ≤ log.nextSequence) {job : Job}
    {source target : Id} (hk : job.kind = .schema branchId source target)
    (hs : job.status = .queued) :
    (log.append job).Line branchId first (moves ++ [(source, target)]) := by
  have hlive : (log.append job).live branchId =
      log.live branchId ++ [⟨log.nextSequence, job⟩] := by
    rw [live_append, if_pos]
    exact isLive_iff.mpr ⟨by rw [hk]; rfl, by rw [hs]; rfl⟩
  constructor
  · rw [hlive, List.map_append, List.map_append, h.kinds]
    simp [hk]
  · intro entry hm
    have hwaiting := h.waiting
    rw [hlive] at hm
    cases hl : log.live branchId with
    | nil =>
      rw [hl] at hm
      cases hm
    | cons head rest =>
      rw [hl] at hm hwaiting
      rcases List.mem_append.mp hm with hm | hm
      · exact hwaiting entry hm
      · rw [List.mem_singleton] at hm
        rw [hm]
        exact hs
  · intro entry hm
    rw [hlive] at hm
    rcases List.mem_append.mp hm with hm | hm
    · exact h.recent entry hm
    · rw [List.mem_singleton] at hm
      rw [hm]
      exact hf

/-- A job of the branch that runs is the first in line. -/
theorem Line.eq_head (h : log.Line branchId first moves) {entry : JobEntry}
    (hm : entry ∈ log.live branchId) (hs : entry.job.status = .started) :
    ∃ rest, log.live branchId = entry :: rest := by
  cases hl : log.live branchId with
  | nil =>
    rw [hl] at hm
    cases hm
  | cons head rest =>
    rw [hl] at hm
    rcases List.mem_cons.mp hm with rfl | hm
    · exact ⟨rest, rfl⟩
    · have hq := h.waiting entry (by rw [hl]; exact hm)
      rw [hs] at hq
      cases hq

/-- The job of the branch that is next to start is the first in line. -/
theorem head_of_nextEligible? {entry : JobEntry} (hn : log.nextEligible? = some entry)
    (hm : entry ∈ log.live branchId) : ∃ rest, log.live branchId = entry :: rest := by
  obtain ⟨-, hstatus, hbusy⟩ := isEligible_of_nextEligible? hn
  obtain ⟨-, before, after, hentries, hearlier⟩ := List.find?_eq_some_iff_append.mp hn
  have hscope := scope_eq (isLive_iff.mp (List.mem_filter.mp hm).2).1
  have hnone : before.filter (isLive branchId) = [] := by
    rw [List.filter_eq_nil_iff]
    intro other ho hl
    obtain ⟨hb, ht⟩ := isLive_iff.mp hl
    have hin : other ∈ log.entries := by
      rw [hentries]
      exact List.mem_append_left _ ho
    -- A job before the next one would have started first, unless one of the scope runs.
    have hnot := hearlier other ho
    simp only [isEligible, scope_eq hb, ← hscope, hbusy, Bool.not_false, Bool.and_true,
      Bool.not_eq_true', decide_eq_false_iff_not] at hnot
    have hstarted : other.job.status = .started := by
      cases hos : other.job.status <;> simp_all [JobStatus.isTerminal]
    simp only [isBusy, jobs, List.any_map, List.any_eq_false] at hbusy
    apply hbusy other hin
    simp [hstarted, scope_eq hb, hscope]
  refine ⟨after.filter (isLive branchId), ?_⟩
  rw [live, hentries, List.filter_append, hnone, List.nil_append,
    List.filter_cons_of_pos (List.mem_filter.mp hm).2]

/-- A line goes on when the live jobs do. -/
theorem Line.of_live_eq (h : log.Line branchId first moves) {next : JobLog}
    (hl : next.live branchId = log.live branchId) : next.Line branchId first moves := by
  constructor
  · rw [hl]
    exact h.kinds
  · rw [hl]
    exact h.waiting
  · rw [hl]
    exact h.recent

/-- A job of another branch may change in place. -/
theorem Line.replace_other (h : log.Line branchId first moves) (hlog : log.Sound issued)
    {entry : JobEntry} (hm : entry ∈ log.entries)
    (hb : entry.job.kind.branchId? ≠ some branchId) {job : Job} (hk : job.kind = entry.job.kind) :
    (log.replace entry.sequence job).Line branchId first moves := by
  apply h.of_live_eq
  have hdead : isLive branchId ⟨entry.sequence, job⟩ = isLive branchId entry := by
    simp [isLive, hk, hb]
  rw [live_replace hlog hm hdead]
  refine (List.map_congr_left fun other ho => ?_).trans (List.map_id' _)
  rw [if_neg]
  intro hs
  obtain ⟨hin, hl⟩ := List.mem_filter.mp ho
  rw [hlog.eq_of_sequence_eq hin hm hs] at hl
  exact hb (isLive_iff.mp hl).1

/-- The next job to start may start. -/
theorem Line.start (h : log.Line branchId first moves) (hlog : log.Sound issued)
    {entry : JobEntry} (hn : log.nextEligible? = some entry) {job : Job}
    (hk : job.kind = entry.job.kind) (hs : job.status = .started) :
    (log.replace entry.sequence job).Line branchId first moves := by
  obtain ⟨hm, hq, -⟩ := isEligible_of_nextEligible? hn
  by_cases hb : entry.job.kind.branchId? = some branchId
  · have hin : entry ∈ log.live branchId :=
      List.mem_filter.mpr ⟨hm, isLive_iff.mpr ⟨hb, by rw [hq]; rfl⟩⟩
    obtain ⟨rest, hl⟩ := head_of_nextEligible? hn hin
    have hstay : isLive branchId ⟨entry.sequence, job⟩ = isLive branchId entry := by
      simp [isLive, hk, hq, hs, JobStatus.isTerminal]
    have hordered : (log.live branchId).Pairwise fun a b => a.sequence < b.sequence :=
      hlog.ordered.filter _
    have hlive : (log.replace entry.sequence job).live branchId =
        ⟨entry.sequence, job⟩ :: rest := by
      rw [hl, List.pairwise_cons] at hordered
      rw [live_replace hlog hm hstay, hl, List.map_cons, if_pos rfl]
      congr 1
      refine (List.map_congr_left fun other ho => ?_).trans (List.map_id' _)
      rw [if_neg (Nat.ne_of_gt (hordered.1 other ho))]
    have hkinds := h.kinds
    have hwaiting := h.waiting
    have hrecent := h.recent
    rw [hl] at hkinds hwaiting hrecent
    constructor
    · rw [hlive, List.map_cons, hk]
      exact hkinds
    · rw [hlive]
      exact hwaiting
    · rw [hlive]
      intro other ho
      rcases List.mem_cons.mp ho with rfl | ho
      · exact hrecent entry List.mem_cons_self
      · exact hrecent other (List.mem_cons_of_mem _ ho)
  · exact h.replace_other hlog hm hb hk

/-- A running job of the branch makes the first move, and leaves the line when it ends. -/
theorem Line.finish (h : log.Line branchId first moves) (hlog : log.Sound issued)
    {entry : JobEntry} (hm : entry ∈ log.entries)
    (hb : entry.job.kind.branchId? = some branchId) (hs : entry.job.status = .started) :
    first ≤ entry.sequence ∧ ∃ move rest, moves = move :: rest ∧
      entry.job.kind = .schema branchId move.1 move.2 ∧
      ∀ job : Job, job.status.isTerminal = true →
        (log.replace entry.sequence job).Line branchId first rest := by
  have hin : entry ∈ log.live branchId :=
    List.mem_filter.mpr ⟨hm, isLive_iff.mpr ⟨hb, by rw [hs]; rfl⟩⟩
  obtain ⟨later, hl⟩ := h.eq_head hin hs
  have hordered : (log.live branchId).Pairwise fun a b => a.sequence < b.sequence :=
    hlog.ordered.filter _
  have hkinds := h.kinds
  have hwaiting := h.waiting
  have hrecent := h.recent
  rw [hl] at hkinds hwaiting hrecent
  rw [hl, List.pairwise_cons] at hordered
  refine ⟨hrecent entry List.mem_cons_self, ?_⟩
  cases moves with
  | nil => cases hkinds
  | cons move rest =>
    simp only [List.map_cons, List.cons.injEq] at hkinds
    refine ⟨move, rest, rfl, hkinds.1, fun job hj => ?_⟩
    have hlive : (log.replace entry.sequence job).live branchId = later := by
      rw [live_replace_of_isTerminal hj, hl, List.filter_cons_of_neg (by simp)]
      refine List.filter_eq_self.mpr fun other ho => ?_
      simpa using Nat.ne_of_gt (hordered.1 other ho)
    constructor
    · rw [hlive]
      exact hkinds.2
    · rw [hlive]
      exact fun other ho => hwaiting other (List.mem_of_mem_tail ho)
    · rw [hlive]
      exact fun other ho => hrecent other (List.mem_cons_of_mem _ ho)

/-- A failed job is still there when another one was logged. -/
theorem FailedSince.append (h : log.FailedSince branchId first) (job : Job) :
    (log.append job).FailedSince branchId first := by
  obtain ⟨entry, hm, hrest⟩ := h
  exact ⟨entry, List.mem_append_left _ hm, hrest⟩

/-- A failed job is still there when a job that had not ended was changed in place. -/
theorem FailedSince.replace (h : log.FailedSince branchId first) (hlog : log.Sound issued)
    {entry : JobEntry} (hm : entry ∈ log.entries) (ht : entry.job.status.isTerminal = false)
    (job : Job) : (log.replace entry.sequence job).FailedSince branchId first := by
  obtain ⟨failed, hf, hrecent, hb, hs⟩ := h
  refine ⟨failed, List.mem_map.mpr ⟨failed, hf, if_neg fun he => ?_⟩, hrecent, hb, hs⟩
  rw [← hlog.eq_of_sequence_eq hf hm he, hs] at ht
  cases ht

/-- A job that ends badly has failed. -/
theorem failedSince_replace {entry : JobEntry} (hm : entry ∈ log.entries)
    (hf : first ≤ entry.sequence) (hb : entry.job.kind.branchId? = some branchId) {job : Job}
    (hk : job.kind = entry.job.kind) (hs : job.status = .failed) :
    (log.replace entry.sequence job).FailedSince branchId first := by
  refine ⟨⟨entry.sequence, job⟩, List.mem_map.mpr ⟨entry, hm, if_pos rfl⟩, hf, ?_, hs⟩
  rw [← hb]
  exact congrArg JobKind.branchId? hk

end VersionedContent.JobLog

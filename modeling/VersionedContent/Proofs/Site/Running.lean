import VersionedContent.Proofs.Site.Confining
import VersionedContent.Proofs.Site.Reach

/-!
# What a run of jobs changes

Running what waits, and a worker that goes on until nothing waits, claim jobs and
run them to their end, one after the other. The log shows afterwards which jobs
have run. Edges have changed only on the branches of these jobs, and containers
are gone only when one of them was a purge.
-/

namespace VersionedContent

/-- Whether a logged job has been left alone or, if it waited, has ended. -/
structure JobEntry.Advances (before after : JobEntry) : Prop where
  /-- It is the same job. -/
  sequence : after.sequence = before.sequence
  /-- It is to do the same. -/
  kind : after.job.kind = before.job.kind
  /-- It has been left alone, or has ended. -/
  course : after.job = before.job ∨
    before.job.status = .queued ∧ after.job.status.isTerminal = true

/-- A job that waits after a while has waited before. -/
theorem JobEntry.Advances.queued {before after : JobEntry} (h : before.Advances after)
    (hq : after.job.status = .queued) : before.job.status = .queued := by
  rcases h.course with he | ⟨hb, -⟩
  · rw [← he]
    exact hq
  · exact hb

/-- A job that has ended stays ended. -/
theorem JobEntry.Advances.ended {before after : JobEntry} (h : before.Advances after)
    (ht : before.job.status.isTerminal = true) : after.job.status.isTerminal = true := by
  rcases h.course with he | ⟨-, ha⟩
  · rw [he]
    exact ht
  · exact ha

/-- A job that works on no branch is a purge. -/
theorem JobKind.type_eq_versionPurge {kind : JobKind} (h : kind.branchId? = none) :
    kind.type = .versionPurge := by
  cases kind with
  | versionPurge projectId before => rfl
  | _ => cases h

namespace Site

open VersionedContent.Action

variable {site next last : Site} {kind : JobKind}

/-- Whether a job of a kind waited on one site and has ended on another one. -/
def Ran (site next : Site) (kind : JobKind) : Prop :=
  ∃ before ∈ site.store.jobs.entries, ∃ after ∈ next.store.jobs.entries,
    after.sequence = before.sequence ∧ before.job.kind = kind ∧
      before.job.status = .queued ∧ after.job.status.isTerminal = true

/-- Whether logged jobs have advanced, with edges changed on the branches of those that ran only,
and containers gone only if a purge ran. -/
structure Progresses (site next : Site) : Prop where
  /-- Every job is still logged. -/
  forth : ∀ before ∈ site.store.jobs.entries, ∃ after ∈ next.store.jobs.entries,
    before.Advances after
  /-- No job has been added. -/
  back : ∀ after ∈ next.store.jobs.entries, ∃ before ∈ site.store.jobs.entries,
    before.Advances after
  /-- Where an edge has changed, a job of its branch ran. -/
  edges : ∀ key, next.store.edge? key ≠ site.store.edge? key →
    ∃ kind, Ran site next kind ∧ kind.branchId? = some key.branchId
  /-- Where a container has gone, a purge ran. -/
  removed : ∀ id, site.store.container? id ≠ none → next.store.container? id = none →
    ∃ kind, Ran site next kind ∧ kind.type = .versionPurge

/-- What ran before the jobs advanced further has run. -/
theorem Ran.progresses (h : Ran site next kind) (hp : Progresses next last) :
    Ran site last kind := by
  obtain ⟨before, hb, middle, hm, hs, hk, hq, ht⟩ := h
  obtain ⟨after, ha, hadvance⟩ := hp.forth middle hm
  exact ⟨before, hb, after, ha, hadvance.sequence.trans hs, hk, hq, hadvance.ended ht⟩

/-- What ran after the jobs had advanced so far has run. -/
theorem Progresses.ran (hp : Progresses site next) (h : Ran next last kind) :
    Ran site last kind := by
  obtain ⟨middle, hm, after, ha, hs, hk, hq, ht⟩ := h
  obtain ⟨before, hb, hadvance⟩ := hp.back middle hm
  exact ⟨before, hb, after, ha, hs.trans hadvance.sequence, hadvance.kind.symm.trans hk,
    hadvance.queued hq, ht⟩

/-- With the same records no job has advanced. -/
theorem Progresses.of_store_eq (hs : next.store = site.store) : Progresses site next where
  forth before hb := ⟨before, by rw [hs]; exact hb, rfl, rfl, .inl rfl⟩
  back after ha := ⟨after, by rw [← hs]; exact ha, rfl, rfl, .inl rfl⟩
  edges key hk := absurd (by rw [hs]) hk
  removed id hid hnone := absurd (hs ▸ hnone) hid

instance : Std.Refl Progresses := ⟨fun _ => .of_store_eq rfl⟩

/-- Jobs may advance step by step. -/
theorem Progresses.trans (hab : Progresses site next) (hbc : Progresses next last) :
    Progresses site last where
  forth before hb := by
    obtain ⟨middle, hm, hfirst⟩ := hab.forth before hb
    obtain ⟨after, ha, hsecond⟩ := hbc.forth middle hm
    refine ⟨after, ha, hsecond.sequence.trans hfirst.sequence, hsecond.kind.trans hfirst.kind, ?_⟩
    rcases hfirst.course with he | ⟨hq, ht⟩
    · rw [← he]
      exact hsecond.course
    · exact .inr ⟨hq, hsecond.ended ht⟩
  back after ha := by
    obtain ⟨middle, hm, hsecond⟩ := hbc.back after ha
    obtain ⟨before, hb, hfirst⟩ := hab.back middle hm
    refine ⟨before, hb, hsecond.sequence.trans hfirst.sequence,
      hsecond.kind.trans hfirst.kind, ?_⟩
    rcases hfirst.course with he | ⟨hq, ht⟩
    · rw [← he]
      exact hsecond.course
    · exact .inr ⟨hq, hsecond.ended ht⟩
  edges key hk := by
    by_cases hfirst : next.store.edge? key = site.store.edge? key
    · obtain ⟨kind, hran, hb⟩ := hbc.edges key (by rwa [hfirst])
      exact ⟨kind, hab.ran hran, hb⟩
    · obtain ⟨kind, hran, hb⟩ := hab.edges key hfirst
      exact ⟨kind, hran.progresses hbc, hb⟩
  removed id hid hnone := by
    by_cases hfirst : next.store.container? id = none
    · obtain ⟨kind, hran, ht⟩ := hab.removed id hid hfirst
      exact ⟨kind, hran.progresses hbc, ht⟩
    · obtain ⟨kind, hran, ht⟩ := hbc.removed id hfirst hnone
      exact ⟨kind, hab.ran hran, ht⟩

instance : IsTrans Site Progresses := ⟨fun _ _ _ => Progresses.trans⟩

/-- Where a job that waited has ended in place, every job has advanced. -/
theorem advances_replace {log : JobLog} {issued : Series} (h : log.Sound issued) {entry : JobEntry}
    (hm : entry ∈ log.entries) (hq : entry.job.status = .queued) {done : Job}
    (hk : done.kind = entry.job.kind) (ht : done.status.isTerminal = true) {other : JobEntry}
    (ho : other ∈ log.entries) :
    other.Advances
      (if other.sequence = entry.sequence then ⟨entry.sequence, done⟩ else other) := by
  split_ifs with hs
  · obtain rfl := h.eq_of_sequence_eq ho hm hs
    exact ⟨rfl, hk, .inr ⟨hq, ht⟩⟩
  · exact ⟨rfl, rfl, .inl rfl⟩

/-- When a job that waited has ended in place, jobs have advanced as far as its work was confined
to its branch. -/
theorem Progresses.of_replace {issued : Series} (hlog : site.store.jobs.Sound issued)
    {entry : JobEntry} (hm : entry ∈ site.store.jobs.entries) (hq : entry.job.status = .queued)
    {done : Job} (hk : done.kind = entry.job.kind) (ht : done.status.isTerminal = true)
    (hn : next.store.jobs = site.store.jobs.replace entry.sequence done)
    (hc : Confines entry.job.kind.branchId? site next) : Progresses site next := by
  have hadvance : ∀ other ∈ site.store.jobs.entries, other.Advances
      (if other.sequence = entry.sequence then ⟨entry.sequence, done⟩ else other) :=
    fun other ho => advances_replace hlog hm hq hk ht ho
  have hran : Ran site next entry.job.kind := by
    refine ⟨entry, hm, ⟨entry.sequence, done⟩, ?_, rfl, rfl, hq, ht⟩
    rw [hn]
    exact List.mem_map.mpr ⟨entry, hm, if_pos rfl⟩
  constructor
  · intro before hb
    refine ⟨_, ?_, hadvance before hb⟩
    rw [hn]
    exact List.mem_map.mpr ⟨before, hb, rfl⟩
  · intro after ha
    rw [hn] at ha
    obtain ⟨before, hb, rfl⟩ := List.mem_map.mp ha
    exact ⟨before, hb, hadvance before hb⟩
  · intro key hchanged
    refine ⟨_, hran, ?_⟩
    by_contra hother
    exact hchanged (hc.edges key hother)
  · intro id hid hgone
    refine ⟨_, hran, JobKind.type_eq_versionPurge ?_⟩
    by_contra hbranch
    exact hc.kept hbranch id hid hgone

/-- Claiming a job finds none, or one that can be run to its end. -/
theorem Reachable.claims (h : Reachable site) :
    (∃ next, outcome claimNext site = (.ok none, next) ∧ Reachable next ∧ Progresses site next) ∨
      ∃ job claimed done next, outcome claimNext site = (.ok (some job), claimed) ∧
        outcome (process job) claimed = (.ok (some done), next) ∧ Reachable next ∧
        Progresses site next := by
  have hclaim := outcome_claimNext h.sound.outages
  have hreached : Reachable (outcome claimNext site).2 := h.call .claimNext trivial
  cases hn : site.store.jobs.nextEligible? with
  | none =>
    rw [hn] at hclaim
    rw [hclaim] at hreached
    exact .inl ⟨_, hclaim, hreached, .of_store_eq rfl⟩
  | some entry =>
    obtain ⟨hm, hq, -⟩ := JobLog.isEligible_of_nextEligible? hn
    obtain ⟨begun, hbegun⟩ : ∃ begun, begun =
        entry.job.begun (site.clock.reading site.clock.reads) := ⟨_, rfl⟩
    have hkind : begun.kind = entry.job.kind := by rw [hbegun]; rfl
    rw [hn] at hclaim
    dsimp only at hclaim
    rw [← hbegun] at hclaim
    rw [hclaim] at hreached
    obtain ⟨claimed, hclaimed⟩ : ∃ claimed : Site, claimed = { ticked site with
      store := { site.store with
        jobs := site.store.jobs.replace entry.sequence begun } } := ⟨_, rfl⟩
    rw [← hclaimed] at hclaim hreached
    have hjobs : claimed.store.jobs = site.store.jobs.replace entry.sequence begun := by
      rw [hclaimed]
    have hlogged : ⟨entry.sequence, begun⟩ ∈ claimed.store.jobs.entries := by
      rw [hjobs]
      exact List.mem_map.mpr ⟨entry, hm, if_pos rfl⟩
    obtain ⟨next, hrun, hstore⟩ := outcome_process hreached.sound hlogged
      (by rw [hbegun]; rfl) (Prod.mk.eta (p := outcome (execute begun.kind) claimed)).symm
    have hlast : Reachable (outcome (process begun) claimed).2 :=
      hreached.call (.process begun) trivial
    have hconfined := confines_process hreached.sound hreached.historied begun
    rw [hrun] at hlast hconfined
    have hlog := congrArg Store.jobs hstore
    dsimp only at hlog
    rw [hjobs, JobLog.replace_replace] at hlog
    have hstarted : Rests site claimed := by
      rw [hclaimed]
      exact ⟨rfl, rfl⟩
    refine .inr ⟨begun, claimed, _, next, hclaim, hrun, hlast, ?_⟩
    refine .of_replace h.sound.logged hm hq ?_ ?_ hlog ?_
    · exact hkind
    · exact isTerminal_verdict _
    · rw [← hkind]
      exact IsTrans.trans _ _ _ (hstarted.confines _) hconfined

/-- Jobs may be claimed and run until none is eligible. -/
theorem progresses_drain (fuel : Nat) :
    Within Reachable Progresses (fun _ => True) (drain .ample fuel) := by
  induction fuel with
  | zero => exact within_pure trivial
  | succ fuel ih =>
    intro site h
    rw [drain]
    rcases h.claims with ⟨next, hclaim, hreached, hp⟩ |
      ⟨job, claimed, done, next, hclaim, hrun, hreached, hp⟩
    · rw [outcome_bind_of_ok hclaim]
      exact ⟨hreached, hp, fun _ _ => trivial⟩
    · rw [outcome_bind_of_ok hclaim]
      dsimp only
      rw [outcome_bind_of_ok hrun]
      obtain ⟨hlast, hrest, -⟩ := within_bind ih
        (fun rest _ => within_pure (P := fun _ => True) trivial) next hreached
      exact ⟨hlast, hp.trans hrest, fun _ _ => trivial⟩

/-- A worker may look for work. -/
theorem progresses_poll (guard : WriteGuard) (backoff : Backoff) :
    Within Reachable Progresses (fun _ => True) (poll guard backoff) := by
  intro site h
  unfold poll
  dsimp only
  split
  · rw [outcome_bind_of_ok (outcome_attempt _ _)]
    rcases h.claims with ⟨next, hclaim, hreached, hp⟩ |
      ⟨job, claimed, done, next, hclaim, hrun, hreached, hp⟩
    · rw [hclaim]
      exact ⟨hreached, hp, fun _ _ => trivial⟩
    · rw [hclaim]
      dsimp only
      rw [outcome_bind_of_ok hrun]
      exact ⟨hreached, hp, fun _ _ => trivial⟩
  · exact ⟨h, refl site, fun _ _ => trivial⟩

/-- What waits may be run. -/
theorem progresses_runPending : Within Reachable Progresses (fun _ => True) runPending :=
  within_bind (P := fun _ => True) (within_query fun _ _ => trivial)
    fun waiting _ => progresses_drain (waiting + 1)

/-- A worker may run. -/
theorem progresses_runWorker (guard : WriteGuard) (settings : MigrationSettings) :
    Within Reachable Progresses (fun _ => True) (runWorker guard settings) :=
  within_runWorker (progresses_poll guard) settings

end Site

end VersionedContent

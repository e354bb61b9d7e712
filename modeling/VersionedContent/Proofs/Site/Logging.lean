import VersionedContent.Proofs.Jobs.Log
import VersionedContent.Proofs.Site.Branches
import VersionedContent.Proofs.Site.Work

/-!
# Calls on the log of jobs

The calls that queue, start, end and drop jobs read the clock and write to the
log, and forget usage hashes and announce what has ended on the way. Whatever
these few writes keep each of the calls keeps, whether it fails or not.
-/

namespace VersionedContent.Site

open VersionedContent.Action

/-- Whether a property of sites and a relation between them are kept by the writes that calls on the
log are made of. -/
structure Logs (I : Site → Prop) (R : Site → Site → Prop) : Prop where
  /-- No outage is planned. -/
  outages : ∀ site, I site → site.outages = []
  /-- The clock may be read. -/
  clock : Within I R (fun _ => True) now
  /-- The log may be written to. -/
  log : ∀ {α : Type} {transaction : Transaction α}, transaction.KeepsLog →
    Within I R (fun _ => True) (transact transaction)
  /-- Jobs may be queued. -/
  enqueue : ∀ kind retryOf, Within I R (fun _ => True) (enqueueJob kind retryOf)
  /-- Usage hashes may be forgotten, and events may change. -/
  beside : ∀ f : Site → Site,
    (∀ site, f site = { site with memo := (f site).memo, events := (f site).events }) →
      (∀ site, ∀ entry ∈ (f site).memo, entry ∈ site.memo) →
        Within I R (fun _ => True) (modify f : Action PUnit)

variable {I : Site → Prop} {R : Site → Site → Prop} [Std.Refl R] [IsTrans Site R]

omit [Std.Refl R] [IsTrans Site R] in
/-- Calls on the log keep what holds between sites with the same records apart from the log and the
same kept compiled, where nothing new is remembered. -/
theorem logs_of_aside
    (h : ∀ site next : Site, next.store = { site.store with jobs := next.store.jobs } →
      next.cache = site.cache → (∀ entry ∈ next.memo, entry ∈ site.memo) → R site next) :
    Logs (fun site => site.outages = []) R where
  outages _ ho := ho
  clock site ho := ⟨ho, h site _ rfl rfl fun _ => id, fun _ _ => trivial⟩
  log hkeeps site ho := by
    obtain ⟨answer, log, hout, -⟩ := hkeeps site.store
    rw [outcome_transact, hout]
    exact ⟨ho, h site _ rfl rfl fun _ => id, fun _ _ => trivial⟩
  enqueue kind retryOf site ho := by
    rw [outcome_enqueueJob ho]
    exact ⟨ho, h site _ rfl rfl fun _ => id, fun _ _ => trivial⟩
  beside f hf hm := within_modify fun site ho => by
    refine ⟨?_, h site _ ?_ ?_ (hm site)⟩
    · rw [hf]
      exact ho
    · rw [hf]
    · rw [hf]

/-- Usage hashes may be computed where the memo may change. -/
theorem within_computeHash
    (h : ∀ site memo, I site → I { site with memo := memo } ∧ R site { site with memo := memo })
    (versionId branchId : Id) (replacements : Dict Id) :
    Within I R (fun _ => True) (computeHash versionId branchId replacements) := by
  unfold computeHash
  refine within_bind (within_version (P := fun _ => True) fun _ _ _ _ => trivial)
    fun version _ => ?_
  refine within_bind (within_branch branchId) fun branch _ => ?_
  exact fun site hi => ⟨(h site _ hi).1, (h site _ hi).2, fun _ _ => trivial⟩

/-- The walk over a chain touches nothing. -/
theorem within_versions (hI : ∀ site, I site → site.outages = []) (kind : Kind) (name : String) :
    Within I R (fun _ => True) (Site.versions kind name) := by
  have hnext : ∀ walk : ChainWalk, Within I R (fun _ => True) walk.next := by
    intro walk
    unfold ChainWalk.next
    cases walk.cursor with
    | done => exact within_pure trivial
    | start =>
      refine within_bind (P := fun _ => True) ?_ fun answer _ => ?_
      · exact (within_attempt (P := fun _ => True)
          (within_unlessOut hI (within_query fun _ _ => trivial))).imp fun _ _ => trivial
      · rcases answer with failure | found
        · exact within_pure trivial
        · cases found <;> exact within_pure trivial
    | «at» id =>
      refine within_bind (P := fun _ => True) (within_query fun _ _ => trivial) fun answer _ => ?_
      cases answer <;> exact within_pure trivial
  have hcollect : ∀ (fuel : Nat) (passed : List Version) (walk : ChainWalk),
      Within I R (fun _ => True) (walk.collect fuel passed) := by
    intro fuel
    induction fuel with
    | zero => exact fun _ _ => within_pure trivial
    | succ fuel ih =>
      intro passed walk
      rw [ChainWalk.collect]
      refine within_bind (hnext walk) fun answer _ => ?_
      rcases answer with ⟨failure | found, walk⟩
      · exact within_pure trivial
      · cases found with
        | none => exact within_pure trivial
        | some version => exact ih _ _
  unfold Site.versions ChainWalk.collectAll
  rw [bind_assoc]
  refine within_bind (P := fun _ => True) (within_query fun _ _ => trivial) fun size _ => ?_
  refine within_bind (hcollect _ _ _) fun answer _ => ?_
  rcases answer with ⟨failure | versions, walk⟩
  · exact within_throw _
  · exact within_pure trivial

/-- Content of a branch may be counted. -/
theorem within_pendingTotal (branchId : Id) (list : List Version) :
    Within I R (fun _ => True) (pendingTotal branchId list) := by
  induction list with
  | nil => exact within_pure trivial
  | cons version rest ih =>
    refine within_bind (P := fun _ => True) (within_query fun _ _ => trivial) fun pending _ => ?_
    exact within_bind ih fun _ _ => within_pure trivial

/-- A job is looked up without touching the site. -/
theorem within_job (id : Id) : Within I R (fun _ => True) (job id) := by
  unfold job
  refine within_bind (P := fun _ => True) (within_query fun _ _ => trivial) fun found _ => ?_
  exact within_orNotFound fun _ _ => trivial

section Logs

variable (h : Logs I R)

include h

omit [Std.Refl R] [IsTrans Site R] in
/-- Usage hashes may be forgotten. -/
theorem within_forgetUsage (branchId : Id) :
    Within I R (fun _ => True) (forgetUsage branchId) :=
  h.beside _ (fun _ => rfl) fun _ _ hm => List.mem_of_mem_filter hm

/-- A job may follow from a pin that has moved. -/
theorem within_queueBelow (branchId : Id) (version : Version) (former : Option Version) :
    Within I R (fun _ => True) (queueBelow branchId version former) := by
  cases former with
  | none => exact within_pure trivial
  | some former =>
    dsimp only [queueBelow]
    split
    · refine within_bind (P := fun _ => True) ?_ fun pending _ => ?_
      · unfold pendingBelow
        exact within_bind (within_versions h.outages _ _) fun _ _ => within_pendingTotal _ _
      · split
        · exact within_pure trivial
        · exact within_bind (h.enqueue _ none) fun _ _ => within_pure trivial
    · exact within_pure trivial

/-- The content of a branch may be queued to follow its pins. -/
theorem within_migrateRemaining (branchId : Id) (kind : Kind) :
    Within I R (fun _ => True) (migrateRemaining branchId kind) := by
  unfold migrateRemaining assignedVersions
  rw [bind_assoc]
  refine within_bind (within_branch branchId) fun branch _ => ?_
  refine within_bind (within_mapM fun id _ => within_version (P := fun _ => True)
    fun _ _ _ _ => trivial) fun pinned _ => ?_
  refine within_bind (within_mapM (Q := fun _ _ => True) fun version _ => ?_)
    fun jobs _ => within_pure trivial
  unfold migrateRemainingOf
  refine within_bind (within_versions h.outages _ _) fun chain _ => ?_
  refine within_filterMapM fun older _ => ?_
  refine within_bind (P := fun _ => True) (within_query fun _ _ => trivial) fun pending _ => ?_
  split
  · exact within_bind (h.enqueue _ none) fun _ _ => within_pure trivial
  · exact within_pure trivial

omit [Std.Refl R] in
/-- The next job may be started. -/
theorem within_claimNext : Within I R (fun _ => True) claimNext := by
  unfold claimNext
  refine within_bind h.clock fun startedAt _ => ?_
  exact within_unlessOut h.outages (h.log (Store.keepsLog_claimNextJob startedAt))

/-- A job may be ended. -/
theorem within_finish (id : Id) (status : JobStatus) (error : Option JobError) :
    Within I R (fun _ => True) (finish id status error) := by
  unfold finish
  refine within_bind h.clock fun stoppedAt _ => ?_
  refine within_bind (P := fun _ => True) ?_ fun answer _ => ?_
  · exact within_unlessOut h.outages
      (h.log (Store.keepsLog_finishJob id status error stoppedAt))
  · cases answer with
    | some job => exact within_pure trivial
    | none => exact within_bind (within_job id) fun _ _ => within_throw _

/-- Failed jobs may be queued again. -/
theorem within_retry (id : Id) : Within I R (fun _ => True) (retry id) := by
  unfold retry
  refine within_bind (within_job id) fun failed _ => ?_
  dsimp only
  split
  · exact within_throw_bind _ _
  · exact h.enqueue _ _

/-- A job that does not run may be dropped. -/
theorem within_deleteJob (id : Id) : Within I R (fun _ => True) (deleteJob id) := by
  unfold deleteJob
  refine within_bind (h.log (Store.keepsLog_deleteJob id)) fun deleted _ => ?_
  split
  · exact within_pure trivial
  · exact within_bind (within_job id) fun _ _ => within_throw _

omit [Std.Refl R] [IsTrans Site R] in
/-- Failed jobs may be dropped. -/
theorem within_purgeFailed : Within I R (fun _ => True) purgeFailed :=
  h.log (Store.keepsLog_deleteJobsWithStatus .failed)

/-- All jobs may be dropped. -/
theorem within_clearJobs : Within I R (fun _ => True) clearJobs := by
  unfold clearJobs
  refine within_bind (h.log Store.keepsLog_clearJobs) fun count _ => ?_
  cases count with
  | none => exact within_throw _
  | some count => exact within_pure trivial

omit [Std.Refl R] in
/-- The end of a job may be announced. -/
theorem within_announce (job : Job) : Within I R (fun _ => True) (announce job) := by
  have hsend : Within I R (fun _ => True) (modify fun site =>
      { site with events := site.events.send (.ofJob job) } : Action PUnit) :=
    h.beside _ (fun _ => rfl) fun _ _ hm => hm
  unfold announce
  cases job.kind.branchId? with
  | none => exact hsend
  | some branchId =>
    dsimp only
    split
    · exact within_bind (within_forgetUsage h branchId) fun _ _ => hsend
    · exact hsend

end Logs

end VersionedContent.Site

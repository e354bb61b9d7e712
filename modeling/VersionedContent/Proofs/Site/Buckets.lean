import VersionedContent.Proofs.Site.Confining
import VersionedContent.Proofs.Site.Copying
import VersionedContent.Proofs.Site.Overlooking

/-!
# Buckets

A job handles its content in pages of one bucket. Going through pages comes to
going through everything in a row, and none of what is done in a row looks at the
size of a bucket. So a job does the same whatever that size is, and so do the jobs
that wait, run one after the other.
-/

namespace VersionedContent.Site

open VersionedContent.Action

variable {memo : UsageMemo → UsageMemo} {bucket : Nat → Nat} {site : Site}
  {versions : Table Version Version.id} {given issued : Series} {origin : Store}

/-- A steady site is steady whatever is kept beside. -/
theorem Steady.beside (h : Steady versions given site) :
    Steady versions given (site.beside memo bucket) :=
  ⟨h.outages, h.versions, h.issued, h.housed⟩

/-- A purge goes on whatever is kept beside. -/
theorem Purging.beside (h : Purging origin issued site) (hb : ∀ size, 0 < bucket size) :
    Purging origin issued (site.beside memo bucket) :=
  ⟨h.outages, hb site.bucketSize, h.pruned, h.historied⟩

/-- The content of a branch is moved alike whatever the size of a bucket. -/
theorem Steady.overlooksAt_migrateBranchContent (h : Steady versions given site)
    (hsize : 0 < site.bucketSize) (hb : ∀ size, 0 < bucket size) {plan : MigrationPlan}
    (hp : given.IsPast plan.target.id) (branchId : Id) :
    OverlooksAt memo bucket site (migrateBranchContent branchId plan) := by
  cases hfound : site.store.branch? branchId with
  | none =>
    obtain ⟨failure, hmissing⟩ := outcome_branch_of_none hfound
    exact (overlooks_branch branchId site).bind_of_error hmissing
  | some found =>
    have hrow : OverlooksAt memo bucket site
        ((site.store.contentOf plan.source.kind plan.source.id branchId).filterMapM fun entry =>
          migrateContainer plan entry.1 entry.2) :=
      overlooks_filterMapM (fun entry _ => overlooks_migrateContainer plan entry.1 entry.2) site
    exact hrow.of_eq (outcome_migrateBranchContent_eq hp h hsize hfound)
      (outcome_migrateBranchContent_eq hp h.beside (hb _) hfound)

/-- A migration is carried out alike whatever the size of a bucket. -/
theorem Sound.overlooksAt_migration (h : Sound site) (hb : ∀ size, 0 < bucket size) (kind : Kind)
    (branchId source target : Id) :
    OverlooksAt memo bucket site (execute (.migration kind branchId source target)) := by
  rw [execute_migration]
  obtain ⟨hrecached, hfound⟩ := recached_plan h kind source target
  refine (overlooks_plan kind source target site).bind fun plan planned hplan => ?_
  rw [hplan] at hrecached hfound
  obtain ⟨cache, rfl⟩ : ∃ cache, planned = { site with cache := cache } := ⟨_, hrecached⟩
  have hsteady : Steady site.store.versions site.issued.versions { site with cache := cache } :=
    ⟨h.outages, rfl, rfl, h.housed⟩
  exact hsteady.overlooksAt_migrateBranchContent h.bucketSize hb (hfound plan rfl).2 branchId

/-- The edges of a base are copied alike whatever the size of a bucket. -/
theorem Steady.overlooksAt_copyBaseBranch (h : Steady versions given site)
    (hsize : 0 < site.bucketSize) (hb : ∀ size, 0 < bucket size) (branchId : Id) :
    OverlooksAt memo bucket site (copyBaseBranch branchId) := by
  cases hfound : site.store.branch? branchId with
  | none =>
    obtain ⟨failure, hmissing⟩ := outcome_branch_of_none hfound
    exact (overlooks_branch branchId site).bind_of_error hmissing
  | some forked =>
    refine (overlooks_branch branchId site).bind_of_ok (outcome_branch hfound) ?_
    split
    · exact overlooks_pure _ _
    · cases forked.baseId with
      | none => exact overlooks_throw _ _
      | some baseId =>
        have hrow : OverlooksAt memo bucket site
            ((site.store.edgesOf baseId).mapM (copyEdge branchId)) :=
          overlooks_mapM (fun edge _ => overlooks_copyEdge branchId edge) site
        have hpages := hrow.of_eq (outcome_gatherAll_copyEdge_eq h hsize baseId branchId)
          (outcome_gatherAll_copyEdge_eq h.beside (hb _) baseId branchId)
        exact hpages.bind fun _ copied _ => overlooks_bind (overlooks_branch branchId)
          (fun current => overlooks_upsertBranch { current with migrated := true }) copied

/-- The history behind the edges of some branches is purged alike whatever the size of a bucket. -/
theorem Purging.overlooksAt_forM (ho : origin.Historied issued) (before : Option Instant)
    (hb : ∀ size, 0 < bucket size) (branches : List Branch) (h : Purging origin issued site) :
    OverlooksAt memo bucket site (branches.forM (purgeBranch before)) := by
  induction branches generalizing site with
  | nil => exact overlooks_pure _ _
  | cons branch rest ih =>
    have hrow : OverlooksAt memo bucket site
        (do let _ ← (origin.edgesOf branch.id).mapM (purgeBehind before)) :=
      overlooks_bind (overlooks_mapM fun edge _ => overlooks_purgeBehind before edge)
        (fun _ => overlooks_pure _) site
    have hbranch := hrow.of_eq (outcome_purgeBranch_eq before ho h branch)
      (outcome_purgeBranch_eq before ho (h.beside hb) branch)
    obtain ⟨_, purged, hrun, hpurged, -⟩ := purges_purgeBranch before ho branch site h
    exact hbranch.bind_of_ok hrun (ih hpurged)

/-- A site whose jobs may be executed. -/
structure Workable (site : Site) : Prop where
  /-- The site is sound. -/
  sound : Sound site
  /-- The history of its content is in order. -/
  historied : site.store.Historied site.issued.containers

/-- What is harmless leaves jobs that may be executed. -/
theorem Workable.of_harmless {α : Type} {P : α → Prop} {action : Action α} (h : Workable site)
    (ha : Harmless site.store.versions site.issued.versions P action) :
    Workable (outcome action site).2 := by
  obtain ⟨hnext, hproceeds, -⟩ := ha site ⟨h.sound, rfl, rfl⟩
  exact ⟨hnext.sound, hproceeds.edits.historied h.historied⟩

/-- Any job is executed alike whatever the size of a bucket. -/
theorem Workable.overlooksAt_execute (h : Workable site) (hb : ∀ size, 0 < bucket size)
    (kind : JobKind) : OverlooksAt memo bucket site (execute kind) := by
  cases kind with
  | schema branchId source target => exact h.sound.overlooksAt_migration hb .schema ..
  | microschema branchId source target => exact h.sound.overlooksAt_migration hb .microschema ..
  | branch branchId source target =>
    have hcopy : OverlooksAt memo bucket site (copyBaseBranch branchId) :=
      h.sound.steady.overlooksAt_copyBaseBranch h.sound.bucketSize hb branchId
    refine hcopy.bind fun _ copied hcopied => ?_
    cases source with
    | none => exact overlooks_pure _ _
    | some source =>
      cases target with
      | none => exact overlooks_pure _ _
      | some target =>
        obtain ⟨hsteady, hworks, -⟩ := @within_copyBaseBranch _ _ (· = branchId) branchId rfl site
          h.sound.steady
        rw [hcopied] at hsteady hworks
        exact (h.sound.of_works hsteady hworks).overlooksAt_migration hb .schema branchId source
          target
  | versionPurge projectId before =>
    have hpurging := h.sound.purging h.historied
    have hpurge : OverlooksAt memo bucket site (purgeVersions projectId before) :=
      hpurging.overlooksAt_forM h.historied before hb
        (site.store.listBranches (some projectId))
    exact hpurge.bind fun _ _ _ => overlooks_pure _ _

/-- The end of a job is recorded alike whatever the size of a bucket. -/
theorem overlooks_record (job : Job) (status : JobStatus) (error : Option JobError) :
    Overlooks id bucket (record job status error) := by
  refine overlooks_bind (fun site => (overlooks_finish job.id status error site).attempt)
    fun recorded => ?_
  cases recorded with
  | error failure => exact overlooks_pure _
  | ok finished => exact overlooks_bind (overlooks_announce finished) fun _ => overlooks_pure _

/-- A job is run alike whatever the size of a bucket. -/
theorem Workable.overlooksAt_process (h : Workable site) (hb : ∀ size, 0 < bucket size)
    (job : Job) : OverlooksAt id bucket site (process job) := by
  rw [process_eq]
  exact (h.overlooksAt_execute hb job.kind).attempt.bind fun answer next _ =>
    overlooks_record job (verdict answer).1 (verdict answer).2 next

/-- Running a job gives an answer, whether its end can be recorded or not. -/
theorem exists_outcome_process (job : Job) (site : Site) :
    ∃ finished next, outcome (process job) site = (.ok finished, next) := by
  rw [process_eq, outcome_bind_of_ok (outcome_attempt _ _)]
  unfold record
  rw [outcome_bind_of_ok (outcome_attempt _ _)]
  generalize outcome (finish job.id _ _) _ = ended
  obtain ⟨failure | finished, recorded⟩ := ended
  · exact ⟨none, recorded, rfl⟩
  · obtain ⟨next, hannounced, -⟩ := outcome_announce finished recorded
    exact ⟨some finished, next, outcome_bind_of_ok hannounced _⟩

/-- Starting the next job gives an answer, whether there is one or not. -/
theorem exists_outcome_claimNext (h : Sound site) :
    ∃ claimed next, outcome claimNext site = (.ok claimed, next) := by
  rw [outcome_claimNext h.outages]
  cases site.store.jobs.nextEligible? <;> exact ⟨_, _, rfl⟩

/-- Jobs that are run one after the other are run alike whatever the size of a bucket, and give an
answer. -/
theorem Workable.overlooksAt_drain (hb : ∀ size, 0 < bucket size) (fuel : Nat)
    (h : Workable site) :
    OverlooksAt id bucket site (drain .ample fuel) ∧
      ∃ finished next, outcome (drain .ample fuel) site = (.ok finished, next) := by
  -- A job that is started and run leaves a site whose jobs may be executed, so that the rest
  -- goes on.
  induction fuel generalizing site with
  | zero => exact ⟨overlooks_pure _ _, [], site, rfl⟩
  | succ fuel ih =>
    obtain ⟨claimed, started, hclaim⟩ := exists_outcome_claimNext h.sound
    have hstarted : Workable started := by
      have hnext := h.of_harmless (within_claimNext harmless_logs)
      rwa [hclaim] at hnext
    rw [drain]
    cases claimed with
    | none => exact ⟨(overlooks_claimNext site).bind_of_ok hclaim (overlooks_pure _ _), [], started,
        outcome_bind_of_ok hclaim _⟩
    | some job =>
      obtain ⟨done, ran, hrun⟩ := exists_outcome_process job started
      have hran : Workable ran := by
        have hnext := hstarted.of_harmless (harmless_process job)
        rwa [hrun] at hnext
      obtain ⟨hrest, finished, last, hdrain⟩ := ih hran
      refine ⟨(overlooks_claimNext site).bind_of_ok hclaim ?_, done.toList ++ finished, last, ?_⟩
      · exact (hstarted.overlooksAt_process hb job).bind_of_ok hrun
          (hrest.bind_of_ok hdrain (overlooks_pure _ _))
      · exact (outcome_bind_of_ok hclaim _).trans <| (outcome_bind_of_ok hrun _).trans <|
          outcome_bind_of_ok hdrain _

/-- On every reachable site, whatever its clock shows, the jobs that wait are run alike whatever the
size of a bucket: the same jobs are finished in the same order, with the same reports, and the sites
that are left differ in that size only. -/
theorem Reachable.runPending_resized (h : Reachable site) (clock : Clock) (first second : Nat) :
    ∃ (finished : List Job) (last : Site),
      outcome runPending { site with clock := clock, bucketSize := max first 1 } =
        (.ok finished, { last with bucketSize := max first 1 }) ∧
      outcome runPending { site with clock := clock, bucketSize := max second 1 } =
        (.ok finished, { last with bucketSize := max second 1 }) := by
  have hsize (bucket : Nat) : 0 < max bucket 1 :=
    Nat.lt_of_lt_of_le Nat.one_pos (Nat.le_max_right _ _)
  have hworkable : Workable { site with clock := clock, bucketSize := max first 1 } :=
    ⟨{ h.sound with bucketSize := hsize first }, h.historied⟩
  have hdrain (bucket : Nat) := @Workable.overlooksAt_drain (fun _ => max bucket 1) _
    (fun _ => hsize bucket) (site.store.jobs.waiting + 1) hworkable
  -- The first run is the one that both are compared with; compared with itself it keeps its size.
  obtain ⟨finished, last, hrun⟩ := (hdrain first).2
  refine ⟨finished, last, ?_, ?_⟩
  · have hfirst := (hdrain first).1
    rw [OverlooksAt, hrun] at hfirst
    exact hfirst
  · have hsecond := (hdrain second).1
    rw [OverlooksAt, hrun] at hsecond
    exact hsecond

/-- Jobs of each kind end alike, whether one container is handled at a time or three: one reports a
text that cannot become a truth value, and the purge takes out what its branch has left behind. -/
theorem runPending_of_each_kind :
    let flagged (type : FieldType) : FieldSpec := { name := "flag", type := type }
    let image : FieldSpec := { name := "image", type := .micronode, allow := ["image"] }
    let content (text : String) : FieldMap :=
      [("flag", .string text), ("image", .micronode ⟨"image", "@v1", [("flag", .string "true")]⟩)]
    let calls : List Call :=
      [.createSchema .microschema { name := "image", fields := [flagged .string] },
        .createSchema .schema { name := "article", fields := [flagged .string, image] },
        .createBranch "p1" "main" none, .assignLatest "@b1" .microschema "image",
        .assignLatest "@b1" .schema "article",
        .addContent "@b1" "n1" "en" "@v2" (content "true") [.draft],
        .addContent "@b1" "n2" "en" "@v2" (content "perhaps") [.published],
        .createBranch "p2" "main" none, .assignLatest "@b2" .schema "article",
        .addContent "@b2" "n1" "en" "@v2" (content "true") [.draft],
        .updateSchema .microschema "image" { name := "image", fields := [flagged .boolean] } []
          none,
        .updateSchema .schema "article"
          { name := "article", fields := [flagged .boolean, image] } [] none,
        .assignLatest "@b1" .schema "article", .assignLatest "@b1" .microschema "image",
        .createBranch "p1" "fork" (some "@b1"), .assignLatest "@b2" .schema "article",
        .enqueue (.versionPurge "p2" none)]
    let site := Call.afterAll (.empty (.ticking ⟨0, 0⟩) 10 10) calls
    let clock : Clock := { reading := fun _ => ⟨0, 0⟩ }
    let ends : List (JobType × JobStatus) := [(.schema, .failed), (.microschema, .completed),
      (.branch, .completed), (.schema, .completed), (.versionPurge, .completed)]
    ∃ (finished : List Job) (last : Site),
      outcome runPending { site with clock := clock, bucketSize := max 0 1 } =
        (.ok finished, { last with bucketSize := max 0 1 }) ∧
      outcome runPending { site with clock := clock, bucketSize := max 3 1 } =
        (.ok finished, { last with bucketSize := max 3 1 }) ∧
      (finished.map fun job => (job.kind.type, job.status)) = ends ∧
      (last.store.edges.rows.map fun edge => (edge.branchId, edge.nodeId, edge.containerId)) =
        [("@b1", "n1", "@c5"), ("@b1", "n2", "@c6"), ("@b2", "n1", "@c7"), ("@b3", "n1", "@c5"),
          ("@b3", "n2", "@c6")] ∧
      last.store.container? "@c3" = none := by
  intro flagged image content calls site clock ends
  have hgiven : Call.areGiven (.empty (.ticking ⟨0, 0⟩) 10 10) calls = true := by decide +kernel
  have hreach : Reachable site := (Managed.calls (.empty (.ticking ⟨0, 0⟩) 10 10) hgiven).reachable
  obtain ⟨finished, last, hfirst, hsecond⟩ := hreach.runPending_resized clock 0 3
  have hanswer : ((outcome runPending { site with clock := clock, bucketSize := max 0 1 }).1.map
      fun jobs : List Job => jobs.map fun job => (job.kind.type, job.status)).toOption =
        some ends := by decide +kernel
  have hlast : (outcome runPending { site with clock := clock, bucketSize := max 0 1 }).2 =
      { last with bucketSize := max 0 1 } := congrArg Prod.snd hfirst
  rw [hfirst] at hanswer
  refine ⟨finished, last, hfirst, hsecond, Option.some.inj hanswer, ?_⟩
  change ({ last with bucketSize := max 0 1 } : Site).store.edges.rows.map _ = _ ∧
    ({ last with bucketSize := max 0 1 } : Site).store.container? "@c3" = none
  rw [← hlast]
  decide +kernel

end VersionedContent.Site

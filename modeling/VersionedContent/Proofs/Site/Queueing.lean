import VersionedContent.Proofs.Jobs.Pending
import VersionedContent.Proofs.Jobs.Stages
import VersionedContent.Proofs.Site.Pinning

/-!
# What is queued for content that is behind

Queueing the content that is behind the pins of a branch goes through the pinned
versions of a kind and through the versions below each of them. It logs one job
for every such version that is counted on the branch, in this order, and does
nothing else. Each of these jobs moves content forward in a chain, to the version
that the branch pins.
-/

namespace VersionedContent

/-- Whether one store comes from another one by queueing jobs of certain kinds. -/
inductive Store.Queues (P : JobKind → Prop) : Store → Store → Prop
  /-- No job is queued. -/
  | none {store : Store} : Queues P store store
  /-- One more job is queued. -/
  | job {store next : Store} (before : Queues P store next) {job : Job} (kind_mem : P job.kind)
      (status_eq : job.status = .queued) :
      Queues P store { next with jobs := next.jobs.append job }

/-- Jobs may be queued after others. -/
theorem Store.Queues.trans {P : JobKind → Prop} {a b c : Store} (hab : a.Queues P b)
    (hbc : b.Queues P c) : a.Queues P c := by
  induction hbc with
  | none => exact hab
  | job before kind_mem status_eq ih => exact .job ih kind_mem status_eq

/-- The move of content from an older version of a schema to the one that a branch pins. -/
inductive Store.FollowsPin (store : Store) (branchId : Id) : JobKind → Prop
  /-- Both versions are in one chain, in this order. -/
  | move {older pinned : Version} (older_mem : older ∈ store.chainVersions .schema pinned.name)
      (pinned_mem : pinned ∈ store.chainVersions .schema pinned.name)
      (lt : older.number < pinned.number)
      (pin_eq : store.pin? branchId .schema pinned.name = some pinned.id) :
      FollowsPin store branchId (.schema branchId older.id pinned.id)

namespace Store

variable {store : Store} {branchId : Id} {kind : Kind} {name : String} {version : Version}

/-- Jobs of certain kinds may be queued one after another. -/
theorem queues_foldl {P : JobKind → Prop} (store : Store) {jobs : List Job}
    (hk : ∀ job ∈ jobs, P job.kind) (hq : ∀ job ∈ jobs, job.asQueued = job) :
    store.Queues P { store with jobs := jobs.foldl .append store.jobs } := by
  induction jobs generalizing store with
  | nil => exact .none
  | cons job rest ih =>
    have hwaits : job.status = .queued := by
      rw [← hq job List.mem_cons_self]
      rfl
    have hfirst : store.Queues P { store with jobs := store.jobs.append job } :=
      .job .none (hk job List.mem_cons_self) hwaits
    exact hfirst.trans (ih { store with jobs := store.jobs.append job }
      (fun other hm => hk other (List.mem_cons_of_mem _ hm))
      fun other hm => hq other (List.mem_cons_of_mem _ hm))

/-- The versions of a kind that a branch pins, in the order of their names. -/
def pinnedVersions (store : Store) (branchId : Id) (kind : Kind) : List Version :=
  ((store.branch? branchId).elim [] fun branch => Dict.values (branch.pins kind)).filterMap
    store.version?

/-- What is to be done for content of a branch that is behind a pinned version. -/
def overdue (store : Store) (branchId : Id) (pinned : Version) : List JobKind :=
  ((store.chainVersions pinned.kind pinned.name).filter fun older =>
    older.number < pinned.number).filterMap fun older =>
      if 0 < store.countEdges older.kind branchId older.id then
        some (.migration pinned.kind branchId older.id pinned.id)
      else none

/-- A move from an older version is to be done where that is counted. -/
theorem mem_overdue {pinned : Version} {job : JobKind} :
    job ∈ store.overdue branchId pinned ↔
      ∃ older ∈ store.chainVersions pinned.kind pinned.name, older.number < pinned.number ∧
        store.countEdges pinned.kind branchId older.id ≠ 0 ∧
        job = .migration pinned.kind branchId older.id pinned.id := by
  simp only [overdue, List.mem_filterMap, List.mem_filter, decide_eq_true_eq,
    Option.ite_none_right_eq_some, Option.some.injEq, Nat.pos_iff_ne_zero, and_assoc]
  refine exists_congr fun older => and_congr_right fun hm => ?_
  rw [(mem_chainVersions.mp hm).2.1, @eq_comm _ job]

end Store

namespace Site

open VersionedContent.Action

variable {site next last : Site} {branchId : Id} {kind : Kind} {version : Version}
  {jobs : List Job}

/-- What a branch pins of a kind is stored, of that kind, and pinned for its name. -/
theorem Sound.mem_pinnedVersions (h : Sound site) :
    version ∈ site.store.pinnedVersions branchId kind ↔
      version ∈ site.store.versions.rows ∧ version.kind = kind ∧
        site.store.pin? branchId kind version.name = some version.id := by
  unfold Store.pinnedVersions Store.pin?
  cases hb : site.store.branch? branchId with
  | none => simp
  | some branch =>
    have hpins := h.pinned branch (site.store.branches.find?_eq_some_iff.mp hb).1
    simp only [Option.elim_some, Option.bind_some, List.mem_filterMap, Dict.values, List.mem_map,
      Store.version?_eq_some_iff]
    constructor
    · rintro ⟨id, ⟨⟨name, id⟩, hpin, rfl⟩, hrow, hid⟩
      have hget : branch.pinned? kind name = some id := (hpins.sorted kind).get?_of_mem hpin
      obtain ⟨other, ho, hsame, hk, rfl⟩ := hpins.stored kind name id hget
      obtain rfl := site.store.versions.eq_of_key_eq ho hrow (hsame.trans hid.symm)
      exact ⟨hrow, hk, by rw [hget, hid]⟩
    · rintro ⟨hrow, -, hget⟩
      have hpin := Dict.mem_of_get?_eq_some hget
      exact ⟨version.id, ⟨(version.name, version.id), hpin, rfl⟩, hrow, rfl⟩

/-- Whether a site differs from another one in jobs that have been queued, one after another. -/
structure Queued (site : Site) (jobs : List Job) (next : Site) : Prop where
  /-- The site is sound. -/
  sound : Sound next
  /-- The jobs are logged, and the other records are the same. -/
  store_eq : next.store = { site.store with jobs := jobs.foldl .append site.store.jobs }
  /-- They are as they were queued. -/
  waits : ∀ job ∈ jobs, job.asQueued = job

/-- No job needs to be queued. -/
theorem Queued.refl (h : Sound site) : Queued site [] site where
  sound := h
  store_eq := rfl
  waits := by simp

/-- Jobs may be queued after others. -/
theorem Queued.trans {others : List Job} (h : Queued site jobs next)
    (ho : Queued next others last) : Queued site (jobs ++ others) last where
  sound := ho.sound
  store_eq := by rw [ho.store_eq, h.store_eq, List.foldl_append]
  waits := List.forall_mem_append.mpr ⟨h.waits, ho.waits⟩

/-- When all jobs had ended, those that have been queued are all that waits. -/
theorem Queued.pending (h : Queued site jobs next)
    (hended : JobLog.AllEnded site.store.jobs.entries) :
    ∃ waiting, next.store.jobs.Pending site.store.jobs.entries waiting ∧
      waiting.map JobEntry.job = jobs := by
  rw [h.store_eq]
  refine hended.pending.exists_foldl_append fun job hm => ?_
  rw [← h.waits job hm]
  rfl

/-- A job is queued. -/
theorem outcome_enqueue_queued (h : Sound site) (kind : JobKind) :
    ∃ job next, outcome (enqueue kind) site = (.ok job, next) ∧ Queued site [job] next ∧
      job.kind = kind := by
  have hsound := (harmless_enqueueJob kind none site ⟨h, rfl, rfl⟩).1.sound
  have hrun := outcome_enqueueJob h.outages kind none
  rw [hrun] at hsound
  exact ⟨_, _, hrun, ⟨hsound, rfl, by simp⟩, rfl⟩

/-- Queues the move of content from a version to a pinned one, if any content of a branch is
there. -/
def queueOlder (branchId : Id) (pinned older : Version) : Action (Option Job) := do
  if 0 < (← pendingCount branchId older) then
    return some (← enqueueMigration branchId older pinned)
  return none

/-- The versions below a pinned one are gone through in order. -/
theorem migrateRemainingOf_eq (branchId : Id) (kind : Kind) (pinned : Version) :
    migrateRemainingOf branchId kind pinned = (do
      let chain ← versions kind pinned.name
      (chain.filter fun older => older.number < pinned.number).filterMapM
        (queueOlder branchId pinned)) := rfl

/-- The move from an older version is queued where that is counted. -/
theorem outcome_queueOlder (h : Sound site) (branchId : Id) (pinned older : Version) :
    ∃ job next, outcome (queueOlder branchId pinned older) site = (.ok job, next) ∧
      Queued site job.toList next ∧
      job.map Job.kind = if 0 < site.store.countEdges older.kind branchId older.id then
        some (.migration pinned.kind branchId older.id pinned.id) else none := by
  unfold queueOlder pendingCount
  rw [outcome_bind_of_ok (outcome_query _ site)]
  split
  · obtain ⟨job, next, hrun, hqueued, hkind⟩ :=
      outcome_enqueue_queued h (.migration pinned.kind branchId older.id pinned.id)
    exact ⟨some job, next, outcome_bind_of_ok hrun _, hqueued, congrArg some hkind⟩
  · exact ⟨none, site, rfl, .refl h, rfl⟩

/-- The moves from a list of versions are queued in the order of the list. -/
theorem outcome_queueOlders (h : Sound site) (branchId : Id) (pinned : Version)
    (olders : List Version) :
    ∃ jobs next, outcome (olders.filterMapM (queueOlder branchId pinned)) site = (.ok jobs, next) ∧
      Queued site jobs next ∧
      jobs.map Job.kind = olders.filterMap fun older =>
        if 0 < site.store.countEdges older.kind branchId older.id then
          some (.migration pinned.kind branchId older.id pinned.id)
        else none := by
  induction olders generalizing site with
  | nil => exact ⟨[], site, rfl, .refl h, rfl⟩
  | cons older rest ih =>
    obtain ⟨job, next, hfirst, hqueued, hkind⟩ := outcome_queueOlder h branchId pinned older
    obtain ⟨jobs, last, hrest, hothers, hkinds⟩ := ih hqueued.sound
    rw [hqueued.store_eq] at hkinds
    refine ⟨job.toList ++ jobs, last, ?_, hqueued.trans hothers, ?_⟩
    · rw [List.filterMapM_cons, outcome_bind_of_ok hfirst]
      cases job with
      | none => exact hrest
      | some job => exact outcome_bind_of_ok hrest _
    · rw [List.filterMap_cons, ← hkind, List.map_append, hkinds]
      cases job <;> rfl

/-- What is overdue for a pinned version is queued. -/
theorem outcome_migrateRemainingOf (h : Sound site) (branchId : Id) (pinned : Version) :
    ∃ jobs next, outcome (migrateRemainingOf branchId pinned.kind pinned) site = (.ok jobs, next) ∧
      Queued site jobs next ∧ jobs.map Job.kind = site.store.overdue branchId pinned := by
  rw [migrateRemainingOf_eq, outcome_bind_of_ok (outcome_versions h _ _)]
  exact outcome_queueOlders h branchId pinned _

/-- What is overdue for a list of pinned versions is queued in the order of the list. -/
theorem outcome_mapM_migrateRemainingOf (h : Sound site) (branchId : Id) {kind : Kind}
    {list : List Version} (hk : ∀ pinned ∈ list, pinned.kind = kind) :
    ∃ jobs next, outcome (list.mapM (migrateRemainingOf branchId kind)) site = (.ok jobs, next) ∧
      Queued site jobs.flatten next ∧
      jobs.flatten.map Job.kind = list.flatMap (site.store.overdue branchId) := by
  induction list generalizing site with
  | nil => exact ⟨[], site, rfl, .refl h, rfl⟩
  | cons pinned rest ih =>
    obtain ⟨jobs, next, hfirst, hqueued, hkind⟩ := outcome_migrateRemainingOf h branchId pinned
    obtain ⟨others, last, hrest, hothers, hkinds⟩ :=
      ih hqueued.sound fun other hm => hk other (List.mem_cons_of_mem _ hm)
    rw [hk pinned List.mem_cons_self] at hfirst
    rw [hqueued.store_eq] at hkinds
    refine ⟨jobs :: others, last, ?_, hqueued.trans hothers, ?_⟩
    · rw [List.mapM_cons, outcome_bind_of_ok hfirst, outcome_bind_of_ok hrest]
      rfl
    · rw [List.flatten_cons, List.map_append, hkind, hkinds]
      rfl

/-- Stored versions are looked up by their identifiers, one after another. -/
theorem outcome_mapM_version {ids : List Id} (hs : ∀ id ∈ ids, site.store.version? id ≠ none) :
    outcome (ids.mapM Site.version) site = (.ok (ids.filterMap site.store.version?), site) := by
  induction ids with
  | nil => rfl
  | cons id rest ih =>
    obtain ⟨found, hfound⟩ := Option.ne_none_iff_exists'.mp (hs id List.mem_cons_self)
    rw [List.mapM_cons, outcome_bind_of_ok (outcome_version hfound),
      outcome_bind_of_ok (ih fun other hm => hs other (List.mem_cons_of_mem _ hm)),
      List.filterMap_cons_some hfound]
    rfl

/-- A stored branch is asked for the versions that it pins. -/
theorem outcome_assignedVersions (h : Sound site) (hb : site.store.branch? branchId ≠ none)
    (kind : Kind) :
    outcome (assignedVersions branchId kind) site =
      (.ok (site.store.pinnedVersions branchId kind), site) := by
  obtain ⟨branch, hfound⟩ := Option.ne_none_iff_exists'.mp hb
  have hpins := h.pinned branch (site.store.branches.find?_eq_some_iff.mp hfound).1
  unfold assignedVersions Store.pinnedVersions
  rw [outcome_bind_of_ok (outcome_branch hfound), hfound]
  refine outcome_mapM_version fun id hm => ?_
  obtain ⟨⟨name, id⟩, hpin, rfl⟩ := List.mem_map.mp hm
  obtain ⟨version, hv, hid, -⟩ :=
    hpins.stored kind name id ((hpins.sorted kind).get?_of_mem hpin)
  rw [Store.version?_eq_some_iff.mpr ⟨hv, hid⟩]
  exact Option.some_ne_none version

/-- Queueing the content that is behind the pins of a stored branch logs what is overdue for each of
them, and does nothing else. -/
theorem outcome_migrateRemaining (h : Sound site) (hb : site.store.branch? branchId ≠ none)
    (kind : Kind) :
    ∃ jobs next, outcome (migrateRemaining branchId kind) site = (.ok jobs, next) ∧
      Queued site jobs next ∧
      jobs.map Job.kind = (site.store.pinnedVersions branchId kind).flatMap
        (site.store.overdue branchId) := by
  obtain ⟨jobs, next, hrun, hqueued, hkinds⟩ := outcome_mapM_migrateRemainingOf h branchId
    fun pinned hm => (h.mem_pinnedVersions.mp hm).2.1
  refine ⟨jobs.flatten, next, ?_, hqueued, hkinds⟩
  unfold migrateRemaining
  rw [outcome_bind_of_ok (outcome_assignedVersions h hb kind), outcome_bind_of_ok hrun]
  rfl

/-- Without the branch nothing is queued. -/
theorem outcome_migrateRemaining_of_none (hb : site.store.branch? branchId = none) (kind : Kind) :
    ∃ failure, outcome (migrateRemaining branchId kind) site = (.error failure, site) := by
  obtain ⟨failure, hmissing⟩ := outcome_branch_of_none hb
  exact ⟨failure, outcome_bind_of_error (outcome_bind_of_error hmissing _) _⟩

/-- Queueing the rest of the content queues moves to the pins only. -/
theorem migrateRemaining_spec (h : Sound site) (branchId : Id) :
    site.store.Queues (site.store.FollowsPin branchId)
      (outcome (migrateRemaining branchId .schema) site).2.store := by
  by_cases hb : site.store.branch? branchId = none
  · obtain ⟨failure, hrun⟩ := outcome_migrateRemaining_of_none hb .schema
    rw [hrun]
    exact .none
  · obtain ⟨jobs, next, hrun, hqueued, hkinds⟩ := outcome_migrateRemaining h hb .schema
    rw [hrun, hqueued.store_eq]
    refine site.store.queues_foldl (fun job hm => ?_) hqueued.waits
    obtain ⟨pinned, hp, ho⟩ := List.mem_flatMap.mp (hkinds ▸ List.mem_map_of_mem hm)
    obtain ⟨hrow, hk, hpin⟩ := h.mem_pinnedVersions.mp hp
    obtain ⟨older, hchain, hlt, -, hkind⟩ := Store.mem_overdue.mp ho
    rw [hk] at hchain hkind
    rw [hkind]
    exact .move hchain (Store.mem_chainVersions.mpr ⟨hrow, hk, rfl⟩) hlt hpin

end Site

end VersionedContent

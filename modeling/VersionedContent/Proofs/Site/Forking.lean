import VersionedContent.Proofs.Site.Copying
import VersionedContent.Proofs.Site.Finish
import VersionedContent.Proofs.Site.Reach
import VersionedContent.Proofs.Store.Spread

/-!
# Runs that fork

Branches are created, and their jobs are claimed and run, while content is not
edited. The jobs of a base and of its fork are of two scopes, so the queue hands
out both at once, and the job of the fork does not ask whether the base has got
its own content by then. When the job of a base is always run before those of
its forks, every branch covers its base once all jobs have ended well. The queue
alone does not see to that: a fork whose job runs first stays empty.
-/

namespace VersionedContent.Site

open VersionedContent.Action

/-- The calls that a run that only forks is made of; the order may hold a claimed job back. -/
inductive Call.Forks (order : Site → Job → Prop) (site : Site) : Call → Prop
  /-- A branch is created. -/
  | createBranch (projectId : Id) (name : String) (baseId : Option Id) :
      Forks order site (.createBranch projectId name baseId)
  /-- The next job is claimed. -/
  | claimNext : Forks order site .claimNext
  /-- A claimed job is run. -/
  | process {entry : JobEntry} (logged : entry ∈ site.store.jobs.entries)
      (claimed : entry.job.status = .started) (turn : order site entry.job) :
      Forks order site (.process entry.job)

/-- The sites that such calls lead to from a given one. -/
inductive Forked (order : Site → Job → Prop) (start : Site) : Site → Prop
  /-- Nothing has been called at first. -/
  | start : Forked order start start
  /-- Any of the calls may follow. -/
  | call {site : Site} (before : Forked order start site) {call : Call}
      (forks : call.Forks order site) : Forked order start (call.after site)

/-- The order in which the job of a fork is run only once its base is migrated. -/
def BaseFirst (site : Site) (job : Job) : Prop :=
  ∀ branchId ∈ job.kind.branchId?, ∀ branch ∈ site.store.branch? branchId,
    ∀ baseId ∈ branch.baseId, site.store.isMigrated baseId = true

instance (site : Site) (job : Job) : Decidable (BaseFirst site job) :=
  inferInstanceAs (Decidable (∀ branchId ∈ job.kind.branchId?, _))

variable {order : Site → Job → Prop} {start site : Site}

/-- The calls of a run that forks can be made. -/
theorem Call.Forks.allowed {call : Call} (hf : call.Forks order site) : call.Allowed site := by
  cases hf <;> trivial

/-- A run that forks leads from reachable sites to reachable ones. -/
theorem Forked.reachable (hf : Forked order start site) (h : Reachable start) :
    Reachable site := by
  induction hf with
  | start => exact h
  | call before forks ih => exact ih.call _ forks.allowed

/-- Creating a branch lets content spread on. -/
theorem spreading_createBranch (h : Reachable site) (hs : site.store.Spreading) (projectId : Id)
    (name : String) (baseId : Option Id) :
    (outcome (createBranch projectId name baseId) site).2.store.Spreading := by
  rcases outcome_createBranch h.sound.outages projectId name baseId with
    ⟨failure, ho⟩ | ⟨branch, job, hnew, ho⟩
  · rw [ho]
    exact hs
  · have hfresh : site.store.branch? branch.id = none := by
      rw [hnew.id_eq]
      exact h.branch?_label
    have hgrown := branch?_growing site projectId branch
    rw [ho]
    cases baseId with
    | none => exact hs.grow hfresh rfl rfl hgrown (.inl ⟨hnew.migrated_eq, hnew.baseId_eq⟩)
    | some id =>
      obtain ⟨queued, hkind, hstatus, hlog⟩ : ∃ queued : Job,
          queued.kind = .branch branch.id none none ∧ queued.status = .queued ∧
            (site.creating projectId branch (some id)).store.jobs =
              site.store.jobs.append queued := ⟨_, rfl, rfl, rfl⟩
      exact (hs.queue hkind).grow hfresh rfl hlog hgrown (.inr ⟨hnew.migrated_eq, _,
        List.mem_append_right _ (List.mem_singleton_self _), hkind, by simp [hstatus]⟩)

/-- Claiming the next job lets content spread on. -/
theorem spreading_claimNext (h : Reachable site) (hs : site.store.Spreading) :
    (outcome claimNext site).2.store.Spreading := by
  obtain ⟨log, hstore, rfl | ⟨entry, job, hn, hk, hstarted, rfl⟩⟩ := claimNext_spec h.sound
  · rw [hstore]
    exact hs
  · obtain ⟨hm, hq, -⟩ := JobLog.isEligible_of_nextEligible? hn
    rw [hstore]
    refine hs.replace h.sound.logged hm (by rw [hq]; rfl) hk fun hc => ?_
    rw [hstarted] at hc
    cases hc

/-- Running a claimed job after that of the base lets content spread on. -/
theorem spreading_process (h : Reachable site) (hs : site.store.Spreading) {entry : JobEntry}
    (hm : entry ∈ site.store.jobs.entries) (hstarted : entry.job.status = .started)
    (hturn : BaseFirst site entry.job) :
    (outcome (process entry.job) site).2.store.Spreading := by
  have hsound := h.sound
  have ht : entry.job.status.isTerminal = false := by
    rw [hstarted]
    rfl
  obtain ⟨branchId, hkind⟩ := hs.copying entry hm ht
  have hready (branch : Branch) (baseId : Id) (hb : site.store.branch? branchId = some branch)
      (hbase : branch.baseId = some baseId) : site.store.isMigrated baseId = true :=
    hturn branchId (by rw [hkind]; rfl) branch hb baseId hbase
  have hended {answer : Except Failure (List ContainerError)} {executed : Site}
      (he : outcome (execute entry.job.kind) site = (answer, executed)) :
      (outcome (process entry.job) site).2.store = { executed.store with
        jobs := site.store.jobs.replace entry.sequence (entry.job.ended (verdict answer).1
          (verdict answer).2 (executed.clock.reading executed.clock.reads)) } := by
    obtain ⟨next, hrun, hstore⟩ := outcome_process hsound hm hstarted he
    rw [hrun]
    exact hstore
  rcases outcome_execute_branch hsound.steady hsound.bucketSize branchId with
    ⟨⟨failure, hexec⟩, -⟩ | ⟨hexec, migrated, hfound, hmigrated⟩ |
      ⟨branch, baseId, copied, hb, hmig, hbase, hexec, hcopied⟩
  · rw [hended (hkind ▸ hexec)]
    exact hs.replace hsound.logged hm ht rfl fun hc => by cases hc
  · rw [hended (hkind ▸ hexec)]
    refine hs.replace hsound.logged hm ht rfl fun _ id hid _ => ?_
    obtain rfl : branchId = id := by simpa using hkind.symm.trans hid
    rw [Store.isMigrated, hfound, Option.any_some, hmigrated]
  · have hspread := hs.copy hb hmig hbase (hready branch baseId hb hbase) hcopied
    have hjobs : copied.jobs = site.store.jobs := by rw [hcopied.aside]
    have hlogged := hsound.logged
    rw [hended (hkind ▸ hexec), ← hjobs]
    rw [← hjobs] at hm hlogged
    refine hspread.replace hlogged hm ht rfl fun _ id hid _ => ?_
    obtain rfl : branchId = id := by simpa using hkind.symm.trans hid
    rw [Store.isMigrated_mark hb]
    simp

/-- A run that forks lets content spread on when bases come first. -/
theorem Forked.spreading (hf : Forked BaseFirst start site) (h : Reachable start)
    (hs : start.store.Spreading) : site.store.Spreading := by
  induction hf with
  | start => exact hs
  | @call site before call forks ih =>
    have hreach := before.reachable h
    cases forks with
    | createBranch projectId name baseId =>
      rw [Call.after]
      exact spreading_createBranch hreach ih projectId name baseId
    | claimNext =>
      rw [Call.after]
      exact spreading_claimNext hreach ih
    | process logged claimed turn =>
      rw [Call.after]
      exact spreading_process hreach ih logged claimed turn

/-- On every run that forks, with bases first, every branch covers its base whenever all jobs of
branches have ended well. -/
theorem Reachable.covers_of_baseFirst (h : Reachable start) (hs : start.store.Spreading)
    (hf : Forked BaseFirst start site)
    (hdone : ∀ job ∈ site.store.jobs.jobs, job.kind.type = .branch → job.status = .completed) :
    ∀ branch ∈ site.store.branches.rows, ∀ baseId, branch.baseId = some baseId →
      site.store.Covers branch.id baseId := by
  intro branch hm baseId hbase
  have hspread := hf.spreading h hs
  have hb : site.store.branch? branch.id = some branch :=
    site.store.branches.find?_eq_some_iff.mpr ⟨hm, rfl⟩
  cases hmig : branch.migrated with
  | true => exact (hspread.covered branch.id branch baseId hb hmig hbase).2
  | false =>
    obtain ⟨entry, hlogged, hkind, hstatus⟩ := hspread.awaited branch.id (by simp [hb])
      (by rw [Store.isMigrated, hb, Option.any_some, hmig])
    exact absurd (hdone entry.job (List.mem_map_of_mem hlogged) (by rw [hkind]; rfl)) hstatus

/-- The one edge of a base is copied to its fork. -/
theorem covers_of_single_fork :
    let calls : List Call :=
      [.createSchema .schema
        { name := "article", fields := [{ name := "title", type := .string }] },
        .createBranch "p1" "main" none, .assignLatest "@b1" .schema "article",
        .addContent "@b1" "n1" "en" "@v1" [("title", .string "Hello")] [.draft]]
    let start := Call.afterAll (.empty (.ticking ⟨0, 0⟩) 10 10) calls
    start.store.Spreading ∧ ∃ site, Forked BaseFirst start site ∧
      (∀ job ∈ site.store.jobs.jobs, job.status = .completed) ∧
      (site.store.branches.rows.map fun branch => (branch.id, branch.baseId)) =
        [("@b1", none), ("@b2", some "@b1")] ∧
      site.store.Covers "@b2" "@b1" ∧
      (site.store.edges.rows.map fun edge => (edge.branchId, edge.containerId)) =
        [("@b1", "@c1"), ("@b2", "@c1")] := by
  intro calls start
  have hgiven : Call.areGiven (.empty (.ticking ⟨0, 0⟩) 10 10) calls = true := by decide +kernel
  have hreach : Reachable start :=
    (Managed.calls (.empty (.ticking ⟨0, 0⟩) 10 10) hgiven).reachable
  have hspread : start.store.Spreading :=
    Store.spreading_of_roots (by decide +kernel) (by decide +kernel) (by decide +kernel)
  let claimed := Call.claimNext.after ((Call.createBranch "p1" "fork" (some "@b1")).after start)
  let entry := claimed.store.jobs.entries.head (by decide +kernel)
  let site := (Call.process entry.job).after claimed
  have hrun : Forked BaseFirst start site :=
    .call (.call (.call .start (.createBranch _ _ _)) .claimNext)
      (@Call.Forks.process BaseFirst claimed entry (by decide +kernel) (by decide +kernel)
        (by decide +kernel))
  have hdone : ∀ job ∈ site.store.jobs.jobs, job.status = .completed := by decide +kernel
  let fork := site.store.branches.rows.getLast (by decide +kernel)
  have hm : fork ∈ site.store.branches.rows :=
    @List.getLast_mem _ site.store.branches.rows (by decide +kernel)
  have hcovers := hreach.covers_of_baseFirst hspread hrun (fun job hj _ => hdone job hj) fork hm
    "@b1" (by decide +kernel)
  rw [show fork.id = "@b2" by decide +kernel] at hcovers
  exact ⟨hspread, site, hrun, hdone, by decide +kernel, hcovers, by decide +kernel⟩

/-- A fork of a fork whose job is run before that of its base stays empty, though all jobs end
well. -/
theorem exists_fork_left_empty :
    ∃ start site, Reachable start ∧ start.store.Spreading ∧
      Forked (fun _ _ => True) start site ∧
      (∀ job ∈ site.store.jobs.jobs, job.status = .completed) ∧
      ∃ branch ∈ site.store.branches.rows, branch.baseId = some "@b2" ∧
        ¬ site.store.Covers branch.id "@b2" := by
  let calls : List Call :=
    [.createSchema .schema
      { name := "article", fields := [{ name := "title", type := .string }] },
      .createBranch "p1" "main" none, .assignLatest "@b1" .schema "article",
      .addContent "@b1" "n1" "en" "@v1" [("title", .string "Hello")] [.draft]]
  let start := Call.afterAll (.empty (.ticking ⟨0, 0⟩) 10 10) calls
  let forked := (Call.createBranch "p1" "fork" (some "@b1")).after start
  let fork := forked.store.branches.rows.getLast (by decide +kernel)
  let twig := fork.fork forked.issued.branches.next
    (forked.clock.reading forked.clock.reads) "twig"
  have hgiven : Call.areGiven (.empty (.ticking ⟨0, 0⟩) 10 10) calls = true := by decide +kernel
  have hstart : Reachable start :=
    (Managed.calls (.empty (.ticking ⟨0, 0⟩) 10 10) hgiven).reachable
  have hforked : Reachable forked := hstart.call (.createBranch _ _ _) trivial
  -- The sorting of a listing does not compute.
  have hlist : forked.store.listBranches (some "p1") = forked.store.branches.rows :=
    Store.listBranches_eq_rows (by decide +kernel) (by decide +kernel)
  let marked := forked.store.branches.unmarkAll (forked.store.branches.rows.filter Branch.latest)
  let twigged : Site := { ticked (ticked forked) with
    store := { forked.store with
      branches := marked.insert twig
      jobs := forked.store.jobs.append (.queue forked.issued.jobs.next
        (forked.clock.reading (forked.clock.reads + 1)) (.branch twig.id none none) none) }
    issued := { forked.issued with
      branches := forked.issued.branches.advance 1, jobs := forked.issued.jobs.advance 1 } }
  have htwigged : (Call.createBranch "p1" "twig" (some "@b2")).after forked = twigged := by
    have hfork : forked.store.branch? "@b2" = some fork :=
      forked.store.branches.find?_eq_some_iff.mpr
        ⟨@List.getLast_mem _ forked.store.branches.rows (by decide +kernel), by decide +kernel⟩
    have hnew := outcome_newBranch_of_base hfork "twig" (forked.store.listBranches (some "p1"))
    rw [show fork.projectId = "p1" by decide +kernel] at hnew
    obtain ⟨job, hcreate⟩ := outcome_createBranch_of_free hforked.sound.outages (by decide +kernel)
      (by rw [hlist]; decide +kernel) hnew
    rw [Call.after, hcreate]
    dsimp only [creating, growing, queueing, unmarked]
    rw [hlist]
    rfl
  let claimed := Call.claimNext.after (Call.claimNext.after twigged)
  let entry := claimed.store.jobs.entries.getLast (by decide +kernel)
  let ran := (Call.process entry.job).after claimed
  let first := ran.store.jobs.entries.head (by decide +kernel)
  let site := (Call.process first.job).after ran
  have hgrown : Forked (fun _ _ => True) start twigged := by
    rw [← htwigged]
    exact .call (.call .start (.createBranch _ _ _)) (.createBranch _ _ _)
  have hrun : Forked (fun _ _ => True) start site :=
    .call (.call (.call (.call hgrown .claimNext) .claimNext)
      (@Call.Forks.process _ claimed entry (by decide +kernel) (by decide +kernel) trivial))
      (@Call.Forks.process _ ran first (by decide +kernel) (by decide +kernel) trivial)
  refine ⟨start, site, hstart,
    Store.spreading_of_roots (by decide +kernel) (by decide +kernel) (by decide +kernel), hrun,
    by decide +kernel, ?_⟩
  refine ⟨site.store.branches.rows.getLast (by decide +kernel),
    @List.getLast_mem _ site.store.branches.rows (by decide +kernel), by decide +kernel,
    fun hcovers => ?_⟩
  have hcopy := hcovers { branchId := "@b2", nodeId := "n1", language := "en", type := .draft,
                          containerId := "@c1" } (by decide +kernel) rfl
  exact absurd hcopy (by decide +kernel)

end VersionedContent.Site

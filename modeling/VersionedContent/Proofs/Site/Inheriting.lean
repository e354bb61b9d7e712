import VersionedContent.Proofs.Site.Copying
import VersionedContent.Proofs.Site.Finish
import VersionedContent.Proofs.Site.Reach

/-!
# What a fork gets from its base

The job of a fork leaves it with its own edge at each place where it has one, and with
that of its base everywhere else, drafts and published content alike, however the edges
of the base fall into pages. Besides, the fork is marked migrated, and that is all.
-/

namespace VersionedContent

/-- Whether a branch has got from its base what it lacked and is marked migrated, and nothing else
has changed but jobs. -/
structure Store.Inherited (origin next : Store) (branch : Branch) (baseId : Id) : Prop where
  /-- Only branches, edges and jobs are written. -/
  aside : next = { origin with
    branches := next.branches, edges := next.edges, jobs := next.jobs }
  /-- The branch is marked, and other branches stay as they are. -/
  branches : ∀ id, next.branch? id =
    if id = branch.id then some { branch with migrated := true } else origin.branch? id
  /-- The branch has its own edge, or else that of its base; other branches keep theirs. -/
  edges : ∀ key, next.edge? key =
    if key.branchId = branch.id then
      (origin.edge? key).or ((origin.edge? { key with branchId := baseId }).map
        fun edge => edge.onBranch branch.id)
    else origin.edge? key

namespace Site

open VersionedContent.Action

variable {site : Site}

/-- What the job of a fork leaves when it copies the edges of the base. -/
theorem inherited_of_copied {origin copied next : Store} {branchId baseId : Id} {branch : Branch}
    (hfound : origin.branch? branchId = some branch)
    (hc : origin.Copied copied branchId (origin.edgesOf baseId))
    (hnext : next = { copied with
      branches := origin.branches.insert { branch with migrated := true }, jobs := next.jobs }) :
    origin.Inherited next branch baseId := by
  obtain ⟨-, rfl⟩ := origin.branches.find?_eq_some_iff.mp hfound
  have hbranches : next.branches = origin.branches.insert { branch with migrated := true } := by
    rw [hnext]
  have hedges : next.edges = copied.edges := by rw [hnext]
  refine { aside := ?_, branches := fun id => ?_, edges := fun key => ?_ }
  · rw [hbranches, hedges, hnext, hc.aside]
  · rw [Store.branch?, hbranches]
    exact origin.branches.find?_insert { branch with migrated := true } id
  · rw [Store.edge?, hedges]
    exact hc.edge?_eq key

/-- On every reachable site, whatever the bucket size, the job of a fork that has started and names
no two versions is run to its end. It is completed when the branch is migrated, and then changes
nothing, and when the branch is not migrated and has a base, and then the branch inherits what it
lacks. It fails when the branch is not stored, or is not migrated and has no base, and then changes
nothing either. -/
theorem Reachable.fork_inherits (h : Reachable site) (bucket : Nat) {entry : JobEntry}
    (hm : entry ∈ site.store.jobs.entries) (hs : entry.job.status = .started) {branchId : Id}
    {source target : Option Id} (hjob : entry.job.kind = .branch branchId source target)
    (hnone : source = none ∨ target = none) :
    ∃ status error stoppedAt last,
      outcome (process entry.job) { site with bucketSize := max bucket 1 } =
        (.ok (some (entry.job.ended status error stoppedAt)), last) ∧
      last.store.jobs = site.store.jobs.replace entry.sequence
        (entry.job.ended status error stoppedAt) ∧
      (∀ branch, site.store.branch? branchId = some branch → branch.migrated = true →
        status = .completed ∧ last.store = { site.store with jobs := last.store.jobs }) ∧
      (∀ branch baseId, site.store.branch? branchId = some branch → branch.migrated = false →
        branch.baseId = some baseId →
          status = .completed ∧ site.store.Inherited last.store branch baseId) ∧
      ((∀ branch, site.store.branch? branchId = some branch →
          branch.migrated = false ∧ branch.baseId = none) →
        status = .failed ∧ last.store = { site.store with jobs := last.store.jobs }) := by
  have hsound := h.sound.resized bucket
  have hkind : execute entry.job.kind = execute (.branch branchId none none) := by
    rw [hjob, execute_branch_eq hnone]
  rcases outcome_execute_branch hsound.steady hsound.bucketSize branchId with
    ⟨⟨failure, hexec⟩, hneither⟩ | ⟨hexec, branch, hfound, hmigrated⟩ |
      ⟨branch, baseId, copied, hfound, hmigrated, hbase, hexec, hcopied⟩
  · rw [← hkind] at hexec
    obtain ⟨last, hrun, hstore⟩ := outcome_process hsound hm hs hexec
    refine ⟨_, _, _, last, hrun, by rw [hstore], fun branch hb hmig => ?_,
      fun branch baseId hb _ hbase => ?_, fun _ => ⟨rfl, by rw [hstore]⟩⟩
    · rw [(hneither branch hb).1] at hmig
      cases hmig
    · rw [(hneither branch hb).2] at hbase
      cases hbase
  · rw [← hkind] at hexec
    obtain ⟨last, hrun, hstore⟩ := outcome_process hsound hm hs hexec
    refine ⟨_, _, _, last, hrun, by rw [hstore], fun _ _ _ => ⟨rfl, by rw [hstore]⟩,
      fun other baseId hb hmig _ => ?_, fun hneither => ?_⟩
    · obtain rfl := Option.some.inj (hfound.symm.trans hb)
      rw [hmigrated] at hmig
      cases hmig
    · have hmig := (hneither branch hfound).1
      rw [hmigrated] at hmig
      cases hmig
  · rw [← hkind] at hexec
    obtain ⟨last, hrun, hstore⟩ := outcome_process hsound hm hs hexec
    refine ⟨_, _, _, last, hrun, by rw [hstore], fun other hb hmig => ?_,
      fun other otherId hb _ hother => ?_, fun hneither => ?_⟩
    · obtain rfl := Option.some.inj (hfound.symm.trans hb)
      rw [hmigrated] at hmig
      cases hmig
    · obtain rfl := Option.some.inj (hfound.symm.trans hb)
      obtain rfl := Option.some.inj (hbase.symm.trans hother)
      exact ⟨rfl, inherited_of_copied hfound hcopied (by rw [hstore])⟩
    · have hnobase := (hneither branch hfound).2
      rw [hbase] at hnobase
      cases hnobase

/-- A fork keeps a draft of its own and gets the published content of that node from its base. -/
theorem fork_inherits_beside_own_draft :
    let text (value : String) : FieldMap := [("title", .string value)]
    let calls : List Call :=
      [.createSchema .schema
        { name := "article", fields := [{ name := "title", type := .string }] },
        .createBranch "p1" "main" none, .assignLatest "@b1" .schema "article",
        .addContent "@b1" "n1" "en" "@v1" (text "Hello") [.draft, .published],
        .createBranch "p1" "fork" (some "@b1"),
        .addContent "@b2" "n1" "en" "@v1" (text "Goodbye") [.draft], .claimNext]
    let site := Call.afterAll (.empty (.ticking ⟨0, 0⟩) 10 10) calls
    let edges (site : Site) :=
      site.store.edges.rows.map fun edge =>
        (edge.branchId, edge.nodeId, edge.type, edge.containerId)
    ∃ entry ∈ site.store.jobs.entries, entry.job.status = .started ∧
      entry.job.kind = .branch "@b2" none none ∧
      ∃ fork, site.store.branch? "@b2" = some fork ∧ fork.migrated = false ∧
        fork.baseId = some "@b1" ∧
        ∃ error stoppedAt last,
          outcome (process entry.job) { site with bucketSize := max 1 1 } =
            (.ok (some (entry.job.ended .completed error stoppedAt)), last) ∧
          site.store.Inherited last.store fork "@b1" ∧
          edges site = [("@b1", "n1", .draft, "@c1"), ("@b1", "n1", .published, "@c1"),
            ("@b2", "n1", .draft, "@c2")] ∧
          edges last = [("@b1", "n1", .draft, "@c1"), ("@b1", "n1", .published, "@c1"),
            ("@b2", "n1", .draft, "@c2"), ("@b2", "n1", .published, "@c1")] := by
  intro text calls site edges
  have hgiven : Call.areGiven (.empty (.ticking ⟨0, 0⟩) 10 10) calls = true := by decide +kernel
  have hreach : Reachable site := (Managed.calls (.empty (.ticking ⟨0, 0⟩) 10 10) hgiven).reachable
  let entry := site.store.jobs.entries.head (by decide +kernel)
  have hm : entry ∈ site.store.jobs.entries :=
    @List.head_mem _ site.store.jobs.entries (by decide +kernel)
  have hs : entry.job.status = .started := by decide +kernel
  have hjob : entry.job.kind = .branch "@b2" none none := by decide +kernel
  let fork := (site.store.branch? "@b2").get (by decide +kernel)
  have hfork : site.store.branch? "@b2" = some fork := (Option.some_get _).symm
  have hmigrated : fork.migrated = false := by decide +kernel
  have hbase : fork.baseId = some "@b1" := by decide +kernel
  obtain ⟨status, error, stoppedAt, last, hrun, -, -, hinherits, -⟩ :=
    hreach.fork_inherits 1 hm hs hjob (.inl rfl)
  obtain ⟨rfl, hinherited⟩ := hinherits fork "@b1" hfork hmigrated hbase
  have hlast : (outcome (process entry.job) { site with bucketSize := max 1 1 }).2 = last :=
    congrArg Prod.snd hrun
  refine ⟨entry, hm, hs, hjob, fork, hfork, hmigrated, hbase, error, stoppedAt, last, hrun,
    hinherited, by decide +kernel, ?_⟩
  rw [← hlast]
  decide +kernel

end Site

end VersionedContent

import VersionedContent.Proofs.Site.Agreeing
import VersionedContent.Proofs.Site.Settling

/-!
# Jobs of different scopes commute

What a job does and reports depends on the versions, on which branches there are
and on what the edges of its own branch show. A job of another scope leaves all
of this alone, whether or not the branches share containers. So two jobs come to
the same in either order, and every edge shows the same content afterwards; only
identifiers and times of new containers may differ.
-/

namespace VersionedContent

/-- Jobs that work on a branch have its scope. -/
theorem JobKind.scope_of_branchId? {kind : JobKind} {branchId : Id}
    (h : kind.branchId? = some branchId) : kind.scope = "branch:" ++ branchId := by
  cases kind with
  | versionPurge projectId before => cases h
  | _ =>
    obtain rfl := Option.some.inj h
    rfl

namespace Site

open VersionedContent.Action

variable {site other next : Site}

/-- Whether two sites are alike for work on a branch, or on none. -/
structure Alike (worked : Option Id) (site other : Site) : Prop extends Likewise site other where
  /-- There are the same branches. -/
  branches : ∀ id, other.store.branch? id = none ↔ site.store.branch? id = none
  /-- The edges of the branch are the same. -/
  edges : ∀ key : EdgeKey, worked = some key.branchId →
    other.store.edge? key = site.store.edge? key
  /-- The edges of the branch show the same. -/
  shown : ∀ key : EdgeKey, worked = some key.branchId →
    other.store.shown? key = site.store.shown? key

/-- Whether the work of a job comes to the same on two sites: the answer is the same, and so is the
content behind the edges of its branch. -/
structure SameWork (kind : JobKind) (site other : Site) : Prop where
  /-- The answer is the same. -/
  answer : (outcome (execute kind) other).1 = (outcome (execute kind) site).1
  /-- Edges of the branch show the same content. -/
  content : ∀ key : EdgeKey, kind.branchId? = some key.branchId →
    (outcome (execute kind) other).2.store.content? key =
      (outcome (execute kind) site).2.store.content? key

section Migration

variable {branchId : Id} {key : EdgeKey}

/-- Sites that are alike for a branch list the same of it, apart from links. -/
theorem Alike.map_unlinked_following (h : Alike (some branchId) site other) (kind : Kind)
    (versionId : Id) (type : ContainerType) (after : Option Cursor) :
    (other.store.following kind versionId branchId type after).map
        (fun entry => (entry.1, entry.2.unlinked)) =
      (site.store.following kind versionId branchId type after).map
        fun entry => (entry.1, entry.2.unlinked) := by
  rw [Store.map_unlinked_following, Store.map_unlinked_following,
    Store.orderedEdges_congr fun key hb _ _ => h.edges key (by rw [hb])]
  congr 1
  refine List.filterMap_congr fun edge hm => ?_
  obtain ⟨hrow, hb, -⟩ := Store.mem_orderedEdges.mp hm
  have hedge : site.store.edge? edge.key = some edge :=
    site.store.edges.find?_eq_some_iff.mpr ⟨hrow, rfl⟩
  have hworked : some branchId = some edge.key.branchId := congrArg some hb.symm
  have hshown := h.shown edge.key hworked
  rw [Store.shown?, Store.shown?, h.edges edge.key hworked, hedge, Option.bind_some,
    Option.bind_some] at hshown
  rw [hshown]

/-- Sites that are alike for a branch report the same of its content. -/
theorem Alike.filterMap_report? (h : Alike (some branchId) site other) (plan : MigrationPlan)
    (kind : Kind) (versionId : Id) :
    (other.store.contentOf kind versionId branchId).filterMap plan.report? =
      (site.store.contentOf kind versionId branchId).filterMap plan.report? := by
  rw [← plan.filterMap_report?_unlinked,
    ← plan.filterMap_report?_unlinked (site.store.contentOf ..), Store.contentOf,
    Store.contentOf, List.map_append, List.map_append, h.map_unlinked_following,
    h.map_unlinked_following]

/-- Sites that are alike for a branch answer alike to a migration of it. -/
theorem Alike.migrationAnswer_eq (h : Alike (some branchId) site other)
    (planned : Except Failure MigrationPlan) :
    other.store.migrationAnswer branchId planned =
      site.store.migrationAnswer branchId planned := by
  cases planned with
  | error failure => rfl
  | ok plan =>
    unfold Store.migrationAnswer
    dsimp only
    have hbranch := h.branches branchId
    cases hs : site.store.branch? branchId with
    | none =>
      rw [hbranch.mpr hs]
    | some found =>
      obtain ⟨found', ho⟩ := Option.ne_none_iff_exists'.mp fun hn =>
        Option.some_ne_none found (hs.symm.trans (hbranch.mp hn))
      rw [ho]
      exact congrArg Except.ok (h.filterMap_report? plan _ _)

/-- Sites that are alike for a branch settle its content alike. -/
theorem Alike.settled?_eq (h : Alike (some branchId) site other)
    (planned : Except Failure MigrationPlan) (hk : key.branchId = branchId) :
    other.store.settled? branchId planned key = site.store.settled? branchId planned key := by
  have hshown := h.shown key (congrArg some hk.symm)
  unfold Store.settled? Store.content?
  rw [hshown]
  cases planned with
  | error failure => rfl
  | ok plan =>
    dsimp only
    exact if_congr (h.branches branchId) rfl rfl

/-- On sites that are alike for its branch a migration comes to the same. -/
theorem Alike.migration (h : Alike (some branchId) site other) (hs : Sound site)
    (ho : Sound other) (kind : Kind) (source target : Id) :
    SameWork (.migration kind branchId source target) site other := by
  obtain ⟨executed, heir, hrun, hsucceeded, hheirs⟩ :=
    outcome_execute_migration hs kind branchId source target
  obtain ⟨executed', heir', hrun', hsucceeded', hheirs'⟩ :=
    outcome_execute_migration ho kind branchId source target
  have hplan := (agrees_plan kind source target site other h.toLikewise).1
  rw [hplan] at hrun' hheirs'
  refine ⟨?_, fun key hb => ?_⟩
  · rw [hrun, hrun']
    exact h.migrationAnswer_eq _
  · have hk : key.branchId = branchId := by cases kind <;> exact (Option.some.inj hb).symm
    rw [hrun, hrun', hheirs.content?_eq hsucceeded hs.steady.held hk,
      hheirs'.content?_eq hsucceeded' ho.steady.held hk, h.settled?_eq _ hk]

end Migration

/-- On sites that are alike for its branch, a job that does not copy a base comes to the same. -/
theorem Alike.sameWork {kind : JobKind} (h : Alike kind.branchId? site other)
    (hs : Reachable site) (ho : Reachable other) (hk : kind.type ≠ .branch) :
    SameWork kind site other := by
  cases kind with
  | schema branchId source target => exact Alike.migration h hs.sound ho.sound .schema source target
  | microschema branchId source target =>
    exact Alike.migration h hs.sound ho.sound .microschema source target
  | branch branchId source target => exact absurd rfl hk
  | versionPurge projectId before =>
    have hanswers {site : Site} (h : Reachable site) :
        (outcome (execute (.versionPurge projectId before)) site).1 = .ok [] := by
      obtain ⟨_, next, hrun, -⟩ := purges_purgeVersions before h.historied projectId site
        (h.sound.purging h.historied)
      rw [show outcome (execute (.versionPurge projectId before)) site = _ from
        outcome_bind_of_ok hrun _]
      rfl
    exact ⟨(hanswers ho).trans (hanswers hs).symm, fun key hb => by cases hb⟩

/-- What running a job that has started comes to: it has ended as its work came out, and the site
is left as it was for work on any other branch. -/
structure Processed (site : Site) (entry : JobEntry) (done : Job) (next : Site) : Prop where
  /-- The job is run to its end. -/
  run : outcome (process entry.job) site = (.ok (some done), next)
  /-- The site that is left is reachable. -/
  reachable : Reachable next
  /-- The job has ended as its work came out. -/
  ended : (done.status, done.error) = verdict (outcome (execute entry.job.kind) site).1
  /-- It is replaced in the log. -/
  jobs : next.store.jobs = site.store.jobs.replace entry.sequence done
  /-- The content is what its work leaves. -/
  content : ∀ key, next.store.content? key =
    (outcome (execute entry.job.kind) site).2.store.content? key
  /-- Other branches show what they showed. -/
  elsewhere : ∀ key : EdgeKey, entry.job.kind.branchId? ≠ some key.branchId →
    next.store.shown? key = site.store.shown? key
  /-- The site is as it was for work on another branch, or on none. -/
  alike : ∀ worked, (∀ branchId, entry.job.kind.branchId? = some branchId →
    worked ≠ some branchId) → Alike worked site next

/-- A job that has started is run to its end. -/
theorem Reachable.processed (h : Reachable site) {entry : JobEntry}
    (hm : entry ∈ site.store.jobs.entries) (hs : entry.job.status = .started) :
    ∃ done next, Processed site entry done next := by
  rcases he : outcome (execute entry.job.kind) site with ⟨answer, executed⟩
  obtain ⟨next, hrun, hstore, hcache, -⟩ := outcome_process_announced h.sound hm hs he
  have hafter : (Call.process entry.job).after site = next := congrArg Prod.snd hrun
  have hreached : Reachable next := hafter ▸ h.call (.process entry.job) trivial
  obtain ⟨hsteady, hworks, -⟩ :=
    within_execute h.sound.chained.fresh entry.job.kind site h.sound.steady
  rw [he] at hsteady hworks
  have huntouched (key : EdgeKey) (hk : entry.job.kind.branchId? ≠ some key.branchId) :
      ¬ (Call.process entry.job).Touches site key.branchId := by
    rintro (hw | ⟨kind, rfl, hb⟩)
    · exact hw
    · exact hk hb
  have helsewhere (key : EdgeKey) (hk : entry.job.kind.branchId? ≠ some key.branchId) :
      next.store.shown? key = site.store.shown? key :=
    hafter ▸ h.shown?_after (show (Call.process entry.job).Allowed site from trivial)
      (huntouched key hk)
  have hversions : next.store.versions = executed.store.versions := by rw [hstore]
  have hcompiles := hworks.compiles.trans (.of_eq hversions hcache)
  refine ⟨_, next, {
    run := hrun
    reachable := hreached
    ended := by rw [he]; rfl
    jobs := by rw [hstore]
    content := fun key => by rw [he, hstore]; rfl
    elsewhere := helsewhere
    alike := fun worked hw => ?_ }⟩
  have hother {key : EdgeKey} (hk : worked = some key.branchId) :
      entry.job.kind.branchId? ≠ some key.branchId := fun hb => hw _ hb hk
  exact {
    versions := hversions.trans hsteady.versions
    answers := hcompiles.answers
    branches := fun id => by
      rw [← Option.map_eq_none_iff (f := Branch.pins), hstore]
      exact (iff_of_eq (congrArg (· = none) (hworks.pins id))).trans Option.map_eq_none_iff
    edges := fun key hk => hafter ▸ (h.owns (.process entry.job)).edge?_eq
      (huntouched key (hother hk))
    shown := fun key hk => helsewhere key (hother hk) }

/-- A job ends the same on a site that is alike for its branch. -/
theorem Processed.ended_eq {entry : JobEntry} {done done' : Job} {last : Site}
    (h : Processed site entry done next) (h' : Processed other entry done' last)
    (ha : Alike entry.job.kind.branchId? site other) (hs : Reachable site) (ho : Reachable other)
    (hk : entry.job.kind.type ≠ .branch) :
    done'.status = done.status ∧ done'.error = done.error := by
  have hsame := h'.ended
  rw [(ha.sameWork hs ho hk).answer, ← h.ended] at hsame
  exact Prod.mk.inj hsame

/-- Other jobs stay in the log as they are. -/
theorem Processed.mem {entry : JobEntry} {done : Job} (h : Processed site entry done next)
    {b : JobEntry} (hb : b ∈ site.store.jobs.entries) (hne : b.sequence ≠ entry.sequence) :
    b ∈ next.store.jobs.entries := by
  rw [h.jobs]
  exact List.mem_map.mpr ⟨b, hb, if_neg hne⟩

/-- A job that has been run has ended. -/
theorem Processed.isTerminal {entry : JobEntry} {done : Job}
    (h : Processed site entry done next) : done.status.isTerminal = true := by
  rw [show done.status = _ from congrArg Prod.fst h.ended]
  exact isTerminal_verdict _

/-- Of two jobs, whichever comes first, an edge that the second does not work on shows what the
first leaves. -/
theorem Processed.content?_eq {a b : JobEntry} {a₁ b₁ a₂ b₂ : Job}
    {first last first' last' : Site} (hs : Reachable site) (ha : Processed site a a₁ first)
    (hb : Processed first b b₁ last) (hb' : Processed site b b₂ first')
    (ha' : Processed first' a a₂ last') (halike : Alike a.job.kind.branchId? site first')
    (hk : a.job.kind.type ≠ .branch) {key : EdgeKey}
    (hkey : b.job.kind.branchId? ≠ some key.branchId) :
    last'.store.content? key = last.store.content? key := by
  have hkept : last.store.content? key = first.store.content? key :=
    congrArg (Option.map Container.content) (hb.elsewhere key hkey)
  by_cases hw : a.job.kind.branchId? = some key.branchId
  · rw [hkept, ha.content, ha'.content]
    exact (halike.sameWork hs hb'.reachable hk).content key hw
  · unfold Store.content?
    rw [ha'.elsewhere key hw, hb'.elsewhere key hkey, hb.elsewhere key hkey,
      ha.elsewhere key hw]

/-- On every reachable site, two jobs of different scopes that have started, neither of which
copies a base, can be run in either order: each of them ends with the same status and the same
error, and every edge shows the same content. -/
theorem Reachable.jobs_commute (h : Reachable site) {a b : JobEntry}
    (ha : a ∈ site.store.jobs.entries) (hb : b ∈ site.store.jobs.entries)
    (hsa : a.job.status = .started) (hsb : b.job.status = .started)
    (hscope : a.job.kind.scope ≠ b.job.kind.scope) (hka : a.job.kind.type ≠ .branch)
    (hkb : b.job.kind.type ≠ .branch) :
    ∃ a₁ b₁ first last, outcome (process a.job) site = (.ok (some a₁), first) ∧
      outcome (process b.job) first = (.ok (some b₁), last) ∧
    ∃ b₂ a₂ first' last', outcome (process b.job) site = (.ok (some b₂), first') ∧
      outcome (process a.job) first' = (.ok (some a₂), last') ∧
      (a₁.status.isTerminal = true ∧ a₂.status = a₁.status ∧ a₂.error = a₁.error) ∧
      (b₁.status.isTerminal = true ∧ b₂.status = b₁.status ∧ b₂.error = b₁.error) ∧
      ∀ key, (last.store.content? key).isSome = (last.store.edge? key).isSome ∧
        (last'.store.content? key).isSome = (last'.store.edge? key).isSome ∧
        last'.store.content? key = last.store.content? key := by
  have hapart : ∀ branchId, a.job.kind.branchId? = some branchId →
      b.job.kind.branchId? ≠ some branchId := fun branchId hba hbb =>
    hscope ((JobKind.scope_of_branchId? hba).trans (JobKind.scope_of_branchId? hbb).symm)
  have hne : b.sequence ≠ a.sequence := fun he =>
    hscope (by rw [h.sound.logged.eq_of_sequence_eq hb ha he])
  obtain ⟨a₁, first, hfirst⟩ := h.processed ha hsa
  obtain ⟨b₁, last, hlast⟩ := hfirst.reachable.processed (hfirst.mem hb hne) hsb
  obtain ⟨b₂, first', hfirst'⟩ := h.processed hb hsb
  obtain ⟨a₂, last', hlast'⟩ := hfirst'.reachable.processed (hfirst'.mem ha hne.symm) hsa
  have halike : Alike b.job.kind.branchId? site first := hfirst.alike _ hapart
  have halike' : Alike a.job.kind.branchId? site first' :=
    hfirst'.alike _ fun branchId hbb hba => hapart branchId hba hbb
  refine ⟨a₁, b₁, first, last, hfirst.run, hlast.run, b₂, a₂, first', last', hfirst'.run,
    hlast'.run, ⟨hfirst.isTerminal, hfirst.ended_eq hlast' halike' h hfirst'.reachable hka⟩,
    ⟨hlast.isTerminal, ?_⟩, fun key => ⟨?_, ?_, ?_⟩⟩
  · obtain ⟨hstatus, herror⟩ := hfirst'.ended_eq hlast halike h hfirst.reachable hkb
    exact ⟨hstatus.symm, herror.symm⟩
  · exact Store.EdgesHeld.isSome_content? hlast.reachable.sound.steady.held key
  · exact Store.EdgesHeld.isSome_content? hlast'.reachable.sound.steady.held key
  · by_cases hw : b.job.kind.branchId? = some key.branchId
    · refine (hfirst'.content?_eq h hlast' hfirst hlast halike hkb fun hwa => ?_).symm
      exact hapart key.branchId hwa hw
    · exact hfirst.content?_eq h hlast hfirst' hlast' halike' hka hw

/-- Two branches that share a container follow their schema in either order; the heirs of the
container have other identifiers then, and the same content. -/
theorem jobs_commute_of_shared_container :
    let flagged (type : FieldType) : Definition :=
      { name := "article", fields := [{ name := "flag", type := type }] }
    let calls : List Call :=
      [.createSchema .schema (flagged .string), .createBranch "p1" "main" none,
        .assignLatest "@b1" .schema "article",
        .addContent "@b1" "n1" "en" "@v1" [("flag", .string "true")] [.draft],
        .createBranch "p1" "fork" (some "@b1"), .runPending,
        .updateSchema .schema "article" (flagged .boolean) [] none,
        .assignLatest "@b1" .schema "article", .assignLatest "@b2" .schema "article",
        .claimNext, .claimNext]
    let site := Call.afterAll (.empty (.ticking ⟨0, 0⟩) 10 10) calls
    let pointers (site : Site) : List (Id × Id) :=
      site.store.edges.rows.map fun edge => (edge.branchId, edge.containerId)
    ∃ a ∈ site.store.jobs.entries, ∃ b ∈ site.store.jobs.entries,
      a.job.kind = .schema "@b1" "@v1" "@v2" ∧ b.job.kind = .schema "@b2" "@v1" "@v2" ∧
      pointers site = [("@b1", "@c1"), ("@b2", "@c1")] ∧
      ∃ last last', (outcome (process b.job) (outcome (process a.job) site).2).2 = last ∧
        (outcome (process a.job) (outcome (process b.job) site).2).2 = last' ∧
        pointers last = [("@b1", "@c2"), ("@b2", "@c3")] ∧
        pointers last' = [("@b1", "@c3"), ("@b2", "@c2")] ∧
        ∀ key, last'.store.content? key = last.store.content? key := by
  intro flagged calls site pointers
  have hgiven : Call.areGiven (.empty (.ticking ⟨0, 0⟩) 10 10) calls = true := by decide +kernel
  have hreached : Reachable site :=
    (Managed.calls (.empty (.ticking ⟨0, 0⟩) 10 10) hgiven).reachable
  let a := site.store.jobs.entries.get ⟨1, by decide +kernel⟩
  have ha : a ∈ site.store.jobs.entries :=
    @List.get_mem _ site.store.jobs.entries ⟨1, by decide +kernel⟩
  let b := site.store.jobs.entries.getLast (by decide +kernel)
  have hb : b ∈ site.store.jobs.entries :=
    @List.getLast_mem _ site.store.jobs.entries (by decide +kernel)
  obtain ⟨a₁, b₁, first, last, hfirst, hlast, b₂, a₂, first', last', hfirst', hlast', -, -,
    hsame⟩ := hreached.jobs_commute ha hb (by decide +kernel) (by decide +kernel)
      (by decide +kernel) (by decide +kernel) (by decide +kernel)
  have hrun : (outcome (process b.job) (outcome (process a.job) site).2).2 = last := by
    rw [hfirst, hlast]
  have hrun' : (outcome (process a.job) (outcome (process b.job) site).2).2 = last' := by
    rw [hfirst', hlast']
  refine ⟨a, ha, b, hb, by decide +kernel, by decide +kernel, by decide +kernel, last, last', hrun,
    hrun', ?_, ?_, fun key => (hsame key).2.2⟩
  · rw [← hrun]
    decide +kernel
  · rw [← hrun']
    decide +kernel

end Site

end VersionedContent

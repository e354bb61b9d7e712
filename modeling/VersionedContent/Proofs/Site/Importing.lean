import VersionedContent.Proofs.Content.Imported
import VersionedContent.Proofs.Site.Recasting
import VersionedContent.Proofs.Site.Rest
import VersionedContent.Proofs.Site.Vacating

/-!
# Embedded content that schema jobs bring in

A schema job gives containers heirs with more fields than they had, and the defaults
of these fields may embed content. Nothing holds such a default to the versions that
the branch pins. So all that is embedded on a branch after a schema job was embedded
there before, or stands in a default of a field that is added on the way; and no more
has to be migrated than before if these defaults are at the pinned versions.
-/

namespace VersionedContent

/-- Links do not matter for what a container embeds. -/
theorem Container.embeds_unlinked {container : Container} {content : Micronode} :
    container.unlinked.Embeds content ↔ container.Embeds content := Iff.rfl

namespace Store

variable {store origin next : Store} {branchId : Id} {content : Micronode}

/-- The content that is embedded on a branch, in the containers that its edges lead to. -/
def harboured (store : Store) (branchId : Id) : List Micronode :=
  ((store.edges.rows.filter fun edge => edge.branchId = branchId).filterMap
    store.withContainer).flatMap fun entry => entry.2.micronodes

/-- Content is embedded on a branch when an edge of the branch leads to a container that embeds
it. -/
theorem mem_harboured_iff :
    content ∈ store.harboured branchId ↔ ∃ edge container,
      store.Holds branchId content.versionId edge container ∧ container.Embeds content := by
  simp only [harboured, List.mem_flatMap, List.mem_filterMap, List.mem_filter, decide_eq_true_eq,
    withContainer, Option.map_eq_some_iff, Container.mem_micronodes]
  constructor
  · rintro ⟨_, ⟨edge, ⟨hrow, hb⟩, container, hc, rfl⟩, he⟩
    exact ⟨edge, container,
      ⟨hb, store.edges.find?_eq_some_iff.mpr ⟨hrow, rfl⟩, hc, content, he, rfl⟩, he⟩
  · rintro ⟨edge, container, hholds, he⟩
    exact ⟨(edge, container), ⟨edge, ⟨(store.edges.find?_eq_some_iff.mp hholds.stored).1,
      hholds.branch⟩, container, hholds.leads, rfl⟩, he⟩

/-- Whether content follows a stored version of a microschema that a branch does not pin. -/
def Stale (store : Store) (branchId : Id) (content : Micronode) : Prop :=
  ∃ version ∈ store.versions.rows, version.kind = .microschema ∧ version.id = content.versionId ∧
    store.pin? branchId .microschema version.name ≠ some version.id

instance (store : Store) (branchId : Id) (content : Micronode) :
    Decidable (store.Stale branchId content) :=
  inferInstanceAs (Decidable (∃ version ∈ store.versions.rows, _))

/-- With the same versions and pins the same content is stale. -/
theorem stale_congr (hv : next.versions = origin.versions) (hb : next.branches = origin.branches) :
    next.Stale branchId content ↔ origin.Stale branchId content := by
  unfold Stale pin? branch?
  rw [hv, hb]

/-- Where nothing embedded is stale, no edge is counted at a version that is not pinned. -/
theorem countEdges_eq_zero_of_not_stale
    (h : ∀ content ∈ store.harboured branchId, ¬ store.Stale branchId content)
    {version : Version} (hv : version ∈ store.versions.rows) (hk : version.kind = .microschema)
    (hp : store.pin? branchId .microschema version.name ≠ some version.id) :
    store.countEdges .microschema branchId version.id = 0 := by
  by_contra hcount
  obtain ⟨edge, hrow, hb, container, hc, hf⟩ := countEdges_ne_zero_iff.mp hcount
  obtain ⟨content, he, hid⟩ := Container.holdsMicronodeVersion_iff.mp hf
  have hedge := store.edges.find?_eq_some_iff.mpr ⟨hrow, rfl⟩
  have hin : content ∈ store.harboured branchId :=
    mem_harboured_iff.mpr ⟨edge, container, ⟨hb, hedge, hc, content, he, rfl⟩, he⟩
  exact h content hin ⟨version, hv, hk, hid.symm, hp⟩

/-- What is embedded on a branch after a migration between schema versions was embedded there
before, or its plan brings it in. -/
theorem Bequeathed.harboured {heir : EdgeKey → Option Container}
    {planned : Except Failure MigrationPlan} (h : origin.Bequeathed branchId heir planned)
    (hs : Succeeded origin next heir)
    (held : ∀ key edge, origin.edge? key = some edge → origin.container? edge.containerId ≠ none)
    (hk : ∀ plan, planned = .ok plan → plan.source.kind = .schema)
    (hc : content ∈ next.harboured branchId) :
    content ∈ origin.harboured branchId ∨
      ∃ plan, planned = .ok plan ∧ content ∈ plan.changes.flatMap Change.imported := by
  rw [mem_harboured_iff] at hc ⊢
  obtain ⟨edge, container, hholds, he⟩ := hc
  rcases hs.heir_or_kept held hholds.stored hholds.leads with
    hheir | ⟨-, hedge, before, hbefore, hsame⟩
  · cases h with
    | unplanned _ hnone => cases (hnone edge.key).symm.trans hheir
    | unfound _ _ hnone => cases (hnone edge.key).symm.trans hheir
    | moved plan _ hkept hheirs =>
      obtain ⟨old, hold, hkey⟩ := MigrationPlan.exists_of_heir hkept hheir
      have hmade := hheirs old hold
      rw [hkey, hheir] at hmade
      cases hmade with
      | moves left id createdAt =>
        have hfields := MigrationPlan.successorFields_of_bequest? left
        rw [MigrationPlan.successorFields, hk plan rfl] at hfields
        obtain ⟨hrow, hb, hstored, -⟩ := mem_contentOf.mp hold
        rcases embeds_or_imported_of_migrateFields hfields (Container.embeds_iff.mp he) with
          hin | hi
        · have hembeds := Container.embeds_iff.mpr hin
          exact .inl ⟨old.1, old.2, ⟨hb, origin.edges.find?_eq_some_iff.mpr ⟨hrow, rfl⟩, hstored,
            content, hembeds, rfl⟩, hembeds⟩
        · exact .inr ⟨plan, rfl, hi⟩
  · have hembeds : before.Embeds content := by
      rw [← Container.embeds_unlinked, hsame, Container.embeds_unlinked]
      exact he
    exact .inl ⟨edge, before, ⟨hholds.branch, hedge, hbefore, content, hembeds, rfl⟩, hembeds⟩

end Store

namespace Site

open VersionedContent.Action

variable {site : Site} {branchId : Id} {source target : Version}

/-- Whether the versions after one of them up to another one bring embedded content in. -/
def Imports (site : Site) (source target : Version) (content : Micronode) : Prop :=
  ∃ steps, outcome (versionsBetween source target) site = (.ok steps, site) ∧
    content ∈ (steps.flatMap Version.changes).flatMap Change.imported

/-- The changes of a plan between two stored versions are those of the versions between them. -/
theorem exists_of_outcome_plan {kind : Kind} {found : MigrationPlan}
    (hs : source ∈ site.store.versions.rows) (ht : target ∈ site.store.versions.rows)
    (h : (outcome (plan kind source.id target.id) site).1 = .ok found) :
    ∃ steps, outcome (versionsBetween source target) site = (.ok steps, site) ∧
      found.changes = steps.flatMap Version.changes := by
  rcases ho : outcome (plan kind source.id target.id) site with ⟨answer, planned⟩
  rw [ho] at h
  obtain rfl : answer = .ok found := h
  unfold plan at ho
  rw [outcome_bind_of_ok (outcome_version (Store.version?_eq_some_iff.mpr ⟨hs, rfl⟩)),
    outcome_bind_of_ok (outcome_version (Store.version?_eq_some_iff.mpr ⟨ht, rfl⟩))] at ho
  dsimp only at ho
  split at ho
  · cases congrArg Prod.fst ho
  · obtain ⟨steps, middle, hsteps, hrest⟩ := of_outcome_bind_eq_ok ho
    obtain ⟨_, _, -, hlater⟩ := of_outcome_bind_eq_ok hrest
    obtain ⟨_, _, -, hlast⟩ := of_outcome_bind_eq_ok hlater
    obtain rfl : middle = site :=
      (congrArg Prod.snd hsteps).symm.trans (outcome_versionsBetween_eq source target site)
    cases congrArg Prod.fst hlast
    exact ⟨steps, hsteps, rfl⟩

/-- Where nothing embedded is stale, nothing of a microschema is counted as remaining. -/
theorem outcome_remainingCount_of_not_stale (h : Sound site)
    (hfresh : ∀ content ∈ site.store.harboured branchId, ¬ site.store.Stale branchId content)
    {name : String} {versionId : Id}
    (hp : site.store.pin? branchId .microschema name = some versionId) :
    outcome (remainingCount branchId .microschema name) site = (.ok 0, site) := by
  refine outcome_remainingCount_eq_zero h hp fun version hchain hne => ?_
  obtain ⟨hrow, hk, hn⟩ := Store.mem_chainVersions.mp hchain
  refine Store.countEdges_eq_zero_of_not_stale hfresh hrow hk fun hpinned => ?_
  rw [hn, hp] at hpinned
  exact hne (Option.some.inj hpinned).symm

/-- On every reachable site, when a schema job that has started is run between two stored versions,
all that is embedded on its branch afterwards was embedded there before or stands in a default of a
field that the versions between the two add. If none of this is stale, then nothing embedded on the
branch is stale afterwards, and nothing of a pinned microschema is counted as remaining. -/
theorem Reachable.remainingCount_of_schemaJob (h : Reachable site) {entry : JobEntry}
    (hm : entry ∈ site.store.jobs.entries) (hstarted : entry.job.status = .started)
    (hjob : entry.job.kind = .schema branchId source.id target.id)
    (hs : source ∈ site.store.versions.rows) (ht : target ∈ site.store.versions.rows) :
    let next := (outcome (process entry.job) site).2
    (∀ content ∈ next.store.harboured branchId,
        content ∈ site.store.harboured branchId ∨ site.Imports source target content) ∧
      ((∀ content ∈ site.store.harboured branchId, ¬ site.store.Stale branchId content) →
        (∀ content, site.Imports source target content → ¬ site.store.Stale branchId content) →
          (∀ content ∈ next.store.harboured branchId, ¬ next.store.Stale branchId content) ∧
            ∀ name versionId, next.store.pin? branchId .microschema name = some versionId →
              outcome (remainingCount branchId .microschema name) next = (.ok 0, next)) := by
  intro next
  obtain ⟨executed, heir, hrun, hsucceeded, hheirs⟩ :=
    outcome_execute_migration h.sound .schema branchId source.id target.id
  have hexecute : (outcome (execute entry.job.kind) site).2 = executed := by
    rw [hjob]
    exact congrArg Prod.snd hrun
  obtain ⟨done, -, hstore, -⟩ := process_spec h.sound hm hstarted
  rw [hexecute] at hstore
  have hmoved : site.store.Succeeded next.store heir := by
    rw [hstore]
    exact { hsucceeded with }
  have horigin : ∀ content ∈ next.store.harboured branchId,
      content ∈ site.store.harboured branchId ∨ site.Imports source target content := by
    intro content hc
    refine (hheirs.harboured hmoved h.sound.steady.held (fun plan hplan => ?_) hc).imp_right ?_
    · exact ((recached_plan h.sound .schema source.id target.id).2 plan hplan).1
    · rintro ⟨plan, hplan, hi⟩
      obtain ⟨steps, hsteps, hchanges⟩ := exists_of_outcome_plan hs ht hplan
      exact ⟨steps, hsteps, hchanges ▸ hi⟩
  refine ⟨horigin, fun hfresh himported => ?_⟩
  have hafter : ∀ content ∈ next.store.harboured branchId,
      ¬ next.store.Stale branchId content := by
    intro content hc
    rw [Store.stale_congr hmoved.versions hmoved.branches]
    exact (horigin content hc).elim (hfresh content) (himported content)
  have hsound : Sound next := (h.call (.process entry.job) trivial).sound
  exact ⟨hafter, fun name versionId hp => outcome_remainingCount_of_not_stale hsound hafter hp⟩

/-- An article gets a hero image, whose default is at a version that the branch does not pin:
nothing is stale before, and something is afterwards. -/
theorem exists_stale_default :
    let image (fields : List FieldSpec) : Definition :=
      { name := "image", fields := { name := "alt", type := .string } :: fields }
    let article (fields : List FieldSpec) : Definition :=
      { name := "article", fields := { name := "title", type := .string } :: fields }
    let hero : FieldSpec :=
      { name := "hero", type := .micronode, allow := ["image"],
        default :=
          some (.object [("microschema", .string "image"), ("version_id", .string "@v3")]) }
    let calls : List Call :=
      [.createSchema .microschema (image []), .createSchema .schema (article []),
        .createBranch "p" "main" none, .assignLatest "@b1" .microschema "image",
        .assignLatest "@b1" .schema "article", .addContent "@b1" "n" "en" "@v2" [] [.draft],
        .updateSchema .microschema "image" (image [{ name := "credit", type := .string }]) [] none,
        .updateSchema .schema "article" (article [hero]) [] none,
        .assignLatest "@b1" .schema "article", .claimNext]
    let site := Call.afterAll (.empty (.ticking ⟨0, 0⟩) 10 10) calls
    Reachable site ∧
      (∀ content ∈ site.store.harboured "@b1", ¬ site.store.Stale "@b1" content) ∧
      ∃ source ∈ site.store.versions.rows, ∃ target ∈ site.store.versions.rows,
        ∃ entry ∈ site.store.jobs.entries, entry.job.status = .started ∧
          entry.job.kind = .schema "@b1" source.id target.id ∧
          let next := (outcome (process entry.job) site).2
          next.store.pin? "@b1" .microschema "image" = some "@v1" ∧
            (∃ content ∈ next.store.harboured "@b1", next.store.Stale "@b1" content) ∧
            outcome (remainingCount "@b1" .microschema "image") next = (.ok 1, next) := by
  intro image article hero calls site
  have hgiven : Call.areGiven (.empty (.ticking ⟨0, 0⟩) 10 10) calls = true := by decide +kernel
  have hreached : Reachable site :=
    (Managed.calls (.empty (.ticking ⟨0, 0⟩) 10 10) hgiven).reachable
  let entry := site.store.jobs.entries.head (by decide +kernel)
  have hm : entry ∈ site.store.jobs.entries :=
    @List.head_mem _ site.store.jobs.entries (by decide +kernel)
  obtain ⟨source, hsource⟩ : ∃ source, site.store.version? "@v2" = some source :=
    Option.isSome_iff_exists.mp (by decide +kernel)
  obtain ⟨target, htarget⟩ : ∃ target, site.store.version? "@v4" = some target :=
    Option.isSome_iff_exists.mp (by decide +kernel)
  obtain ⟨hs, hsid⟩ := Store.version?_eq_some_iff.mp hsource
  obtain ⟨ht, htid⟩ := Store.version?_eq_some_iff.mp htarget
  have hstarted : entry.job.status = .started := by decide +kernel
  have hnext : Sound (outcome (process entry.job) site).2 :=
    (hreached.call (.process entry.job) trivial).sound
  have hpin : (outcome (process entry.job) site).2.store.pin? "@b1" .microschema "image" =
      some "@v1" := by decide +kernel
  refine ⟨hreached, by decide +kernel, source, hs, target, ht, entry, hm, hstarted, ?_, hpin,
    by decide +kernel, ?_⟩
  · rw [hsid, htid]
    decide +kernel
  · have hcount := outcome_remainingCount hnext hpin
    have hone : (((outcome (process entry.job) site).2.store.chainVersions .microschema
        "image").filter fun version => version.id ≠ "@v1").map (fun version =>
          (outcome (process entry.job) site).2.store.countEdges .microschema "@b1" version.id) =
        [1] := by decide +kernel
    rw [hone] at hcount
    exact hcount

/-- An article with a cover gets a hero image, whose default is at the version that the branch pins:
nothing is stale before or afterwards. -/
theorem remainingCount_of_article_with_hero :
    let image : Definition := { name := "image", fields := [{ name := "alt", type := .string }] }
    let article (fields : List FieldSpec) : Definition :=
      { name := "article",
        fields := { name := "cover", type := .micronode, allow := ["image"] } :: fields }
    let hero : FieldSpec :=
      { name := "hero", type := .micronode, allow := ["image"],
        default :=
          some (.object [("microschema", .string "image"), ("version_id", .string "@v1")]) }
    let calls : List Call :=
      [.createSchema .microschema image, .createSchema .schema (article []),
        .createBranch "p" "main" none, .assignLatest "@b1" .microschema "image",
        .assignLatest "@b1" .schema "article",
        .addContent "@b1" "n" "en" "@v2" [("cover", .micronode ⟨"image", "@v1", []⟩)] [.draft],
        .updateSchema .schema "article" (article [hero]) [] none,
        .assignLatest "@b1" .schema "article", .claimNext]
    let site := Call.afterAll (.empty (.ticking ⟨0, 0⟩) 10 10) calls
    ∃ source ∈ site.store.versions.rows, ∃ target ∈ site.store.versions.rows,
      ∃ entry ∈ site.store.jobs.entries, entry.job.status = .started ∧
        entry.job.kind = .schema "@b1" source.id target.id ∧
        (∀ content ∈ site.store.harboured "@b1", ¬ site.store.Stale "@b1" content) ∧
        (∀ content, site.Imports source target content → ¬ site.store.Stale "@b1" content) ∧
        let next := (outcome (process entry.job) site).2
        (site.store.harboured "@b1").map Embedded.versionId = ["@v1"] ∧
          (next.store.harboured "@b1").map Embedded.versionId = ["@v1", "@v1"] ∧
          outcome (remainingCount "@b1" .microschema "image") next = (.ok 0, next) := by
  intro image article hero calls site
  have hgiven : Call.areGiven (.empty (.ticking ⟨0, 0⟩) 10 10) calls = true := by decide +kernel
  have hreached : Reachable site :=
    (Managed.calls (.empty (.ticking ⟨0, 0⟩) 10 10) hgiven).reachable
  let entry := site.store.jobs.entries.head (by decide +kernel)
  have hm : entry ∈ site.store.jobs.entries :=
    @List.head_mem _ site.store.jobs.entries (by decide +kernel)
  obtain ⟨source, hsource⟩ : ∃ source, site.store.version? "@v2" = some source :=
    Option.isSome_iff_exists.mp (by decide +kernel)
  obtain ⟨target, htarget⟩ : ∃ target, site.store.version? "@v3" = some target :=
    Option.isSome_iff_exists.mp (by decide +kernel)
  obtain ⟨hs, hsid⟩ := Store.version?_eq_some_iff.mp hsource
  obtain ⟨ht, htid⟩ := Store.version?_eq_some_iff.mp htarget
  have hstarted : entry.job.status = .started := by decide +kernel
  have hjob : entry.job.kind = .schema "@b1" source.id target.id := by
    rw [hsid, htid]
    decide +kernel
  have hfresh : ∀ content ∈ site.store.harboured "@b1", ¬ site.store.Stale "@b1" content := by
    decide +kernel
  have himported : ∀ content, site.Imports source target content →
      ¬ site.store.Stale "@b1" content := by
    rintro content ⟨steps, ho, hc⟩
    have hall : ((site.store.version? "@v2").bind fun source =>
        (site.store.version? "@v3").bind fun target =>
          (outcome (versionsBetween source target) site).1.toOption.map fun steps =>
            ((steps.flatMap Version.changes).flatMap Change.imported).map Embedded.versionId) =
        some ["@v1"] := by decide +kernel
    rw [hsource, htarget, Option.bind_some, Option.bind_some, ho] at hall
    have hid : content.versionId ∈ ["@v1"] :=
      Option.some.inj hall ▸ List.mem_map_of_mem hc
    unfold Store.Stale
    rw [List.mem_singleton.mp hid]
    decide +kernel
  obtain ⟨-, hafter⟩ := hreached.remainingCount_of_schemaJob hm hstarted hjob hs ht
  obtain ⟨-, hcount⟩ := hafter hfresh himported
  refine ⟨source, hs, target, ht, entry, hm, hstarted, hjob, hfresh, himported, by decide +kernel,
    by decide +kernel, hcount "image" "@v1" (by decide +kernel)⟩

end Site

end VersionedContent

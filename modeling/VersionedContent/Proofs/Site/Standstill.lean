import VersionedContent.Proofs.Site.Agreeing
import VersionedContent.Proofs.Site.Reach
import VersionedContent.Proofs.Site.Recasting
import VersionedContent.Proofs.Site.Vacating

/-!
# Moving content to where it is

A job may be asked to move content from a version to the same version. There are
no changes on the way, so nothing can go wrong. A schema job finds that all the
content there is done. A microschema job does not ask for the target: it looks for
what embeds content at the source, and makes an heir of that whenever it runs.
-/

namespace VersionedContent

/-- The plan for moving content from a version to itself. -/
def Version.standstill (version : Version) (definition : Definition) : MigrationPlan where
  source := version
  target := version
  changes := []
  definition := definition

namespace MigrationPlan

variable {version : Version} {definition : Definition} {container : Container}

/-- A container at a schema version is done when it is to move there; one that embeds content at a
microschema version is not. -/
theorem isDone_standstill
    (hf : Store.followsVersion version.kind version.id container = true) :
    (version.standstill definition).isDone container = decide (version.kind = .schema) := by
  have hdone := @isDone_of_follows (version.standstill definition) container hf
  simpa [Version.standstill] using hdone

/-- Where there are no changes, all embedded content can be recast. -/
theorem exists_carry_standstill (version : Version) (definition : Definition)
    (container : Container) :
    ∃ fields, (version.standstill definition).embedding.carry container.fields = .ok fields :=
  Embedding.exists_carry_iff.mpr fun content _ _ => ⟨_, migrateFields_nil content.fields definition⟩

/-- A container that embeds content at a microschema version leaves an heir its fields, recast. -/
theorem bequest?_standstill (hk : version.kind = .microschema)
    (hf : Store.followsVersion version.kind version.id container = true) :
    ∃ fields, (version.standstill definition).bequest? container = some fields ∧
      (version.standstill definition).embedding.RecastFields container.fields fields := by
  obtain ⟨fields, hc⟩ := exists_carry_standstill version definition container
  refine ⟨fields, ?_, Embedding.carry_eq_ok_iff.mp hc⟩
  have hfields : (version.standstill definition).successorFields container = .ok fields := by
    rw [successorFields, show (version.standstill definition).source.kind = .microschema from hk]
    exact hc
  rw [bequest?, isDone_standstill hf, hk, hfields]
  rfl

/-- An heir of a container that embeds content at a microschema version keeps the schema version,
and has the fields recast. -/
theorem Heir.exists_of_standstill (hk : version.kind = .microschema)
    (hf : Store.followsVersion version.kind version.id container = true) {heir : Option Container}
    (h : (version.standstill definition).Heir container heir) :
    ∃ id createdAt fields,
      heir = some (container.successor id createdAt container.schemaVersionId fields) ∧
        (version.standstill definition).embedding.RecastFields container.fields fields := by
  obtain ⟨fields, hb, hr⟩ := @bequest?_standstill version definition container hk hf
  have hversion : (version.standstill definition).successorVersion container =
      container.schemaVersionId := by
    rw [successorVersion, show (version.standstill definition).source.kind = .microschema from hk]
  cases h with
  | stays left => exact absurd (hb.symm.trans left) (Option.some_ne_none _)
  | moves left id createdAt =>
    obtain rfl := Option.some.inj (hb.symm.trans left)
    exact ⟨id, createdAt, fields, by rw [hversion], hr⟩

/-- Nothing is reported of content that is to move to where it is. -/
theorem report?_standstill {entry : Edge × Container}
    (hf : Store.followsVersion version.kind version.id entry.2 = true) :
    (version.standstill definition).report? entry = none := by
  cases hk : version.kind with
  | schema => rw [report?, isDone_standstill hf, hk, if_pos (decide_eq_true rfl)]
  | microschema =>
    obtain ⟨fields, hb, -⟩ := @bequest?_standstill version definition entry.2 hk hf
    exact report?_eq_none hb

end MigrationPlan

namespace Site

open VersionedContent.Action

variable {site : Site} {version : Version} {branchId : Id}

/-- There are no versions between a version and itself. -/
theorem outcome_versionsBetween_self (version : Version) (site : Site) :
    outcome (versionsBetween version version) site = (.ok [], site) := by
  unfold versionsBetween
  dsimp only
  rw [if_neg (by simp), if_pos rfl]
  rfl

/-- Every stored version is answered for. -/
theorem Sound.outcome_compiled (h : Sound site) (hv : version ∈ site.store.versions.rows) :
    ∃ kept cache, outcome (compiled version) site = (.ok kept, { site with cache := cache }) := by
  unfold compiled
  rw [outcome_compiledAt]
  cases site.cache.get? (.ofVersion version) with
  | some kept => exact ⟨kept, site.cache, rfl⟩
  | none =>
    obtain ⟨found, hrow, hf, -⟩ := exists_findVersion? hv
    obtain ⟨compiled, hc⟩ := Compiled.exists_ofVersion (h.chained.valid found hrow)
    simp only [CacheKey.ofVersion, hf, hc]
    exact ⟨_, _, rfl⟩

/-- Moving content from a stored version to itself is planned, with the definition that is kept
compiled of it. -/
theorem Sound.outcome_plan_self (h : Sound site) (hv : version ∈ site.store.versions.rows) :
    ∃ kept cache, (outcome (compiled version) site).1 = .ok kept ∧
      outcome (plan version.kind version.id version.id) site =
        (.ok (version.standstill kept.version.definition), { site with cache := cache }) := by
  have hfound := outcome_version (Store.version?_eq_some_iff.mpr ⟨hv, rfl⟩)
  obtain ⟨kept, first, hfirst⟩ := h.outcome_compiled hv
  have hnext : SoundWith site.store.versions site.issued.versions { site with cache := first } :=
    SoundWith.of_eq ⟨h, rfl, rfl⟩ rfl rfl rfl rfl
  obtain ⟨other, second, hsecond⟩ := hnext.sound.outcome_compiled hv
  obtain rfl : other = kept := by
    have hsame := (likewise_compiledAt (.ofVersion version) site).answers (.ofVersion version)
    unfold compiled at hfirst hsecond
    rw [hfirst, hsecond] at hsame
    exact Except.ok.inj hsame
  refine ⟨other, second, congrArg Prod.fst hfirst, ?_⟩
  unfold plan
  rw [outcome_bind_of_ok hfound, outcome_bind_of_ok hfound]
  dsimp only
  rw [if_neg (by simp), outcome_bind_of_ok (outcome_versionsBetween_self version site),
    outcome_bind_of_ok hfirst, outcome_bind_of_ok hsecond]
  rfl

/-- Content that is to move to the same schema version leaves nothing; no more does content that
embeds nothing at the microschema version. -/
theorem bequest?_eq_none_of_idle {definition : Definition}
    (h : version.kind = .schema ∨
      ∀ edge container, ¬ site.store.Holds branchId version.id edge container)
    {entry : Edge × Container}
    (hm : entry ∈ site.store.contentOf version.kind version.id branchId) :
    (version.standstill definition).bequest? entry.2 = none := by
  cases hk : version.kind with
  | schema =>
    rw [MigrationPlan.bequest?, MigrationPlan.isDone_standstill (Store.mem_contentOf.mp hm).2.2.2,
      hk, if_pos (decide_eq_true rfl)]
  | microschema =>
    rw [hk] at h hm
    rcases h with h | h
    · cases h
    · exact absurd (Store.mem_contentOf_microschema.mp hm) (h _ _)

/-- On every reachable site, a job that has started and is to move content of a stored branch from a
stored version to the same one is completed. It changes no content when the version is one of a
schema, nor where nothing embeds content at it. But each container of the branch that embeds content
at a microschema version gets an heir, in which that content follows the same version as before. -/
theorem Reachable.migration_to_itself (h : Reachable site) {entry : JobEntry}
    (hm : entry ∈ site.store.jobs.entries) (hs : entry.job.status = .started)
    (hv : version ∈ site.store.versions.rows) (hb : site.store.branch? branchId ≠ none)
    (hjob : entry.job.kind = .migration version.kind branchId version.id version.id) :
    ∃ kept heir stoppedAt next, (outcome (compiled version) site).1 = .ok kept ∧
      outcome (process entry.job) site =
        (.ok (some (entry.job.ended .completed none stoppedAt)), next) ∧
      next.store.jobs = site.store.jobs.replace entry.sequence
        (entry.job.ended .completed none stoppedAt) ∧
      site.store.Succeeded next.store heir ∧
      (version.kind = .schema ∨
          (∀ edge container, ¬ site.store.Holds branchId version.id edge container) →
        next.store.containers = site.store.containers ∧ next.store.edges = site.store.edges) ∧
      (version.kind = .microschema →
        (∀ edge container, site.store.Holds branchId version.id edge container →
          ∃ id createdAt fields, heir edge.key =
              some (container.successor id createdAt container.schemaVersionId fields) ∧
            (version.standstill kept.version.definition).embedding.RecastFields container.fields
              fields) ∧
        ∀ key successor, heir key = some successor →
          ∃ edge container, edge.key = key ∧
            site.store.Holds branchId version.id edge container) := by
  obtain ⟨kept, cache, hkept, hplan⟩ := h.sound.outcome_plan_self hv
  obtain ⟨executed, heir, hrun, hsucceeded, hheirs⟩ :=
    outcome_execute_migration h.sound version.kind branchId version.id version.id
  rw [hplan] at hrun hheirs
  have hreports : site.store.migrationAnswer branchId
      (.ok (version.standstill kept.version.definition)) = .ok [] := by
    obtain ⟨found, hfound⟩ := Option.ne_none_iff_exists'.mp hb
    simp only [Store.migrationAnswer, hfound, Except.ok.injEq]
    refine List.filterMap_eq_nil_iff.mpr fun entry hm => ?_
    exact MigrationPlan.report?_standstill (Store.mem_contentOf.mp hm).2.2.2
  rw [hreports] at hrun
  obtain ⟨next, hprocess, hstore⟩ := outcome_process h.sound hm hs (hjob ▸ hrun)
  refine ⟨kept, heir, _, next, hkept, hprocess, by rw [hstore]; rfl, ?_, fun hidle => ?_,
    fun hk => ?_⟩
  · rw [hstore]
    exact { hsucceeded with }
  · obtain ⟨_, hstays⟩ := outcome_execute_of_stays h.sound version.kind branchId version.id
      version.id fun found hf _ other ho => by
        rw [hplan] at hf
        obtain rfl := Except.ok.inj hf
        exact bequest?_eq_none_of_idle hidle ho
    rw [hrun] at hstays
    rw [hstore, show executed = _ from congrArg Prod.snd hstays]
    exact ⟨rfl, rfl⟩
  · cases hheirs with
    | unfound _ missing _ => exact absurd missing hb
    | moved _ _ hkept hheirs =>
      rw [show (version.standstill kept.version.definition).source = version from rfl]
        at hkept hheirs
      refine ⟨fun edge container hh => ?_, fun key successor hkey => ?_⟩
      · have ho : (edge, container) ∈ site.store.contentOf version.kind version.id branchId := by
          rw [hk]
          exact Store.mem_contentOf_microschema.mpr hh
        exact (hheirs _ ho).exists_of_standstill hk (Store.mem_contentOf.mp ho).2.2.2
      · obtain ⟨⟨edge, container⟩, ho, rfl⟩ := MigrationPlan.exists_of_heir hkept hkey
        rw [hk] at ho
        exact ⟨edge, container, rfl, Store.mem_contentOf_microschema.mp ho⟩

/-- An image in a field gets an heir that follows the same version. -/
theorem migration_to_itself_of_image :
    let calls : List Call :=
      [.createSchema .microschema
          { name := "image", fields := [{ name := "alt", type := .string }] },
        .createSchema .schema
          { name := "article",
            fields := [{ name := "hero", type := .micronode, allow := ["image"] }] },
        .createBranch "p" "main" none, .assignLatest "@b1" .microschema "image",
        .addContent "@b1" "n" "en" "@v2"
          [("hero", .micronode ⟨"image", "@v1", [("alt", .string "a cat")]⟩)] [.draft],
        .enqueue (.microschema "@b1" "@v1" "@v1"), .claimNext]
    let site := Call.afterAll (.empty (.ticking ⟨0, 0⟩) 10 10) calls
    ∃ version ∈ site.store.versions.rows, ∃ entry ∈ site.store.jobs.entries,
      entry.job.status = .started ∧ version.kind = .microschema ∧
      entry.job.kind = .migration version.kind "@b1" version.id version.id ∧
      site.store.edges.rows.map Edge.containerId = ["@c1"] ∧
      ∃ stoppedAt next, outcome (process entry.job) site =
          (.ok (some (entry.job.ended .completed none stoppedAt)), next) ∧
        next.store.edges.rows.map Edge.containerId = ["@c2"] ∧
        (next.store.container? "@c1").map Container.next = some ["@c2"] := by
  intro calls site
  have hgiven : Call.areGiven (.empty (.ticking ⟨0, 0⟩) 10 10) calls = true := by decide +kernel
  have hreached : Reachable site :=
    (Managed.calls (.empty (.ticking ⟨0, 0⟩) 10 10) hgiven).reachable
  let entry := site.store.jobs.entries.head (by decide +kernel)
  have hm : entry ∈ site.store.jobs.entries :=
    @List.head_mem _ site.store.jobs.entries (by decide +kernel)
  let version := site.store.versions.rows.head (by decide +kernel)
  have hv : version ∈ site.store.versions.rows :=
    @List.head_mem _ site.store.versions.rows (by decide +kernel)
  have hstarted : entry.job.status = .started := by decide +kernel
  have hjob : entry.job.kind = .migration version.kind "@b1" version.id version.id := by
    decide +kernel
  have hbranch : site.store.branch? "@b1" ≠ none := by
    rw [← Option.isSome_iff_ne_none]
    decide +kernel
  obtain ⟨_, _, stoppedAt, next, -, hrun, -⟩ :=
    hreached.migration_to_itself hm hstarted hv hbranch hjob
  refine ⟨version, hv, entry, hm, hstarted, by decide +kernel, hjob, by decide +kernel, stoppedAt,
    next, hrun, ?_⟩
  rw [← show (outcome (process entry.job) site).2 = next from congrArg Prod.snd hrun]
  constructor <;> decide +kernel

end Site

end VersionedContent

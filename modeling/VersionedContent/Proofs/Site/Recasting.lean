import VersionedContent.Proofs.Content.Recast
import VersionedContent.Proofs.Site.Moving
import VersionedContent.Proofs.Site.Upgrade

/-!
# What a microschema job leaves

A job that moves a branch from one version of a microschema to a later one looks
for containers that embed content at the one version, in a field or as an item of
a list. Such a container gets an heir in which all of that content has been recast
and nothing else has changed; when some of it cannot be, the container stays as it
is and is reported: the report leads through the field of the container to the field
of the embedded content whose value cannot follow. Whatever else is stored stays as it
is.
-/

namespace VersionedContent

namespace Store

variable {store origin next : Store} {branchId : Id} {source target : Version}

/-- How embedded content goes from one version of a microschema to another one. -/
def embedding (store : Store) (source target : Version) : Embedding where
  source := source.id
  target := target.id
  changes := (store.versionsAfter source target).flatMap Version.changes
  definition := target.definition

/-- Whether an edge of a branch points at a container that embeds content at a version. -/
structure Holds (store : Store) (branchId versionId : Id) (edge : Edge) (container : Container) :
    Prop where
  /-- The edge is one of the branch. -/
  branch : edge.branchId = branchId
  /-- The edge is stored. -/
  stored : store.edge? edge.key = some edge
  /-- The container is what it points at. -/
  leads : store.container? edge.containerId = some container
  /-- Some of the content that the container embeds follows the version. -/
  embeds : ∃ content, container.Embeds content ∧ content.versionId = versionId

/-- Whether all that a container embeds can be recast from one version to another one. -/
def Recastable (store : Store) (source target : Version) (container : Container) : Prop :=
  ∀ content, container.Embeds content → (store.embedding source target).Accepts content

/-- The report of content that cannot be recast. -/
def obstacle? (store : Store) (source target : Version) (entry : Edge × Container) :
    Option ContainerError :=
  match (store.embedding source target).carry entry.2.fields with
  | .error error => some (.at entry.1 entry.2 (some error.field) error.cause.message)
  | .ok _ => none

/-- The reports of all content of a branch that cannot be recast from one version to another
one. -/
def obstacles (store : Store) (branchId : Id) (source target : Version) : List ContainerError :=
  (store.contentOf .microschema source.id branchId).filterMap (store.obstacle? source target)

/-- What a report of content that cannot be recast tells of: a container of the branch, and the way
through one of its fields to a field of what it embeds there that cannot be migrated, and why. -/
inductive Obstructs (store : Store) (branchId : Id) (source target : Version) :
    ContainerError → Prop
  | intro {edge : Edge} {container : Container} {name : String} {value : FieldValue}
      {content : Micronode} {cause : FieldError}
      (holds : store.Holds branchId source.id edge container)
      (field : (name, value) ∈ container.fields) (embedded : content ∈ value.micronodes)
      (follows : content.versionId = source.id)
      (refused : migrateFields content.fields (store.embedding source target).changes
        target.definition = .error cause) :
      Obstructs store branchId source target
        (.at edge container (some (name ++ "." ++ cause.field)) cause.cause.message)

/-- Whether the content of a branch that embeds content at one version has been recast to another
one, as far as it can be, and nothing else has changed. -/
structure Recast (origin next : Store) (branchId : Id) (source target : Version)
    (heir : EdgeKey → Option Container) : Prop extends Succeeded origin next heir where
  /-- What can be recast has an heir, of the same schema version, with the fields recast. -/
  moved : ∀ edge container, origin.Holds branchId source.id edge container →
    origin.Recastable source target container → ∃ id createdAt fields,
      heir edge.key = some (container.successor id createdAt container.schemaVersionId fields) ∧
        (origin.embedding source target).RecastFields container.fields fields
  /-- What cannot be recast stays as it is, with its links. -/
  left : ∀ edge container, origin.Holds branchId source.id edge container →
    ¬ origin.Recastable source target container →
      next.edge? edge.key = some edge ∧ next.container? edge.containerId = some container
  /-- Nothing else has an heir. -/
  stayed : ∀ key successor, heir key = some successor → ∃ edge container, edge.key = key ∧
    origin.Holds branchId source.id edge container ∧ origin.Recastable source target container

/-- What a job looks for is what embeds content at the version. -/
theorem mem_contentOf_microschema {versionId : Id} {entry : Edge × Container} :
    entry ∈ store.contentOf .microschema versionId branchId ↔
      store.Holds branchId versionId entry.1 entry.2 := by
  rw [mem_contentOf, followsVersion, Container.holdsMicronodeVersion_iff]
  constructor
  · rintro ⟨hm, hb, hc, he⟩
    exact ⟨hb, store.edges.find?_eq_some_iff.mpr ⟨hm, rfl⟩, hc, he⟩
  · rintro ⟨hb, hm, hc, he⟩
    exact ⟨(store.edges.find?_eq_some_iff.mp hm).1, hb, hc, he⟩

/-- A container has recast fields just when it can be recast. -/
theorem recastable_iff {container : Container} : store.Recastable source target container ↔
    ∃ fields, (store.embedding source target).carry container.fields = .ok fields :=
  Embedding.exists_carry_iff.symm

/-- Every report leads to embedded content that keeps its container from being recast. -/
theorem obstructs_of_mem_obstacles {report : ContainerError}
    (h : report ∈ store.obstacles branchId source target) :
    store.Obstructs branchId source target report := by
  obtain ⟨⟨edge, container⟩, hm, hr⟩ := List.mem_filterMap.mp h
  unfold obstacle? at hr
  cases hc : (store.embedding source target).carry container.fields with
  | ok fields =>
    rw [hc] at hr
    cases hr
  | error error =>
    rw [hc] at hr
    obtain rfl := Option.some.inj hr
    obtain ⟨name, value, content, cause, hfield, hcontent, hs, hf, hpath, hcause⟩ :=
      Embedding.exists_of_carry_eq_error hc
    rw [hpath, hcause]
    exact .intro (mem_contentOf_microschema.mp hm) hfield hcontent hs hf

end Store

namespace Site

open VersionedContent.Action

variable {site : Site} {source target : Version} {branchId : Id}

/-- What embeds content at the source is not done. -/
theorem isDone_of_holds (hk : source.kind = .microschema) {store : Store} {edge : Edge}
    {container : Container} (h : store.Holds branchId source.id edge container) :
    (schemaPlan store source target).isDone container = false := by
  simp only [MigrationPlan.isDone, schemaPlan, hk, Bool.not_eq_false']
  exact Container.holdsMicronodeVersion_iff.mpr h.embeds

/-- What a plan between two microschema versions reports is what it cannot recast. -/
theorem filterMap_report?_of_microschema (hk : source.kind = .microschema) (store : Store) :
    (store.contentOf .microschema source.id branchId).filterMap
        (schemaPlan store source target).report? =
      store.obstacles branchId source target := by
  unfold Store.obstacles
  refine List.filterMap_congr fun entry hm => ?_
  rw [MigrationPlan.report?, isDone_of_holds hk (Store.mem_contentOf_microschema.mp hm),
    Store.obstacle?, MigrationPlan.successorFields]
  simp only [schemaPlan, hk]
  rfl

/-- What embeds content at the source leaves an heir its fields, recast. -/
theorem bequest?_of_holds (hk : source.kind = .microschema) {store : Store} {edge : Edge}
    {container : Container} (h : store.Holds branchId source.id edge container) :
    (schemaPlan store source target).bequest? container =
      ((store.embedding source target).carry container.fields).toOption := by
  rw [MigrationPlan.bequest?, isDone_of_holds hk h, MigrationPlan.successorFields]
  simp only [schemaPlan, hk]
  rfl

/-- What an heir of a container that embeds content at the source is. -/
theorem heir_iff_of_holds (hk : source.kind = .microschema) {store : Store} {edge : Edge}
    {container : Container} (h : store.Holds branchId source.id edge container)
    {heir : Option Container} (hh : (schemaPlan store source target).Heir container heir) :
    (heir = none ∧ ¬ store.Recastable source target container) ∨
      ∃ id createdAt fields,
        heir = some (container.successor id createdAt container.schemaVersionId fields) ∧
          (store.embedding source target).carry container.fields = .ok fields := by
  have hb := @bequest?_of_holds source target branchId hk store edge container h
  cases hh with
  | stays left =>
    refine .inl ⟨rfl, fun hr => ?_⟩
    obtain ⟨fields, hf⟩ := Store.recastable_iff.mp hr
    rw [left, hf] at hb
    cases hb
  | @moves fields left id createdAt =>
    have hversion : (schemaPlan store source target).successorVersion container =
        container.schemaVersionId := by
      simp only [MigrationPlan.successorVersion, schemaPlan, hk]
    rw [hversion]
    refine .inr ⟨id, createdAt, fields, rfl, ?_⟩
    rw [left] at hb
    cases hc : (store.embedding source target).carry container.fields with
    | error error =>
      rw [hc] at hb
      cases hb
    | ok other =>
      rw [hc] at hb
      rw [Option.some.inj hb]

/-- Heirs as a plan between two microschema versions has them are recast. -/
theorem recast_of_heirs (hk : source.kind = .microschema) {origin next : Store}
    {heir : EdgeKey → Option Container} (hs : origin.Succeeded next heir)
    (hkept : ∀ key, key ∉ (origin.contentOf .microschema source.id branchId).map
      (fun entry => entry.1.key) → heir key = none)
    (hheirs : ∀ entry ∈ origin.contentOf .microschema source.id branchId,
      (schemaPlan origin source target).Heir entry.2 (heir entry.1.key)) :
    origin.Recast next branchId source target heir := by
  have hheir : ∀ edge container, origin.Holds branchId source.id edge container →
      (heir edge.key = none ∧ ¬ origin.Recastable source target container) ∨
        ∃ id createdAt fields, heir edge.key =
            some (container.successor id createdAt container.schemaVersionId fields) ∧
          (origin.embedding source target).carry container.fields = .ok fields :=
    fun edge container h => heir_iff_of_holds hk h
      (hheirs (edge, container) (Store.mem_contentOf_microschema.mpr h))
  have hholds : ∀ key successor, heir key = some successor → ∃ edge container, edge.key = key ∧
      origin.Holds branchId source.id edge container ∧
      origin.Recastable source target container ∧ successor.previous = some container.id := by
    intro key successor hkey
    obtain ⟨⟨edge, container⟩, hm, rfl⟩ := MigrationPlan.exists_of_heir hkept hkey
    have h := Store.mem_contentOf_microschema.mp hm
    dsimp only at hkey h
    rcases hheir edge container h with ⟨hnone, -⟩ | ⟨id, createdAt, fields, hsome, hf⟩
    · rw [hnone] at hkey
      cases hkey
    · obtain rfl := Option.some.inj (hsome.symm.trans hkey)
      exact ⟨edge, container, rfl, h, Store.recastable_iff.mpr ⟨fields, hf⟩, rfl⟩
  refine { hs with moved := fun edge container h hr => ?_, left := fun edge container h hr => ?_,
                   stayed := fun key successor hkey => ?_ }
  · rcases hheir edge container h with ⟨-, hnot⟩ | ⟨id, createdAt, fields, hsome, hf⟩
    · exact absurd hr hnot
    · exact ⟨id, createdAt, fields, hsome, Embedding.carry_eq_ok_iff.mp hf⟩
  · rcases hheir edge container h with ⟨hnone, -⟩ | ⟨id, createdAt, fields, -, hf⟩
    · refine ⟨(hs.edge?_eq hnone).trans h.stored, ?_⟩
      -- No edge that shares the container has an heir either, so no link is added.
      obtain ⟨links, hl, -, hsame⟩ := hs.kept _ container h.leads
      rw [hl, hsame fun key successor hkey hp => ?_]
      obtain ⟨other, shared, -, ho, hrecast, hprevious⟩ := hholds key successor hkey
      have hid : shared.id = container.id := Option.some.inj (hprevious.symm.trans
        (hp.trans (congrArg some (Store.id_of_container? h.leads).symm)))
      have hsome := ho.leads
      rw [← Store.id_of_container? hsome, hid, Store.id_of_container? h.leads,
        h.leads] at hsome
      obtain rfl := Option.some.inj hsome
      exact hr hrecast
    · exact absurd (Store.recastable_iff.mpr ⟨fields, hf⟩) hr
  · obtain ⟨edge, container, rfl, h, hr, -⟩ := hholds key successor hkey
    exact ⟨edge, container, rfl, h, hr⟩

/-- On every site that is managed, whatever the bucket size, a microschema job that has started
recasts every container of its branch that embeds content at the one version and can be recast,
reports all that cannot, and changes nothing else. Each report leads to the embedded field that
cannot be migrated. The job is completed when there is nothing to report. -/
theorem Managed.microschemaJob_recast (h : Managed site) (bucket : Nat) {entry : JobEntry}
    (hm : entry ∈ site.store.jobs.entries) (hstarted : entry.job.status = .started)
    (hjob : entry.job.kind = .microschema branchId source.id target.id)
    (hbranch : site.store.branch? branchId ≠ none) (hs : source ∈ site.store.versions.rows)
    (ht : target ∈ site.store.versions.rows) (hk : source.kind = .microschema)
    (hk' : target.kind = .microschema) (hn : source.name = target.name)
    (hlt : source.number < target.number)
    (hl : (site.store.chainVersions .microschema target.name).length < 4294967296) :
    ∃ heir stoppedAt next,
      outcome (process entry.job) { site with bucketSize := max bucket 1 } =
        (.ok (some (entry.job.ended
          (verdict (.ok (site.store.obstacles branchId source target))).1
          (verdict (.ok (site.store.obstacles branchId source target))).2 stoppedAt)), next) ∧
      next.store.jobs = site.store.jobs.replace entry.sequence (entry.job.ended
        (verdict (.ok (site.store.obstacles branchId source target))).1
        (verdict (.ok (site.store.obstacles branchId source target))).2 stoppedAt) ∧
      site.store.Recast next.store branchId source target heir ∧
      ∀ report ∈ site.store.obstacles branchId source target,
        site.store.Obstructs branchId source target report := by
  have hsound := h.reachable.sound.resized bucket
  have hcoherent : Coherent { site with bucketSize := max bucket 1 } := h.coherent
  obtain ⟨cache, hplan⟩ := outcome_plan hsound hcoherent hs ht (hk.trans hk'.symm) hn
    (hk' ▸ hl) (Nat.le_of_lt hlt)
  rw [hk'] at hplan
  obtain ⟨executed, heir, hrun, hsucceeded, hheirs⟩ :=
    outcome_execute_migration hsound .microschema branchId source.id target.id
  rw [hplan] at hrun hheirs
  cases hheirs with
  | unfound _ missing _ => exact absurd missing hbranch
  | moved _ _ hkept hheirs =>
    have hanswer : site.store.migrationAnswer branchId (.ok (schemaPlan site.store source target)) =
        .ok (site.store.obstacles branchId source target) := by
      obtain ⟨found, hfound⟩ := Option.ne_none_iff_exists'.mp hbranch
      simp only [Store.migrationAnswer, hfound, ← filterMap_report?_of_microschema hk, schemaPlan,
        hk]
    have hexecute := hrun.trans (congrArg (·, executed) hanswer)
    rw [show JobKind.migration .microschema branchId source.id target.id = entry.job.kind from
      hjob.symm] at hexecute
    obtain ⟨next, hprocess, hstore⟩ := outcome_process hsound hm hstarted hexecute
    refine ⟨heir, _, next, hprocess, by rw [hstore], ?_,
      fun report => Store.obstructs_of_mem_obstacles⟩
    simp only [hk] at hkept hheirs
    have hrecast := recast_of_heirs hk hsucceeded hkept hheirs
    rw [hstore]
    exact { hrecast with }

/-- A list whose two items can be recast gets an heir; one with an item that cannot be stays as it
is, and is reported. -/
theorem microschemaJob_of_two_lists :
    let flagged (type : FieldType) : Definition :=
      { name := "image", fields := [{ name := "flag", type := type }] }
    let article : Definition :=
      { name := "article",
        fields := [{ name := "gallery", type := .list, listType := some .micronode,
                     allow := ["image"] }] }
    let image (text : String) : FieldValue := .micronode ⟨"image", "@v1", [("flag", .string text)]⟩
    let calls : List Call :=
      [.createSchema .microschema (flagged .string), .createSchema .schema article,
        .createBranch "p1" "main" none, .assignLatest "@b1" .microschema "image",
        .addContent "@b1" "n1" "en" "@v2" [("gallery", .list [image "true", image "false"])]
          [.draft],
        .addContent "@b1" "n2" "en" "@v2" [("gallery", .list [image "true", image "perhaps"])]
          [.published],
        .updateSchema .microschema "image" (flagged .boolean) [] none,
        .assignLatest "@b1" .microschema "image", .claimNext]
    let site := Call.afterAll (.empty (.ticking ⟨0, 0⟩) 10 10) calls
    ∃ source ∈ site.store.versions.rows, ∃ target ∈ site.store.versions.rows,
      ∃ entry ∈ site.store.jobs.entries, entry.job.status = .started ∧
        entry.job.kind = .microschema "@b1" source.id target.id ∧
        (site.store.obstacles "@b1" source target).map
          (fun report => (report.nodeId, report.type, report.field)) =
            [("n2", .published, some "gallery.flag")] ∧
        ∃ heir next, site.store.Recast next.store "@b1" source target heir ∧
          (outcome (process entry.job) { site with bucketSize := max 1 1 }).2 = next ∧
          (next.store.edges.rows.map fun edge => (edge.nodeId, edge.containerId)) =
            [("n1", "@c3"), ("n2", "@c2")] ∧
          (next.store.container? "@c3").map (fun heir => heir.micronodes.map Embedded.versionId) =
            some ["@v3", "@v3"] ∧
          next.store.jobs.entries.map (fun entry => entry.job.status) = [.failed] := by
  intro flagged article image calls site
  have hgiven : Call.areGiven (.empty (.ticking ⟨0, 0⟩) 10 10) calls = true := by decide +kernel
  have hmanaged : Managed site := Managed.calls (.empty (.ticking ⟨0, 0⟩) 10 10) hgiven
  let entry := site.store.jobs.entries.head (by decide +kernel)
  have hm : entry ∈ site.store.jobs.entries :=
    @List.head_mem _ site.store.jobs.entries (by decide +kernel)
  let source := site.store.versions.rows.head (by decide +kernel)
  have hs : source ∈ site.store.versions.rows :=
    @List.head_mem _ site.store.versions.rows (by decide +kernel)
  let target := site.store.versions.rows.getLast (by decide +kernel)
  have ht : target ∈ site.store.versions.rows :=
    @List.getLast_mem _ site.store.versions.rows (by decide +kernel)
  have hjob : entry.job.kind = .microschema "@b1" source.id target.id := by decide +kernel
  have hstarted : entry.job.status = .started := by decide +kernel
  have hlength : (site.store.chainVersions .microschema target.name).length < 4294967296 := by
    decide +kernel
  have hbranch : site.store.branch? "@b1" ≠ none := by
    rw [← Option.isSome_iff_ne_none]
    decide +kernel
  obtain ⟨heir, stoppedAt, next, hrun, -, hrecast, -⟩ := hmanaged.microschemaJob_recast 1 hm
    hstarted hjob hbranch hs ht (by decide +kernel) (by decide +kernel) (by decide +kernel)
    (by decide +kernel) hlength
  have hnext : (outcome (process entry.job) { site with bucketSize := max 1 1 }).2 = next :=
    congrArg Prod.snd hrun
  refine ⟨source, hs, target, ht, entry, hm, hstarted, hjob, by decide +kernel, heir, next,
    hrecast, hnext, ?_⟩
  rw [← hnext]
  refine ⟨?_, ?_, ?_⟩ <;> decide +kernel

end Site

end VersionedContent

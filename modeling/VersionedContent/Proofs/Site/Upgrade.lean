import VersionedContent.Proofs.Site.Finish
import VersionedContent.Proofs.Site.Reach
import VersionedContent.Proofs.Site.Sweep
import VersionedContent.Proofs.Store.Places

/-!
# What a schema job leaves

A job that moves a branch from one version of a schema to a later one gives every
container of the branch at the one version an heir at the other, with the fields
that the changes between the two lead to. A container whose fields the changes
reject stays where it is and is reported, and whatever else is stored stays as it
is. This is so wherever the pages begin and end.
-/

namespace VersionedContent

namespace Store

/-- The fields of a container, carried from one schema version to another one. -/
def carried (store : Store) (source target : Version) (container : Container) :
    Except FieldError FieldMap :=
  migrateFields container.fields ((store.versionsAfter source target).flatMap Version.changes)
    target.definition

/-- The content of a branch that is to go from one schema version to another one. -/
def due (store : Store) (branchId : Id) (source target : Version) : List (Edge × Container) :=
  if source.id = target.id then [] else store.contentOf .schema source.id branchId

/-- The report of content that cannot be carried from one schema version to another one. -/
def rejection? (store : Store) (source target : Version) (entry : Edge × Container) :
    Option ContainerError :=
  match store.carried source target entry.2 with
  | .error error => some (.at entry.1 entry.2 (some error.field) error.cause.message)
  | .ok _ => none

/-- The reports of all content of a branch that cannot be carried from one schema version to
another one. -/
def rejections (store : Store) (branchId : Id) (source target : Version) : List ContainerError :=
  (store.due branchId source target).filterMap (store.rejection? source target)

/-- Whether the content of a branch has gone from one schema version to another one, as far as it
can be carried there, and nothing else has changed. -/
structure Upgraded (origin next : Store) (branchId : Id) (source target : Version)
    (heir : EdgeKey → Option Container) : Prop extends Succeeded origin next heir where
  /-- What can be carried over has an heir with the fields that are carried over. -/
  moved : ∀ entry ∈ origin.due branchId source target, ∀ fields,
    origin.carried source target entry.2 = .ok fields →
      ∃ id createdAt, heir entry.1.key = some (entry.2.successor id createdAt target.id fields)
  /-- Nothing else has an heir. -/
  stayed : ∀ key successor, heir key = some successor →
    ∃ entry ∈ origin.due branchId source target, entry.1.key = key ∧
      ∃ fields, origin.carried source target entry.2 = .ok fields

end Store

namespace Site

open VersionedContent.Action

variable {site : Site}

/-- A coherent site plans the way between two versions of a chain, the one no later than the
other. -/
theorem outcome_plan (h : Sound site) (hc : Coherent site) {source target : Version}
    (hs : source ∈ site.store.versions.rows) (ht : target ∈ site.store.versions.rows)
    (hk : source.kind = target.kind) (hn : source.name = target.name)
    (hl : (site.store.chainVersions target.kind target.name).length < 4294967296)
    (hle : source.number ≤ target.number) :
    ∃ cache, outcome (plan target.kind source.id target.id) site =
      (.ok { source := source
             target := target
             changes := (site.store.versionsAfter source target).flatMap Version.changes
             definition := target.definition }, { site with cache := cache }) := by
  have hbetween := outcome_versionsBetween_of_mem h (Store.mem_chainVersions.mpr ⟨hs, hk, hn⟩) ht hl
  rw [if_pos hle] at hbetween
  obtain ⟨_, first, hfirst, -, hcoherent⟩ := hc.outcome_compiled hs (h.chained.valid source hs)
    fun other ho he => eq_of_place_eq h.chained hs ho (by rw [hk, hn]; exact hl) he
  obtain ⟨kept, second, hsecond, hdefinition, -⟩ := hcoherent.outcome_compiled ht
    (h.chained.valid target ht) fun other ho he => eq_of_place_eq h.chained ht ho hl he
  refine ⟨second, ?_⟩
  unfold plan
  rw [outcome_bind_of_ok (outcome_version (Store.version?_eq_some_iff.mpr ⟨hs, rfl⟩)),
    outcome_bind_of_ok (outcome_version (Store.version?_eq_some_iff.mpr ⟨ht, rfl⟩))]
  dsimp only
  rw [if_neg (by simp [hk]), outcome_bind_of_ok hbetween, outcome_bind_of_ok hfirst,
    outcome_bind_of_ok hsecond, ← hdefinition]
  rfl

/-- A plan between two versions of a chain, the one no later than the other. -/
def schemaPlan (store : Store) (source target : Version) : MigrationPlan where
  source := source
  target := target
  changes := (store.versionsAfter source target).flatMap Version.changes
  definition := target.definition

variable {source target : Version} {branchId : Id}

/-- A container at the source is done when it is at the target, that is when they are the same. -/
theorem isDone_schemaPlan (hk : source.kind = .schema) {store : Store} {entry : Edge × Container}
    (hm : entry ∈ store.contentOf .schema source.id branchId) :
    (schemaPlan store source target).isDone entry.2 = decide (source.id = target.id) := by
  obtain ⟨-, -, -, hv⟩ := Store.mem_contentOf.mp hm
  simp only [Store.followsVersion, decide_eq_true_eq] at hv
  simp [MigrationPlan.isDone, schemaPlan, hk, hv]

/-- What a plan between two schema versions reports is what it cannot carry over. -/
theorem filterMap_report?_schemaPlan (hk : source.kind = .schema) (store : Store) :
    (store.contentOf .schema source.id branchId).filterMap
        (schemaPlan store source target).report? =
      store.rejections branchId source target := by
  unfold Store.rejections Store.due
  by_cases hid : source.id = target.id
  · rw [if_pos hid, List.filterMap_nil, List.filterMap_eq_nil_iff]
    intro entry hm
    rw [MigrationPlan.report?, isDone_schemaPlan hk hm, decide_eq_true hid]
    rfl
  · rw [if_neg hid]
    refine List.filterMap_congr fun entry hm => ?_
    rw [MigrationPlan.report?, isDone_schemaPlan hk hm, decide_eq_false hid, Store.rejection?,
      MigrationPlan.successorFields]
    simp only [schemaPlan, hk]
    rfl

/-- A container at the source leaves an heir what can be carried over, unless the source is the
target. -/
theorem bequest?_schemaPlan (hk : source.kind = .schema) {store : Store} {entry : Edge × Container}
    (hm : entry ∈ store.contentOf .schema source.id branchId) :
    (schemaPlan store source target).bequest? entry.2 =
      if source.id = target.id then none else (store.carried source target entry.2).toOption := by
  rw [MigrationPlan.bequest?, isDone_schemaPlan hk hm, MigrationPlan.successorFields]
  simp only [schemaPlan, hk, decide_eq_true_eq]
  rfl

/-- Heirs stand at the target. -/
theorem successorVersion_schemaPlan (hk : source.kind = .schema) (store : Store)
    (container : Container) :
    (schemaPlan store source target).successorVersion container = target.id := by
  simp only [MigrationPlan.successorVersion, schemaPlan, hk]

/-- Heirs as a plan between two schema versions has them are those of an upgrade. -/
theorem upgraded_of_heirs (hk : source.kind = .schema) {origin next : Store}
    {heir : EdgeKey → Option Container} (hs : origin.Succeeded next heir)
    (hkept : ∀ key, key ∉ (origin.contentOf .schema source.id branchId).map
      (fun entry => entry.1.key) → heir key = none)
    (hheirs : ∀ entry ∈ origin.contentOf .schema source.id branchId,
      (schemaPlan origin source target).Heir entry.2 (heir entry.1.key)) :
    origin.Upgraded next branchId source target heir := by
  refine { hs with moved := fun entry hm fields hf => ?_, stayed := fun key successor hheir => ?_ }
  · unfold Store.due at hm
    split at hm
    · cases hm
    · next hid =>
      have hleft := @bequest?_schemaPlan source target branchId hk origin entry hm
      rw [if_neg hid, hf] at hleft
      generalize hfound : heir entry.1.key = found at hheirs
      have hh := hheirs entry hm
      rw [hfound] at hh
      cases hh with
      | stays left => simp [hleft, Except.toOption] at left
      | moves left id createdAt =>
        obtain rfl := Option.some.inj (hleft.symm.trans left)
        exact ⟨id, createdAt, by rw [successorVersion_schemaPlan hk]⟩
  · obtain ⟨entry, hm, rfl⟩ := MigrationPlan.exists_of_heir hkept hheir
    have hh := hheirs entry hm
    have hleft := @bequest?_schemaPlan source target branchId hk origin entry hm
    rw [hheir] at hh
    cases hh with
    | moves left id createdAt =>
      rw [left] at hleft
      split at hleft
      · cases hleft
      · next hid =>
        refine ⟨entry, by rw [Store.due, if_neg hid]; exact hm, rfl, ?_⟩
        cases hf : origin.carried source target entry.2 with
        | error error => simp [hf, Except.toOption] at hleft
        | ok fields => exact ⟨fields, rfl⟩

/-- On every site that is managed, whatever the bucket size, a schema job that has started gives
every container of its branch that can be carried over an heir, reports all that cannot, and
changes nothing else. It is completed when there is nothing to report. -/
theorem Managed.schemaJob_upgraded (h : Managed site) (bucket : Nat) {entry : JobEntry}
    (hm : entry ∈ site.store.jobs.entries) (hstarted : entry.job.status = .started)
    (hjob : entry.job.kind = .schema branchId source.id target.id)
    (hbranch : site.store.branch? branchId ≠ none) (hs : source ∈ site.store.versions.rows)
    (ht : target ∈ site.store.versions.rows) (hk : source.kind = .schema)
    (hk' : target.kind = .schema) (hn : source.name = target.name)
    (hle : source.number ≤ target.number)
    (hl : (site.store.chainVersions .schema target.name).length < 4294967296) :
    ∃ heir stoppedAt next,
      outcome (process entry.job) { site with bucketSize := max bucket 1 } =
        (.ok (some (entry.job.ended
          (verdict (.ok (site.store.rejections branchId source target))).1
          (verdict (.ok (site.store.rejections branchId source target))).2 stoppedAt)), next) ∧
      next.store.jobs = site.store.jobs.replace entry.sequence (entry.job.ended
        (verdict (.ok (site.store.rejections branchId source target))).1
        (verdict (.ok (site.store.rejections branchId source target))).2 stoppedAt) ∧
      site.store.Upgraded next.store branchId source target heir := by
  have hsound := h.reachable.sound.resized bucket
  have hcoherent : Coherent { site with bucketSize := max bucket 1 } := h.coherent
  obtain ⟨found, hfound⟩ := Option.ne_none_iff_exists'.mp hbranch
  obtain ⟨cache, hplan⟩ := outcome_plan hsound hcoherent hs ht (hk.trans hk'.symm) hn
    (hk' ▸ hl) hle
  rw [hk'] at hplan
  have hsteady : Steady site.store.versions site.issued.versions
      { site with bucketSize := max bucket 1, cache := cache } :=
    ⟨hsound.outages, rfl, rfl, hsound.housed⟩
  have hpast := hsteady.isPast_of_version? h.reachable.sound.chained.fresh
    (Store.version?_eq_some_iff.mpr ⟨ht, rfl⟩)
  obtain ⟨executed, heir, hrun, -, hsucceeded, hkept, hheirs⟩ := @outcome_migrateBranchContent
    _ _ (schemaPlan site.store source target) hpast _ hsteady hsound.bucketSize _ _ hfound
  simp only [schemaPlan, hk] at hkept hheirs hrun
  rw [← schemaPlan, filterMap_report?_schemaPlan hk] at hrun
  have hexecute : outcome (execute entry.job.kind) { site with bucketSize := max bucket 1 } =
      (.ok (site.store.rejections branchId source target), executed) := by
    rw [hjob]
    exact (outcome_bind_of_ok hplan _).trans hrun
  obtain ⟨next, hprocess, hstore⟩ := outcome_process hsound hm hstarted hexecute
  refine ⟨heir, _, next, hprocess, by rw [hstore], ?_⟩
  have hupgraded := upgraded_of_heirs hk hsucceeded hkept hheirs
  rw [hstore]
  exact { hupgraded with }

/-- Of two texts that are to become truth values the one has an heir and the other is reported. -/
theorem schemaJob_of_two_texts :
    let flagged (type : FieldType) : Definition :=
      { name := "article", fields := [{ name := "flag", type := type }] }
    let calls : List Call :=
      [.createSchema .schema (flagged .string), .createBranch "p1" "main" none,
        .assignLatest "@b1" .schema "article",
        .addContent "@b1" "n1" "en" "@v1" [("flag", .string "true")] [.draft],
        .addContent "@b1" "n2" "en" "@v1" [("flag", .string "perhaps")] [.published],
        .updateSchema .schema "article" (flagged .boolean) [] none,
        .assignLatest "@b1" .schema "article", .claimNext]
    let site := Call.afterAll (.empty (.ticking ⟨0, 0⟩) 10 10) calls
    ∃ source ∈ site.store.versions.rows, ∃ target ∈ site.store.versions.rows,
      ∃ entry ∈ site.store.jobs.entries, entry.job.status = .started ∧
        entry.job.kind = .schema "@b1" source.id target.id ∧
        (site.store.rejections "@b1" source target).map ContainerError.nodeId = ["n2"] ∧
        ∃ heir next, site.store.Upgraded next.store "@b1" source target heir ∧
          (outcome (process entry.job) { site with bucketSize := max 1 1 }).2 = next ∧
          (next.store.edges.rows.map fun edge => (edge.nodeId, edge.containerId)) =
            [("n1", "@c3"), ("n2", "@c2")] ∧
          next.store.jobs.entries.map (fun entry => entry.job.status) = [.failed] := by
  intro flagged calls site
  have hgiven : Call.areGiven (.empty (.ticking ⟨0, 0⟩) 10 10) calls = true := by decide +kernel
  have hmanaged : Managed site := Managed.calls (.empty (.ticking ⟨0, 0⟩) 10 10) hgiven
  let entry := site.store.jobs.entries.head (by decide +kernel)
  have hm : entry ∈ site.store.jobs.entries :=
    @List.head_mem _ site.store.jobs.entries (by decide +kernel)
  let source := site.store.versions.rows.head (by decide +kernel)
  have hs : source ∈ site.store.versions.rows :=
    @List.head_mem _ site.store.versions.rows (by decide +kernel)
  let target := site.store.versions.rows.getLast (by decide +kernel)
  have ht : target ∈ site.store.versions.rows :=
    @List.getLast_mem _ site.store.versions.rows (by decide +kernel)
  have hjob : entry.job.kind = .schema "@b1" source.id target.id := by decide +kernel
  have hstarted : entry.job.status = .started := by decide +kernel
  have hlength : (site.store.chainVersions .schema target.name).length < 4294967296 := by
    decide +kernel
  have hbranch : site.store.branch? "@b1" ≠ none := by
    rw [← Option.isSome_iff_ne_none]
    decide +kernel
  obtain ⟨heir, stoppedAt, next, hrun, -, hupgraded⟩ := hmanaged.schemaJob_upgraded 1 hm hstarted
    hjob hbranch hs ht (by decide +kernel) (by decide +kernel) (by decide +kernel)
    (by decide +kernel) hlength
  have hnext : (outcome (process entry.job) { site with bucketSize := max 1 1 }).2 = next :=
    congrArg Prod.snd hrun
  refine ⟨source, hs, target, ht, entry, hm, hstarted, hjob, by decide +kernel, heir, next,
    hupgraded, hnext, ?_⟩
  rw [← hnext]
  decide +kernel

end Site

end VersionedContent

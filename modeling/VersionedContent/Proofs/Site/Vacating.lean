import VersionedContent.Proofs.Content.Recast
import VersionedContent.Proofs.Site.Moving

/-!
# What a migration leaves at its source

An heir follows the target of its plan, and whatever else the container before it
followed, but the source no longer. So what follows the source after a migration
is what could not be moved. To go through that again changes nothing and reports
the same.
-/

namespace VersionedContent

namespace MigrationPlan

variable {plan : MigrationPlan} {container : Container}

/-- Fields that are left are those of a successor, of a container that is not done. -/
theorem successorFields_of_bequest? {fields : FieldMap}
    (h : plan.bequest? container = some fields) : plan.successorFields container = .ok fields := by
  unfold bequest? at h
  split at h
  · cases h
  · cases hf : plan.successorFields container with
    | error error =>
      rw [hf] at h
      cases h
    | ok other =>
      rw [hf] at h
      rw [Option.some.inj h]

/-- An heir follows the target, and what the container before it followed besides the source. -/
theorem Heir.of_followsVersion {successor : Container} (h : plan.Heir container (some successor))
    {versionId : Id} (hf : Store.followsVersion plan.source.kind versionId successor = true) :
    versionId = plan.target.id ∨ versionId ≠ plan.source.id ∧
      Store.followsVersion plan.source.kind versionId container = true := by
  cases h with
  | @moves fields left id createdAt =>
    have hfields := successorFields_of_bequest? left
    unfold successorFields successorVersion at *
    cases hk : plan.source.kind with
    | schema =>
      simp only [hk, Store.followsVersion, decide_eq_true_eq] at hf
      exact .inl hf.symm
    | microschema =>
      simp only [hk] at hfields hf
      rw [Store.followsVersion, Container.holdsMicronodeVersion_iff] at hf ⊢
      obtain ⟨content, he, rfl⟩ := hf
      obtain ⟨origin, ho, hr⟩ := (Embedding.carry_eq_ok_iff.mp hfields).exists_of_embeds he
      cases hr with
      | moves follows migrated => exact .inl rfl
      | stays other => exact .inr ⟨other, content, ho, rfl⟩

end MigrationPlan

namespace Store

variable {origin next : Store} {heir : EdgeKey → Option Container} {branchId : Id}
  {plan : MigrationPlan}

/-- Behind an edge is its heir, or the container that was there. -/
theorem Succeeded.heir_or_kept (h : Succeeded origin next heir)
    (held : ∀ key edge, origin.edge? key = some edge → origin.container? edge.containerId ≠ none)
    {key : EdgeKey} {edge : Edge} {container : Container} (he : next.edge? key = some edge)
    (hc : next.container? edge.containerId = some container) :
    heir key = some container ∨ heir key = none ∧ origin.edge? key = some edge ∧
      ∃ before, origin.container? edge.containerId = some before ∧
        before.unlinked = container.unlinked := by
  cases hk : heir key with
  | none =>
    have hedge := (h.edge?_eq hk).symm.trans he
    obtain ⟨before, hb⟩ := Option.ne_none_iff_exists'.mp (held key edge hedge)
    have hsame := h.unlinked_eq (held key edge hedge)
    rw [hc, hb] at hsame
    exact .inr ⟨rfl, hedge, before, hb, (Option.some.inj hsame).symm⟩
  | some successor =>
    have hedge := h.edges key
    rw [he, hk] at hedge
    obtain ⟨_, -, rfl⟩ := Option.map_eq_some_iff.mp hedge.symm
    exact .inl (congrArg some (Option.some.inj ((h.heirs key successor hk).symm.trans hc)))

/-- Whether the content of a branch has been moved off the source of a plan, as far as it can be,
and nothing else has changed. -/
structure Vacated (origin next : Store) (branchId : Id) (plan : MigrationPlan)
    (heir : EdgeKey → Option Container) : Prop extends Succeeded origin next heir where
  /-- Every edge pointed at a stored container. -/
  held : ∀ key edge, origin.edge? key = some edge → origin.container? edge.containerId ≠ none
  /-- Where nothing followed the source there are no heirs. -/
  elsewhere : ∀ key, key ∉ (origin.contentOf plan.source.kind plan.source.id branchId).map
    (fun entry => entry.1.key) → heir key = none
  /-- What followed the source has the heirs that the plan makes. -/
  bequeathed : ∀ entry ∈ origin.contentOf plan.source.kind plan.source.id branchId,
    plan.Heir entry.2 (heir entry.1.key)

/-- What follows a version other than the target has followed it before; what follows the source has
no heir. -/
theorem Vacated.exists_of_mem_contentOf (h : Vacated origin next branchId plan heir)
    {versionId : Id} (ht : versionId ≠ plan.target.id) {entry : Edge × Container}
    (hm : entry ∈ next.contentOf plan.source.kind versionId branchId) :
    ∃ old ∈ origin.contentOf plan.source.kind versionId branchId,
      versionId = plan.source.id →
        heir old.1.key = none ∧ old.1 = entry.1 ∧ old.2.unlinked = entry.2.unlinked := by
  obtain ⟨hrow, hb, hc, hf⟩ := mem_contentOf.mp hm
  have he : next.edge? entry.1.key = some entry.1 :=
    next.edges.find?_eq_some_iff.mpr ⟨hrow, rfl⟩
  rcases h.heir_or_kept h.held he hc with hheir | ⟨hnone, hold, before, hbefore, hsame⟩
  · obtain ⟨old, hm, hk⟩ := MigrationPlan.exists_of_heir h.elsewhere hheir
    have hheirs := h.bequeathed old hm
    rw [hk, hheir] at hheirs
    rcases hheirs.of_followsVersion hf with htarget | ⟨hs, hfollowed⟩
    · exact absurd htarget ht
    · obtain ⟨hr, hbranch, hcontainer, -⟩ := mem_contentOf.mp hm
      exact ⟨old, mem_contentOf.mpr ⟨hr, hbranch, hcontainer, hfollowed⟩, fun he => absurd he hs⟩
  · refine ⟨(entry.1, before), mem_contentOf.mpr ⟨?_, hb, hbefore, ?_⟩,
      fun _ => ⟨hnone, rfl, hsame⟩⟩
    · exact (origin.edges.find?_eq_some_iff.mp hold).1
    · rw [← followsVersion_unlinked, hsame, followsVersion_unlinked]
      exact hf

/-- What follows the source after a migration is what got no heir, as it was. -/
theorem Vacated.map_unlinked_following (h : Vacated origin next branchId plan heir)
    (hne : plan.source.id ≠ plan.target.id) (type : ContainerType) :
    (next.following plan.source.kind plan.source.id branchId type none).map
        (fun entry => (entry.1, entry.2.unlinked)) =
      ((origin.following plan.source.kind plan.source.id branchId type none).filter fun entry =>
        (plan.bequest? entry.2).isNone).map fun entry => (entry.1, entry.2.unlinked) := by
  have hnext := next.pairwise_following plan.source.kind plan.source.id branchId type none
  have horigin := origin.pairwise_following plan.source.kind plan.source.id branchId type none
  refine eq_of_mem_iff (fun entry : Edge × Container => entry.1.cursor) ?_ ?_ fun item => ?_
  · exact List.pairwise_map.mpr hnext
  · exact List.pairwise_map.mpr (horigin.filter _)
  simp only [List.mem_map, List.mem_filter, mem_following_none, Option.isNone_iff_eq_none]
  constructor
  · rintro ⟨entry, ⟨hm, rfl⟩, rfl⟩
    obtain ⟨old, hold, hsame⟩ := h.exists_of_mem_contentOf hne hm
    obtain ⟨hnone, hedge, hcontainer⟩ := hsame rfl
    have hheir := h.bequeathed old hold
    rw [hnone] at hheir
    cases hheir with
    | stays left => exact ⟨old, ⟨⟨hold, by rw [hedge]⟩, left⟩, by rw [hedge, hcontainer]⟩
  · rintro ⟨old, ⟨⟨hm, rfl⟩, hstays⟩, rfl⟩
    have hheir := h.bequeathed old hm
    obtain ⟨hrow, hb, hc, hf⟩ := mem_contentOf.mp hm
    have hnone : heir old.1.key = none := by
      generalize heir old.1.key = found at hheir
      cases hheir with
      | stays left => rfl
      | moves left id createdAt => exact absurd (left.symm.trans hstays) (Option.some_ne_none _)
    obtain ⟨links, hl, -⟩ := h.kept _ _ hc
    refine ⟨(old.1, { old.2 with next := links }), ⟨mem_contentOf.mpr ⟨?_, hb, hl, ?_⟩, rfl⟩, rfl⟩
    · have hedge : next.edge? old.1.key = some old.1 :=
        (h.edge?_eq hnone).trans (origin.edges.find?_eq_some_iff.mpr ⟨hrow, rfl⟩)
      exact (next.edges.find?_eq_some_iff.mp hedge).1
    · rw [← followsVersion_unlinked] at hf ⊢
      exact hf

/-- What is reported of the source after a migration is what the migration reports. -/
theorem Vacated.filterMap_report?_eq (h : Vacated origin next branchId plan heir)
    (hne : plan.source.id ≠ plan.target.id) :
    (next.contentOf plan.source.kind plan.source.id branchId).filterMap plan.report? =
      (origin.contentOf plan.source.kind plan.source.id branchId).filterMap plan.report? := by
  have hleft : ∀ entries : List (Edge × Container), (entries.filter fun entry =>
      (plan.bequest? entry.2).isNone).filterMap plan.report? = entries.filterMap plan.report? := by
    intro entries
    rw [List.filterMap_filter]
    refine List.filterMap_congr fun entry _ => ?_
    cases hb : plan.bequest? entry.2 with
    | none => rfl
    | some fields => exact (MigrationPlan.report?_eq_none hb).symm
  rw [← plan.filterMap_report?_unlinked, contentOf, List.map_append,
    h.map_unlinked_following hne, h.map_unlinked_following hne, ← List.map_append,
    plan.filterMap_report?_unlinked, ← List.filter_append, hleft, contentOf]

/-- What follows the source after a migration gets no heir when it is tried again. -/
theorem Vacated.bequest?_eq_none (h : Vacated origin next branchId plan heir)
    (hne : plan.source.id ≠ plan.target.id) {entry : Edge × Container}
    (hm : entry ∈ next.contentOf plan.source.kind plan.source.id branchId) :
    plan.bequest? entry.2 = none := by
  have hview : (entry.1, entry.2.unlinked) ∈
      (next.following plan.source.kind plan.source.id branchId entry.1.type none).map
        fun entry => (entry.1, entry.2.unlinked) :=
    List.mem_map_of_mem (mem_following_none.mpr ⟨hm, rfl⟩)
  rw [h.map_unlinked_following hne] at hview
  obtain ⟨old, hold, he⟩ := List.mem_map.mp hview
  have hstays := Option.isNone_iff_eq_none.mp (List.mem_filter.mp hold).2
  have hsame : plan.bequest? old.2.unlinked = plan.bequest? entry.2.unlinked :=
    congrArg (fun entry => plan.bequest? entry.2) he
  exact hsame.symm.trans hstays

/-- Content of a branch that has been moved according to a plan is off the source. -/
theorem Bequeathed.vacated (h : origin.Bequeathed branchId heir (.ok plan))
    (hb : origin.branch? branchId ≠ none) (hs : Succeeded origin next heir)
    (held : ∀ key edge, origin.edge? key = some edge →
      origin.container? edge.containerId ≠ none) : Vacated origin next branchId plan heir := by
  cases h with
  | unfound _ missing _ => exact absurd missing hb
  | moved _ _ hkept hheirs =>
    exact { hs with held := held, elsewhere := hkept, bequeathed := hheirs }

end Store

namespace Site

open VersionedContent.Action

variable {site : Site} {plan : MigrationPlan}

/-- A plan leads between the versions of its identifiers. -/
theorem ids_of_plan {kind : Kind} {sourceId targetId : Id}
    (h : (outcome (Site.plan kind sourceId targetId) site).1 = .ok plan) :
    plan.source.id = sourceId ∧ plan.target.id = targetId := by
  have hplan := within_plan (I := fun _ => True) (R := Recached)
    (P := fun id found => found.id = id) (fun _ _ _ _ _ _ _ => ⟨trivial, rfl⟩)
    (fun _ _ _ _ hf => (Store.version?_eq_some_iff.mp hf).2) kind sourceId targetId
  obtain ⟨hs, ht, -⟩ := (hplan site trivial).2.2 plan h
  exact ⟨hs, ht⟩

/-- A container that leaves nothing stays as it is, and is reported if it should be moved. -/
theorem outcome_migrateContainer_of_stays {entry : Edge × Container}
    (h : plan.bequest? entry.2 = none) (site : Site) :
    outcome (migrateContainer plan entry.1 entry.2) site = (.ok (plan.report? entry), site) := by
  unfold MigrationPlan.bequest? at h
  unfold migrateContainer MigrationPlan.report?
  by_cases hd : plan.isDone entry.2 = true
  · simp only [hd, ite_true]
    rfl
  · simp only [hd, Bool.false_eq_true, ite_false] at h ⊢
    cases hf : plan.successorFields entry.2 with
    | error error => rfl
    | ok fields =>
      rw [hf] at h
      cases h

/-- Going through content that leaves nothing changes nothing. -/
theorem outcome_visit_of_stays {entries : List (Edge × Container)}
    (h : ∀ entry ∈ entries, plan.bequest? entry.2 = none) (site : Site) :
    outcome (entries.filterMapM fun entry => migrateContainer plan entry.1 entry.2) site =
      (.ok (entries.filterMap plan.report?), site) := by
  induction entries with
  | nil => rfl
  | cons entry rest ih =>
    have hrest := ih fun other hm => h other (List.mem_cons_of_mem _ hm)
    rw [List.filterMapM_cons, outcome_bind_of_ok
      (outcome_migrateContainer_of_stays (h entry List.mem_cons_self) site), List.filterMap_cons]
    cases plan.report? entry with
    | none => exact hrest
    | some report => exact outcome_bind_of_ok hrest _

/-- A migration between versions where all content leaves nothing keeps its versions compiled, and
does no more. -/
theorem outcome_execute_of_stays (h : Sound site) (kind : Kind) (branchId source target : Id)
    (hstays : ∀ plan, (outcome (Site.plan kind source target) site).1 = .ok plan →
      site.store.branch? branchId ≠ none →
        ∀ entry ∈ site.store.contentOf plan.source.kind plan.source.id branchId,
          plan.bequest? entry.2 = none) :
    ∃ cache, outcome (execute (.migration kind branchId source target)) site =
      (site.store.migrationAnswer branchId (outcome (Site.plan kind source target) site).1,
        { site with cache := cache }) := by
  obtain ⟨hrecached, hfound⟩ := recached_plan h kind source target
  rcases hplan : outcome (Site.plan kind source target) site with ⟨answer, planned⟩
  rw [hplan] at hrecached hfound hstays
  obtain ⟨cache, rfl⟩ : ∃ cache, planned = { site with cache := cache } := ⟨_, hrecached⟩
  refine ⟨cache, ?_⟩
  rw [execute_migration]
  cases answer with
  | error failure => exact outcome_bind_of_error hplan _
  | ok plan =>
    rw [outcome_bind_of_ok hplan]
    unfold Store.migrationAnswer
    dsimp only
    cases hb : site.store.branch? branchId with
    | none =>
      unfold migrateBranchContent branch
      rw [bind_assoc, outcome_bind_of_ok (outcome_query _ _), hb]
      rfl
    | some found =>
      have hsteady : Steady site.store.versions site.issued.versions
          { site with cache := cache } := ⟨h.outages, rfl, rfl, h.housed⟩
      rw [outcome_migrateBranchContent_eq (hfound plan rfl).2 hsteady h.bucketSize hb]
      exact outcome_visit_of_stays (hstays plan rfl (by simp [hb])) _

end Site

end VersionedContent

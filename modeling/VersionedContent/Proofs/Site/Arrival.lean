import VersionedContent.Proofs.Site.Sound

/-!
# How content arrives

New content is stored as one container, and edges come to stand at the version
that it follows. All other edges stand where they stood.
-/

namespace VersionedContent.Site

open VersionedContent.Action

/-- Whether content has arrived at a version. -/
structure Arrives (versionId : Id) (site next : Site) : Prop where
  /-- The jobs stay as they are. -/
  jobs : next.store.jobs = site.store.jobs
  /-- The versions stay as they are. -/
  versions : next.store.versions = site.store.versions
  /-- The branches stay as they are. -/
  branches : next.store.branches = site.store.branches
  /-- An edge stands at the version or where it stood. -/
  standing : ∀ key version, next.store.standing? key = some version →
    site.store.standing? key = some version ∨ version = versionId

instance (versionId : Id) : Std.Refl (Arrives versionId) where
  refl _ := ⟨rfl, rfl, rfl, fun _ _ h => .inl h⟩

instance (versionId : Id) : IsTrans Site (Arrives versionId) where
  trans a b c hab hbc := {
    jobs := hbc.jobs.trans hab.jobs
    versions := hbc.versions.trans hab.versions
    branches := hbc.branches.trans hab.branches
    standing := fun key version h => by
      rcases hbc.standing key version h with h | h
      · exact hab.standing key version h
      · exact .inr h }

/-- A site whose content is in order and that holds a container of a version. -/
structure Holds (containerId versionId : Id) (site : Site) : Prop where
  /-- No outage is planned. -/
  outages : site.outages = []
  /-- The content is in order. -/
  housed : site.store.Housed site.issued
  /-- The container follows the version. -/
  follows : site.store.follows? containerId = some versionId

/-- An edge to the container may be set. -/
theorem within_setEdge_of_holds {containerId versionId : Id} {edge : Edge}
    (he : edge.containerId = containerId) :
    Within (Holds containerId versionId) (Arrives versionId) (fun _ => True) (setEdge edge) := by
  refine within_unlessOut (fun _ hi => hi.outages) fun site hi => ?_
  rw [outcome_transact, Store.outcome_setEdge]
  have hfollow : site.store.follows? edge.containerId = some versionId := he ▸ hi.follows
  by_cases hc : site.store.containers.contains edge.containerId = true
  · rw [if_pos hc]
    obtain ⟨hhoused, hstand⟩ := @Store.Housed.setEdge _ _ hi.housed edge (by simp [hfollow])
    refine ⟨⟨hi.outages, hhoused, hi.follows⟩, ⟨rfl, rfl, rfl, fun key version h => ?_⟩,
      fun _ _ => trivial⟩
    have hnew := (hstand key).symm.trans h
    split at hnew
    · exact .inr (Option.some.inj (hnew.symm.trans hfollow))
    · exact .inl hnew
  · rw [if_neg hc]
    exact ⟨hi, refl site, fun _ _ => trivial⟩

/-- New content arrives at the version that it was made for. -/
theorem addContent_spec {site : Site} (h : Sound site) {versionId : Id}
    (hv : site.issued.versions.IsPast versionId) (branchId nodeId : Id) (language : String)
    (fields : FieldMap) (types : List ContainerType) :
    Arrives versionId site
      (outcome (addContent branchId nodeId language versionId fields types) site).2 := by
  obtain ⟨container, hid, hversion, -, -, ho⟩ :=
    outcome_addContent site branchId nodeId language versionId fields types
  obtain ⟨stored, hs⟩ : ∃ stored : Site, stored = { ticked site with
    store := { site.store with containers := site.store.containers.insert container }
    issued := { site.issued with containers := site.issued.containers.advance 1 } } := ⟨_, rfl⟩
  obtain ⟨hhoused, hstand⟩ := h.housed.insertContainer hid (by rw [hversion]; exact hv)
  have hholds : Holds container.id versionId stored := by
    rw [hs]
    refine ⟨h.outages, hhoused, ?_⟩
    refine (Store.find?_insert_map_version site.store.containers container container.id).trans ?_
    rw [if_pos rfl, hversion]
  have harrives : Arrives versionId site stored := by
    rw [hs]
    exact ⟨rfl, rfl, rfl, fun key version hstood => .inl ((hstand key).symm.trans hstood)⟩
  have hedges : Within (Holds container.id versionId) (Arrives versionId) (fun _ => True) (do
      types.forM fun type => setEdge (.toContainer branchId container type)
      return container.id) := by
    refine within_bind (within_forM fun type _ => ?_) fun _ _ => within_pure trivial
    exact within_setEdge_of_holds rfl
  rw [ho, ← hs]
  exact IsTrans.trans _ _ _ harrives (hedges stored hholds).2.1

end VersionedContent.Site

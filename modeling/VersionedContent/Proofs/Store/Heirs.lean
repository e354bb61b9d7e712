import Mathlib.Logic.Function.Basic
import VersionedContent.Proofs.Store.Pages

/-!
# Containers and their heirs

When content moves, an edge is turned to a successor of the container that it
points at, its heir; every edge gets an heir of its own, also where several
point at one container. `Succeeded` compares a store with the one before: edges
without an heir point where they did, and containers keep all that they hold and
are linked to their heirs.
-/

namespace VersionedContent.Store

variable {origin store : Store} {heir : EdgeKey → Option Container}

/-- Whether the edges that have an heir have been turned to it, and no other content has changed. -/
structure Succeeded (origin store : Store) (heir : EdgeKey → Option Container) : Prop where
  /-- The versions stay as they are. -/
  versions : store.versions = origin.versions
  /-- The branches stay as they are. -/
  branches : store.branches = origin.branches
  /-- An edge with an heir points at it, any other one where it pointed. -/
  edges : ∀ key, store.edge? key = (origin.edge? key).map fun edge =>
    match heir key with
    | none => edge
    | some successor => { edge with containerId := successor.id }
  /-- An heir succeeds the container that its edge pointed at. -/
  succeeds : ∀ key successor, heir key = some successor →
    ∃ edge, origin.edge? key = some edge ∧ successor.previous = some edge.containerId
  /-- An heir is new. -/
  fresh : ∀ key successor, heir key = some successor → origin.container? successor.id = none
  /-- An heir is one of a single edge. -/
  single : ∀ key other a b, heir key = some a → heir other = some b → a.id = b.id → key = other
  /-- An heir is stored. -/
  heirs : ∀ key successor, heir key = some successor →
    store.container? successor.id = some successor
  /-- A container keeps what it holds, and gets links to its heirs only. -/
  kept : ∀ id container, origin.container? id = some container →
    ∃ links, store.container? id = some { container with next := links } ∧
      (∀ other, other ∈ links ↔ other ∈ container.next ∨
        ∃ key successor, heir key = some successor ∧ successor.previous = some id ∧
          successor.id = other) ∧
      ((∀ key successor, heir key = some successor → successor.previous ≠ some id) →
        links = container.next)
  /-- Every other container is an heir. -/
  added : ∀ id container, store.container? id = some container → origin.container? id = none →
    ∃ key, heir key = some container

/-- Nothing has been succeeded at first. -/
theorem Succeeded.refl (store : Store) : Succeeded store store fun _ => none where
  versions := rfl
  branches := rfl
  edges key := by simp
  succeeds _ _ h := by cases h
  fresh _ _ h := by cases h
  single _ _ _ _ h := by cases h
  heirs _ _ h := by cases h
  kept _ container hf := ⟨container.next, hf, by simp, fun _ => rfl⟩
  added id container hf hn := absurd hf (by rw [hn]; simp)

/-- An edge without an heir points where it pointed. -/
theorem Succeeded.edge?_eq (h : Succeeded origin store heir) {key : EdgeKey}
    (hk : heir key = none) : store.edge? key = origin.edge? key := by
  rw [h.edges, hk, Option.map_id']

/-- A container holds what it held. -/
theorem Succeeded.unlinked_eq (h : Succeeded origin store heir) {id : Id}
    (hid : origin.container? id ≠ none) :
    (store.container? id).map Container.unlinked =
      (origin.container? id).map Container.unlinked := by
  obtain ⟨container, hf⟩ := Option.ne_none_iff_exists'.mp hid
  obtain ⟨links, hl, -⟩ := h.kept id container hf
  rw [hf, hl]
  rfl

/-- An edge with an heir stands where that stands. -/
theorem Succeeded.standing?_of_some (h : Succeeded origin store heir) {key : EdgeKey}
    {successor : Container} (hk : heir key = some successor) :
    store.standing? key = some successor.schemaVersionId := by
  obtain ⟨edge, he, -⟩ := h.succeeds key successor hk
  rw [standing?, h.edges, he, hk]
  exact follows?_of_container? (h.heirs key successor hk)

/-- An edge without an heir stands where it stood. -/
theorem Succeeded.standing?_of_none (h : Succeeded origin store heir)
    (ho : ∀ key edge, origin.edge? key = some edge → origin.container? edge.containerId ≠ none)
    {key : EdgeKey} (hk : heir key = none) : store.standing? key = origin.standing? key := by
  rw [standing?, h.edge?_eq hk, standing?]
  cases he : origin.edge? key with
  | none => rfl
  | some edge =>
    have hsame := congrArg (Option.map Container.schemaVersionId) (h.unlinked_eq (ho key edge he))
    rw [Option.map_map, Option.map_map] at hsame
    exact hsame

/-- Where no edge has an heir, the same is listed, apart from links. -/
theorem Succeeded.map_unlinked_following (h : Succeeded origin store heir)
    (ho : ∀ key edge, origin.edge? key = some edge → origin.container? edge.containerId ≠ none)
    {branchId : Id} {type : ContainerType} {after : Option Cursor}
    (hnone : ∀ key : EdgeKey, key.branchId = branchId → key.type = type →
      key.cursor.isAfter after = true → heir key = none) (kind : Kind) (versionId : Id) :
    (store.following kind versionId branchId type after).map
        (fun entry => (entry.1, entry.2.unlinked)) =
      (origin.following kind versionId branchId type after).map
        fun entry => (entry.1, entry.2.unlinked) := by
  rw [Store.map_unlinked_following, Store.map_unlinked_following,
    orderedEdges_congr fun key hb ht ha => h.edge?_eq (hnone key hb ht ha)]
  congr 1
  refine List.filterMap_congr fun edge hm => ?_
  have hedge := origin.edges.find?_eq_some_iff.mpr ⟨(mem_orderedEdges.mp hm).1, rfl⟩
  rw [h.unlinked_eq (ho edge.key edge hedge)]

/-- What has an heir once one more edge has one. -/
theorem update_eq_some_iff {key other : EdgeKey} {successor found : Container}
    (hk : heir key = none) :
    Function.update heir key (some successor) other = some found ↔
      other = key ∧ found = successor ∨ heir other = some found := by
  by_cases hok : other = key
  · simp [hok, hk, eq_comm]
  · simp [hok]

/-- A container that is kept is linked to one more heir when that succeeds it. -/
theorem Succeeded.kept_commit (h : Succeeded origin store heir) {key : EdgeKey} {edge : Edge}
    {previous successor : Container} (hk : heir key = none)
    (hp : store.container? edge.containerId = some previous)
    (hs : successor.previous = some edge.containerId) {id : Id} {container : Container}
    (hf : origin.container? id = some container) (hid : id ≠ successor.id) :
    ∃ links, (store.committed edge previous successor).container? id =
        some { container with next := links } ∧
      (∀ other, other ∈ links ↔ other ∈ container.next ∨
        ∃ place found, Function.update heir key (some successor) place = some found ∧
          found.previous = some id ∧ found.id = other) ∧
      ((∀ place found, Function.update heir key (some successor) place = some found →
        found.previous ≠ some id) → links = container.next) := by
  obtain ⟨links, hl, hlinks, hsame⟩ := h.kept id container hf
  have hprevious : previous.id = edge.containerId := id_of_container? hp
  simp only [container?_committed, if_neg hid, update_eq_some_iff hk]
  by_cases hat : id = previous.id
  · obtain rfl : id = edge.containerId := hat.trans hprevious
    obtain rfl := Option.some.inj (hp.symm.trans hl)
    refine ⟨IdSet.insert links successor.id, if_pos hat, fun other => ?_,
      fun hnone => absurd hs (hnone key successor (.inl ⟨rfl, rfl⟩))⟩
    rw [IdSet.mem_insert, hlinks]
    constructor
    · rintro (rfl | hm | ⟨place, found, hf, hprev, rfl⟩)
      · exact .inr ⟨key, successor, .inl ⟨rfl, rfl⟩, hs, rfl⟩
      · exact .inl hm
      · exact .inr ⟨place, found, .inr hf, hprev, rfl⟩
    · rintro (hm | ⟨place, found, ⟨rfl, rfl⟩ | hf, hprev, rfl⟩)
      · exact .inr (.inl hm)
      · exact .inl rfl
      · exact .inr (.inr ⟨place, found, hf, hprev, rfl⟩)
  · have hother : successor.previous ≠ some id := by
      rw [hs]
      exact fun he => hat ((Option.some.inj he).symm.trans hprevious.symm)
    refine ⟨links, (if_neg hat).trans hl, fun other => ?_,
      fun hnone => hsame fun place found hf => hnone place found (.inr hf)⟩
    rw [hlinks]
    constructor
    · rintro (hm | ⟨place, found, hf, hprev, rfl⟩)
      · exact .inl hm
      · exact .inr ⟨place, found, .inr hf, hprev, rfl⟩
    · rintro (hm | ⟨place, found, ⟨rfl, rfl⟩ | hf, hprev, rfl⟩)
      · exact .inl hm
      · exact absurd hprev hother
      · exact .inr ⟨place, found, hf, hprev, rfl⟩

/-- One more edge may be turned to a new successor of what it points at. -/
theorem Succeeded.commit (h : Succeeded origin store heir) {key : EdgeKey} {edge : Edge}
    {previous successor : Container} (hk : heir key = none)
    (he : origin.edge? key = some edge) (ho : origin.container? edge.containerId ≠ none)
    (hp : store.container? edge.containerId = some previous)
    (hs : successor.previous = some edge.containerId)
    (hn : store.container? successor.id = none) :
    Succeeded origin (store.committed edge previous successor)
      (Function.update heir key (some successor)) := by
  have hprevious : previous.id = edge.containerId := id_of_container? hp
  have hnew : origin.container? successor.id = none := by
    by_contra hstored
    have hsame := h.unlinked_eq hstored
    rw [hn] at hsame
    exact hstored (Option.map_eq_none_iff.mp hsame.symm)
  have hother : ∀ other found, heir other = some found → found.id ≠ successor.id := by
    intro other found hf hid
    have hstored := h.heirs other found hf
    rw [hid, hn] at hstored
    cases hstored
  refine {
    versions := h.versions
    branches := h.branches
    edges := fun other => ?_
    succeeds := fun other found hf => ?_
    fresh := fun other found hf => ?_
    single := fun one other a b ha hb hid => ?_
    heirs := fun other found hf => ?_
    kept := fun id container hf => h.kept_commit hk hp hs hf ?_
    added := fun id container hf hnone => ?_ }
  · rw [edge?_committed, key_of_edge? he]
    by_cases hok : other = key
    · rw [if_pos hok, hok, Function.update_self, he]
      rfl
    · rw [if_neg hok, Function.update_of_ne hok, h.edges]
  · rcases (update_eq_some_iff hk).mp hf with ⟨rfl, rfl⟩ | hf
    · exact ⟨edge, he, hs⟩
    · exact h.succeeds other found hf
  · rcases (update_eq_some_iff hk).mp hf with ⟨rfl, rfl⟩ | hf
    · exact hnew
    · exact h.fresh other found hf
  · rcases (update_eq_some_iff hk).mp ha with ⟨rfl, rfl⟩ | hone <;>
      rcases (update_eq_some_iff hk).mp hb with ⟨rfl, rfl⟩ | htwo
    · rfl
    · exact absurd hid.symm (hother other b htwo)
    · exact absurd hid (hother one a hone)
    · exact h.single one other a b hone htwo hid
  · rw [container?_committed, hprevious]
    rcases (update_eq_some_iff hk).mp hf with ⟨rfl, rfl⟩ | hf
    · rw [if_pos rfl]
    · have hne : found.id ≠ edge.containerId := fun hid => ho (hid ▸ h.fresh other found hf)
      rw [if_neg (hother other found hf), if_neg hne]
      exact h.heirs other found hf
  · rintro rfl
    rw [hnew] at hf
    cases hf
  · simp only [update_eq_some_iff hk]
    rw [container?_committed, hprevious] at hf
    split_ifs at hf with hone htwo
    · obtain rfl := Option.some.inj hf
      exact ⟨key, .inl ⟨rfl, rfl⟩⟩
    · exact absurd (htwo ▸ hnone) ho
    · obtain ⟨other, hh⟩ := h.added id container hf hnone
      exact ⟨other, .inr hh⟩

end VersionedContent.Store

import Mathlib.Logic.Relation
import VersionedContent.Proofs.Store.History

/-!
# Edits of content

Whatever a call does to the content of a site, it does by the five edits of this
module, one after the other: it leaves containers and edges alone, stores a
container without history, turns an edge to a stored container, commits a
successor through an edge, or takes out a container that no edge points at. What
each of them preserves every call preserves.
-/

namespace VersionedContent.Site

/-- What one write may do to the content of a site. -/
inductive Edit (site next : Site) : Prop
  /-- Containers and edges are left alone. -/
  | aside (containers : next.store.containers = site.store.containers)
      (edges : next.store.edges = site.store.edges)
      (issued : next.issued.containers = site.issued.containers)
  /-- A container without history is stored under the next identifier. -/
  | insert {container : Container} (label : container.id = site.issued.containers.next)
      (first : container.previous = none) (last : container.next = [])
      (containers : next.store.containers = site.store.containers.insert container)
      (edges : next.store.edges = site.store.edges)
      (issued : next.issued.containers = site.issued.containers.advance 1)
  /-- An edge is turned to a stored container. -/
  | turn {edge : Edge} (held : site.store.containers.contains edge.containerId = true)
      (containers : next.store.containers = site.store.containers)
      (edges : next.store.edges = site.store.edges.insert edge)
      (issued : next.issued.containers = site.issued.containers)
  /-- A successor is stored under the next identifier, and the edge that led to the container
  before it is turned to it. -/
  | commit {key : EdgeKey} {edge : Edge} {previous successor : Container}
      (edge? : site.store.edge? key = some edge)
      (container? : site.store.container? edge.containerId = some previous)
      (label : successor.id = site.issued.containers.next)
      (succeeds : successor.previous = some edge.containerId) (last : successor.next = [])
      (containers : next.store.containers = (site.store.containers.insert
        { previous with next := IdSet.insert previous.next successor.id }).insert successor)
      (edges : next.store.edges = site.store.edges.insert { edge with containerId := successor.id })
      (issued : next.issued.containers = site.issued.containers.advance 1)
  /-- A container that no edge points at is taken out. -/
  | delete {id : Id} {removed : Container} (referenced : site.store.isReferenced id = false)
      (container? : site.store.container? id = some removed)
      (containers : next.store.containers =
        Store.splice (site.store.containers.erase id) removed)
      (edges : next.store.edges = site.store.edges)
      (issued : next.issued.containers = site.issued.containers)

/-- Edits one after the other. -/
abbrev Edits : Site → Site → Prop := Relation.ReflTransGen Edit

variable {site next : Site}

/-- Sites with the same content are apart by no edit. -/
theorem Edits.aside (hc : next.store.containers = site.store.containers)
    (he : next.store.edges = site.store.edges)
    (hi : next.issued.containers = site.issued.containers) : Edits site next :=
  .single (.aside hc he hi)

/-- An edit keeps the history in order. -/
theorem Edit.historied (he : Edit site next)
    (h : site.store.Historied site.issued.containers) :
    next.store.Historied next.issued.containers := by
  cases he with
  | aside containers _ issued =>
    rw [issued]
    exact h.of_containers_eq containers
  | insert label first last containers _ issued =>
    rw [issued]
    exact h.insert label first last containers
  | turn _ containers _ issued =>
    rw [issued]
    exact h.of_containers_eq containers
  | commit _ container? label succeeds last containers _ issued =>
    rw [issued]
    exact h.commit container? label succeeds last containers
  | delete _ container? containers _ issued =>
    rw [issued]
    exact h.delete container? containers

/-- Edits keep the history in order. -/
theorem Edits.historied (he : Edits site next)
    (h : site.store.Historied site.issued.containers) :
    next.store.Historied next.issued.containers := by
  induction he with
  | refl => exact h
  | tail _ last ih => exact last.historied ih

/-- Whether every container that has the identifier of none that is new holds what it held. -/
structure Endures (site next : Site) : Prop where
  /-- No identifier is given out twice. -/
  issued : site.issued.containers ≤ next.issued.containers
  /-- A container was there and held the same, or it is new. -/
  same : ∀ id found, next.store.container? id = some found →
    (∃ container, site.store.container? id = some container ∧
      found.unlinked = container.unlinked) ∨
    ∃ k, site.issued.containers.used ≤ k ∧ id = site.issued.containers.label k

/-- Where containers are only told of one that is new, they hold what they held. -/
theorem Endures.extend {added : Container} (hid : added.id = site.issued.containers.next)
    (hi : next.issued.containers = site.issued.containers.advance 1)
    (hfound : ∀ id, next.store.container? id =
      if id = added.id then some added
      else (site.store.container? id).map (Store.succeededBy added)) : Endures site next where
  issued := hi ▸ Series.le_advance _ 1
  same id found hf := by
    rcases Store.found_extend hfound hf with ⟨rfl, -⟩ | ⟨-, before, hb, rfl⟩
    · exact .inr ⟨_, Nat.le_refl _, hid⟩
    · exact .inl ⟨before, hb, Store.unlinked_succeededBy added before⟩

/-- An edit changes nothing that a container holds. -/
theorem Edit.endures (he : Edit site next) : Endures site next := by
  have hcontainers (hc : next.store.containers = site.store.containers)
      (hi : next.issued.containers = site.issued.containers) : Endures site next :=
    ⟨hi ▸ Series.le_refl _, fun id found hf => .inl ⟨found, by
      rwa [Store.container?, hc] at hf, rfl⟩⟩
  cases he with
  | aside containers _ issued => exact hcontainers containers issued
  | insert label first last containers _ issued =>
    exact .extend label issued (Store.container?_insert first containers)
  | turn _ containers _ issued => exact hcontainers containers issued
  | commit _ container? label succeeds last containers _ issued =>
    exact .extend label issued (Store.container?_commit container? succeeds containers)
  | @delete _ removed _ _ containers _ issued =>
    refine ⟨issued ▸ Series.le_refl _, fun other found hf => ?_⟩
    obtain ⟨-, before, hb, rfl⟩ := Store.found_splice_erase containers hf
    exact .inl ⟨before, hb, Store.unlinked_relinked removed before⟩

/-- Edits change nothing that a container holds. -/
theorem Edits.endures (he : Edits site next) : Endures site next := by
  induction he with
  | refl => exact ⟨Series.le_refl _, fun id found hf => .inl ⟨found, hf, rfl⟩⟩
  | @tail middle next _ last ih =>
    refine ⟨Series.le_trans ih.issued last.endures.issued, fun id found hf => ?_⟩
    rcases last.endures.same id found hf with ⟨container, hc, hsame⟩ | ⟨k, hk, rfl⟩
    · rcases ih.same id container hc with ⟨first, hfirst, heq⟩ | hnew
      · exact .inl ⟨first, hfirst, hsame.trans heq⟩
      · exact .inr hnew
    · exact .inr ⟨k, Nat.le_trans ih.issued.2 hk, congrFun ih.issued.1.symm k⟩

/-- A container that is stored before and after edits holds the same. -/
theorem Edits.unlinked_eq (he : Edits site next)
    (h : site.store.Historied site.issued.containers) {id : Id} {container found : Container}
    (hc : site.store.container? id = some container)
    (hf : next.store.container? id = some found) : found.unlinked = container.unlinked := by
  rcases he.endures.same id found hf with ⟨first, hfirst, hsame⟩ | ⟨k, hk, rfl⟩
  · obtain rfl := Option.some.inj (hc.symm.trans hfirst)
    exact hsame
  · -- An identifier that is still to be given out is that of no stored container.
    exact absurd ((h.fresh _ container hc).isPast k rfl) (Nat.not_lt.mpr hk)

end VersionedContent.Site

import VersionedContent.Proofs.Site.Isolation

/-!
# The content behind edges

What a reader finds behind an edge is the content of a container, whatever its
identifier and its history. A migration settles the content behind each edge of its
branch by what the edge has shown before, without regard to anything else that
is stored.
-/

namespace VersionedContent

/-- What a container says, apart from its identifier, its time and its history. -/
structure Content where
  /-- The node. -/
  nodeId : Id
  /-- The language. -/
  language : String
  /-- The schema version that the fields follow. -/
  schemaVersionId : Id
  /-- The field values. -/
  fields : FieldMap

/-- The content of a container. -/
def Container.content (container : Container) : Content where
  nodeId := container.nodeId
  language := container.language
  schemaVersionId := container.schemaVersionId
  fields := container.fields

/-- The content behind an edge. -/
def Store.content? (store : Store) (key : EdgeKey) : Option Content :=
  (store.shown? key).map Container.content

namespace MigrationPlan

variable {plan : MigrationPlan} {container : Container}

/-- The content of the heir that a plan makes of a container, or of the container if it makes
none. -/
def bequeath (plan : MigrationPlan) (container : Container) : Content :=
  match plan.bequest? container with
  | none => container.content
  | some fields =>
    { container.content with
      schemaVersionId := plan.successorVersion container
      fields := fields }

/-- The content that a plan leaves behind an edge of its branch that points at a container. -/
def settle (plan : MigrationPlan) (container : Container) : Content :=
  if Store.followsVersion plan.source.kind plan.source.id container then plan.bequeath container
  else container.content

/-- Links do not matter for what is left. -/
theorem settle_unlinked (plan : MigrationPlan) (container : Container) :
    plan.settle container.unlinked = plan.settle container := rfl

/-- An heir has the content that is left to it. -/
theorem Heir.content_eq {heir : Option Container} (h : plan.Heir container heir) :
    (heir.getD container).content = plan.bequeath container := by
  unfold bequeath
  cases h with
  | stays left =>
    rw [left]
    rfl
  | moves left id createdAt =>
    rw [left]
    rfl

end MigrationPlan

namespace Store

variable {store next : Store} {heir : EdgeKey → Option Container} {branchId : Id} {key : EdgeKey}

/-- Whether every edge points at a stored container. -/
def EdgesHeld (store : Store) : Prop :=
  ∀ key edge, store.edge? key = some edge → store.container? edge.containerId ≠ none

/-- An edge that points at a stored container shows what that holds. -/
theorem shown?_eq_some {edge : Edge} {container : Container} (he : store.edge? key = some edge)
    (hc : store.container? edge.containerId = some container) :
    store.shown? key = some container.unlinked := by
  rw [shown?, he, Option.bind_some, hc, Option.map_some]

/-- Where there is no edge, nothing is shown. -/
theorem shown?_eq_none (he : store.edge? key = none) : store.shown? key = none := by
  rw [shown?, he, Option.bind_none]

/-- Every edge shows something. -/
theorem EdgesHeld.isSome_content? (h : store.EdgesHeld) (key : EdgeKey) :
    (store.content? key).isSome = (store.edge? key).isSome := by
  cases he : store.edge? key with
  | none =>
    rw [content?, shown?_eq_none he]
    rfl
  | some edge =>
    obtain ⟨container, hc⟩ := Option.ne_none_iff_exists'.mp (h key edge he)
    rw [content?, shown?_eq_some he hc]
    rfl

/-- An edge shows the content of its heir, or of the container that it pointed at if it has none. -/
theorem Succeeded.content?_eq (h : Succeeded store next heir) {edge : Edge} {container : Container}
    (he : store.edge? key = some edge)
    (hc : store.container? edge.containerId = some container) :
    next.content? key = some ((heir key).getD container).content := by
  have hedge := h.edges key
  rw [he, Option.map_some] at hedge
  cases hh : heir key with
  | none =>
    rw [hh] at hedge
    obtain ⟨links, hl, -⟩ := h.kept _ container hc
    rw [content?, shown?_eq_some hedge hl]
    rfl
  | some successor =>
    rw [hh] at hedge
    rw [content?, shown?_eq_some hedge (h.heirs key successor hh)]
    rfl

/-- Behind an edge without an heir is the content that was there. -/
theorem Succeeded.content?_of_none (h : Succeeded store next heir) (ho : store.EdgesHeld)
    (hk : heir key = none) : next.content? key = store.content? key := by
  cases he : store.edge? key with
  | none =>
    have hedge := h.edge?_eq hk
    rw [content?, content?, shown?_eq_none he, shown?_eq_none (hedge.trans he)]
  | some edge =>
    obtain ⟨container, hc⟩ := Option.ne_none_iff_exists'.mp (ho key edge he)
    rw [h.content?_eq he hc, hk, content?, shown?_eq_some he hc]
    rfl

/-- Only edges whose container follows the version are among the content of a branch that does. -/
theorem followsVersion_of_mem_keys {kind : Kind} {versionId : Id} {edge : Edge}
    {container : Container} (he : store.edge? key = some edge)
    (hc : store.container? edge.containerId = some container)
    (hm : key ∈ (store.contentOf kind versionId branchId).map fun entry => entry.1.key) :
    followsVersion kind versionId container = true := by
  obtain ⟨entry, hentry, hkey⟩ := List.mem_map.mp hm
  obtain ⟨hrow, -, hcontainer, hfollows⟩ := mem_contentOf.mp hentry
  have hsame : store.edge? key = some entry.1 :=
    store.edges.find?_eq_some_iff.mpr ⟨hrow, hkey⟩
  obtain rfl := Option.some.inj (he.symm.trans hsame)
  obtain rfl := Option.some.inj (hc.symm.trans hcontainer)
  exact hfollows

/-- The content that a migration leaves behind an edge of its branch, given what planning came
to. -/
def settled? (store : Store) (branchId : Id) (planned : Except Failure MigrationPlan)
    (key : EdgeKey) : Option Content :=
  match planned with
  | .error _ => store.content? key
  | .ok plan =>
    if store.branch? branchId = none then store.content? key
    else (store.shown? key).map plan.settle

/-- Behind the edges of its branch a migration leaves the content that its plan settles. -/
theorem Bequeathed.content?_eq {planned : Except Failure MigrationPlan}
    (h : store.Bequeathed branchId heir planned) (hs : store.Succeeded next heir)
    (ho : store.EdgesHeld) (hk : key.branchId = branchId) :
    next.content? key = store.settled? branchId planned key := by
  cases h with
  | unplanned failure hnone => exact hs.content?_of_none ho (hnone key)
  | unfound plan missing hnone =>
    rw [settled?, if_pos missing]
    exact hs.content?_of_none ho (hnone key)
  | moved plan found kept heirs =>
    rw [settled?, if_neg found]
    cases he : store.edge? key with
    | none =>
      have hedge := hs.edges key
      rw [he, Option.map_none] at hedge
      rw [content?, shown?_eq_none hedge, shown?_eq_none he]
      rfl
    | some edge =>
      obtain ⟨container, hc⟩ := Option.ne_none_iff_exists'.mp (ho key edge he)
      rw [hs.content?_eq he hc, shown?_eq_some he hc, Option.map_some,
        MigrationPlan.settle_unlinked, MigrationPlan.settle]
      congr 1
      split_ifs with hf
      · have hkey : edge.key = key := key_of_edge? he
        have hm : (edge, container) ∈ store.contentOf plan.source.kind plan.source.id branchId :=
          mem_contentOf.mpr ⟨(store.edges.find?_eq_some_iff.mp he).1,
            (congrArg EdgeKey.branchId hkey).trans hk, hc, hf⟩
        have hheir := (heirs (edge, container) hm).content_eq
        rwa [show (edge, container).1.key = key from hkey] at hheir
      · rw [kept key fun hm => hf (followsVersion_of_mem_keys he hc hm)]
        rfl

end Store

end VersionedContent

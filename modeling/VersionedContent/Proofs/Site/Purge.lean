import VersionedContent.Proofs.Site.Finish
import VersionedContent.Proofs.Site.Paging
import VersionedContent.Proofs.Site.Reach
import VersionedContent.Proofs.Store.Lineage
import VersionedContent.Proofs.Store.Pages

/-!
# What a purge takes out

A purge goes behind every edge of a project, along the lineage of the container
it points at, and takes out what no edge points at and is old enough. The walks
go over a store that has been pruned by those before; whatever their order, they
take out the same containers, and those that are left are linked up again.
-/

namespace VersionedContent

namespace Store

/-- Whether a container is met by going back from the one that an edge points at. -/
def Behind (store : Store) (edge : Edge) (id : Id) : Prop :=
  ∃ head line, store.container? edge.containerId = some head ∧
    store.Lineage head.previous line ∧ id ∈ line

/-- Whether no edge points at a container and it is old enough to be taken out. -/
structure Purgeable (store : Store) (before : Option Instant) (id : Id) : Prop where
  /-- No edge of any branch points at it. -/
  unreferenced : ∀ edge ∈ store.edges.rows, edge.containerId ≠ id
  /-- It was made before the bound, when there is one. -/
  old : ∀ container, store.container? id = some container → ∀ bound, before = some bound →
    container.createdAt.before bound = true

/-- Whether a container is met behind an edge of a branch of a project. -/
def BehindProject (store : Store) (projectId id : Id) : Prop :=
  ∃ branch ∈ store.branches.rows, branch.projectId = projectId ∧
    ∃ edge ∈ store.edges.rows, edge.branchId = branch.id ∧ store.Behind edge id

/-- What a purge of a project leaves of a store. -/
structure Purged (origin next : Store) (projectId : Id) (before : Option Instant) : Prop where
  /-- The versions stay as they are. -/
  versions : next.versions = origin.versions
  /-- The branches stay as they are. -/
  branches : next.branches = origin.branches
  /-- The edges stay as they are. -/
  edges : next.edges = origin.edges
  /-- What an edge points at is still stored. -/
  resolves : ∀ key edge, next.edge? key = some edge → next.container? edge.containerId ≠ none
  /-- Just what is met behind an edge of the project and may be taken out is taken out. -/
  removed : ∀ id, origin.container? id ≠ none ∧ next.container? id = none ↔
    origin.BehindProject projectId id ∧ origin.Purgeable before id
  /-- What is left holds what it held, and succeeds the nearest of its lineage that is left. -/
  kept : ∀ id container, next.container? id = some container →
    ∃ old line, origin.container? id = some old ∧ origin.Lineage old.previous line ∧
      container = { old with
        previous := line.find? fun other => (next.container? other).isSome
        next := container.next }
  /-- What is left is succeeded by just what succeeds it. -/
  linked : ∀ id container other successor, next.container? id = some container →
    next.container? other = some successor →
      (other ∈ container.next ↔ successor.previous = some id)
  /-- Only what is left succeeds what is left. -/
  bounded : ∀ id container other, next.container? id = some container →
    other ∈ container.next → next.container? other ≠ none

/-- A container is referenced when an edge points at it. -/
theorem isReferenced_eq_false_iff {store : Store} {id : Id} :
    store.isReferenced id = false ↔ ∀ edge ∈ store.edges.rows, edge.containerId ≠ id := by
  simp [isReferenced]

/-- What is left lists the edges of the origin. -/
theorem Pruned.orderedEdges_eq {origin store : Store} (h : Pruned origin store) (branchId : Id)
    (type : ContainerType) (after : Option Cursor) :
    store.orderedEdges branchId type after = origin.orderedEdges branchId type after := by
  rw [h.aside]
  rfl

/-- A container that is left may be taken out when it may be taken out of the origin. -/
theorem Pruned.purgeable_iff {origin store : Store} (h : Pruned origin store) {id : Id}
    {container : Container} (hf : store.container? id = some container)
    (before : Option Instant) :
    origin.Purgeable before id ↔ (before.all fun bound => container.createdAt.before bound) = true ∧
      store.isReferenced id = false := by
  obtain ⟨old, hold, hsame, -⟩ := h.kept id container hf
  have hcreated : container.createdAt = old.createdAt := by
    simpa [Container.unlinked] using congrArg Container.createdAt hsame
  have hedges : store.edges = origin.edges := by
    rw [h.aside]
  rw [isReferenced_eq_false_iff, hedges, hcreated]
  constructor
  · intro hp
    refine ⟨?_, hp.unreferenced⟩
    cases before with
    | none => rfl
    | some bound => exact hp.old old hold bound rfl
  · rintro ⟨ho, hu⟩
    refine ⟨hu, fun found hfound bound hb => ?_⟩
    obtain rfl := Option.some.inj (hfound.symm.trans hold)
    subst hb
    exact ho

end Store

namespace Site

open VersionedContent.Action

variable {α β : Type} {origin : Store} {issued : Series} {before : Option Instant}

/-- Whether a site is in the course of a purge that began with an origin. -/
structure Purging (origin : Store) (issued : Series) (site : Site) : Prop where
  /-- No outage is planned. -/
  outages : site.outages = []
  /-- Jobs handle some containers at a time. -/
  bucketSize : 0 < site.bucketSize
  /-- The store is what is left of the origin. -/
  pruned : origin.Pruned site.store
  /-- Its history is in order. -/
  historied : site.store.Historied issued

/-- Whether an action, in the course of a purge, succeeds and takes out just the containers that
are doomed. -/
def Purges (origin : Store) (issued : Series) (doomed : Id → Prop) (action : Action α) : Prop :=
  ∀ site, Purging origin issued site →
    ∃ a next, outcome action site = (.ok a, { site with store := next }) ∧
      Purging origin issued { site with store := next } ∧
      ∀ id, next.containers.contains id = true ↔
        site.store.containers.contains id = true ∧ ¬ doomed id

/-- A purge that takes out something may go on. -/
theorem Purges.purging {doomed : Id → Prop} {action : Action α}
    (h : Purges origin issued doomed action) {site : Site} (hi : Purging origin issued site) :
    Purging origin issued (outcome action site).2 := by
  obtain ⟨_, _, hrun, hnext, -⟩ := h site hi
  rw [hrun]
  exact hnext

/-- Doing nothing takes out nothing. -/
theorem purges_pure (a : α) : Purges origin issued (fun _ => False) (pure a) :=
  fun site h => ⟨a, site.store, rfl, h, fun id => by simp⟩

/-- Two actions in a row take out what either takes out. -/
theorem Purges.bind {first second : Id → Prop} {action : Action α} {f : α → Action β}
    (h : Purges origin issued first action) (hf : ∀ a, Purges origin issued second (f a)) :
    Purges origin issued (fun id => first id ∨ second id) (action >>= f) := by
  intro site hi
  obtain ⟨a, between, ho, hbetween, hfirst⟩ := h site hi
  obtain ⟨b, next, ho', hnext, hsecond⟩ := hf a _ hbetween
  refine ⟨b, next, (outcome_bind_of_ok ho f).trans ho', hnext, fun id => ?_⟩
  rw [hsecond, hfirst, not_or, and_assoc]

/-- What is doomed may be told in other words. -/
theorem Purges.congr {doomed other : Id → Prop} {action : Action α}
    (h : Purges origin issued doomed action) (he : ∀ id, doomed id ↔ other id) :
    Purges origin issued other action := by
  obtain rfl : doomed = other := funext fun id => propext (he id)
  exact h

/-- An action for each element of a list takes out what any of them takes out. -/
theorem Purges.mapM {doomed : α → Id → Prop} {f : α → Action β} {list : List α}
    (hf : ∀ a ∈ list, Purges origin issued (doomed a) (f a)) :
    Purges origin issued (fun id => ∃ a ∈ list, doomed a id) (list.mapM f) := by
  induction list with
  | nil => exact (purges_pure _).congr fun id => by simp
  | cons a rest ih =>
    rw [List.mapM_cons]
    refine ((hf a List.mem_cons_self).bind fun b => (ih fun c hc =>
      hf c (List.mem_cons_of_mem _ hc)).bind fun bs => purges_pure _).congr fun id => ?_
    simp

/-- An action for each element of a list, for its effect. -/
theorem Purges.forM {doomed : α → Id → Prop} {f : α → Action PUnit} {list : List α}
    (hf : ∀ a ∈ list, Purges origin issued (doomed a) (f a)) :
    Purges origin issued (fun id => ∃ a ∈ list, doomed a id) (list.forM f) := by
  induction list with
  | nil => exact (purges_pure _).congr fun id => by simp
  | cons a rest ih =>
    refine ((hf a List.mem_cons_self).bind fun _ => ih fun c hc =>
      hf c (List.mem_cons_of_mem _ hc)).congr fun id => ?_
    simp

/-- A container that may be taken out is, and no other one. -/
theorem purges_deleteContainerVersion (ho : origin.Historied issued) {id : Id}
    (hp : origin.Purgeable before id) {site : Site} (hi : Purging origin issued site)
    {container : Container} (hf : site.store.container? id = some container) :
    ∃ next, outcome (deleteContainerVersion id) site = (.ok true, { site with store := next }) ∧
      Purging origin issued { site with store := next } ∧
      next.containers = Store.splice (site.store.containers.erase id) container := by
  have hr := ((hi.pruned.purgeable_iff hf before).mp hp).2
  refine ⟨{ site.store with
    containers := Store.splice (site.store.containers.erase id) container }, ?_, ?_, rfl⟩
  · unfold deleteContainerVersion
    rw [outcome_unlessOut hi.outages, outcome_transact, Store.outcome_deleteContainerVersion, hr,
      hf]
    rfl
  · exact {
      outages := hi.outages
      bucketSize := hi.bucketSize
      pruned := hi.pruned.delete ho hi.historied hf
        (Store.isReferenced_eq_false_iff.mpr hp.unreferenced) rfl
      historied := hi.historied.delete hf rfl }

/-- A walk that has found a container takes it out when this may be done, and goes on with what it
succeeds. -/
theorem outcome_purgeHistory_succ {site : Site} {id : Id} {container : Container}
    (hf : site.store.container? id = some container) (fuel : Nat) :
    outcome (purgeHistory .ample before (fuel + 1) (some id)) site =
      if (before.all fun bound => container.createdAt.before bound) = true ∧
          site.store.isReferenced id = false then
        outcome (do
          let _ ← deleteContainerVersion id
          purgeHistory .ample before fuel container.previous) site
      else outcome (purgeHistory .ample before fuel container.previous) site := by
  have hid := Store.id_of_container? hf
  rw [purgeHistory, outcome_bind_of_ok (outcome_query _ site), hf]
  dsimp only
  rw [hid]
  cases before.all fun bound => container.createdAt.before bound with
  | false => simp
  | true =>
    simp only [if_true, true_and]
    rw [outcome_bind_of_ok (outcome_query _ site)]
    cases site.store.isReferenced id <;> simp

/-- A walk back along a lineage takes out what it meets that may be taken out. -/
theorem outcome_purgeHistory (before : Option Instant) (ho : origin.Historied issued)
    {line : List Id} (fuel : Nat) (hfuel : line.length ≤ fuel) {start : Option Id} {site : Site}
    (hi : Purging origin issued site) (hl : site.store.Lineage start line) :
    ∃ next,
      outcome (purgeHistory .ample before fuel start) site = (.ok (), { site with store := next }) ∧
      Purging origin issued { site with store := next } ∧
      ∀ id, next.containers.contains id = true ↔ site.store.containers.contains id = true ∧
        ¬ (id ∈ line ∧ origin.Purgeable before id) := by
  induction line generalizing fuel start site with
  | nil =>
    cases hl
    refine ⟨site.store, ?_, hi, by simp⟩
    cases fuel <;> rfl
  | cons id rest ih =>
    cases hl with
    | @cons _ container _ found back =>
      rw [List.length_cons] at hfuel
      obtain ⟨fuel, rfl⟩ := Nat.exists_eq_add_one_of_ne_zero (show fuel ≠ 0 by omega)
      have hrest : rest.length ≤ fuel := by omega
      have hiff := hi.pruned.purgeable_iff found before
      rw [outcome_purgeHistory_succ found]
      by_cases hp : origin.Purgeable before id
      · rw [if_pos (hiff.mp hp)]
        obtain ⟨between, hdelete, hbetween, hc⟩ := purges_deleteContainerVersion ho hp hi found
        have hnot := hi.historied.notMem_lineage found back
        obtain ⟨next, hrun, hnext, hleft⟩ :=
          ih fuel hrest hbetween (hi.historied.entwined.lineage_delete_of_notMem found hc back hnot)
        refine ⟨next, (outcome_bind_of_ok hdelete _).trans hrun, hnext, fun other => ?_⟩
        have hgone : between.containers.contains other = true ↔
            site.store.containers.contains other = true ∧ other ≠ id := by
          rw [Store.contains_eq_true_iff, Store.contains_eq_true_iff,
            Store.container?_splice_erase container hc]
          by_cases he : other = id <;> simp [he]
        rw [hleft, hgone, List.mem_cons]
        by_cases he : other = id
        · simp [he, hp]
        · simp [he]
      · rw [if_neg (mt hiff.mpr hp)]
        obtain ⟨next, hrun, hnext, hleft⟩ := ih fuel hrest hi back
        refine ⟨next, hrun, hnext, fun other => ?_⟩
        rw [hleft, List.mem_cons]
        by_cases he : other = id
        · simp [he, hp]
        · simp [he]

/-- Going behind an edge takes out what is met there that may be taken out. -/
theorem purges_purgeBehind (ho : origin.Historied issued) {edge : Edge}
    (he : edge ∈ origin.edges.rows) :
    Purges origin issued (fun id => origin.Behind edge id ∧ origin.Purgeable before id)
      (purgeBehind before edge) := by
  intro site hi
  obtain ⟨head, hhead⟩ := Option.ne_none_iff_exists'.mp (hi.pruned.held edge he)
  obtain ⟨root, hroot, -, hprevious⟩ := hi.pruned.kept _ head hhead
  obtain ⟨line, hl⟩ := ho.exists_lineage_previous hroot
  have hleft := hi.pruned.lineage hl
  rw [← hprevious line hl] at hleft
  have hlength := hi.historied.length_lineage_le hleft
  obtain ⟨next, hrun, hnext, hgone⟩ := outcome_purgeHistory before ho
    (site.store.containers.size + 1) (Nat.le_succ_of_le hlength) hi hleft
  refine ⟨(), next, ?_, hnext, fun id => ?_⟩
  · unfold purgeBehind
    rw [outcome_bind_of_ok (outcome_get site)]
    dsimp only
    rw [hhead]
    exact hrun
  · rw [hgone, List.mem_filter]
    have hbehind : origin.Behind edge id ↔ id ∈ line := by
      constructor
      · rintro ⟨found, other, hf, hol, hm⟩
        obtain rfl := Option.some.inj (hf.symm.trans hroot)
        rwa [hl.unique hol]
      · exact fun hm => ⟨root, line, hroot, hl, hm⟩
    simp only [hbehind]
    tauto

/-- The edges of a branch may be read in pages while a purge goes behind them. -/
theorem paged_purgeBehind (before : Option Instant) (ho : origin.Historied issued) (branchId : Id)
    {bucket : Nat} (hb : 0 < bucket) :
    Paged (Purging origin issued) bucket
      (fun type cursor store => store.orderedEdges branchId type cursor) Edge.cursor id
      (fun page => page.mapM (purgeBehind before)) := by
  have hvisit : ∀ (site : Site) (type : ContainerType) (cursor : Option Cursor) (size : Nat),
      Purging origin issued site → Purging origin issued (outcome
        (((site.store.orderedEdges branchId type cursor).take size).mapM
          (purgeBehind before)) site).2 := by
    intro site type cursor size hi
    rw [hi.pruned.orderedEdges_eq]
    obtain ⟨_, next, hrun, hnext, -⟩ := Purges.mapM (f := purgeBehind before)
      (fun edge hm => purges_purgeBehind ho (Store.mem_orderedEdges.mp
        (List.mem_of_mem_take hm)).1) site hi
    rw [hrun]
    exact hnext
  exact {
    positive := hb
    nil := rfl
    append := fun a b => List.mapM_append
    congr := fun a b hab => by
      rw [List.map_id, List.map_id] at hab
      rw [hab]
    past := fun _ _ _ _ _ hl => Store.orderedEdges_past hl
    keeps := hvisit
    frame := fun site type cursor last hi _ => by
      rw [(hvisit site type cursor bucket hi).pruned.orderedEdges_eq,
        hi.pruned.orderedEdges_eq] }

/-- Going behind the edges of a branch in pages comes to going behind all of them in a row. -/
theorem outcome_purgeBranch_eq (before : Option Instant) (ho : origin.Historied issued)
    {site : Site} (hi : Purging origin issued site) (branch : Branch) :
    outcome (purgeBranch before branch) site =
      outcome (do let _ ← (origin.edgesOf branch.id).mapM (purgeBehind before)) site := by
  have hpaged := paged_purgeBehind before ho branch.id hi.bucketSize
  have hgather := hpaged.outcome_gatherAll hi (fun _ => site.store.length_orderedEdges_le ..) (by
    rw [(hpaged.keeps_all hi .draft none).pruned.orderedEdges_eq, hi.pruned.orderedEdges_eq])
  rw [hi.pruned.orderedEdges_eq, hi.pruned.orderedEdges_eq] at hgather
  exact outcome_bind_congr hgather _

/-- Going behind the edges of a branch takes out what is met behind any of them that may be taken
out. -/
theorem purges_purgeBranch (before : Option Instant) (ho : origin.Historied issued)
    (branch : Branch) :
    Purges origin issued (fun id => ∃ edge ∈ origin.edges.rows, edge.branchId = branch.id ∧
      origin.Behind edge id ∧ origin.Purgeable before id) (purgeBranch before branch) := by
  intro site hi
  obtain ⟨_, next, hrun, hnext, hgone⟩ := Purges.mapM (f := purgeBehind before)
    (fun edge (hm : edge ∈ origin.edgesOf branch.id) => purges_purgeBehind ho
      (Store.mem_edgesOf.mp hm).1) site hi
  refine ⟨(), next, ?_, hnext, fun id => ?_⟩
  · rw [outcome_purgeBranch_eq before ho hi]
    exact outcome_bind_of_ok hrun _
  · rw [hgone]
    simp only [Store.mem_edgesOf, and_assoc]

/-- A purge of a project takes out what is met behind any edge of its branches that may be taken
out. -/
theorem purges_purgeVersions (before : Option Instant) (ho : origin.Historied issued)
    (projectId : Id) :
    Purges origin issued (fun id => origin.BehindProject projectId id ∧ origin.Purgeable before id)
      (purgeVersions projectId before) := by
  intro site hi
  have hbranches : ∀ branch, branch ∈ site.store.listBranches (some projectId) ↔
      branch ∈ origin.branches.rows ∧ branch.projectId = projectId := by
    intro branch
    rw [hi.pruned.aside, Store.listBranches, List.mem_mergeSort, List.mem_filter]
    simp
  obtain ⟨_, next, hrun, hnext, hgone⟩ := Purges.forM
    (fun branch (_ : branch ∈ site.store.listBranches (some projectId)) =>
      purges_purgeBranch before ho branch) site hi
  refine ⟨(), next, ?_, hnext, fun id => ?_⟩
  · unfold purgeVersions
    rw [outcome_bind_of_ok (outcome_query _ site)]
    exact hrun
  · have hdoomed : (∃ branch ∈ site.store.listBranches (some projectId),
        ∃ edge ∈ origin.edges.rows, edge.branchId = branch.id ∧ origin.Behind edge id ∧
          origin.Purgeable before id) ↔
        origin.BehindProject projectId id ∧ origin.Purgeable before id := by
      constructor
      · rintro ⟨branch, hm, edge, he, hb, hbehind, hp⟩
        obtain ⟨hrow, hproject⟩ := (hbranches branch).mp hm
        exact ⟨⟨branch, hrow, hproject, edge, he, hb, hbehind⟩, hp⟩
      · rintro ⟨⟨branch, hrow, hproject, edge, he, hb, hbehind⟩, hp⟩
        exact ⟨branch, (hbranches branch).mpr ⟨hrow, hproject⟩, edge, he, hb, hbehind, hp⟩
    exact (hgone id).trans (and_congr_right' (not_congr hdoomed))

/-- What a purge leaves of the store that it began with. -/
theorem Purging.purged (ho : origin.Historied issued) (projectId : Id) {next : Site}
    (h : Purging origin issued next)
    (hgone : ∀ id, next.store.containers.contains id = true ↔
      origin.containers.contains id = true ∧
        ¬ (origin.BehindProject projectId id ∧ origin.Purgeable before id)) :
    origin.Purged next.store projectId before where
  versions := by rw [h.pruned.aside]
  branches := by rw [h.pruned.aside]
  edges := by rw [h.pruned.aside]
  resolves key edge he := by
    rw [h.pruned.aside] at he
    exact h.pruned.held edge (origin.edges.find?_eq_some_iff.mp he).1
  removed id := by
    have hid := hgone id
    rw [Store.contains_eq_true_iff, Store.contains_eq_true_iff] at hid
    have hstored : origin.BehindProject projectId id → origin.container? id ≠ none := by
      rintro ⟨_, -, -, _, -, -, _, _, -, hl, hm⟩
      exact hl.stored id hm
    tauto
  kept id container hf := by
    obtain ⟨old, hold, hsame, hprevious⟩ := h.pruned.kept id container hf
    obtain ⟨line, hl⟩ := ho.exists_lineage_previous hold
    refine ⟨old, line, hold, hl, ?_⟩
    conv =>
      lhs
      rw [Container.eq_of_unlinked_eq hsame, hprevious line hl]
    rfl
  linked := h.historied.linked
  bounded := h.historied.next

/-- On every reachable site, whatever the bucket size, a purge that has started is completed; it
takes out just what is met behind the edges of its project, is pointed at by no edge and is old
enough, and links up what is left. -/
theorem Reachable.versionPurge_purged {site : Site} (h : Reachable site) (bucket : Nat)
    {entry : JobEntry} (hm : entry ∈ site.store.jobs.entries) (hs : entry.job.status = .started)
    {projectId : Id} {before : Option Instant}
    (hk : entry.job.kind = .versionPurge projectId before) :
    ∃ stoppedAt next,
      outcome (process entry.job) { site with bucketSize := max bucket 1 } =
        (.ok (some (entry.job.ended .completed none stoppedAt)), next) ∧
      next.store.jobs =
        site.store.jobs.replace entry.sequence (entry.job.ended .completed none stoppedAt) ∧
      site.store.Purged next.store projectId before := by
  have hsound := h.sound.resized bucket
  have hpurging : Purging site.store site.issued.containers
      { site with bucketSize := max bucket 1 } :=
    { hsound with
      pruned := .refl hsound.housed.held
      historied := h.historied }
  obtain ⟨_, purged, hrun, hlast, hgone⟩ :=
    purges_purgeVersions before h.historied projectId _ hpurging
  have hexecute : outcome (execute entry.job.kind) { site with bucketSize := max bucket 1 } =
      (.ok [], { site with store := purged, bucketSize := max bucket 1 }) := by
    rw [hk]
    exact outcome_bind_of_ok hrun _
  obtain ⟨next, hprocess, hstore⟩ := outcome_process hsound hm hs hexecute
  refine ⟨_, next, hprocess, by rw [hstore]; rfl, ?_⟩
  have hfinal : Purging site.store site.issued.containers
      { site with store := purged, bucketSize := max bucket 1 } := hlast
  have hpurged := hfinal.purged h.historied projectId hgone
  rw [hstore]
  exact { hpurged with }

/-- Of three containers in a row the first is taken out, while a branch of another project still
points at the second. -/
theorem versionPurge_of_shared_history :
    let title (type : FieldType) : Definition :=
      { name := "article", fields := [{ name := "title", type := type }] }
    let calls : List Call :=
      [.createSchema .schema (title .string), .createBranch "p1" "main" none,
        .assignLatest "@b1" .schema "article",
        .addContent "@b1" "n1" "en" "@v1" [("title", .string "Hello")] [.draft],
        .updateSchema .schema "article" (title .html) [] none,
        .assignLatest "@b1" .schema "article", .runPending, .createBranch "p2" "main" none,
        .setEdge { branchId := "@b2", nodeId := "n1", language := "en", type := .published,
                   containerId := "@c2" },
        .updateSchema .schema "article" (title .string) [] none,
        .assignLatest "@b1" .schema "article", .runPending,
        .enqueue (.versionPurge "p1" none), .claimNext]
    let site := Call.afterAll (.empty (.ticking ⟨0, 0⟩) 10 10) calls
    ∃ entry ∈ site.store.jobs.entries, entry.job.kind = .versionPurge "p1" none ∧
      entry.job.status = .started ∧ ∃ stoppedAt next,
        outcome (process entry.job) { site with bucketSize := max 1 1 } =
          (.ok (some (entry.job.ended .completed none stoppedAt)), next) ∧
        site.store.Purged next.store "p1" none ∧
        (site.store.containers.rows.map fun row => (row.id, row.previous, row.next)) =
          [("@c1", none, ["@c2"]), ("@c2", some "@c1", ["@c3"]), ("@c3", some "@c2", [])] ∧
        (next.store.containers.rows.map fun row => (row.id, row.previous, row.next)) =
          [("@c2", none, ["@c3"]), ("@c3", some "@c2", [])] := by
  intro title calls site
  have hgiven : Call.areGiven (.empty (.ticking ⟨0, 0⟩) 10 10) calls = true := by decide +kernel
  have hreach : Reachable site := (Managed.calls (.empty (.ticking ⟨0, 0⟩) 10 10) hgiven).reachable
  let entry := site.store.jobs.entries.getLast (by decide +kernel)
  have hm : entry ∈ site.store.jobs.entries :=
    @List.getLast_mem _ site.store.jobs.entries (by decide +kernel)
  have hk : entry.job.kind = .versionPurge "p1" none := by decide +kernel
  have hs : entry.job.status = .started := by decide +kernel
  obtain ⟨stoppedAt, next, hrun, -, hpurged⟩ := hreach.versionPurge_purged 1 hm hs hk
  have hnext : (outcome (process entry.job) { site with bucketSize := max 1 1 }).2 = next :=
    congrArg Prod.snd hrun
  refine ⟨entry, hm, hk, hs, stoppedAt, next, hrun, hpurged, by decide +kernel, ?_⟩
  rw [← hnext]
  decide +kernel

end Site

end VersionedContent

import VersionedContent.Proofs.Site.Paging
import VersionedContent.Proofs.Site.Sound
import VersionedContent.Proofs.Store.Heirs

/-!
# What a job moves

A job goes through the content of its branch that follows the source of its
plan, and gives each container there an heir, unless there is nothing to do or
the fields cannot be carried over, which it reports. An edge is visited once,
wherever the pages begin and end; content that is shared gets an heir for each
edge, and nothing else is touched.
-/

namespace VersionedContent

namespace MigrationPlan

/-- The field values of the heir of a container, when it gets one. -/
def bequest? (plan : MigrationPlan) (container : Container) : Option FieldMap :=
  if plan.isDone container then none else (plan.successorFields container).toOption

/-- The report of a container that should get an heir and cannot. -/
def report? (plan : MigrationPlan) (entry : Edge × Container) : Option ContainerError :=
  if plan.isDone entry.2 then none
  else
    match plan.successorFields entry.2 with
    | .error error => some (.at entry.1 entry.2 (some error.field) error.cause.message)
    | .ok _ => none

/-- Links do not matter for what is reported. -/
theorem filterMap_report?_unlinked (plan : MigrationPlan) (entries : List (Edge × Container)) :
    (entries.map fun entry => (entry.1, entry.2.unlinked)).filterMap plan.report? =
      entries.filterMap plan.report? := by
  rw [List.filterMap_map]
  rfl

/-- What a plan makes the heir of a container, if any. -/
inductive Heir (plan : MigrationPlan) (container : Container) : Option Container → Prop
  /-- A container that leaves nothing has no heir. -/
  | stays (left : plan.bequest? container = none) : Heir plan container none
  /-- An heir has the fields that are left to it. -/
  | moves {fields : FieldMap} (left : plan.bequest? container = some fields) (id : Id)
      (createdAt : Instant) : Heir plan container
        (some (container.successor id createdAt (plan.successorVersion container) fields))

/-- What gets an heir is not reported. -/
theorem report?_eq_none {plan : MigrationPlan} {edge : Edge} {container : Container}
    {fields : FieldMap} (h : plan.bequest? container = some fields) :
    plan.report? (edge, container) = none := by
  unfold bequest? at h
  unfold report?
  cases hd : plan.isDone container with
  | true => rfl
  | false =>
    rw [hd] at h
    cases hf : plan.successorFields container with
    | error error =>
      rw [hf] at h
      cases h
    | ok fields => simp

/-- Where only what some edges lead to has heirs, an heir belongs to one of these edges. -/
theorem exists_of_heir {entries : List (Edge × Container)} {heir : EdgeKey → Option Container}
    (hkept : ∀ key, key ∉ entries.map (fun entry => entry.1.key) → heir key = none)
    {key : EdgeKey} {successor : Container} (hk : heir key = some successor) :
    ∃ entry ∈ entries, entry.1.key = key := by
  by_contra hout
  have hnone := hkept key fun hm => hout (List.mem_map.mp hm)
  exact Option.some_ne_none _ (hk.symm.trans hnone)

/-- What follows the source is done when the source is the target, and one of a schema. -/
theorem isDone_of_follows {plan : MigrationPlan} {container : Container}
    (hf : Store.followsVersion plan.source.kind plan.source.id container = true) :
    plan.isDone container =
      decide (plan.source.kind = .schema ∧ plan.source.id = plan.target.id) := by
  unfold isDone
  cases hk : plan.source.kind <;> rw [hk] at hf <;> simp_all [Store.followsVersion]

/-- What is neither done nor reported gets an heir. -/
theorem Heir.exists_of_report? {plan : MigrationPlan} {entry : Edge × Container}
    {heir : Option Container} (h : plan.Heir entry.2 heir) (hd : plan.isDone entry.2 = false)
    (hr : plan.report? entry = none) :
    ∃ successor, heir = some successor ∧
      successor.schemaVersionId = plan.successorVersion entry.2 := by
  cases h with
  | moves left id createdAt => exact ⟨_, rfl, rfl⟩
  | stays left =>
    unfold bequest? at left
    unfold report? at hr
    rw [hd] at left hr
    cases hf : plan.successorFields entry.2 with
    | error error => simp [hf] at hr
    | ok fields => simp [hf, Except.toOption] at left

end MigrationPlan

namespace Site

open VersionedContent.Action

/-- A site after an edge has been turned to a new container. -/
def moved (site : Site) (edge : Edge) (previous successor : Container) : Site :=
  { ticked site with
    store := site.store.committed edge previous successor
    issued := { site.issued with containers := site.issued.containers.advance 1 } }

section Sweep

variable {versions : Table Version Version.id} {given : Series} {plan : MigrationPlan}

/-- No container has the next identifier. -/
theorem Steady.container?_label {site : Site} (hi : Steady versions given site) :
    site.store.container? site.issued.containers.next = none := by
  by_contra hne
  obtain ⟨container, hc⟩ := Option.ne_none_iff_exists'.mp hne
  exact Series.not_hasGiven_next _ (hi.housed.fresh _ _ (Store.follows?_of_container? hc))

/-- An edge that points at a container is turned to an heir of it, or left alone with the report
that the container gives rise to. -/
theorem outcome_migrateContainer {site : Site} (hi : Steady versions given site)
    (plan : MigrationPlan) {edge : Edge} {container current : Container}
    (he : site.store.edge? edge.key = some edge)
    (hp : site.store.container? edge.containerId = some current)
    (hc : container.id = edge.containerId) :
    outcome (migrateContainer plan edge container) site =
      match plan.bequest? container with
      | none => (.ok (plan.report? (edge, container)), site)
      | some fields => (.ok none, site.moved edge current
          (container.successor site.issued.containers.next
            (site.clock.reading site.clock.reads) (plan.successorVersion container) fields)) := by
  unfold migrateContainer MigrationPlan.bequest? MigrationPlan.report?
  by_cases hd : plan.isDone container = true
  · simp only [hd, ite_true]
    rfl
  · simp only [hd, Bool.false_eq_true, ite_false]
    cases plan.successorFields container with
    | error error => rfl
    | ok fields =>
      dsimp only
      have hcommit := Store.outcome_commitSuccessor_eq (container.successor
        site.issued.containers.next (site.clock.reading site.clock.reads)
          (plan.successorVersion container) fields) he hp (congrArg some hc) hi.container?_label
      rw [outcome_bind_of_ok (show outcome nextContainerId site =
          (.ok site.issued.containers.next, site) from rfl),
        outcome_bind_of_ok (outcome_now site), outcome_bind_of_ok (outcome_attempt _ _)]
      unfold commitSuccessor
      rw [@outcome_unlessOut _ _ _ _ (ticked site) hi.outages, outcome_transact,
        show (ticked site).store = site.store from rfl, hcommit]
      rfl

/-- Visiting an edge without an heir turns it to the heir of its container, or reports that there is
none. -/
theorem outcome_migrateContainer_heir {origin : Store}
    (hp : given.IsPast plan.target.id) {site : Site}
    (hi : Steady versions given site) {heir : EdgeKey → Option Container}
    (hs : origin.Succeeded site.store heir) {edge : Edge} {container : Container}
    (hedge : origin.edge? edge.key = some edge)
    (hcontainer : origin.container? edge.containerId = some container)
    (hnow : heir edge.key = none) :
    ∃ next heir', outcome (migrateContainer plan edge container) site =
        (.ok (plan.report? (edge, container)), next) ∧
      Steady versions given next ∧ origin.Succeeded next.store heir' ∧
      (∀ key, key ≠ edge.key → heir' key = heir key) ∧ plan.Heir container (heir' edge.key) := by
  have hstored : site.store.edge? edge.key = some edge := (hs.edge?_eq hnow).trans hedge
  obtain ⟨links, hcurrent, -⟩ := hs.kept _ container hcontainer
  have hid := Store.id_of_container? hcontainer
  have houtcome := outcome_migrateContainer hi plan hstored hcurrent hid
  cases hb : plan.bequest? container with
  | none =>
    rw [hb] at houtcome
    exact ⟨site, heir, houtcome, hi, hs, fun _ _ => rfl, hnow ▸ .stays hb⟩
  | some fields =>
    obtain ⟨successor, hsuccessor⟩ : ∃ successor, successor =
        container.successor site.issued.containers.next
          (site.clock.reading site.clock.reads) (plan.successorVersion container) fields :=
      ⟨_, rfl⟩
    rw [hb] at houtcome
    dsimp only at houtcome
    rw [← hsuccessor] at houtcome
    have hprevious : successor.previous = some edge.containerId := by
      rw [hsuccessor]
      exact congrArg some hid
    have hnew : successor.id = site.issued.containers.next := by
      rw [hsuccessor]
      rfl
    have hpast := hi.isPast_successorVersion hp hcurrent
    have hsteady := (steady_commit hi hstored hcurrent hnew hprevious (by rw [hsuccessor]; rfl)
      (by rw [hsuccessor]; exact hpast)
      (site.moved edge { container with next := links } successor) rfl rfl rfl rfl rfl rfl).1
    have hcommitted := hs.commit hnow hedge (by rw [hcontainer]; simp) hcurrent hprevious
      (by rw [hnew]; exact hi.container?_label)
    refine ⟨_, _, ?_, hsteady, hcommitted, fun key hk => Function.update_of_ne hk _ _, ?_⟩
    · rw [houtcome, MigrationPlan.report?_eq_none hb]
    · rw [Function.update_self, hsuccessor]
      exact .moves hb _ _

/-- Going through some entries, each edge is turned to the heir of its container, and what can get
none is reported. -/
theorem outcome_visit {origin : Store}
    (hp : given.IsPast plan.target.id) (entries : List (Edge × Container))
    (hentries : ∀ entry ∈ entries, origin.edge? entry.1.key = some entry.1 ∧
      origin.container? entry.1.containerId = some entry.2)
    (honce : (entries.map fun entry => entry.1.key).Nodup) {site : Site}
    (hi : Steady versions given site) {heir : EdgeKey → Option Container}
    (hs : origin.Succeeded site.store heir) (hnone : ∀ entry ∈ entries, heir entry.1.key = none) :
    ∃ next heir', outcome (entries.filterMapM fun entry => migrateContainer plan entry.1 entry.2)
        site = (.ok (entries.filterMap plan.report?), next) ∧
      Steady versions given next ∧ origin.Succeeded next.store heir' ∧
      (∀ key, key ∉ entries.map (fun entry => entry.1.key) → heir' key = heir key) ∧
      ∀ entry ∈ entries, plan.Heir entry.2 (heir' entry.1.key) := by
  induction entries generalizing site heir with
  | nil => exact ⟨site, heir, rfl, hi, hs, fun _ _ => rfl, fun _ hm => (List.not_mem_nil hm).elim⟩
  | cons entry rest ih =>
    obtain ⟨edge, container⟩ := entry
    obtain ⟨hedge, hcontainer⟩ := hentries _ List.mem_cons_self
    obtain ⟨hnot, hrest⟩ := List.nodup_cons.mp honce
    obtain ⟨middle, turned, hstep, hsteady, hturned, hothers, hheir⟩ :=
      outcome_migrateContainer_heir hp hi hs hedge hcontainer (hnone _ List.mem_cons_self)
    have hlater : ∀ other ∈ rest, turned other.1.key = none := by
      intro other hm
      have hne : other.1.key ≠ edge.key := fun hk => hnot (List.mem_map.mpr ⟨other, hm, hk⟩)
      rw [hothers _ hne]
      exact hnone other (List.mem_cons_of_mem _ hm)
    obtain ⟨next, heir', hrun, hnext, hsucceeded, hkept, hheirs⟩ :=
      ih (fun other hm => hentries other (List.mem_cons_of_mem _ hm)) hrest hsteady hturned hlater
    refine ⟨next, heir', ?_, hnext, hsucceeded, fun key hk => ?_, fun other hm => ?_⟩
    · rw [List.filterMapM_cons, outcome_bind_of_ok hstep, List.filterMap_cons]
      cases plan.report? (edge, container) with
      | none => exact hrun
      | some report => exact outcome_bind_of_ok hrun _
    · rw [List.map_cons, List.mem_cons, not_or] at hk
      rw [hkept key hk.2, hothers key hk.1]
    · rcases List.mem_cons.mp hm with rfl | hm
      · rw [hkept _ hnot]
        exact hheir
      · exact hheirs other hm

/-- Content in order is held by the edges. -/
theorem Steady.held {site : Site} (hi : Steady versions given site) (key : EdgeKey) (edge : Edge)
    (he : site.store.edge? key = some edge) : site.store.container? edge.containerId ≠ none :=
  fun hn => hi.housed.held key edge he (by rw [Store.follows?, hn, Option.map_none])

/-- What is listed is there. -/
theorem of_mem_following {store : Store} {kind : Kind} {versionId branchId : Id}
    {type : ContainerType} {after : Option Cursor} {entry : Edge × Container}
    (h : entry ∈ store.following kind versionId branchId type after) :
    store.edge? entry.1.key = some entry.1 ∧
      store.container? entry.1.containerId = some entry.2 := by
  obtain ⟨⟨hrow, -⟩, hc, -⟩ := Store.mem_following.mp h
  exact ⟨store.edges.find?_eq_some_iff.mpr ⟨hrow, rfl⟩, hc⟩

/-- Going through a part of what is listed. -/
theorem outcome_visit_following (hp : given.IsPast plan.target.id) {site : Site}
    (hi : Steady versions given site) (kind : Kind) (versionId branchId : Id) (type : ContainerType)
    (after : Option Cursor) (size : Nat) :
    ∃ next heir, outcome (((site.store.following kind versionId branchId type after).take
        size).filterMapM fun entry => migrateContainer plan entry.1 entry.2) site =
          (.ok (((site.store.following kind versionId branchId type after).take
            size).filterMap plan.report?), next) ∧
      Steady versions given next ∧ site.store.Succeeded next.store heir ∧
      ∀ key, key ∉ ((site.store.following kind versionId branchId type after).take size).map
        (fun entry => entry.1.key) → heir key = none := by
  obtain ⟨next, heir, hrun, hnext, hs, hkept, -⟩ := outcome_visit hp
    ((site.store.following kind versionId branchId type after).take size)
    (fun entry hm => of_mem_following (List.mem_of_mem_take hm))
    ((site.store.nodup_map_key_following ..).sublist ((List.take_sublist ..).map _)) hi
    (.refl site.store) fun _ _ => rfl
  exact ⟨next, heir, hrun, hnext, hs, hkept⟩

/-- The content of a branch may be read in pages while it is moved. -/
theorem paged_migrateContainer (hp : given.IsPast plan.target.id) {bucket : Nat}
    (hb : 0 < bucket) (kind : Kind) (versionId branchId : Id) :
    Paged (Steady versions given) bucket
      (fun type cursor store => store.following kind versionId branchId type cursor)
      (fun entry => entry.1.cursor) (fun entry => (entry.1, entry.2.unlinked))
      (fun page => page.filterMapM fun entry => migrateContainer plan entry.1 entry.2) where
  positive := hb
  nil := rfl
  append := filterMapM_append
  congr a b hab := by
    have hview : ∀ page : List (Edge × Container),
        (page.filterMapM fun entry => migrateContainer plan entry.1 entry.2) =
          (page.map fun entry => (entry.1, entry.2.unlinked)).filterMapM fun entry =>
            migrateContainer plan entry.1 entry.2 := filterMapM_view fun _ => rfl
    exact (hview a).trans ((congrArg _ hab).trans (hview b).symm)
  past _ _ _ _ _ hl := Store.following_past hl
  keeps site type cursor size hi := by
    obtain ⟨next, heir, hrun, hnext, -⟩ :=
      outcome_visit_following hp hi kind versionId branchId type cursor size
    rw [hrun]
    exact hnext
  frame site type cursor last hi hl := by
    obtain ⟨next, heir, hrun, -, hs, hkept⟩ :=
      outcome_visit_following hp hi kind versionId branchId type cursor bucket
    rw [hrun]
    refine hs.map_unlinked_following hi.held (fun key hbranch htype hafter => hkept key ?_) ..
    -- What is on the page comes no later than its last item.
    intro hm
    obtain ⟨entry, he, rfl⟩ := List.mem_map.mp hm
    obtain ⟨init, hpage⟩ := List.getLast?_eq_some_iff.mp hl
    have hsorted := (site.store.pairwise_following kind versionId branchId type cursor).sublist
      (List.take_sublist bucket _)
    rw [hpage, List.pairwise_append] at hsorted
    rw [hpage, List.mem_append, List.mem_singleton] at he
    have hlate : last.1.cursor.precedes entry.1.cursor = true := hafter
    rcases he with he | rfl
    · have hearly := hsorted.2.2 entry he last List.mem_cons_self
      rw [Cursor.precedes_asymm hearly] at hlate
      cases hlate
    · rw [Cursor.precedes_irrefl] at hlate
      cases hlate

/-- Moving the drafts leaves the published content, but for its links. -/
theorem map_unlinked_published (hp : given.IsPast plan.target.id) {site : Site}
    (hi : Steady versions given site) (kind : Kind) (versionId branchId : Id) :
    ((outcome ((site.store.following kind versionId branchId .draft none).filterMapM
        fun entry => migrateContainer plan entry.1 entry.2) site).2.store.following kind versionId
          branchId .published none).map (fun entry => (entry.1, entry.2.unlinked)) =
      (site.store.following kind versionId branchId .published none).map
        fun entry => (entry.1, entry.2.unlinked) := by
  obtain ⟨between, drafted, hdrafts, -, hsome, hnone⟩ := outcome_visit_following hp hi
    kind versionId branchId .draft none
    (site.store.following kind versionId branchId .draft none).length
  rw [List.take_length] at hdrafts hnone
  rw [hdrafts]
  refine hsome.map_unlinked_following hi.held (fun key _ htype _ => hnone key fun hm => ?_) ..
  obtain ⟨entry, he, rfl⟩ := List.mem_map.mp hm
  have hdraft : entry.1.key.type = .draft := (Store.mem_following.mp he).1.2.2.1
  rw [hdraft] at htype
  cases htype

/-- Moving the content of a branch in pages comes to moving all of it in a row. -/
theorem outcome_migrateBranchContent_eq (hp : given.IsPast plan.target.id)
    {site : Site} (hi : Steady versions given site) (hb : 0 < site.bucketSize) {branchId : Id}
    {found : Branch} (hfound : site.store.branch? branchId = some found) :
    outcome (migrateBranchContent branchId plan) site =
      outcome ((site.store.contentOf plan.source.kind plan.source.id branchId).filterMapM
        fun entry => migrateContainer plan entry.1 entry.2) site := by
  have hpaged := @paged_migrateContainer versions _ _ hp _ hb plan.source.kind plan.source.id
    branchId
  have hall := hpaged.outcome_gatherAll hi (fun _ => site.store.length_following_le ..)
    (map_unlinked_published hp hi plan.source.kind plan.source.id branchId)
  have hbranch : outcome (branch branchId) site = (.ok found, site) := by
    unfold branch
    rw [outcome_bind_of_ok (outcome_query _ site), hfound]
    exact outcome_orNotFound_some _ _ found site
  unfold migrateBranchContent
  rw [outcome_bind_of_ok hbranch]
  exact hall

/-- The content of a branch that follows the source of a plan is turned to its heirs, and what can
get none is reported. -/
theorem outcome_migrateBranchContent (hp : given.IsPast plan.target.id)
    {site : Site} (hi : Steady versions given site) (hb : 0 < site.bucketSize) {branchId : Id}
    {found : Branch} (hfound : site.store.branch? branchId = some found) :
    ∃ next heir, outcome (migrateBranchContent branchId plan) site =
        (.ok ((site.store.contentOf plan.source.kind plan.source.id branchId).filterMap
          plan.report?), next) ∧
      Steady versions given next ∧ site.store.Succeeded next.store heir ∧
      (∀ key, key ∉ (site.store.contentOf plan.source.kind plan.source.id branchId).map
        (fun entry => entry.1.key) → heir key = none) ∧
      ∀ entry ∈ site.store.contentOf plan.source.kind plan.source.id branchId,
        plan.Heir entry.2 (heir entry.1.key) := by
  obtain ⟨next, heir, hrun, hnext, hs, hkept, hheirs⟩ := outcome_visit hp
    (site.store.contentOf plan.source.kind plan.source.id branchId)
    (fun entry hm => (List.mem_append.mp hm).elim of_mem_following of_mem_following)
    (site.store.nodup_map_key_contentOf ..) hi (.refl site.store) fun _ _ => rfl
  exact ⟨next, heir, (outcome_migrateBranchContent_eq hp hi hb hfound).trans hrun, hnext, hs,
    hkept, hheirs⟩

end Sweep

/-- Whether the edges of some keys have been moved to a version, and no others have. -/
structure Moves (keys : EdgeKey → Prop) (target : Id) (site next : Site) : Prop where
  /-- The edges of the keys stand at the version. -/
  moved : ∀ key, keys key → next.store.standing? key = some target
  /-- All other edges stand where they stood. -/
  kept : ∀ key, ¬ keys key → next.store.standing? key = site.store.standing? key

/-- Content between two schema versions without reports has been moved as a whole, and nothing else
has. -/
theorem moves_migrateBranchContent {versions : Table Version Version.id} {given : Series}
    {plan : MigrationPlan} (hk : plan.source.kind = .schema)
    (hne : plan.source.id ≠ plan.target.id) (hp : given.IsPast plan.target.id)
    {branchId : Id} {site next : Site} (hi : Steady versions given site) (hb : 0 < site.bucketSize)
    (ho : outcome (migrateBranchContent branchId plan) site = (.ok [], next)) :
    Moves (fun key => key.branchId = branchId ∧
      site.store.standing? key = some plan.source.id) plan.target.id site next := by
  cases hfound : site.store.branch? branchId with
  | none =>
    unfold migrateBranchContent branch at ho
    rw [bind_assoc, outcome_bind_of_ok (outcome_query _ site), hfound] at ho
    cases congrArg Prod.fst ho
  | some found =>
    obtain ⟨next', heir, hrun, -, hs, hkept, hheirs⟩ :=
      outcome_migrateBranchContent hp hi hb hfound
    obtain rfl : next' = next := congrArg Prod.snd (hrun.symm.trans ho)
    have hnone := Except.ok.inj (congrArg Prod.fst (hrun.symm.trans ho))
    rw [hk] at hkept hheirs hnone
    have hcontent : ∀ key : EdgeKey, (key.branchId = branchId ∧
        site.store.standing? key = some plan.source.id) ↔
          ∃ entry ∈ site.store.contentOf .schema plan.source.id branchId, entry.1.key = key := by
      intro key
      simp only [Store.standing?_eq_some_iff, Store.mem_contentOf, Store.followsVersion,
        decide_eq_true_eq]
      constructor
      · rintro ⟨rfl, edge, container, hm, rfl, hc, hv⟩
        exact ⟨(edge, container), ⟨hm, rfl, hc, hv⟩, rfl⟩
      · rintro ⟨entry, ⟨hm, rfl, hc, hv⟩, rfl⟩
        exact ⟨rfl, entry.1, entry.2, hm, rfl, hc, hv⟩
    constructor
    · intro key hkey
      obtain ⟨entry, hm, rfl⟩ := (hcontent key).mp hkey
      have hdone : plan.isDone entry.2 = false := by
        rw [MigrationPlan.isDone_of_follows (hk ▸ (Store.mem_contentOf.mp hm).2.2.2)]
        exact decide_eq_false fun hsame => hne hsame.2
      have hreport := List.filterMap_eq_nil_iff.mp hnone entry hm
      obtain ⟨successor, hsuccessor, hversion⟩ := (hheirs entry hm).exists_of_report? hdone hreport
      rw [hs.standing?_of_some hsuccessor, hversion, MigrationPlan.successorVersion, hk]
    · intro key hkey
      exact hs.standing?_of_none hi.held
        (hkept key fun hm => hkey ((hcontent key).mpr (List.mem_map.mp hm)))

/-- What changes beside the records only. -/
structure Beside (site next : Site) : Prop where
  /-- The records stay as they are. -/
  store : next.store = site.store
  /-- Jobs go on to handle as much at a time. -/
  bucketSize : next.bucketSize = site.bucketSize

instance : Std.Refl Beside where
  refl _ := ⟨rfl, rfl⟩

instance : IsTrans Site Beside where
  trans _ _ _ hab hbc := ⟨hbc.store.trans hab.store, hbc.bucketSize.trans hab.bucketSize⟩

/-- A job between two schema versions that reports nothing has moved every edge of its branch that
stood at the one to the other, and nothing else. -/
theorem execute_spec {branchId source target : Id} (hne : source ≠ target) {site next : Site}
    (h : Sound site)
    (ho : outcome (execute (.schema branchId source target)) site = (.ok [], next)) :
    Moves (fun key => key.branchId = branchId ∧ site.store.standing? key = some source) target
      site next := by
  have hplan : Within (Steady site.store.versions site.issued.versions) Beside
      (fun plan => (plan.source.id = source ∧ site.issued.versions.IsPast plan.source.id) ∧
        (plan.target.id = target ∧ site.issued.versions.IsPast plan.target.id) ∧
        plan.source.kind = .schema)
      (plan .schema source target) := by
    refine within_plan
      (P := fun id found => found.id = id ∧ site.issued.versions.IsPast found.id)
      (fun other _ _ hi _ _ _ => ?_) (fun other hi id found hf => ?_) .schema source target
    · exact ⟨⟨hi.outages, hi.versions, hi.issued, hi.housed⟩, rfl, rfl⟩
    · have hid := (Store.version?_eq_some_iff.mp hf).2
      exact ⟨hid, hi.isPast_of_version? h.chained.fresh hf⟩
  obtain ⟨plan, planned, hfound, hrest⟩ := of_outcome_bind_eq_ok ho
  obtain ⟨hsteady, hbeside, hknown⟩ := hplan site h.steady
  rw [hfound] at hsteady hbeside hknown
  obtain ⟨⟨hs, -⟩, ⟨ht, hlabel⟩, hk⟩ := hknown plan rfl
  have hb : 0 < planned.bucketSize := by
    rw [hbeside.bucketSize]
    exact h.bucketSize
  have hmoves := moves_migrateBranchContent hk (by rw [hs, ht]; exact hne) hlabel hsteady hb hrest
  rw [hs, ht] at hmoves
  have hstore : planned.store = site.store := hbeside.store
  exact ⟨fun key hkey => hmoves.moved key (hstore ▸ hkey),
    fun key hkey => (hmoves.kept key (hstore ▸ hkey)).trans (by rw [hstore])⟩

end Site

end VersionedContent

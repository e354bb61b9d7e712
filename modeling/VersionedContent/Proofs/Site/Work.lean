import Mathlib.Tactic.Tauto
import VersionedContent.Proofs.Site.Cache
import VersionedContent.Proofs.Site.Edits

/-!
# What the work of a job touches

A job works on the content of one branch, or of none. Whatever it does and
however it ends, it leaves versions, jobs and pins alone, and the edges of every
other branch stand where they stood.
-/

namespace VersionedContent.Site

open VersionedContent.Action

/-- A site with given versions whose content is in order. -/
structure Steady (versions : Table Version Version.id) (issued : Series) (site : Site) : Prop where
  /-- No outage is planned. -/
  outages : site.outages = []
  /-- The versions are the given ones. -/
  versions : site.store.versions = versions
  /-- The version identifiers are given out by the given series. -/
  issued : site.issued.versions = issued
  /-- The content is in order. -/
  housed : site.store.Housed site.issued

/-- A version that is stored has been given out. -/
theorem Steady.isPast_of_version? {versions : Table Version Version.id} {given : Series}
    {site : Site} (hi : Steady versions given site)
    (hv : ∀ id ∈ versions.keys, given.HasGiven id) {id : Id} {found : Version}
    (hf : site.store.version? id = some found) : given.IsPast found.id := by
  have hm := (Store.version?_eq_some_iff.mp hf).1
  rw [hi.versions] at hm
  exact (hv _ (Table.mem_keys hm)).isPast

/-- An heir follows a version that has been given out, when the target of the plan has been. -/
theorem Steady.isPast_successorVersion {versions : Table Version Version.id} {given : Series}
    {site : Site} (hi : Steady versions given site) {plan : MigrationPlan}
    (hp : given.IsPast plan.target.id) {id : Id} {container : Container}
    (hc : site.store.container? id = some container) :
    given.IsPast (plan.successorVersion container) := by
  unfold MigrationPlan.successorVersion
  cases plan.source.kind with
  | schema => exact hp
  | microschema =>
    have hseen := hi.housed.seen _ _ (Store.follows?_of_container? hc)
    rwa [hi.issued] at hseen

/-- What work on the content of the touched branches may do to a site. -/
structure Works (touched : Id → Prop) (site next : Site) : Prop where
  /-- The jobs stay as they are. -/
  jobs : next.store.jobs = site.store.jobs
  /-- No branch comes or goes or pins another version. -/
  pins : ∀ id, (next.store.branch? id).map Branch.pins = (site.store.branch? id).map Branch.pins
  /-- Only containers are made. -/
  issued : next.issued = { site.issued with containers := next.issued.containers }
  /-- Jobs go on to handle as much at a time. -/
  bucketSize : next.bucketSize = site.bucketSize
  /-- Nothing is announced. -/
  events : next.events = site.events
  /-- The edges of other branches stand where they stood. -/
  standing : ∀ key, ¬ touched key.branchId →
    next.store.standing? key = site.store.standing? key
  /-- The content is edited. -/
  edits : Edits site next
  /-- Versions are kept compiled as before. -/
  compiles : Compiles site next

instance (touched : Id → Prop) : Std.Refl (Works touched) where
  refl _ := ⟨rfl, fun _ => rfl, rfl, rfl, rfl, fun _ _ => rfl, .refl, .of_eq rfl rfl⟩

instance (touched : Id → Prop) : IsTrans Site (Works touched) where
  trans a b c hab hbc := {
    jobs := hbc.jobs.trans hab.jobs
    pins := fun id => (hbc.pins id).trans (hab.pins id)
    issued := by rw [hbc.issued, hab.issued]
    bucketSize := hbc.bucketSize.trans hab.bucketSize
    events := hbc.events.trans hab.events
    standing := fun key hk => (hbc.standing key hk).trans (hab.standing key hk)
    edits := hab.edits.trans hbc.edits
    compiles := hab.compiles.trans hbc.compiles }

section Plan

variable {I : Site → Prop} {R : Site → Site → Prop} [Std.Refl R] [IsTrans Site R]

/-- A version that is answered with is stored. -/
theorem within_version {id : Id} {P : Version → Prop}
    (h : ∀ site, I site → ∀ found, site.store.version? id = some found → P found) :
    Within I R P (version id) := by
  unfold version
  refine within_bind (P := fun answer => ∀ found, answer = some found → P found)
    (within_query fun site hi => h site hi) fun answer hp => ?_
  exact within_orNotFound hp

/-- Following links touches nothing. -/
theorem within_stepsTo (target : Id) (fuel : Nat) (start : Option Id) :
    Within I R (fun _ => True) (stepsTo .ample target fuel start) := by
  induction fuel generalizing start with
  | zero =>
    cases start with
    | none => exact within_pure trivial
    | some id => exact within_pure trivial
  | succ fuel ih =>
    cases start with
    | none => exact within_pure trivial
    | some id =>
      rw [stepsTo]
      refine within_bind (within_version fun _ _ _ _ => trivial) fun step _ => ?_
      split
      · exact within_pure trivial
      · exact within_bind (ih step.next) fun steps _ => within_pure trivial

/-- Finding the versions between two others touches nothing. -/
theorem within_versionsBetween (source target : Version) :
    Within I R (fun _ => True) (versionsBetween source target) := by
  unfold versionsBetween
  dsimp only
  split
  · exact within_throw_bind _ _
  · split
    · exact within_pure trivial
    · refine within_bind (within_query (P := fun _ => True) fun _ _ => trivial) fun size _ => ?_
      refine within_bind (within_stepsTo target.id _ _) fun steps _ => ?_
      cases steps with
      | none => exact within_throw _
      | some steps => exact within_pure trivial

/-- A plan leads between the versions of its identifiers; what is known of any version that is found
is known of them. -/
theorem within_plan (h : ∀ site version compiled, I site → version ∈ site.store.versions.rows →
      Compiled.ofVersion version = .ok compiled →
      outcome (compiledAt (.ofVersion version)) site =
        (.ok compiled, { site with cache := site.cache.insert (.ofVersion version) compiled }) →
        I { site with cache := site.cache.insert (.ofVersion version) compiled } ∧
          R site { site with cache := site.cache.insert (.ofVersion version) compiled })
    {P : Id → Version → Prop}
    (hp : ∀ site, I site → ∀ id found, site.store.version? id = some found → P id found)
    (kind : Kind) (sourceId targetId : Id) :
    Within I R
      (fun plan => P sourceId plan.source ∧ P targetId plan.target ∧ plan.source.kind = kind)
      (plan kind sourceId targetId) := by
  unfold plan
  refine within_bind (within_version fun site hi => hp site hi sourceId) fun source hs => ?_
  refine within_bind (within_version fun site hi => hp site hi targetId) fun target ht => ?_
  dsimp only
  split
  · exact within_throw_bind _ _
  · next hk =>
    refine within_bind (within_versionsBetween source target) fun steps _ => ?_
    refine within_bind (within_compiledAt h (.ofVersion source)) fun _ _ => ?_
    refine within_bind (within_compiledAt h (.ofVersion target)) fun compiledTarget _ => ?_
    exact within_pure ⟨hs, ht, by tauto⟩

end Plan

/-- A successor is stored as the store does it. -/
theorem outcome_commitSuccessor {site : Site} (ho : site.outages = []) (key : EdgeKey)
    (successor : Container) :
    (∃ answer, answer ≠ .ok true ∧
      outcome (commitSuccessor key successor) site = (answer, site)) ∨
      ∃ edge previous, site.store.edge? key = some edge ∧
        site.store.container? edge.containerId = some previous ∧
        successor.previous = some edge.containerId ∧ site.store.follows? successor.id = none ∧
        outcome (commitSuccessor key successor) site =
          (.ok true, { site with store := site.store.committed edge previous successor }) := by
  unfold commitSuccessor
  rw [outcome_unlessOut ho, outcome_transact]
  rcases Store.outcome_commitSuccessor key successor site.store with
    ⟨answer, hne, h⟩ | ⟨edge, previous, he, hp, hs, hf, h⟩
  · refine .inl ⟨answer.mapError Failure.store, ?_, by rw [h]⟩
    cases answer with
    | error fault => simp [Except.mapError]
    | ok committed => simpa [Except.mapError] using hne
  · refine .inr ⟨edge, previous, he, hp, hs, hf, ?_⟩
    rw [h]
    rfl

/-- A successor that was stored is counted, and the edge stands where the successor does. -/
theorem steady_commit {versions : Table Version Version.id} {given : Series} {site : Site}
    (hi : Steady versions given site) {key : EdgeKey} {edge : Edge} {previous successor : Container}
    (he : site.store.edge? key = some edge)
    (hp : site.store.container? edge.containerId = some previous)
    (hid : successor.id = site.issued.containers.next)
    (hsucceeds : successor.previous = some edge.containerId) (hn : successor.next = [])
    (hv : given.IsPast successor.schemaVersionId) (next : Site)
    (hs : next.store = site.store.committed edge previous successor)
    (hissued : next.issued = { site.issued with containers := site.issued.containers.advance 1 })
    (ho : next.outages = site.outages) (hb : next.bucketSize = site.bucketSize)
    (hevents : next.events = site.events) (hc : next.cache = site.cache) :
    Steady versions given next ∧ Works (· = key.branchId) site next ∧
      ∀ other, next.store.standing? other =
        if other = key then some successor.schemaVersionId else site.store.standing? other := by
  obtain ⟨hhoused, hstand⟩ := hi.housed.commitSuccessor he hp hid
    (by rw [hi.issued]; exact hv)
  rw [← hs] at hhoused hstand
  refine ⟨⟨ho.trans hi.outages, ?_, ?_, hissued ▸ hhoused⟩, ?_, hstand⟩
  · rw [hs]
    exact hi.versions
  · rw [hissued]
    exact hi.issued
  · refine ⟨by rw [hs]; rfl, fun id => by rw [hs]; rfl, by rw [hissued], hb, hevents,
      fun other hk => ?_,
      .single (.commit he hp hid hsucceeds hn (by rw [hs]; rfl) (by rw [hs]; rfl)
        (by rw [hissued])),
      .of_eq (by rw [hs]; rfl) hc⟩
    rw [hstand, if_neg]
    rintro rfl
    exact hk rfl

/-- A site that differs in its clock and caches only is as steady, and nothing was done. -/
theorem steady_of_eq {versions : Table Version Version.id} {given : Series} {site : Site}
    (hi : Steady versions given site) (next : Site) (touched : Id → Prop)
    (hs : next.store = site.store) (hissued : next.issued = site.issued)
    (ho : next.outages = site.outages)
    (hb : next.bucketSize = site.bucketSize) (hevents : next.events = site.events)
    (hc : Compiles site next) :
    Steady versions given next ∧ Works touched site next := by
  refine ⟨⟨ho.trans hi.outages, ?_, ?_, ?_⟩, ⟨by rw [hs], fun id => by rw [hs], ?_, hb, hevents, ?_,
    .aside (by rw [hs]) (by rw [hs]) (by rw [hissued]), hc⟩⟩
  · rw [hs]
    exact hi.versions
  · rw [hissued]
    exact hi.issued
  · rw [hs, hissued]
    exact hi.housed
  · rw [hissued]
  · intro key _
    rw [hs]

/-- Moving a container touches its edge only, which stands at the version moved to when nothing
is reported. -/
theorem migrateContainer_spec {versions : Table Version Version.id} {given : Series} {site : Site}
    (hi : Steady versions given site) (plan : MigrationPlan) (edge : Edge) (container : Container)
    (hv : given.IsPast (plan.successorVersion container)) :
    Steady versions given (outcome (migrateContainer plan edge container) site).2 ∧
      Works (· = edge.branchId) site (outcome (migrateContainer plan edge container) site).2 ∧
      ((outcome (migrateContainer plan edge container) site).1 = .ok none →
        plan.isDone container = false → ∀ key,
        (outcome (migrateContainer plan edge container) site).2.store.standing? key =
          if key = edge.key then some (plan.successorVersion container)
          else site.store.standing? key) := by
  unfold migrateContainer
  by_cases hd : plan.isDone container = true
  · simp only [hd, ite_true]
    exact ⟨hi, refl site, fun _ h => by cases h⟩
  · simp only [hd, Bool.false_eq_true, ite_false]
    cases plan.successorFields container with
    | error error => exact ⟨hi, refl site, fun h => by cases h⟩
    | ok fields =>
      dsimp only
      rw [outcome_bind_of_ok (show outcome nextContainerId site =
          (.ok site.issued.containers.next, site) from rfl),
        outcome_bind_of_ok (outcome_now site)]
      obtain ⟨successor, hsucc⟩ : ∃ successor, successor =
          container.successor site.issued.containers.next
            (site.clock.reading site.clock.reads) (plan.successorVersion container) fields :=
        ⟨_, rfl⟩
      rw [← hsucc, outcome_bind_of_ok (outcome_attempt _ _)]
      rcases @outcome_commitSuccessor (ticked site) hi.outages edge.key successor with
        ⟨answer, hne, h⟩ | ⟨found, previous, he, hp, hsucceeds, -, h⟩
      · rw [h]
        obtain ⟨hsteady, hworks⟩ := steady_of_eq hi (ticked site) (· = edge.branchId)
          rfl rfl rfl rfl rfl (.of_eq rfl rfl)
        rcases answer with failure | committed
        · cases failure <;> exact ⟨hsteady, hworks, fun h => by cases h⟩
        · cases committed with
          | true => exact absurd rfl hne
          | false => exact ⟨hsteady, hworks, fun h => by cases h⟩
      · rw [h]
        have hversion : successor.schemaVersionId = plan.successorVersion container := by
          rw [hsucc]
          rfl
        obtain ⟨hsteady, hworks, hstand⟩ := steady_commit hi he hp (by rw [hsucc]; rfl)
          hsucceeds (by rw [hsucc]; rfl) (fun k hk => hv k (hversion ▸ hk))
          { ticked site with
            store := site.store.committed found previous successor
            issued := { site.issued with containers := site.issued.containers.advance 1 } }
          rfl rfl rfl rfl rfl rfl
        rw [hversion] at hstand
        exact ⟨hsteady, hworks, fun _ _ => hstand⟩

section Branch

variable {versions : Table Version Version.id} {given : Series} {touched : Id → Prop}

/-- A step that is described for each steady site may be taken within the work. -/
theorem within_of_steady {α : Type} {P : α → Prop} {action : Action α}
    (h : ∀ site, Steady versions given site → Steady versions given (outcome action site).2 ∧
      Works touched site (outcome action site).2 ∧
      ∀ a, (outcome action site).1 = .ok a → P a) :
    Within (Steady versions given) (Works touched) P action := h

/-- More branches may be touched than are. -/
theorem Works.mono {site next : Site} {fewer : Id → Prop} (h : Works fewer site next)
    (hsub : ∀ id, fewer id → touched id) : Works touched site next where
  jobs := h.jobs
  pins := h.pins
  issued := h.issued
  bucketSize := h.bucketSize
  events := h.events
  standing key hk := h.standing key fun hf => hk (hsub _ hf)
  edits := h.edits
  compiles := h.compiles

/-- A page of content lists edges of the branch with their containers. -/
theorem of_mem_contentPage {store : Store} {keep : Container → Bool} {branchId : Id}
    {type : ContainerType} {after : Option Cursor} {size : Nat} {entry : Edge × Container}
    (h : entry ∈ store.contentPage keep branchId type after size) :
    entry.1.branchId = branchId ∧ store.container? entry.1.containerId = some entry.2 := by
  have hkept := (List.mem_filter.mp (List.mem_of_mem_take h)).1
  obtain ⟨edge, hm, hw⟩ := List.mem_filterMap.mp hkept
  obtain ⟨container, hc, rfl⟩ := Option.map_eq_some_iff.mp hw
  rw [Store.orderedEdges, List.mem_mergeSort, List.mem_filter] at hm
  refine ⟨?_, hc⟩
  have hb := hm.2
  simp only [Bool.and_eq_true, decide_eq_true_eq] at hb
  exact hb.1.1

/-- A branch is looked up without touching the site. -/
theorem within_branch {I : Site → Prop} {R : Site → Site → Prop} [Std.Refl R] [IsTrans Site R]
    (id : Id) : Within I R (fun found => found.id = id) (branch id) := by
  unfold branch
  refine within_bind (P := fun answer => ∀ found, answer = some found → found.id = id)
    (within_query fun site _ found hf => (site.store.branches.find?_eq_some_iff.mp hf).2)
    fun answer hp => ?_
  exact within_orNotFound hp

/-- Moving the content of a branch touches its edges only. -/
theorem within_migrateBranchContent {branchId : Id} (ht : touched branchId) {plan : MigrationPlan}
    (hp : given.IsPast plan.target.id) :
    Within (Steady versions given) (Works touched) (fun _ => True)
      (migrateBranchContent branchId plan) := by
  unfold migrateBranchContent
  refine within_bind (within_branch branchId) fun _ _ => ?_
  refine within_gatherAll (P := fun entry => entry.1.branchId = branchId ∧
    given.IsPast (plan.successorVersion entry.2)) (fun type cursor size => ?_)
    fun page hpage => within_filterMapM fun entry he => ?_
  · refine within_query fun site hi entry he => ?_
    obtain ⟨hb, hc⟩ := of_mem_contentPage he
    exact ⟨hb, hi.isPast_successorVersion hp hc⟩
  · obtain ⟨hb, hv⟩ := hpage entry he
    refine within_of_steady fun site hi => ?_
    obtain ⟨hs, hw, -⟩ := migrateContainer_spec hi plan entry.1 entry.2 hv
    exact ⟨hs, hw.mono fun id hid => by rw [hid, hb]; exact ht, fun _ _ => trivial⟩

/-- Setting an edge touches its branch only. -/
theorem within_setEdge {edge : Edge} (ht : touched edge.branchId) :
    Within (Steady versions given) (Works touched) (fun _ => True) (setEdge edge) := by
  refine within_unlessOut (fun _ hi => hi.outages) (within_of_steady fun site hi => ?_)
  rw [outcome_transact, Store.outcome_setEdge]
  by_cases hc : site.store.containers.contains edge.containerId = true
  · rw [if_pos hc]
    have hfollow : site.store.follows? edge.containerId ≠ none := by
      rw [ne_eq, Store.follows?_eq_none_iff, hc]
      simp
    obtain ⟨hhoused, hstand⟩ := hi.housed.setEdge hfollow
    refine ⟨⟨hi.outages, hi.versions, hi.issued, hhoused⟩,
      ⟨rfl, fun _ => rfl, rfl, rfl, rfl, fun key hk => ?_, .single (.turn hc rfl rfl rfl),
        .of_eq rfl rfl⟩, fun _ _ => trivial⟩
    refine (hstand key).trans (if_neg ?_)
    rintro rfl
    exact hk ht
  · rw [if_neg hc]
    exact ⟨hi, refl site, fun _ _ => trivial⟩

/-- Marking a branch as migrated pins nothing. -/
theorem within_markMigrated (branchId : Id) :
    Within (Steady versions given) (Works touched) (fun _ => True) (do
      let current ← branch branchId
      upsertBranch { current with migrated := true }) := by
  refine within_of_steady fun site hi => ?_
  unfold branch
  rw [bind_assoc, outcome_bind_of_ok (outcome_query _ site)]
  cases hb : site.store.branch? branchId with
  | none => exact ⟨hi, refl site, fun _ _ => trivial⟩
  | some current =>
    have hid : current.id = branchId := (site.store.branches.find?_eq_some_iff.mp hb).2
    rw [outcome_bind_of_ok (outcome_orNotFound_some _ _ current site), upsertBranch,
      outcome_unlessOut hi.outages, outcome_transact]
    have hhoused := hi.housed
    refine ⟨⟨hi.outages, hi.versions, hi.issued, hhoused.held, hhoused.fresh, hhoused.seen⟩,
      ⟨rfl, fun id => ?_, rfl, rfl, rfl, fun _ _ => rfl, .aside rfl rfl rfl,
        .of_eq rfl rfl⟩, fun _ _ => trivial⟩
    have hfind := site.store.branches.find?_insert { current with migrated := true } id
    apply (congrArg (Option.map Branch.pins) hfind).trans
    by_cases hk : id = current.id
    · rw [if_pos hk, hk, hid, hb]
      rfl
    · rw [if_neg hk]
      rfl

/-- Where setting edges of a branch and marking it as migrated lead, copying the content of its base
leads. -/
theorem within_copyBase {I : Site → Prop} {R : Site → Site → Prop} [Std.Refl R] [IsTrans Site R]
    {branchId : Id}
    (hset : ∀ edge : Edge, edge.branchId = branchId →
      Within I R (fun _ => True) (setEdge edge))
    (hmark : Within I R (fun _ => True) (do
      let current ← branch branchId
      upsertBranch { current with migrated := true })) :
    Within I R (fun _ => True) (copyBaseBranch branchId) := by
  unfold copyBaseBranch
  refine within_bind (within_branch branchId) fun forked _ => ?_
  split
  · exact within_pure trivial
  · cases forked.baseId with
    | none => exact within_throw _
    | some baseId =>
      refine within_bind (P := fun _ => True) ?_ fun _ _ => hmark
      refine within_gatherAll (P := fun _ => True)
        (fun _ _ _ => within_query fun _ _ _ _ => trivial)
        fun page _ => (within_mapM (Q := fun _ _ => True) fun edge _ => ?_).imp fun _ _ => trivial
      unfold copyEdge
      refine within_bind (P := fun _ => True) (within_query fun _ _ => trivial) fun found _ => ?_
      split
      · exact hset _ rfl
      · exact within_pure trivial

/-- Copying the content of a base touches the edges of the new branch only. -/
theorem within_copyBaseBranch {branchId : Id} (ht : touched branchId) :
    Within (Steady versions given) (Works touched) (fun _ => True) (copyBaseBranch branchId) :=
  within_copyBase (fun _ he => within_setEdge (he ▸ ht)) (within_markMigrated branchId)

/-- Taking a container out touches no edge. -/
theorem within_deleteContainerVersion (id : Id) :
    Within (Steady versions given) (Works touched) (fun _ => True) (deleteContainerVersion id) := by
  refine within_unlessOut (fun _ hi => hi.outages) (within_of_steady fun site hi => ?_)
  rw [outcome_transact, Store.outcome_deleteContainerVersion]
  cases hr : site.store.isReferenced id with
  | true => exact ⟨hi, refl site, fun _ _ => trivial⟩
  | false =>
    cases hf : site.store.container? id with
    | none => exact ⟨hi, refl site, fun _ _ => trivial⟩
    | some removed =>
      obtain ⟨hhoused, hstand⟩ := hi.housed.deleteContainerVersion removed hr
      exact ⟨⟨hi.outages, hi.versions, hi.issued, hhoused⟩,
        ⟨rfl, fun _ => rfl, rfl, rfl, rfl, fun key _ => hstand key,
          .single (.delete hr hf rfl rfl rfl), .of_eq rfl rfl⟩,
        fun _ _ => trivial⟩

/-- Taking superseded containers out touches no edge. -/
theorem within_purgeVersions (projectId : Id) (before : Option Instant) :
    Within (Steady versions given) (Works touched) (fun _ => True)
      (purgeVersions projectId before) := by
  have hhistory : ∀ (fuel : Nat) (start : Option Id), Within (Steady versions given) (Works touched)
      (fun _ => True) (purgeHistory .ample before fuel start) := by
    intro fuel
    induction fuel with
    | zero =>
      intro start
      cases start <;> exact within_pure trivial
    | succ fuel ih =>
      intro start
      cases start with
      | none => exact within_pure trivial
      | some id =>
        rw [purgeHistory]
        refine within_bind (P := fun _ => True) (within_query fun _ _ => trivial) fun found _ => ?_
        cases found with
        | none => exact within_pure trivial
        | some container =>
          dsimp only
          split
          · refine within_bind (P := fun _ => True) (within_query fun _ _ => trivial)
              fun referenced _ => ?_
            split
            · exact within_bind (within_deleteContainerVersion _) fun _ _ => ih _
            · exact ih _
          · exact ih _
  unfold purgeVersions
  refine within_bind (P := fun _ => True) (within_query fun _ _ => trivial) fun branches _ => ?_
  refine within_forM fun branch _ => ?_
  unfold purgeBranch
  refine within_bind (P := fun _ => True) ?_ fun _ _ => within_pure trivial
  refine within_gatherAll (P := fun _ => True)
    (fun _ _ _ => within_query fun _ _ _ _ => trivial)
    fun page _ => (within_mapM (Q := fun _ _ => True) fun edge _ => ?_).imp fun _ _ => trivial
  unfold purgeBehind
  refine within_get_bind fun site hi => ?_
  dsimp only
  cases site.store.container? edge.containerId with
  | none => exact within_pure (R := Works touched) (P := fun _ => True) trivial site hi
  | some head => exact hhistory _ _ site hi

/-- Executing a job touches the content of its branch only. -/
theorem within_execute (hv : ∀ id ∈ versions.keys, given.HasGiven id) (kind : JobKind) :
    Within (Steady versions given) (Works fun id => kind.branchId? = some id) (fun _ => True)
      (execute kind) := by
  have hcache : ∀ (site : Site) (version : Version) (compiled : Compiled),
      Steady versions given site → version ∈ site.store.versions.rows →
      Compiled.ofVersion version = .ok compiled →
      outcome (compiledAt (.ofVersion version)) site =
        (.ok compiled, { site with cache := site.cache.insert (.ofVersion version) compiled }) →
      Steady versions given { site with cache := site.cache.insert (.ofVersion version) compiled } ∧
        Works (fun id => kind.branchId? = some id) site
          { site with cache := site.cache.insert (.ofVersion version) compiled } :=
    fun site version compiled hi hm hc ho =>
      steady_of_eq hi _ _ rfl rfl rfl rfl rfl (.insert hm hc ho)
  have hplan : ∀ site, Steady versions given site →
      ∀ id found, site.store.version? id = some found → given.IsPast found.id :=
    fun site hi id found hf => hi.isPast_of_version? hv hf
  cases kind with
  | schema branchId source target =>
    refine within_bind (within_plan hcache hplan .schema source target) fun plan hp => ?_
    refine within_migrateBranchContent ?_ hp.2.1
    rfl
  | microschema branchId source target =>
    refine within_bind (within_plan hcache hplan .microschema source target) fun plan hp => ?_
    refine within_migrateBranchContent ?_ hp.2.1
    rfl
  | branch branchId source target =>
    refine within_bind (within_copyBaseBranch rfl) fun _ _ => ?_
    cases source with
    | none => exact within_pure trivial
    | some source =>
      cases target with
      | none => exact within_pure trivial
      | some target =>
        refine within_bind (within_plan hcache hplan .schema source target) fun plan hp => ?_
        refine within_migrateBranchContent ?_ hp.2.1
        rfl
  | versionPurge projectId before =>
    exact within_bind (within_purgeVersions projectId before) fun _ _ => within_pure trivial

end Branch

end VersionedContent.Site

import VersionedContent.Proofs.Site.Action

/-!
# What actions overlook

Usage hashes and the number of containers that a job handles at a time are kept
beside everything else, and most actions look at neither. Such an action does the
same whatever is kept there, and leaves it as it is. This holds of the single
steps, and passes through the ways of composing them.
-/

namespace VersionedContent

namespace Site

/-- A site with something else kept for the usage hashes and the bucket size. -/
def beside (memo : UsageMemo → UsageMemo) (bucket : Nat → Nat) (site : Site) : Site :=
  { site with memo := memo site.memo, bucketSize := bucket site.bucketSize }

end Site

namespace Action

open Site

variable {α β : Type}

/-- Whether an action does the same on a site when something else is kept beside, and keeps that. -/
def OverlooksAt (memo : UsageMemo → UsageMemo) (bucket : Nat → Nat) (site : Site)
    (action : Action α) : Prop :=
  outcome action (site.beside memo bucket) =
    ((outcome action site).1, (outcome action site).2.beside memo bucket)

/-- Whether an action does the same on any site when something else is kept beside. -/
abbrev Overlooks (memo : UsageMemo → UsageMemo) (bucket : Nat → Nat) (action : Action α) : Prop :=
  ∀ site, OverlooksAt memo bucket site action

variable {memo : UsageMemo → UsageMemo} {bucket : Nat → Nat} {site : Site}

/-- An action that comes to the same as another one overlooks what that one overlooks. -/
theorem OverlooksAt.of_eq {action other : Action α} (h : OverlooksAt memo bucket site other)
    (hs : outcome action site = outcome other site)
    (hb : outcome action (site.beside memo bucket) = outcome other (site.beside memo bucket)) :
    OverlooksAt memo bucket site action := by
  rw [OverlooksAt, hb, h, hs]

/-- Of two actions in a row the second one starts where the first one ends. -/
theorem OverlooksAt.bind {action : Action α} {f : α → Action β}
    (h : OverlooksAt memo bucket site action)
    (hf : ∀ a next, outcome action site = (.ok a, next) → OverlooksAt memo bucket next (f a)) :
    OverlooksAt memo bucket site (action >>= f) := by
  unfold OverlooksAt
  rw [outcome_bind, outcome_bind, h]
  rcases hs : outcome action site with ⟨failure | a, next⟩
  · rfl
  · exact hf a next hs

/-- What follows an answer that is known. -/
theorem OverlooksAt.bind_of_ok {action : Action α} {f : α → Action β} {a : α} {next : Site}
    (h : OverlooksAt memo bucket site action) (ho : outcome action site = (.ok a, next))
    (hf : OverlooksAt memo bucket next (f a)) : OverlooksAt memo bucket site (action >>= f) := by
  refine h.bind fun other last hother => ?_
  obtain ⟨hanswer, rfl⟩ := Prod.mk.inj (hother.symm.trans ho)
  rw [Except.ok.inj hanswer]
  exact hf

/-- Nothing follows a failure that is known. -/
theorem OverlooksAt.bind_of_error {action : Action α} {f : α → Action β} {failure : Failure}
    {next : Site} (h : OverlooksAt memo bucket site action)
    (ho : outcome action site = (.error failure, next)) :
    OverlooksAt memo bucket site (action >>= f) := by
  refine h.bind fun a last ha => ?_
  cases congrArg Prod.fst (ha.symm.trans ho)

/-- A failure that is caught is overlooked alike. -/
theorem OverlooksAt.attempt {action : Action α} (h : OverlooksAt memo bucket site action) :
    OverlooksAt memo bucket site action.attempt := by
  unfold OverlooksAt
  rw [outcome_attempt, outcome_attempt, h]

theorem overlooks_pure (a : α) : Overlooks memo bucket (pure a) := fun _ => rfl

theorem overlooks_throw (failure : Failure) : Overlooks memo bucket (throw failure : Action α) :=
  fun _ => rfl

/-- Nothing follows a failure. -/
theorem overlooks_throw_bind (failure : Failure) (f : α → Action β) :
    Overlooks memo bucket (throw failure >>= f) :=
  fun _ => rfl

theorem overlooks_query (question : Store → α) : Overlooks memo bucket (query question) :=
  fun _ => rfl

theorem overlooks_now : Overlooks memo bucket now := fun _ => rfl

/-- A transaction touches the records only. -/
theorem overlooks_transact (transaction : Transaction α) :
    Overlooks memo bucket (transact transaction) := by
  intro site
  unfold OverlooksAt
  rw [outcome_transact, outcome_transact]
  rfl

theorem overlooks_orNotFound (what id : String) (answer : Option α) :
    Overlooks memo bucket (orNotFound what id answer) := by
  cases answer with
  | none => exact overlooks_throw _
  | some a => exact overlooks_pure a

theorem overlooks_bind {action : Action α} {f : α → Action β} (h : Overlooks memo bucket action)
    (hf : ∀ a, Overlooks memo bucket (f a)) : Overlooks memo bucket (action >>= f) :=
  fun site => (h site).bind fun a next _ => hf a next

/-- An operation of the store is carried out, declines or fails as the planned outages say. -/
theorem outcome_unlessOut_eq (operation : StoreOperation) (declined : α) (action : Action α)
    (site : Site) :
    outcome (unlessOut operation declined action) site =
      match (Outage.meet operation site.outages).1 with
      | none => outcome action { site with outages := (Outage.meet operation site.outages).2 }
      | some .decline =>
        (.ok declined, { site with outages := (Outage.meet operation site.outages).2 })
      | some (.fail cause context) => (.error (.store (.outage cause context)),
        { site with outages := (Outage.meet operation site.outages).2 }) := by
  unfold unlessOut
  rw [outcome_bind_of_ok (outcome_get site)]
  rcases Outage.meet operation site.outages with ⟨_ | mode, outages⟩
  · rfl
  · cases mode <;> rfl

/-- Outages are planned apart from what is overlooked. -/
theorem overlooks_unlessOut {action : Action α} (h : Overlooks memo bucket action)
    (operation : StoreOperation) (declined : α) :
    Overlooks memo bucket (unlessOut operation declined action) := by
  intro site
  unfold OverlooksAt
  rw [outcome_unlessOut_eq, outcome_unlessOut_eq,
    show (site.beside memo bucket).outages = site.outages from rfl]
  cases (Outage.meet operation site.outages).1 with
  | none => exact h { site with outages := (Outage.meet operation site.outages).2 }
  | some mode => cases mode <;> rfl

/-- An action for each element of a list. -/
theorem overlooks_mapM {f : α → Action β} {list : List α}
    (h : ∀ a ∈ list, Overlooks memo bucket (f a)) : Overlooks memo bucket (list.mapM f) := by
  induction list with
  | nil => exact overlooks_pure _
  | cons a rest ih =>
    rw [List.mapM_cons]
    refine overlooks_bind (h a List.mem_cons_self) fun b => ?_
    exact overlooks_bind (ih fun other hm => h other (List.mem_cons_of_mem _ hm)) fun _ =>
      overlooks_pure _

/-- An action for each element of a list, some of which give a result. -/
theorem overlooks_filterMapM {f : α → Action (Option β)} {list : List α}
    (h : ∀ a ∈ list, Overlooks memo bucket (f a)) : Overlooks memo bucket (list.filterMapM f) := by
  induction list with
  | nil => exact overlooks_pure _
  | cons a rest ih =>
    rw [List.filterMapM_cons]
    have hrest := ih fun other hm => h other (List.mem_cons_of_mem _ hm)
    refine overlooks_bind (h a List.mem_cons_self) fun found => ?_
    cases found with
    | none => exact hrest
    | some b => exact overlooks_bind hrest fun _ => overlooks_pure _

end Action

namespace Site

open VersionedContent.Action

variable {memo : UsageMemo → UsageMemo} {bucket : Nat → Nat}

/-- A version is looked up in the store. -/
theorem overlooks_version (id : Id) : Overlooks memo bucket (version id) :=
  overlooks_bind (overlooks_query _) fun _ => overlooks_orNotFound _ _ _

/-- A branch is looked up in the store. -/
theorem overlooks_branch (id : Id) : Overlooks memo bucket (branch id) :=
  overlooks_bind (overlooks_query _) fun _ => overlooks_orNotFound _ _ _

/-- A job is looked up in the store. -/
theorem overlooks_job (id : Id) : Overlooks memo bucket (job id) :=
  overlooks_bind (overlooks_query _) fun _ => overlooks_orNotFound _ _ _

/-- Links are followed in the store. -/
theorem overlooks_stepsTo (target : Id) (fuel : Nat) (start : Option Id) :
    Overlooks memo bucket (stepsTo .ample target fuel start) := by
  induction fuel generalizing start with
  | zero => cases start <;> exact overlooks_pure _
  | succ fuel ih =>
    cases start with
    | none => exact overlooks_pure _
    | some id =>
      rw [stepsTo]
      refine overlooks_bind (overlooks_version id) fun step => ?_
      split
      · exact overlooks_pure _
      · exact overlooks_bind (ih step.next) fun _ => overlooks_pure _

/-- The versions between two others are found in the store. -/
theorem overlooks_versionsBetween (source target : Version) :
    Overlooks memo bucket (versionsBetween source target) := by
  unfold versionsBetween
  dsimp only
  split
  · exact overlooks_throw_bind _ _
  · split
    · exact overlooks_pure _
    · refine overlooks_bind (overlooks_query _) fun size => ?_
      refine overlooks_bind (overlooks_stepsTo target.id _ _) fun steps => ?_
      cases steps with
      | none => exact overlooks_throw _
      | some steps => exact overlooks_pure _

/-- A version is compiled and kept apart from what is overlooked. -/
theorem overlooks_compiledAt (key : CacheKey) : Overlooks memo bucket (compiledAt key) := by
  intro site
  have hcompile (found : Version) : Overlooks memo bucket (compileAs key found) := by
    unfold compileAs
    cases Compiled.ofVersion found with
    | error issues => exact overlooks_throw _
    | ok compiled => exact fun _ => rfl
  have hfind : Overlooks memo bucket (findVersion key.kind key.name key.number) :=
    overlooks_bind (overlooks_query _) fun _ => overlooks_orNotFound _ _ _
  unfold OverlooksAt compiledAt
  rw [outcome_bind_of_ok (outcome_get site), outcome_bind_of_ok (outcome_get _),
    show (site.beside memo bucket).cache = site.cache from rfl]
  cases site.cache.get? key with
  | some compiled => rfl
  | none => exact overlooks_bind hfind hcompile site

/-- Planning looks at versions only. -/
theorem overlooks_plan (kind : Kind) (sourceId targetId : Id) :
    Overlooks memo bucket (plan kind sourceId targetId) := by
  unfold plan
  refine overlooks_bind (overlooks_version sourceId) fun source => ?_
  refine overlooks_bind (overlooks_version targetId) fun target => ?_
  dsimp only
  split
  · exact overlooks_throw_bind _ _
  · refine overlooks_bind (overlooks_versionsBetween source target) fun steps => ?_
    refine overlooks_bind (overlooks_compiledAt (.ofVersion source)) fun _ => ?_
    exact overlooks_bind (overlooks_compiledAt (.ofVersion target)) fun _ => overlooks_pure _

/-- A container is moved whatever is kept beside. -/
theorem overlooks_migrateContainer (plan : MigrationPlan) (edge : Edge) (container : Container) :
    Overlooks memo bucket (migrateContainer plan edge container) := by
  unfold migrateContainer
  split
  · exact overlooks_pure _
  · cases plan.successorFields container with
    | error error => exact overlooks_pure _
    | ok fields =>
      refine overlooks_bind (fun _ => rfl) fun id => ?_
      refine overlooks_bind overlooks_now fun createdAt => ?_
      refine overlooks_bind (fun site => OverlooksAt.attempt ?_) fun committed => ?_
      · exact overlooks_unlessOut (overlooks_transact _) _ _ site
      · rcases committed with failure | committed
        · cases failure <;> exact overlooks_pure _
        · cases committed with
          | true => exact overlooks_bind (fun _ => rfl) fun _ => overlooks_pure _
          | false => exact overlooks_pure _

/-- A branch is stored whatever is kept beside. -/
theorem overlooks_upsertBranch (branch : Branch) : Overlooks memo bucket (upsertBranch branch) :=
  overlooks_unlessOut (overlooks_transact _) _ _

/-- An edge is copied whatever is kept beside. -/
theorem overlooks_copyEdge (branchId : Id) (edge : Edge) :
    Overlooks memo bucket (copyEdge branchId edge) := by
  unfold copyEdge
  dsimp only
  refine overlooks_bind (overlooks_query _) fun found => ?_
  split
  · exact overlooks_unlessOut (overlooks_transact _) _ _
  · exact overlooks_pure _

/-- A history is gone back along whatever is kept beside. -/
theorem overlooks_purgeHistory (before : Option Instant) (fuel : Nat) (start : Option Id) :
    Overlooks memo bucket (purgeHistory .ample before fuel start) := by
  induction fuel generalizing start with
  | zero => cases start <;> exact overlooks_pure _
  | succ fuel ih =>
    cases start with
    | none => exact overlooks_pure _
    | some id =>
      rw [purgeHistory]
      refine overlooks_bind (overlooks_query _) fun found => ?_
      cases found with
      | none => exact overlooks_pure _
      | some container =>
        dsimp only
        have hrest := ih container.previous
        split
        · refine overlooks_bind (overlooks_query _) fun referenced => ?_
          split
          · exact overlooks_bind (overlooks_unlessOut (overlooks_transact _) _ _) fun _ => hrest
          · exact hrest
        · exact hrest

/-- The containers behind an edge are taken out whatever is kept beside. -/
theorem overlooks_purgeBehind (before : Option Instant) (edge : Edge) :
    Overlooks memo bucket (purgeBehind before edge) := by
  intro site
  unfold OverlooksAt purgeBehind
  rw [outcome_bind_of_ok (outcome_get site), outcome_bind_of_ok (outcome_get _),
    show (site.beside memo bucket).store = site.store from rfl]
  dsimp only
  cases site.store.container? edge.containerId with
  | none => rfl
  | some head => exact overlooks_purgeHistory before _ _ site

/-- The next job is started whatever is kept beside. -/
theorem overlooks_claimNext : Overlooks memo bucket claimNext :=
  overlooks_bind overlooks_now fun _ => overlooks_unlessOut (overlooks_transact _) _ _

/-- A job is ended whatever is kept beside. -/
theorem overlooks_finish (id : Id) (status : JobStatus) (error : Option JobError) :
    Overlooks memo bucket (finish id status error) := by
  unfold finish
  refine overlooks_bind overlooks_now fun stoppedAt => ?_
  refine overlooks_bind (overlooks_unlessOut (overlooks_transact _) _ _) fun finished => ?_
  cases finished with
  | some job => exact overlooks_pure _
  | none => exact overlooks_bind (overlooks_job id) fun _ => overlooks_throw _

/-- Usage hashes are forgotten, and the end of a job is announced, whatever the bucket size. -/
theorem overlooks_announce (job : Job) : Overlooks id bucket (announce job) := by
  unfold announce
  cases job.kind.branchId? with
  | none => exact fun _ => rfl
  | some branchId =>
    dsimp only
    split
    · exact fun _ => rfl
    · exact fun _ => rfl

end Site

end VersionedContent

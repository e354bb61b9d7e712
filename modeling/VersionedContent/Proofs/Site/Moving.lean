import VersionedContent.Proofs.Site.Finish
import VersionedContent.Proofs.Site.Sweep

/-!
# What a migration comes to

A migration plans its way first. Planning looks at versions only, and may keep
some compiled. If there is a plan, and the branch is stored, the content of the
branch is moved according to it; otherwise the migration fails and changes no
record.
-/

namespace VersionedContent

namespace Store

variable {store : Store} {branchId : Id} {heir : EdgeKey → Option Container}

/-- What a migration answers with, given what planning came to. -/
def migrationAnswer (store : Store) (branchId : Id) :
    Except Failure MigrationPlan → Except Failure (List ContainerError)
  | .error failure => .error failure
  | .ok plan =>
    match store.branch? branchId with
    | none => .error (.notFound "branch" branchId)
    | some _ => .ok ((store.contentOf plan.source.kind plan.source.id branchId).filterMap
        plan.report?)

/-- Which heirs a migration leaves, given what planning came to. -/
inductive Bequeathed (store : Store) (branchId : Id) (heir : EdgeKey → Option Container) :
    Except Failure MigrationPlan → Prop
  /-- Without a plan there are no heirs. -/
  | unplanned (failure : Failure) (none : ∀ key, heir key = none) :
      Bequeathed store branchId heir (.error failure)
  /-- Without the branch there are no heirs. -/
  | unfound (plan : MigrationPlan) (missing : store.branch? branchId = none)
      (none : ∀ key, heir key = none) : Bequeathed store branchId heir (.ok plan)
  /-- The content of the branch that follows the source has the heirs that the plan makes. -/
  | moved (plan : MigrationPlan) (found : store.branch? branchId ≠ none)
      (kept : ∀ key, key ∉ (store.contentOf plan.source.kind plan.source.id branchId).map
        (fun entry => entry.1.key) → heir key = none)
      (heirs : ∀ entry ∈ store.contentOf plan.source.kind plan.source.id branchId,
        plan.Heir entry.2 (heir entry.1.key)) : Bequeathed store branchId heir (.ok plan)

/-- Only edges of the branch get heirs. -/
theorem Bequeathed.eq_none {planned : Except Failure MigrationPlan}
    (h : store.Bequeathed branchId heir planned) {key : EdgeKey} (hk : key.branchId ≠ branchId) :
    heir key = none := by
  cases h with
  | unplanned failure hnone => exact hnone key
  | unfound plan missing hnone => exact hnone key
  | moved plan found kept heirs =>
    refine kept key fun hm => ?_
    obtain ⟨entry, he, rfl⟩ := List.mem_map.mp hm
    exact hk (Store.mem_contentOf.mp he).2.1

end Store

namespace Site

open VersionedContent.Action

variable {site : Site}

/-- Whether a site differs from another one in what it keeps compiled only. -/
def Recached (site next : Site) : Prop := next = { site with cache := next.cache }

instance : Std.Refl Recached := ⟨fun _ => rfl⟩

instance : IsTrans Site Recached where
  trans a b c hab hbc := by
    unfold Recached at hab hbc ⊢
    rw [hbc, hab]

/-- Planning keeps versions compiled, and does no more; a plan is one for the kind, and its target
is a version that has been given out. -/
theorem recached_plan (h : Sound site) (kind : Kind) (sourceId targetId : Id) :
    Recached site (outcome (plan kind sourceId targetId) site).2 ∧
      ∀ found, (outcome (plan kind sourceId targetId) site).1 = .ok found →
        found.source.kind = kind ∧ site.issued.versions.IsPast found.target.id := by
  have hplan := within_plan (I := Steady site.store.versions site.issued.versions) (R := Recached)
    (P := fun _ found => site.issued.versions.IsPast found.id)
    (fun other _ _ hi _ _ _ => ⟨⟨hi.outages, hi.versions, hi.issued, hi.housed⟩, rfl⟩)
    (fun other hi id found hf => hi.isPast_of_version? h.chained.fresh hf) kind sourceId targetId
  obtain ⟨-, hrecached, hfound⟩ := hplan site h.steady
  exact ⟨hrecached, fun found hf => ⟨(hfound found hf).2.2, (hfound found hf).2.1⟩⟩

/-- A migration is planned, and moves the content of its branch. -/
theorem execute_migration (kind : Kind) (branchId source target : Id) :
    execute (.migration kind branchId source target) =
      (do migrateBranchContent branchId (← plan kind source target)) := by
  cases kind <;> rfl

/-- A plan is carried out: the content of the branch gets its heirs, if the branch is stored. -/
theorem outcome_migrateBranchContent_or {versions : Table Version Version.id} {given : Series}
    (hi : Steady versions given site) (hb : 0 < site.bucketSize) {plan : MigrationPlan}
    (hp : given.IsPast plan.target.id) (branchId : Id) :
    ∃ next heir, outcome (migrateBranchContent branchId plan) site =
        (site.store.migrationAnswer branchId (.ok plan), next) ∧
      Steady versions given next ∧ site.store.Succeeded next.store heir ∧
      site.store.Bequeathed branchId heir (.ok plan) := by
  unfold Store.migrationAnswer
  dsimp only
  cases hfound : site.store.branch? branchId with
  | none =>
    refine ⟨site, fun _ => none, ?_, hi, .refl site.store, .unfound plan hfound fun _ => rfl⟩
    unfold migrateBranchContent branch
    rw [bind_assoc, outcome_bind_of_ok (outcome_query _ site), hfound]
    rfl
  | some found =>
    obtain ⟨next, heir, hrun, hnext, hs, hkept, hheirs⟩ :=
      outcome_migrateBranchContent hp hi hb hfound
    exact ⟨next, heir, hrun, hnext, hs, .moved plan (by simp [hfound]) hkept hheirs⟩

/-- What a migration comes to: its answer, and the heirs that it leaves. -/
theorem outcome_execute_migration (h : Sound site) (kind : Kind) (branchId source target : Id) :
    ∃ executed heir, outcome (execute (.migration kind branchId source target)) site =
        (site.store.migrationAnswer branchId (outcome (plan kind source target) site).1,
          executed) ∧
      site.store.Succeeded executed.store heir ∧
      site.store.Bequeathed branchId heir (outcome (plan kind source target) site).1 := by
  obtain ⟨hrecached, hfound⟩ := recached_plan h kind source target
  rcases hplan : outcome (plan kind source target) site with ⟨answer, planned⟩
  rw [hplan] at hrecached hfound
  obtain ⟨cache, rfl⟩ : ∃ cache, planned = { site with cache := cache } := ⟨_, hrecached⟩
  rw [execute_migration]
  cases answer with
  | error failure =>
    exact ⟨_, fun _ => none, outcome_bind_of_error hplan _, .refl site.store,
      .unplanned failure fun _ => rfl⟩
  | ok found =>
    have hsteady : Steady site.store.versions site.issued.versions
        { site with cache := cache } := ⟨h.outages, rfl, rfl, h.housed⟩
    obtain ⟨executed, heir, hrun, -, hs, hheirs⟩ := outcome_migrateBranchContent_or hsteady
      h.bucketSize (hfound found rfl).2 branchId
    exact ⟨executed, heir, (outcome_bind_of_ok hplan _).trans hrun, hs, hheirs⟩

end Site

end VersionedContent

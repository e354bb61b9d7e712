import VersionedContent.Proofs.Site.Moving
import VersionedContent.Proofs.Site.Purge
import VersionedContent.Proofs.Site.Resting

/-!
# How far jobs reach

A job that works on a branch sets edges of that branch only and takes out no
container; a purge takes out containers and sets no edge. This is so for any job,
whether it has started or not, and whether it fails or not.
-/

namespace VersionedContent.Site

open VersionedContent.Action

variable {site : Site}

/-- Whether edges have changed on one branch at most, and containers have gone only if it was not
on a branch that something changed. -/
structure Confines (touched : Option Id) (site next : Site) : Prop where
  /-- The edges of other branches are the same. -/
  edges : ∀ key : EdgeKey, touched ≠ some key.branchId →
    next.store.edge? key = site.store.edge? key
  /-- Work on a branch leaves every container. -/
  kept : touched ≠ none → ∀ id, site.store.container? id ≠ none → next.store.container? id ≠ none

instance (touched : Option Id) : Std.Refl (Confines touched) :=
  ⟨fun _ => ⟨fun _ _ => rfl, fun _ _ h => h⟩⟩

instance (touched : Option Id) : IsTrans Site (Confines touched) where
  trans _ _ _ hab hbc :=
    ⟨fun key hk => (hbc.edges key hk).trans (hab.edges key hk),
      fun ht id hid => hbc.kept ht id (hab.kept ht id hid)⟩

/-- What leaves containers and edges alone is confined to any branch. -/
theorem Rests.confines {next : Site} (h : Rests site next) (touched : Option Id) :
    Confines touched site next where
  edges key _ := by rw [Store.edge?, h.edges, Store.edge?]
  kept _ id hid := by rwa [Store.container?, h.containers]

/-- What leaves containers and edges alone may be done in work on any branch. -/
theorem Resting.confined {α : Type} {action : Action α} (h : Resting action)
    (touched : Option Id) :
    Within (fun site => site.outages = []) (Confines touched) (fun _ => True) action := by
  intro site ho
  obtain ⟨hnext, hrests, ha⟩ := h site ho
  exact ⟨hnext, hrests.confines touched, ha⟩

/-- Setting an edge is confined to its key. -/
theorem outcome_setEdge (ho : site.outages = []) (edge : Edge) :
    ∃ answer next, outcome (setEdge edge) site = (answer, next) ∧ next.outages = [] ∧
      next.store.containers = site.store.containers ∧
      ∀ key, key ≠ edge.key → next.store.edge? key = site.store.edge? key := by
  unfold setEdge
  rw [outcome_unlessOut ho, outcome_transact, Store.outcome_setEdge]
  split_ifs
  · refine ⟨_, _, rfl, ho, rfl, fun key hk => ?_⟩
    exact (site.store.edges.find?_insert edge key).trans (if_neg hk)
  · exact ⟨_, _, rfl, ho, rfl, fun _ _ => rfl⟩

/-- Edges of a branch may be set in work on it. -/
theorem confined_setEdge (edge : Edge) :
    Within (fun site => site.outages = []) (Confines (some edge.branchId)) (fun _ => True)
      (setEdge edge) := by
  intro site ho
  obtain ⟨answer, next, hset, hnext, hc, he⟩ := outcome_setEdge ho edge
  rw [hset]
  refine ⟨hnext, ⟨fun key hk => he key ?_, fun _ id hid => ?_⟩, fun _ _ => trivial⟩
  · rintro rfl
    exact hk rfl
  · rwa [Store.container?, hc]

/-- Copying the edges of a base is confined to the new branch. -/
theorem confined_copyBaseBranch (branchId : Id) :
    Within (fun site => site.outages = []) (Confines (some branchId)) (fun _ => True)
      (copyBaseBranch branchId) :=
  within_copyBase (fun edge he => he ▸ confined_setEdge edge)
    (within_bind (within_branch branchId) fun _ _ => (resting_upsertBranch _).confined _)

/-- A migration is confined to its branch. -/
theorem confines_migration (h : Sound site) (kind : Kind) (branchId source target : Id) :
    Confines (some branchId) site
      (outcome (execute (.migration kind branchId source target)) site).2 := by
  obtain ⟨executed, heir, hrun, hs, hheirs⟩ :=
    outcome_execute_migration h kind branchId source target
  rw [hrun]
  refine ⟨fun key hk => hs.edge?_eq (hheirs.eq_none fun he => hk (by rw [he])), fun _ id hid => ?_⟩
  obtain ⟨container, hc⟩ := Option.ne_none_iff_exists'.mp hid
  obtain ⟨links, hl, -⟩ := hs.kept id container hc
  simp [hl]

/-- A site at which a purge may begin. -/
theorem Sound.purging (h : Sound site) {issued : Series} (hh : site.store.Historied issued) :
    Purging site.store issued site where
  outages := h.outages
  bucketSize := h.bucketSize
  pruned := .refl h.housed.held
  historied := hh

/-- Where migrations, copying the edges of a base and taking out containers lead, executing a job
leads. -/
theorem Sound.leads_execute {R : Site → Site → Prop} [Std.Refl R] [IsTrans Site R]
    (h : Sound site) {issued : Series} (hh : site.store.Historied issued) (kind : JobKind)
    (hmigration : ∀ start, Sound start → ∀ schemaKind branchId source target,
      kind.branchId? = some branchId →
        R start (outcome (execute (.migration schemaKind branchId source target)) start).2)
    (hcopy : ∀ branchId, kind.branchId? = some branchId →
      R site (outcome (copyBaseBranch branchId) site).2)
    (hpurge : kind.branchId? = none → ∀ next : Store,
      next = { site.store with containers := next.containers } →
        R site { site with store := next }) :
    R site (outcome (execute kind) site).2 := by
  cases kind with
  | schema branchId source target => exact hmigration site h .schema branchId source target rfl
  | microschema branchId source target =>
    exact hmigration site h .microschema branchId source target rfl
  | branch branchId source target =>
    have hcopies := hcopy branchId rfl
    obtain ⟨hsteady, hworks, -⟩ := @within_copyBaseBranch _ _ (· = branchId) branchId rfl site
      h.steady
    have hcopied := h.of_works hsteady hworks
    rcases hrun : outcome (copyBaseBranch branchId) site with ⟨failure | _, copied⟩
    · rw [hrun] at hcopies
      rw [show outcome (execute (.branch branchId source target)) site = _ from
        outcome_bind_of_error hrun _]
      exact hcopies
    · rw [hrun] at hcopies hcopied
      rw [show outcome (execute (.branch branchId source target)) site = _ from
        outcome_bind_of_ok hrun _]
      cases source with
      | none => exact hcopies
      | some source =>
        cases target with
        | none => exact hcopies
        | some target =>
          exact IsTrans.trans _ _ _ hcopies
            (hmigration copied hcopied .schema branchId source target rfl)
  | versionPurge projectId before =>
    obtain ⟨_, next, hrun, hnext, -⟩ := purges_purgeVersions before hh projectId site (h.purging hh)
    rw [show outcome (execute (.versionPurge projectId before)) site = _ from
      outcome_bind_of_ok hrun _]
    exact hpurge rfl next hnext.pruned.aside

/-- A job is confined to its branch, or sets no edge. -/
theorem confines_execute (h : Sound site) {issued : Series} (hh : site.store.Historied issued)
    (kind : JobKind) : Confines kind.branchId? site (outcome (execute kind) site).2 := by
  refine h.leads_execute hh kind (fun start hs schemaKind branchId source target hb => ?_)
    (fun branchId hb => ?_) fun hb next haside => ?_
  · rw [hb]
    exact confines_migration hs schemaKind branchId source target
  · rw [hb]
    exact ((confined_copyBaseBranch branchId).leads h.outages).2
  · rw [hb]
    refine ⟨fun key _ => ?_, fun hn => absurd rfl hn⟩
    change next.edge? key = site.store.edge? key
    rw [haside]
    rfl

/-- Running a job, started or not, is confined to its branch, or sets no edge. -/
theorem confines_process (h : Sound site) {issued : Series} (hh : site.store.Historied issued)
    (job : Job) : Confines job.kind.branchId? site (outcome (process job) site).2 := by
  have hexecute := confines_execute h hh job.kind
  have ho := (within_execute h.chained.fresh job.kind site h.steady).1.outages
  rw [process_eq, outcome_bind_of_ok (outcome_attempt _ _)]
  exact IsTrans.trans _ _ _ hexecute
    (Resting.confined (within_record resting_logs job _ _) _ _ ho).2.1

end VersionedContent.Site

import VersionedContent.Proofs.Site.Buckets
import VersionedContent.Proofs.Site.Confining

/-!
# What calls do to branches

A call creates a branch, or pins a version on one, or leaves the branches as they
are but for marking some as migrated; none is ever taken out. `Tends` says so of
any call, and what holds of branches over many calls is read off it.
-/

namespace VersionedContent

/-- A branch apart from whether the content of its base has been copied. -/
def Branch.settled (branch : Branch) : Branch := { branch with migrated := true }

namespace Site

open VersionedContent.Action

variable {site : Site}

/-- Whether the branches are the same, apart from which of them have been migrated. -/
def Settles (site next : Site) : Prop :=
  ∀ id, (next.store.branch? id).map Branch.settled = (site.store.branch? id).map Branch.settled

instance : Std.Refl Settles := ⟨fun _ _ => rfl⟩

instance : IsTrans Site Settles where
  trans _ _ _ hab hbc id := (hbc id).trans (hab id)

/-- With the same table of branches, the branches are the same. -/
theorem Settles.of_branches_eq {next : Site} (h : next.store.branches = site.store.branches) :
    Settles site next := by
  intro id
  rw [Store.branch?, h, Store.branch?]

/-- Whether an action leaves the branches the same while no outage is planned. -/
abbrev Settling {α : Type} (action : Action α) : Prop :=
  Within (fun site => site.outages = []) Settles (fun _ => True) action

/-- Calls on the log leave the branches the same. -/
theorem settling_logs : Logs (fun site => site.outages = []) Settles :=
  logs_of_aside fun _ _ hs _ _ => .of_branches_eq (by rw [hs])

/-- Versions may be compiled by their places. -/
theorem settling_compiledAt (key : CacheKey) : Settling (compiledAt key) :=
  within_compiledAt (fun _ _ _ ho _ _ _ => ⟨ho, .of_branches_eq rfl⟩) key

/-- Usage hashes may be computed. -/
theorem settling_computeHash (versionId branchId : Id) (replacements : Dict Id) :
    Settling (computeHash versionId branchId replacements) :=
  within_computeHash (fun _ _ ho => ⟨ho, .of_branches_eq rfl⟩) versionId branchId replacements

/-- Edges may be set. -/
theorem settling_setEdge (edge : Edge) : Settling (setEdge edge) := by
  refine within_unlessOut (fun _ ho => ho) fun site ho => ?_
  rw [outcome_transact, Store.outcome_setEdge]
  split <;> exact ⟨ho, .of_branches_eq rfl, fun _ _ => trivial⟩

/-- Content may be added. -/
theorem settling_addContent (branchId nodeId : Id) (language : String) (schemaVersionId : Id)
    (fields : FieldMap) (types : List ContainerType) :
    Settling (addContent branchId nodeId language schemaVersionId fields types) := by
  refine within_addContent (fun site container ho _ _ _ _ stored hstored => ?_)
    fun edge _ => settling_setEdge edge
  rw [hstored]
  exact ⟨ho, .of_branches_eq rfl⟩

/-- A branch may be marked migrated. -/
theorem settling_markMigrated (branchId : Id) :
    Settling (do upsertBranch { ← branch branchId with migrated := true }) := by
  intro site ho
  cases hb : site.store.branch? branchId with
  | none =>
    obtain ⟨failure, hmissing⟩ := outcome_branch_of_none hb
    rw [outcome_bind_of_error hmissing]
    exact ⟨ho, refl site, fun _ _ => trivial⟩
  | some current =>
    obtain ⟨-, rfl⟩ := site.store.branches.find?_eq_some_iff.mp hb
    rw [outcome_bind_of_ok (outcome_branch hb), outcome_upsertBranch ho]
    refine ⟨ho, fun id => ?_, fun _ _ => trivial⟩
    have hfind := site.store.branches.find?_insert { current with migrated := true } id
    change ((site.store.branches.insert { current with migrated := true }).find? id).map _ = _
    rw [hfind]
    split
    · next he =>
      rw [he, hb]
      rfl
    · rfl

/-- A migration leaves the branches alone. -/
theorem settles_migration (h : Sound site) (kind : Kind) (branchId source target : Id) :
    Settles site (outcome (execute (.migration kind branchId source target)) site).2 := by
  obtain ⟨executed, heir, hrun, hs, -⟩ := outcome_execute_migration h kind branchId source target
  rw [hrun]
  exact .of_branches_eq hs.branches

/-- A job marks a branch migrated at most. -/
theorem Workable.settles_execute (h : Workable site) (kind : JobKind) :
    Settles site (outcome (execute kind) site).2 := by
  refine h.sound.leads_execute h.historied kind
    (fun _ hs schemaKind branchId source target _ =>
      settles_migration hs schemaKind branchId source target)
    (fun branchId _ => ?_) fun _ next haside => .of_branches_eq (congrArg Store.branches haside :)
  exact ((within_copyBase (fun edge _ => settling_setEdge edge)
    (settling_markMigrated branchId)).leads h.sound.outages).2

/-- A job may be run. -/
theorem Workable.settles_process (h : Workable site) (job : Job) :
    Settles site (outcome (process job) site).2 := by
  have ho := (h.of_harmless (harmless_execute job.kind)).sound.outages
  rw [process_eq, outcome_bind_of_ok (outcome_attempt _ _)]
  exact IsTrans.trans _ _ _ (h.settles_execute job.kind)
    ((within_record settling_logs job _ _).leads ho).2

/-- The next job may be started where jobs may be executed. -/
theorem settled_claimNext : Within Workable Settles (fun _ => True) claimNext :=
  fun _ h => ⟨h.of_harmless (within_claimNext harmless_logs),
    ((within_claimNext settling_logs).leads h.sound.outages).2, fun _ _ => trivial⟩

/-- A job may be run where jobs may be executed. -/
theorem settled_process (job : Job) : Within Workable Settles (fun _ => True) (process job) :=
  fun _ h => ⟨h.of_harmless (harmless_process job), h.settles_process job, fun _ _ => trivial⟩

namespace Call

/-- The branch that a call creates, if it does. -/
def founds (site : Site) : Call → List Branch
  | createBranch projectId name baseId =>
    match (outcome (Site.createBranch projectId name baseId) site).1 with
    | .ok (branch, _) => [branch]
    | .error _ => []
  | _ => []

/-- Whether a call pins a version. -/
def isPinning : Call → Bool
  | assign _ _ _ _ => true
  | assignLatest _ _ _ => true
  | _ => false

/-- Whether a call pins a version on a branch with force. -/
def Forces (branchId : Id) : Call → Prop
  | assign _ id _ force => id = branchId ∧ force = true
  | _ => False

end Call

/-- What a call may do to the branches of a site. -/
inductive Tends (site : Site) : Call → Site → Prop
  /-- They stay as they are, apart from which of them have been migrated. -/
  | settles {call : Call} {next : Site} (none : call.founds site = [])
      (same : Settles site next) : Tends site call next
  /-- A version is pinned on one of them. -/
  | pins {call : Call} {next : Site} {branchId : Id} {force : Bool} {branch : Branch}
      {version : Version} {former : Option Version} (none : call.founds site = [])
      (pinning : call.isPinning = true) (forces : force = true → call.Forces branchId)
      (may : site.MayPin branchId force branch version former)
      (stored : next.store.branches = site.store.branches.insert (branch.pin version)) :
      Tends site call next
  /-- One is added to a project, under a name that is free there and without a base only if it is
  the first. -/
  | creates {projectId : Id} {name : String} {baseId : Option Id} {branch : Branch}
      (founds : (Call.createBranch projectId name baseId).founds site = [branch])
      (new : Newborn site projectId name baseId branch)
      (free : ∀ other ∈ site.store.branches.rows, other.projectId = projectId → other.name ≠ name)
      (first : baseId = none → ∀ other ∈ site.store.branches.rows, other.projectId ≠ projectId) :
      Tends site (.createBranch projectId name baseId) (site.creating projectId branch baseId)

/-- The branches of a project are listed. -/
theorem mem_listBranches {store : Store} {projectId : Id} {branch : Branch} :
    branch ∈ store.listBranches (some projectId) ↔
      branch ∈ store.branches.rows ∧ branch.projectId = projectId := by
  rw [Store.listBranches, List.mem_mergeSort, List.mem_filter]
  simp [eq_comm]

/-- A branch is created only under a name that is free in its project, and without a base only as
the first. -/
theorem free_of_outcome_createBranch {projectId : Id} {name : String} {baseId : Option Id}
    {answer : Branch × Option Job} {next : Site}
    (h : outcome (createBranch projectId name baseId) site = (.ok answer, next)) :
    (∀ other ∈ site.store.branches.rows, other.projectId = projectId → other.name ≠ name) ∧
      (baseId = none → ∀ other ∈ site.store.branches.rows, other.projectId ≠ projectId) := by
  unfold createBranch at h
  cases hname : (Text.trim name).isEmpty with
  | true =>
    simp only [hname, ite_true] at h
    cases h
  | false =>
    simp only [hname, Bool.false_eq_true, ite_false] at h
    rw [outcome_bind_of_ok (outcome_query _ site)] at h
    cases hfree : (site.store.listBranches (some projectId)).any fun other => other.name = name with
    | true =>
      simp only [hfree, ite_true] at h
      cases h
    | false =>
      refine ⟨fun other hm hp he => ?_, ?_⟩
      · have hlisted := List.any_eq_false.mp hfree other (mem_listBranches.mpr ⟨hm, hp⟩)
        exact hlisted (decide_eq_true he)
      · rintro rfl other hm hp
        have hsome : (site.store.listBranches (some projectId)).isEmpty = false :=
          List.isEmpty_eq_false_iff.mpr (List.ne_nil_of_mem (mem_listBranches.mpr ⟨hm, hp⟩))
        simp only [hfree, Bool.false_eq_true, ite_false, newBranch, hsome, Bool.not_false,
          ite_true] at h
        cases h

/-- Creating a branch adds one or leaves the branches as they are. -/
theorem tends_createBranch (ho : site.outages = []) (projectId : Id) (name : String)
    (baseId : Option Id) :
    Tends site (.createBranch projectId name baseId)
      ((Call.createBranch projectId name baseId).after site) := by
  rw [Call.after]
  rcases outcome_createBranch ho projectId name baseId with ⟨failure, hf⟩ | ⟨branch, job, hnew, hc⟩
  · rw [hf]
    exact .settles (by rw [Call.founds, hf]) (refl site)
  · obtain ⟨hfree, hfirst⟩ := free_of_outcome_createBranch hc
    rw [hc]
    exact .creates (by rw [Call.founds, hc]) hnew hfree hfirst

/-- Pinning a version moves one pin at most. -/
theorem Sound.tends_pinVersion (h : Sound site) {call : Call} {branchId : Id} {requested : Version}
    {force : Bool} (hn : call.founds site = []) (hp : call.isPinning = true)
    (hf : force = true → call.Forces branchId) :
    Tends site call (outcome (pinVersion branchId requested force) site).2 := by
  rcases outcome_pinVersion site branchId requested force with
    ⟨answer, hkept⟩ | ⟨branch, version, former, -, hmay, hmoved⟩
  · rw [hkept]
    exact .settles hn (refl site)
  · rw [hmoved]
    have hmoves := repin_spec h hmay.found hmay.stored former
    refine .pins hn hp hf hmay ?_
    generalize (outcome (repin branchId branch version former) site).2.store = next at hmoves ⊢
    cases hmoves <;> rfl

/-- What any call does to the branches of a reachable site. -/
theorem Reachable.tends (h : Reachable site) (call : Call) : Tends site call (call.after site) := by
  have ho := h.sound.outages
  have hworkable : Workable site := ⟨h.sound, h.historied⟩
  have hregisters {next : Site} (hr : Registers site next) : Settles site next :=
    .of_branches_eq (by rw [hr.store.eq])
  cases call with
  | createSchema kind definition =>
    exact .settles rfl (hregisters (registers_createSchema ho kind definition))
  | updateSchema kind name definition renames expected =>
    exact .settles rfl
      (hregisters (registers_updateSchema ho kind name definition renames expected))
  | createVersion kind definition renames =>
    exact .settles rfl (hregisters (registers_createVersion ho kind definition renames))
  | compiledAt key => exact .settles rfl ((settling_compiledAt key).leads ho).2
  | compiledForVersion version =>
    obtain ⟨cache, hcached⟩ := outcome_compiledForVersion version site
    refine .settles rfl ?_
    rw [Call.after, hcached]
    exact .of_branches_eq rfl
  | invalidateCompiled key => exact .settles rfl (.of_branches_eq rfl)
  | clearCompiled => exact .settles rfl (.of_branches_eq rfl)
  | createBranch projectId name baseId => exact tends_createBranch ho projectId name baseId
  | assign kind branchId version force =>
    rw [Call.after]
    rcases outcome_assignOfKind kind branchId version force site with ⟨answer, hkept⟩ | hpins
    · rw [hkept]
      exact .settles rfl (refl site)
    · rw [hpins]
      exact h.sound.tends_pinVersion rfl rfl fun hf => ⟨rfl, hf⟩
  | assignLatest branchId kind name =>
    rw [Call.after]
    rcases outcome_assignLatest branchId kind name site with ⟨answer, hkept⟩ | ⟨latest, -, hpins⟩
    · rw [hkept]
      exact .settles rfl (refl site)
    · rw [hpins]
      exact h.sound.tends_pinVersion rfl rfl fun hf => by cases hf
  | migrateRemaining branchId kind =>
    exact .settles rfl ((within_migrateRemaining settling_logs branchId kind).leads ho).2
  | computeHash versionId branchId replacements =>
    exact .settles rfl ((settling_computeHash versionId branchId replacements).leads ho).2
  | enqueue kind => exact .settles rfl ((settling_logs.enqueue kind none).leads ho).2
  | claimNext => exact .settles rfl ((within_claimNext settling_logs).leads ho).2
  | complete id =>
    exact .settles rfl ((within_finish settling_logs id .completed none).leads ho).2
  | fail id error =>
    exact .settles rfl ((within_finish settling_logs id .failed (some error)).leads ho).2
  | retry id => exact .settles rfl ((within_retry settling_logs id).leads ho).2
  | deleteJob id => exact .settles rfl ((within_deleteJob settling_logs id).leads ho).2
  | purgeFailed => exact .settles rfl ((within_purgeFailed settling_logs).leads ho).2
  | clearJobs => exact .settles rfl ((within_clearJobs settling_logs).leads ho).2
  | process job => exact .settles rfl (hworkable.settles_process job)
  | runPending =>
    exact .settles rfl ((within_runPending settled_claimNext settled_process).leads hworkable).2
  | runWorker guard settings =>
    exact .settles rfl ((within_runWorker (within_poll settled_claimNext settled_process guard)
      settings).leads hworkable).2
  | setEdge edge => exact .settles rfl ((settling_setEdge edge).leads ho).2
  | addContent branchId nodeId language schemaVersionId fields types =>
    exact .settles rfl ((settling_addContent branchId nodeId language schemaVersionId fields
      types).leads ho).2

end Site

end VersionedContent

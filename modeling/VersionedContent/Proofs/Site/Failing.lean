import VersionedContent.Proofs.Site.Pinning
import VersionedContent.Proofs.Site.QueueCalls
import VersionedContent.Proofs.Site.Queueing
import VersionedContent.Proofs.Site.Reach
import VersionedContent.Proofs.Store.Checks

/-!
# Calls that fail

Several calls write a branch or a job and then go on to look things up: a pin is
stored before the content below it is counted, and one job is queued before the
next chain is walked. On a sound site nothing of what they look up then is
missing, so that what follows a first write answers; what can fail comes before it.
So a call that fails has written no record.
-/

namespace VersionedContent.Site

open VersionedContent.Action

variable {α β : Type} {site : Site}

/-- Whether an action leaves all records as they are if it fails. -/
def Careful (site : Site) (action : Action α) : Prop :=
  ∀ failure, (outcome action site).1 = .error failure →
    (outcome action site).2.store = site.store

/-- An action that answers is careful. -/
theorem Careful.of_answer {action : Action α} {a : α} {next : Site}
    (h : outcome action site = (.ok a, next)) : Careful site action := by
  intro failure hf
  rw [h] at hf
  cases hf

/-- An action that writes no record is careful. -/
theorem Careful.of_store_eq {action : Action α} (h : (outcome action site).2.store = site.store) :
    Careful site action :=
  fun _ _ => h

/-- What follows an action that has written no record is to be careful. -/
theorem Careful.bind {first : Action α} {f : α → Action β} {a : α} {next : Site}
    (h : outcome first site = (.ok a, next)) (hs : next.store = site.store)
    (hf : Careful next (f a)) : Careful site (first >>= f) := by
  intro failure he
  rw [outcome_bind_of_ok h] at he ⊢
  rw [hf failure he, hs]

/-- Nothing follows an action that fails, so it alone is to be careful. -/
theorem Careful.bind_of_error {first : Action α} {failure : Failure} {next : Site}
    (h : outcome first site = (.error failure, next)) (hs : next.store = site.store)
    (f : α → Action β) : Careful site (first >>= f) :=
  .of_store_eq (by rw [outcome_bind_of_error h, hs])

/-- A schema is created, or nothing is. -/
theorem careful_createSchema (ho : site.outages = []) (kind : Kind) (definition : Definition) :
    Careful site (createSchema kind definition) := by
  unfold createSchema
  obtain ⟨answer, hc, -⟩ := outcome_checkDefinition ho kind definition
  cases answer with
  | error failure => exact .bind_of_error hc rfl _
  | ok _ =>
    refine .bind hc rfl (.bind (outcome_rootVersion? ho kind definition.name) rfl ?_)
    cases site.store.rootVersion? kind definition.name with
    | some root => exact .of_store_eq rfl
    | none =>
      refine .bind (outcome_nextVersionId site) rfl (.bind (outcome_now site) rfl ?_)
      have happend := @outcome_appendVersion_of_root (ticked site) ho
        (.root site.issued.versions.next (site.clock.reading site.clock.reads)
          kind definition) rfl
      by_cases hfree : site.store.chainVersions kind definition.name = []
      · exact .of_answer (outcome_bind_of_ok (happend.trans (if_pos hfree)) _)
      · exact .bind (happend.trans (if_neg hfree)) rfl (.of_store_eq rfl)

/-- The latest version of a chain gets a successor, or nothing is written. -/
theorem careful_succeed (ho : site.outages = []) {kind : Kind} {name : String} {latest : Version}
    (hl : site.store.latestVersion? kind name = some latest) (definition : Definition)
    (renames : List Rename) :
    Careful site (succeed kind name latest definition renames) := by
  unfold succeed
  obtain ⟨hm, -, -, hnext⟩ := of_latestVersion? hl
  obtain ⟨answer, hc, -⟩ := outcome_checkDefinition ho kind definition
  cases answer with
  | error failure => exact .bind_of_error hc rfl _
  | ok _ =>
    refine .bind hc rfl ?_
    cases latest.definition.difference definition renames with
    | error fault => exact .of_store_eq rfl
    | ok changes =>
      cases changes with
      | nil => exact .of_store_eq rfl
      | cons change rest =>
        refine .bind (outcome_nextVersionId site) rfl (.bind (outcome_now site) rfl ?_)
        have happend := @outcome_appendVersion_of_successor (ticked site) ho
          (latest.successor site.issued.versions.next
            (site.clock.reading site.clock.reads) definition (change :: rest)) latest rfl hm hnext
        exact .of_answer (outcome_bind_of_ok happend _)

/-- A schema is updated, or nothing is. -/
theorem careful_updateSchema (ho : site.outages = []) (kind : Kind) (name : String)
    (definition : Definition) (renames : List Rename) (expected : Option Nat) :
    Careful site (updateSchema kind name definition renames expected) := by
  unfold updateSchema
  by_cases hname : definition.name = name
  · simp only [hname, ne_eq, not_true_eq_false, ite_false]
    refine .bind (outcome_query _ site) rfl ?_
    cases hl : site.store.latestVersion? kind name with
    | none => exact .of_store_eq rfl
    | some latest =>
      refine .bind (outcome_orNotFound_some _ _ latest site) rfl ?_
      have hsucceed := careful_succeed ho hl definition renames
      cases expected with
      | none => exact hsucceed
      | some number =>
        by_cases he : number = latest.number
        · simp only [he, not_true_eq_false, ite_false]
          exact hsucceed
        · simp only [he, not_false_eq_true, ite_true]
          exact .of_store_eq rfl
  · simp only [ne_eq, hname, not_false_eq_true, ite_true]
    exact .of_store_eq rfl

/-- A version is created, or nothing is. -/
theorem careful_createVersion (ho : site.outages = []) (kind : Kind) (definition : Definition)
    (renames : List Rename) : Careful site (createVersion kind definition renames) := by
  unfold createVersion
  refine .bind (outcome_query _ site) rfl ?_
  cases site.store.latestVersion? kind definition.name with
  | some latest => exact careful_updateSchema ho kind latest.name definition renames none
  | none =>
    by_cases hr : renames.isEmpty = true
    · simp only [hr, ite_true]
      exact careful_createSchema ho kind definition
    · simp only [hr, Bool.false_eq_true, ite_false]
      exact .of_store_eq rfl

/-- A branch is created, or nothing is. -/
theorem careful_createBranch (ho : site.outages = []) (projectId : Id) (name : String)
    (baseId : Option Id) : Careful site (createBranch projectId name baseId) := by
  rcases outcome_createBranch ho projectId name baseId with ⟨failure, hf⟩ | ⟨branch, job, -, hc⟩
  · exact .of_store_eq (by rw [hf])
  · exact .of_answer hc

/-- A pin that may move is stored, and nothing fails after that. -/
theorem outcome_repin_ok (h : Sound site) {branchId : Id} {branch : Branch}
    (hb : site.store.branch? branchId = some branch) {version : Version}
    (hv : version ∈ site.store.versions.rows) (former : Option Version) :
    ∃ job next, outcome (repin branchId branch version former) site = (.ok job, next) := by
  obtain ⟨pinned, hsound, -, ho⟩ := outcome_repin h hb hv former
  rcases outcome_queueBelow hsound branchId version former with
    ⟨_, _, _, _, job, hq, _⟩ | ⟨-, hq⟩
  · exact ⟨_, _, ho.trans hq⟩
  · exact ⟨_, _, ho.trans hq⟩

/-- A version is pinned with all that follows, or nothing is written. -/
theorem careful_pinVersion (h : Sound site) (branchId : Id) (requested : Version) (force : Bool) :
    Careful site (pinVersion branchId requested force) := by
  rcases outcome_pinVersion site branchId requested force with
    ⟨answer, hkept⟩ | ⟨branch, version, former, -, hmay, hmoved⟩
  · exact .of_store_eq (by rw [hkept])
  · obtain ⟨job, next, hrepin⟩ := outcome_repin_ok h hmay.found hmay.stored former
    exact .of_answer (hmoved.trans hrepin)

/-- A version of a kind is pinned with all that follows, or nothing is written. -/
theorem careful_assignOfKind (h : Sound site) (kind : Kind) (branchId : Id) (version : Version)
    (force : Bool) : Careful site (assignOfKind kind branchId version force) := by
  intro failure hf
  rcases outcome_assignOfKind kind branchId version force site with ⟨answer, ho⟩ | ho
  · rw [ho]
  · rw [ho] at hf ⊢
    exact careful_pinVersion h branchId version force failure hf

/-- The latest version of a chain is pinned with all that follows, or nothing is written. -/
theorem careful_assignLatest (h : Sound site) (branchId : Id) (kind : Kind) (name : String) :
    Careful site (assignLatest branchId kind name) := by
  intro failure hf
  rcases outcome_assignLatest branchId kind name site with ⟨answer, ho⟩ | ⟨latest, -, ho⟩
  · rw [ho]
  · rw [ho] at hf ⊢
    exact careful_pinVersion h branchId latest false failure hf

/-- Jobs for all content behind the pins of a branch are queued, or none is. -/
theorem careful_migrateRemaining (h : Sound site) (branchId : Id) (kind : Kind) :
    Careful site (migrateRemaining branchId kind) := by
  by_cases hb : site.store.branch? branchId = none
  · obtain ⟨failure, hrun⟩ := outcome_migrateRemaining_of_none hb kind
    exact .of_store_eq (by rw [hrun])
  · obtain ⟨jobs, next, hrun, -⟩ := outcome_migrateRemaining h hb kind
    exact .of_answer hrun

/-- A failed job is queued again, or nothing is. -/
theorem careful_retry (h : Sound site) (id : Id) : Careful site (retry id) := by
  obtain ⟨answer, hjob⟩ : ∃ answer, outcome (job id) site = (answer, site) :=
    ⟨_, outcome_job id site⟩
  unfold retry
  cases answer with
  | error failure => exact .bind_of_error hjob rfl _
  | ok failed =>
    refine .bind hjob rfl ?_
    by_cases hs : failed.status = .failed
    · simp only [hs, ne_eq, not_true_eq_false, ite_false]
      exact .of_answer (outcome_enqueueJob h.outages _ _)
    · simp only [hs, ne_eq, not_false_eq_true, ite_true]
      exact .of_store_eq rfl

/-- A job is dropped, or nothing is. -/
theorem careful_deleteJob (id : Id) : Careful site (deleteJob id) := by
  have hdelete := outcome_transact (Store.deleteJob id) site
  unfold deleteJob
  cases Store.goes_deleteJob id site.store with
  | fails failure _ hleft =>
    rw [hleft] at hdelete
    exact .bind_of_error hdelete rfl _
  | declines answer _ hno hleft =>
    obtain ⟨failure, hbusy⟩ := outcome_job_throw Unit id
      (fun current => .conflict (.jobBusy current.id current.status)) site
    rw [hleft, hno] at hdelete
    exact .bind hdelete rfl (.of_store_eq (congrArg (·.2.store) hbusy))
  | taken answer next _ hyes hleft =>
    rw [hleft, Bool.eq_true_of_not_eq_false hyes] at hdelete
    exact .of_answer (outcome_bind_of_ok hdelete _)

/-- All jobs are dropped, or none is. -/
theorem careful_clearJobs : Careful site clearJobs := by
  have hclear := outcome_transact Store.clearJobs site
  unfold clearJobs
  cases Store.goes_clearJobs site.store with
  | fails failure _ hleft =>
    rw [hleft] at hclear
    exact .bind_of_error hclear rfl _
  | declines answer _ hno hleft =>
    rw [hleft, hno] at hclear
    exact .bind hclear rfl (.of_store_eq rfl)
  | taken answer next _ hyes hleft =>
    obtain ⟨count, rfl⟩ := Option.ne_none_iff_exists'.mp hyes
    rw [hleft] at hclear
    exact .of_answer (outcome_bind_of_ok hclear _)

/-- On every reachable site, a call that edits schemas, branches, pins or the log of jobs and fails
leaves all versions, branches, jobs, containers and edges as they are. -/
theorem Reachable.failed_calls_careful (h : Reachable site) :
    (∀ kind definition, Careful site (createSchema kind definition)) ∧
    (∀ kind name definition renames expected,
      Careful site (updateSchema kind name definition renames expected)) ∧
    (∀ kind definition renames, Careful site (createVersion kind definition renames)) ∧
    (∀ projectId name baseId, Careful site (createBranch projectId name baseId)) ∧
    (∀ kind branchId version force, Careful site (assignOfKind kind branchId version force)) ∧
    (∀ branchId version force, Careful site (assign branchId version force)) ∧
    (∀ branchId kind name, Careful site (assignLatest branchId kind name)) ∧
    (∀ branchId kind, Careful site (migrateRemaining branchId kind)) ∧
    (∀ id, Careful site (retry id)) ∧
    (∀ id, Careful site (deleteJob id)) ∧
    Careful site clearJobs := by
  have hsound := h.sound
  have ho := hsound.outages
  exact ⟨careful_createSchema ho, careful_updateSchema ho, careful_createVersion ho,
    careful_createBranch ho, careful_assignOfKind hsound,
    fun branchId version => careful_assignOfKind hsound version.kind branchId version,
    careful_assignLatest hsound, careful_migrateRemaining hsound, careful_retry hsound,
    careful_deleteJob, careful_clearJobs⟩

/-- An older version is not pinned again without force, and the log is not cleared while a job runs;
neither writes anything. -/
theorem careful_of_older_version :
    let titled (fields : List FieldSpec) : Definition :=
      { name := "article", fields := { name := "title", type := .string } :: fields }
    let calls : List Call :=
      [.createSchema .schema (titled []), .createBranch "p1" "main" none,
        .assignLatest "@b1" .schema "article",
        .addContent "@b1" "n1" "en" "@v1" [("title", .string "Hello")] [.draft],
        .updateSchema .schema "article" (titled [{ name := "lead", type := .string }]) [] none,
        .assignLatest "@b1" .schema "article", .claimNext]
    let site := Call.afterAll (.empty (.ticking ⟨0, 0⟩) 10 10) calls
    ∃ first ∈ site.store.versions.rows, first.number = 1 ∧
      (outcome (assign "@b1" first false) site).1.mapError Failure.message =
        .error "conflict: schema 'article' version 1 is not ahead of version 2" ∧
      (outcome (assign "@b1" first false) site).2.store = site.store ∧
      (outcome clearJobs site).1.mapError Failure.message =
        .error "conflict: cannot clear the job queue while a job is running" ∧
      (outcome clearJobs site).2.store = site.store := by
  intro titled calls site
  have hreached : Reachable site :=
    (Managed.calls (.empty (.ticking ⟨0, 0⟩) 10 10) (by decide +kernel)).reachable
  obtain ⟨-, -, -, -, -, hassign, -, -, -, -, hclear⟩ := hreached.failed_calls_careful
  have hkept {α : Type} {action : Action α} (hc : Careful site action) {text : String}
      (ht : (outcome action site).1.mapError Failure.message = .error text) :
      (outcome action site).2.store = site.store := by
    cases ha : (outcome action site).1 with
    | error failure => exact hc failure ha
    | ok a =>
      rw [ha] at ht
      cases ht
  let first := site.store.versions.rows.head (by decide +kernel)
  have hbehind : (outcome (assign "@b1" first false) site).1.mapError Failure.message =
      .error "conflict: schema 'article' version 1 is not ahead of version 2" := by decide +kernel
  have hbusy : (outcome clearJobs site).1.mapError Failure.message =
      .error "conflict: cannot clear the job queue while a job is running" := by decide +kernel
  exact ⟨first, @List.head_mem _ site.store.versions.rows (by decide +kernel), by decide +kernel,
    hbehind, hkept (hassign "@b1" first false) hbehind, hbusy, hkept hclear hbusy⟩

end VersionedContent.Site

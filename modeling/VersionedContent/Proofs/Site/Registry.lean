import VersionedContent.Proofs.Site.Cache

/-!
# What the registry does

A call of the registry leaves all versions as they are, or adds one to a chain
after checking it; whether it fails or not, it does nothing else to the records.
-/

namespace VersionedContent.Site

open VersionedContent.Action

/-- The first version of a chain is looked up without touching the site. -/
theorem outcome_rootVersion? {site : Site} (ho : site.outages = []) (kind : Kind) (name : String) :
    outcome (rootVersion? kind name) site = (.ok (site.store.rootVersion? kind name), site) := by
  rw [rootVersion?, outcome_unlessOut ho, outcome_query]

/-- The identifier of the next version. -/
theorem outcome_nextVersionId (site : Site) :
    outcome nextVersionId site = (.ok site.issued.versions.next, site) := rfl

/-- A first version is stored when its chain is empty. -/
theorem outcome_appendVersion_of_root {site : Site} (ho : site.outages = []) (version : Version)
    (hp : version.previous = none) :
    outcome (appendVersion version) site =
      if site.store.chainVersions version.kind version.name = [] then
        (.ok true, { site with
          store := { site.store with versions := site.store.versions.insert version } })
      else (.ok false, site) := by
  rw [appendVersion, outcome_unlessOut ho, outcome_transact, Store.outcome_appendVersion_of_root hp]
  split <;> rfl

/-- A successor is stored when the version before it has none. -/
theorem outcome_appendVersion_of_successor {site : Site} (ho : site.outages = [])
    (version : Version) {latest : Version} (hp : version.previous = some latest.id)
    (hl : latest ∈ site.store.versions.rows) (hn : latest.next = none) :
    outcome (appendVersion version) site =
      (.ok true, { site with
        store := { site.store with
          versions := (site.store.versions.insert { latest with next := some version.id }).insert
            version } }) := by
  have hf : site.store.version? latest.id = some latest :=
    Store.version?_eq_some_iff.mpr ⟨hl, rfl⟩
  rw [appendVersion, outcome_unlessOut ho, outcome_transact,
    Store.outcome_appendVersion_of_successor hp, hf]
  simp [hn, Except.mapError]

/-- A loop of checks that leave the site alone passes only when each check passes. -/
theorem outcome_forIn_check {α : Type} {check : α → PUnit → Action (ForInStep PUnit)}
    {P : α → Prop} {site : Site}
    (hc : ∀ a, ∃ answer, outcome (check a ⟨⟩) site = (answer, site) ∧
      ∀ next, answer = .ok next → next = .yield ⟨⟩ ∧ P a) (list : List α) :
    ∃ answer, outcome (forIn list PUnit.unit check) site = (answer, site) ∧
      (answer = .ok ⟨⟩ → ∀ a ∈ list, P a) := by
  induction list with
  | nil => exact ⟨_, rfl, by simp⟩
  | cons a rest ih =>
    obtain ⟨answer, ha, hok⟩ := hc a
    rw [List.forIn_cons]
    cases answer with
    | error failure =>
      refine ⟨_, outcome_bind_of_error ha _, ?_⟩
      rintro ⟨⟩
    | ok next =>
      obtain ⟨rfl, hp⟩ := hok _ rfl
      obtain ⟨answer, hr, hrest⟩ := ih
      refine ⟨answer, (outcome_bind_of_ok ha _).trans hr, fun he b hb => ?_⟩
      rcases List.mem_cons.mp hb with rfl | hb
      · exact hp
      · exact hrest he b hb

/-- A definition passes only without issues and with microschemas that exist. -/
theorem outcome_checkDefinition {site : Site} (ho : site.outages = []) (kind : Kind)
    (definition : Definition) :
    ∃ answer, outcome (checkDefinition kind definition) site = (answer, site) ∧
      (answer = .ok () → definition.issues kind = [] ∧
        ∀ name ∈ definition.microschemaReferences,
          (site.store.rootVersion? .microschema name).isSome = true) := by
  unfold checkDefinition
  cases hi : definition.issues kind with
  | cons issue rest =>
    refine ⟨_, rfl, ?_⟩
    rintro ⟨⟩
  | nil =>
    dsimp only
    obtain ⟨answer, ha, hok⟩ := @outcome_forIn_check _
      (fun name _ => do
        let root ← rootVersion? .microschema name
        if root.isNone = true then do
          throw (.validation (.unknownMicroschema kind definition.name name))
          pure (.yield ⟨⟩)
        else pure (.yield ⟨⟩))
      (fun name => (site.store.rootVersion? .microschema name).isSome = true) site (fun name => by
          rw [outcome_bind, outcome_rootVersion? ho]
          dsimp only
          cases site.store.rootVersion? .microschema name with
          | none => exact ⟨_, rfl, fun next h => by cases h⟩
          | some root => exact ⟨_, rfl, fun next h => by cases h; exact ⟨rfl, rfl⟩⟩)
      definition.microschemaReferences
    cases answer with
    | error failure =>
      refine ⟨_, outcome_bind_of_error ha _, ?_⟩
      rintro ⟨⟩
    | ok _ => exact ⟨_, outcome_bind_of_ok ha _, fun _ => ⟨rfl, hok rfl⟩⟩

/-- What a call of the registry does to a site. -/
structure Registers (site next : Site) : Prop where
  /-- At most one version is added. -/
  store : site.store.Extends site.issued.versions next.store next.issued.versions
  /-- No other identifier is given out. -/
  issued : next.issued = { site.issued with versions := next.issued.versions }
  /-- No outage is planned. -/
  outages : next.outages = site.outages
  /-- Jobs go on to handle as much at a time. -/
  bucketSize : next.bucketSize = site.bucketSize
  /-- No more is kept compiled. -/
  cache : ∀ entry ∈ next.cache, entry ∈ site.cache

/-- A site with the same records, identifiers, outages and bucket size, that keeps the same
compiled. -/
theorem Registers.same {site next : Site} (hs : next.store = site.store)
    (hi : next.issued = site.issued) (ho : next.outages = site.outages)
    (hb : next.bucketSize = site.bucketSize) (hc : next.cache = site.cache) :
    Registers site next where
  store := by
    rw [hs, hi]
    exact .same
  issued := by rw [hi]
  outages := ho
  bucketSize := hb
  cache := by simp [hc]

/-- A chain with a first version is not empty. -/
theorem chainVersions_ne_nil_of_root {store : Store} {kind : Kind} {name : String}
    (h : (store.rootVersion? kind name).isSome = true) : store.chainVersions kind name ≠ [] := by
  intro he
  rw [Store.rootVersion?, he] at h
  cases h

/-- Creating a schema begins a chain at most. -/
theorem registers_createSchema {site : Site} (ho : site.outages = []) (kind : Kind)
    (definition : Definition) :
    Registers site (outcome (createSchema kind definition) site).2 := by
  unfold createSchema
  obtain ⟨answer, hc, hok⟩ := outcome_checkDefinition ho kind definition
  cases answer with
  | error failure =>
    rw [outcome_bind_of_error hc]
    exact .same rfl rfl rfl rfl rfl
  | ok _ =>
    obtain ⟨valid, referenced⟩ := hok rfl
    rw [outcome_bind_of_ok hc, outcome_bind_of_ok (outcome_rootVersion? ho kind definition.name)]
    cases site.store.rootVersion? kind definition.name with
    | some root => exact .same rfl rfl rfl rfl rfl
    | none =>
      dsimp only
      simp only [Option.isSome_none, Bool.false_eq_true, ite_false]
      rw [outcome_bind_of_ok (outcome_nextVersionId site), outcome_bind_of_ok (outcome_now site)]
      have happend := @outcome_appendVersion_of_root (ticked site) ho
        (.root site.issued.versions.next (site.clock.reading site.clock.reads)
          kind definition) rfl
      by_cases hfree : site.store.chainVersions kind definition.name = []
      · rw [outcome_bind_of_ok (happend.trans (if_pos hfree))]
        exact {
          store := .root valid
            (fun name hm => chainVersions_ne_nil_of_root (referenced name hm)) hfree
          issued := rfl
          outages := rfl
          bucketSize := rfl
          cache := fun _ hm => mem_of_mem_invalidate hm }
      · rw [outcome_bind_of_ok (happend.trans (if_neg hfree))]
        exact .same rfl rfl rfl rfl rfl

/-- A latest version is stored and has no successor. -/
theorem of_latestVersion? {store : Store} {kind : Kind} {name : String} {latest : Version}
    (h : store.latestVersion? kind name = some latest) :
    latest ∈ store.versions.rows ∧ latest.kind = kind ∧ latest.name = name ∧
      latest.next = none := by
  have hl := List.find?_some h
  obtain ⟨hm, hk, hn⟩ := Store.mem_chainVersions.mp (List.mem_of_find?_eq_some h)
  exact ⟨hm, hk, hn, by simpa [Version.isLatest] using hl⟩

/-- What an update does once the latest version is known to be the one expected. -/
def succeed (kind : Kind) (name : String) (latest : Version) (definition : Definition)
    (renames : List Rename) : Action Version := do
  checkDefinition kind definition
  match Definition.difference latest.definition definition renames with
  | .error fault => throw (.validation (.difference fault))
  | .ok [] => throw (.validation (.unchanged kind name latest.number))
  | .ok changes =>
    let version := latest.successor (← nextVersionId) (← Action.now) definition changes
    if !(← appendVersion version) then throw (.conflict (.superseded kind name latest.number))
    countVersion
    invalidateCompiled (.ofVersion version)
    return version

/-- The latest version gets a successor at most. -/
theorem registers_succeed {site : Site} (ho : site.outages = []) {kind : Kind}
    {latest : Version} {definition : Definition} (renames : List Rename)
    (hl : site.store.latestVersion? kind definition.name = some latest) :
    Registers site (outcome (succeed kind definition.name latest definition renames) site).2 := by
  unfold succeed
  obtain ⟨hm, hk, hn, hnext⟩ := of_latestVersion? hl
  obtain ⟨answer, hc, hok⟩ := outcome_checkDefinition ho kind definition
  cases answer with
  | error failure =>
    rw [outcome_bind_of_error hc]
    exact .same rfl rfl rfl rfl rfl
  | ok _ =>
    obtain ⟨valid, referenced⟩ := hok rfl
    rw [outcome_bind_of_ok hc]
    cases hd : latest.definition.difference definition renames with
    | error fault => exact .same rfl rfl rfl rfl rfl
    | ok changes =>
      cases changes with
      | nil => exact .same rfl rfl rfl rfl rfl
      | cons change rest =>
        have happend := @outcome_appendVersion_of_successor (ticked site) ho
          (latest.successor site.issued.versions.next
            (site.clock.reading site.clock.reads) definition (change :: rest)) latest rfl hm hnext
        rw [outcome_bind_of_ok (outcome_nextVersionId site), outcome_bind_of_ok (outcome_now site),
          outcome_bind_of_ok happend]
        exact {
          store := .successor hl rfl valid
            (fun name hm => chainVersions_ne_nil_of_root (referenced name hm)) hd
          issued := rfl
          outages := rfl
          bucketSize := rfl
          cache := fun _ hm => mem_of_mem_invalidate hm }

/-- Updating a schema goes on with a chain at most. -/
theorem registers_updateSchema {site : Site} (ho : site.outages = []) (kind : Kind)
    (name : String) (definition : Definition) (renames : List Rename) (expected : Option Nat) :
    Registers site (outcome (updateSchema kind name definition renames expected) site).2 := by
  unfold updateSchema
  by_cases hname : definition.name = name
  · subst hname
    simp only [ne_eq, not_true_eq_false, ite_false]
    rw [outcome_bind_of_ok (outcome_query _ site)]
    cases hl : site.store.latestVersion? kind definition.name with
    | none => exact .same rfl rfl rfl rfl rfl
    | some latest =>
      rw [outcome_bind_of_ok (outcome_orNotFound_some _ _ latest site)]
      have hsucceed := registers_succeed ho renames hl
      cases expected with
      | none => exact hsucceed
      | some number =>
        by_cases he : number = latest.number
        · simp only [he, not_true_eq_false, ite_false]
          exact hsucceed
        · simp only [he, not_false_eq_true, ite_true]
          exact .same rfl rfl rfl rfl rfl
  · simp only [ne_eq, hname, not_false_eq_true, ite_true]
    exact .same rfl rfl rfl rfl rfl

/-- Creating a version begins a chain or goes on with one. -/
theorem registers_createVersion {site : Site} (ho : site.outages = []) (kind : Kind)
    (definition : Definition) (renames : List Rename) :
    Registers site (outcome (createVersion kind definition renames) site).2 := by
  unfold createVersion
  rw [outcome_bind_of_ok (outcome_query _ site)]
  cases site.store.latestVersion? kind definition.name with
  | some latest => exact registers_updateSchema ho kind latest.name definition renames none
  | none =>
    by_cases hr : renames.isEmpty = true
    · simp only [hr, ite_true]
      exact registers_createSchema ho kind definition
    · simp only [hr, Bool.false_eq_true, ite_false]
      exact .same rfl rfl rfl rfl rfl

end VersionedContent.Site

import VersionedContent.Proofs.Site.Buckets

/-!
# The memo of usage hashes

The memo is looked up without looking at what a branch pins. That is right as long
as every hash in it is the one of a stored version on a stored branch. A call other
than one that computes a hash adds none, and what it forgets covers every branch
whose microschemas it pins anew; versions keep their definitions. So a hash that is
remembered is the one that would be computed now.
-/

namespace VersionedContent

/-- The usage hash depends on the definition of the version and on the microschemas that the branch
pins. -/
theorem usageHash_congr {version other : Version} {branch later : Branch}
    (hd : other.definition = version.definition)
    (hp : later.microschemaVersions = branch.microschemaVersions) (replacements : Dict Id) :
    usageHash other later replacements = usageHash version branch replacements := by
  unfold usageHash usageText resolvedReferences
  rw [hd, hp]

namespace Site

open VersionedContent.Action

variable {site : Site}

/-- Whether nothing new is remembered, and every branch that something is remembered of pins the
microschemas that it pinned. -/
structure Recalls (site next : Site) : Prop where
  /-- What is remembered was remembered before. -/
  memo : ∀ entry ∈ next.memo, entry ∈ site.memo
  /-- The branches it is about pin the same microschemas. -/
  pins : ∀ entry ∈ next.memo, ∀ branch, site.store.branch? entry.1.branchId = some branch →
    ∃ later, next.store.branch? entry.1.branchId = some later ∧
      later.microschemaVersions = branch.microschemaVersions

instance : Std.Refl Recalls := ⟨fun _ => ⟨fun _ => id, fun _ _ branch hb => ⟨branch, hb, rfl⟩⟩⟩

instance : IsTrans Site Recalls where
  trans _ _ _ hab hbc := {
    memo := fun entry hm => hab.memo entry (hbc.memo entry hm)
    pins := fun entry hm branch hb => by
      obtain ⟨between, hbetween, hfirst⟩ := hab.pins entry (hbc.memo entry hm) branch hb
      obtain ⟨later, hlater, hsecond⟩ := hbc.pins entry hm between hbetween
      exact ⟨later, hlater, hsecond.trans hfirst⟩ }

/-- Hashes may be forgotten while the branches stay as they are. -/
theorem Recalls.of_branches_eq {next : Site} (hb : next.store.branches = site.store.branches)
    (hm : ∀ entry ∈ next.memo, entry ∈ site.memo) : Recalls site next where
  memo := hm
  pins entry _ branch hfound := ⟨branch, by rwa [Store.branch?, hb], rfl⟩

/-- Branches that pin what they pinned are recalled. -/
theorem Recalls.of_pins_eq {next : Site}
    (hp : ∀ id, (next.store.branch? id).map Branch.pins = (site.store.branch? id).map Branch.pins)
    (hm : next.memo = site.memo) : Recalls site next where
  memo _ := by simp [hm]
  pins entry _ branch hfound := by
    have hpins := hp entry.1.branchId
    rw [hfound, Option.map_some] at hpins
    obtain ⟨later, hlater, he⟩ := Option.map_eq_some_iff.mp hpins
    exact ⟨later, hlater, congrFun he .microschema⟩

/-- Whether an action goes by what is remembered while no outage is planned. -/
abbrev Recalling {α : Type} (action : Action α) : Prop :=
  Within (fun site => site.outages = []) Recalls (fun _ => True) action

/-- A transaction that leaves the branches as they are may be carried out. -/
theorem recalling_transact {α : Type} {transaction : Transaction α}
    (h : ∀ store, (outcome transaction store).2.branches = store.branches) :
    Recalling (transact transaction) := by
  intro site ho
  rw [outcome_transact]
  exact ⟨ho, .of_branches_eq (h site.store) fun _ => id, fun _ _ => trivial⟩

/-- Calls on the log forget at most. -/
theorem recalling_logs : Logs (fun site => site.outages = []) Recalls :=
  logs_of_aside fun _ _ hs _ hm => .of_branches_eq (by rw [hs]) hm

/-- A checked version may be stored. -/
theorem recalling_appendVersion (version : Version) : Recalling (appendVersion version) := by
  refine within_unlessOut (fun _ ho => ho) (recalling_transact fun store => ?_)
  cases hp : version.previous with
  | none =>
    rw [Store.outcome_appendVersion_of_root hp]
    split <;> rfl
  | some id =>
    rw [Store.outcome_appendVersion_of_successor hp]
    cases store.version? id with
    | none => rfl
    | some previous =>
      dsimp only
      split <;> rfl

/-- A version is stored unless the store declines, and nothing is kept compiled at its place. -/
theorem recalling_store (version : Version) (declined : Failure) : Recalling (do
    if !(← appendVersion version) then throw declined
    countVersion
    invalidateCompiled (.ofVersion version)
    return version) := by
  refine within_bind (recalling_appendVersion version) fun stored _ => ?_
  cases stored with
  | false => exact within_throw_bind _ _
  | true => exact fun site ho => ⟨ho, .of_branches_eq rfl fun _ => id, fun _ _ => trivial⟩

/-- A definition may be checked. -/
theorem recalling_checkDefinition (kind : Kind) (definition : Definition) :
    Recalling (checkDefinition kind definition) := by
  intro site ho
  obtain ⟨answer, hchecked, -⟩ := outcome_checkDefinition ho kind definition
  rw [hchecked]
  exact ⟨ho, refl site, fun _ _ => trivial⟩

/-- A new version gets the next identifier. -/
theorem recalling_nextVersionId : Recalling nextVersionId :=
  fun site ho => ⟨ho, refl site, fun _ _ => trivial⟩

/-- Schemas may be created. -/
theorem recalling_createSchema (kind : Kind) (definition : Definition) :
    Recalling (createSchema kind definition) := by
  unfold createSchema
  refine within_bind (recalling_checkDefinition kind definition) fun _ _ => ?_
  refine within_bind (P := fun _ => True)
    (within_unlessOut (fun _ ho => ho) (within_query fun _ _ => trivial)) fun root _ => ?_
  dsimp only
  split
  · exact within_throw_bind _ _
  · refine within_bind recalling_nextVersionId fun id _ => ?_
    exact within_bind recalling_logs.clock fun createdAt _ => recalling_store _ _

/-- The latest version of a chain may get a successor. -/
theorem recalling_succeed (kind : Kind) (name : String) (latest : Version)
    (definition : Definition) (renames : List Rename) :
    Recalling (succeed kind name latest definition renames) := by
  unfold succeed
  refine within_bind (recalling_checkDefinition kind definition) fun _ _ => ?_
  cases Definition.difference latest.definition definition renames with
  | error fault => exact within_throw _
  | ok changes =>
    cases changes with
    | nil => exact within_throw _
    | cons change rest =>
      refine within_bind recalling_nextVersionId fun id _ => ?_
      exact within_bind recalling_logs.clock fun createdAt _ => recalling_store _ _

/-- Schemas may be updated. -/
theorem recalling_updateSchema (kind : Kind) (name : String) (definition : Definition)
    (renames : List Rename) (expected : Option Nat) :
    Recalling (updateSchema kind name definition renames expected) := by
  unfold updateSchema
  dsimp only
  split
  · exact within_throw_bind _ _
  · refine within_bind (P := fun _ => True) (within_query fun _ _ => trivial) fun found _ => ?_
    refine within_bind (within_orNotFound (P := fun _ => True) fun _ _ => trivial)
      fun latest _ => ?_
    have hsucceed := recalling_succeed kind name latest definition renames
    cases expected with
    | none => exact hsucceed
    | some number =>
      dsimp only
      split
      · exact within_throw_bind _ _
      · exact hsucceed

/-- Versions may be created. -/
theorem recalling_createVersion (kind : Kind) (definition : Definition) (renames : List Rename) :
    Recalling (createVersion kind definition renames) := by
  unfold createVersion
  refine within_bind (P := fun _ => True) (within_query fun _ _ => trivial) fun found _ => ?_
  cases found with
  | some latest => exact recalling_updateSchema kind latest.name definition renames none
  | none =>
    dsimp only
    split
    · exact recalling_createSchema kind definition
    · exact within_throw _

/-- Versions may be compiled by their places. -/
theorem recalling_compiledAt (key : CacheKey) : Recalling (compiledAt key) :=
  within_compiledAt (fun _ _ _ ho _ _ _ => ⟨ho, .of_branches_eq rfl fun _ => id⟩) key

/-- A branch that pins another microschema is forgotten, and pinning a schema is of no account. -/
theorem recalls_repin (ho : site.outages = []) {branchId : Id} {branch : Branch}
    (hb : site.store.branch? branchId = some branch) (version : Version)
    (former : Option Version) :
    (outcome (repin branchId branch version former) site).2.outages = [] ∧
      Recalls site (outcome (repin branchId branch version former) site).2 := by
  obtain ⟨-, hid⟩ := site.store.branches.find?_eq_some_iff.mp hb
  have hfind (id : Id) : (site.store.branches.insert (branch.pin version)).find? id =
      if id = branchId then some (branch.pin version) else site.store.branch? id := by
    rw [site.store.branches.find?_insert (branch.pin version) id, branch.pin_id, hid]
    rfl
  have hqueue (next : Site) (hnext : next.outages = []) (hr : Recalls site next) :
      (outcome (queueBelow branchId version former) next).2.outages = [] ∧
        Recalls site (outcome (queueBelow branchId version former) next).2 := by
    obtain ⟨hlast, hrest⟩ := (within_queueBelow recalling_logs branchId version former).leads hnext
    exact ⟨hlast, IsTrans.trans _ _ _ hr hrest⟩
  unfold repin
  rw [outcome_bind_of_ok (outcome_upsertBranch ho (branch.pin version))]
  cases hk : version.kind with
  | microschema =>
    -- The branch pins something new, and no hash of it is left.
    refine hqueue { site with
      store := { site.store with branches := site.store.branches.insert (branch.pin version) }
      memo := site.memo.forget branchId } ho ⟨fun entry hm => List.mem_of_mem_filter hm, ?_⟩
    intro entry hm other hother
    have hne : entry.1.branchId ≠ branchId := by simpa using (List.mem_filter.mp hm).2
    exact ⟨other, (hfind _).trans ((if_neg hne).trans hother), rfl⟩
  | schema =>
    refine hqueue { site with
      store := { site.store with branches := site.store.branches.insert (branch.pin version) } }
      ho ⟨fun _ => id, ?_⟩
    intro entry _ other hother
    by_cases he : entry.1.branchId = branchId
    · rw [he, hb] at hother
      obtain rfl := Option.some.inj hother
      exact ⟨_, (hfind _).trans (if_pos he), by simp [Branch.pin, hk]⟩
    · exact ⟨other, (hfind _).trans ((if_neg he).trans hother), rfl⟩

/-- Versions may be pinned. -/
theorem recalling_pinVersion (branchId : Id) (requested : Version) (force : Bool) :
    Recalling (pinVersion branchId requested force) := by
  intro site ho
  rcases outcome_pinVersion site branchId requested force with
    ⟨answer, hkept⟩ | ⟨branch, version, former, -, hmay, hmoved⟩
  · rw [hkept]
    exact ⟨ho, refl site, fun _ _ => trivial⟩
  · rw [hmoved]
    obtain ⟨hnext, hrecalls⟩ := recalls_repin ho hmay.found version former
    exact ⟨hnext, hrecalls, fun _ _ => trivial⟩

/-- A branch that is new is one that nothing is remembered of. -/
theorem recalls_createBranch (ho : site.outages = [])
    (hfree : site.store.branch? site.issued.branches.next = none) (projectId : Id)
    (name : String) (baseId : Option Id) :
    Recalls site (outcome (createBranch projectId name baseId) site).2 := by
  rcases outcome_createBranch ho projectId name baseId with ⟨failure, hf⟩ | ⟨branch, job, hnew, hc⟩
  · rw [hf]
    exact refl site
  · have hgrown : Recalls site (site.growing projectId branch) := by
      refine ⟨fun _ => id, fun entry _ other hother => ?_⟩
      -- A hash of the new branch would be one of a branch that was not stored.
      have hfind := branch?_growing site projectId branch entry.1.branchId
      have hne : entry.1.branchId ≠ branch.id := by
        intro he
        rw [he, hnew.id_eq, hfree] at hother
        cases hother
      rw [if_neg hne, hother, Option.map_some] at hfind
      obtain ⟨later, hlater, he⟩ := Option.map_eq_some_iff.mp hfind
      have hpins := congrArg Branch.microschemaVersions he
      exact ⟨later, hlater, hpins⟩
    rw [hc]
    cases baseId with
    | none => exact hgrown
    | some baseId => exact IsTrans.trans _ _ _ hgrown (.of_branches_eq rfl fun _ => id)

/-- Executing a job touches no hash, whatever it moves. -/
theorem Workable.recalls_execute (h : Workable site) (kind : JobKind) :
    Recalls site (outcome (execute kind) site).2 := by
  -- A job does the same with the memo replaced by the one that there is, and keeps that.
  have hoverlooks := @Workable.overlooksAt_execute (fun _ => site.memo) (fun _ => site.bucketSize)
    site h (fun _ => h.sound.bucketSize) kind
  obtain ⟨-, hworks, -⟩ := within_execute h.sound.chained.fresh kind site h.sound.steady
  exact .of_pins_eq hworks.pins (congrArg (fun run => run.2.memo) hoverlooks)

/-- A job may be run. -/
theorem Workable.recalls_process (h : Workable site) (job : Job) :
    Recalls site (outcome (process job) site).2 := by
  have ho := (h.of_harmless (harmless_execute job.kind)).sound.outages
  rw [process_eq, outcome_bind_of_ok (outcome_attempt _ _)]
  exact IsTrans.trans _ _ _ (h.recalls_execute job.kind)
    (within_record recalling_logs job _ _ _ ho).2.1

/-- The next job may be started and run where jobs may be executed. -/
theorem workable_claimNext : Within Workable Recalls (fun _ => True) claimNext :=
  fun site h => ⟨h.of_harmless (within_claimNext harmless_logs),
    (within_claimNext recalling_logs site h.sound.outages).2.1, fun _ _ => trivial⟩

/-- A job may be run where jobs may be executed. -/
theorem workable_process (job : Job) : Within Workable Recalls (fun _ => True) (process job) :=
  fun _ h => ⟨h.of_harmless (harmless_process job), h.recalls_process job, fun _ _ => trivial⟩

/-- Edges may be set. -/
theorem recalling_setEdge (edge : Edge) : Recalling (setEdge edge) := by
  refine within_unlessOut (fun _ ho => ho) (recalling_transact fun store => ?_)
  rw [Store.outcome_setEdge]
  split <;> rfl

/-- Content may be added. -/
theorem recalling_addContent (branchId nodeId : Id) (language : String) (schemaVersionId : Id)
    (fields : FieldMap) (types : List ContainerType) :
    Recalling (addContent branchId nodeId language schemaVersionId fields types) := by
  refine within_addContent (fun site container ho _ _ _ _ stored hstored => ?_)
    fun edge _ => recalling_setEdge edge
  rw [hstored]
  exact ⟨ho, .of_branches_eq rfl fun _ => id⟩

/-- Every call but one that computes a hash goes by what is remembered. -/
theorem Reachable.recalls (h : Reachable site) {call : Call}
    (hc : ∀ versionId branchId replacements, call ≠ .computeHash versionId branchId replacements) :
    Recalls site (call.after site) := by
  have ho := h.sound.outages
  have hworkable : Workable site := ⟨h.sound, h.historied⟩
  cases call with
  | createSchema kind definition => exact ((recalling_createSchema kind definition).leads ho).2
  | updateSchema kind name definition renames expected =>
    exact ((recalling_updateSchema kind name definition renames expected).leads ho).2
  | createVersion kind definition renames =>
    exact ((recalling_createVersion kind definition renames).leads ho).2
  | compiledAt key => exact ((recalling_compiledAt key).leads ho).2
  | compiledForVersion version =>
    obtain ⟨cache, hcached⟩ := outcome_compiledForVersion version site
    rw [Call.after, hcached]
    exact .of_branches_eq rfl fun _ => id
  | invalidateCompiled key => exact .of_branches_eq rfl fun _ => id
  | clearCompiled => exact .of_branches_eq rfl fun _ => id
  | createBranch projectId name baseId =>
    exact recalls_createBranch ho h.branch?_label projectId name baseId
  | assign kind branchId version force =>
    exact ((within_assignOfKind (recalling_pinVersion branchId version force) kind).leads ho).2
  | assignLatest branchId kind name =>
    exact ((within_assignLatest (fun version => recalling_pinVersion branchId version false)
      kind name).leads ho).2
  | migrateRemaining branchId kind =>
    exact ((within_migrateRemaining recalling_logs branchId kind).leads ho).2
  | computeHash versionId branchId replacements =>
    exact absurd rfl (hc versionId branchId replacements)
  | enqueue kind => exact ((recalling_logs.enqueue kind none).leads ho).2
  | claimNext => exact ((within_claimNext recalling_logs).leads ho).2
  | complete id => exact ((within_finish recalling_logs id .completed none).leads ho).2
  | fail id error => exact ((within_finish recalling_logs id .failed (some error)).leads ho).2
  | retry id => exact ((within_retry recalling_logs id).leads ho).2
  | deleteJob id => exact ((within_deleteJob recalling_logs id).leads ho).2
  | purgeFailed => exact ((within_purgeFailed recalling_logs).leads ho).2
  | clearJobs => exact ((within_clearJobs recalling_logs).leads ho).2
  | process job => exact hworkable.recalls_process job
  | runPending =>
    exact ((within_runPending workable_claimNext workable_process).leads hworkable).2
  | runWorker guard settings =>
    exact ((within_runWorker (within_poll workable_claimNext workable_process guard)
      settings).leads hworkable).2
  | setEdge edge => exact ((recalling_setEdge edge).leads ho).2
  | addContent branchId nodeId language schemaVersionId fields types =>
    exact ((recalling_addContent branchId nodeId language schemaVersionId fields types).leads
      ho).2

/-- Whether every hash that is remembered is the one of a stored version on a stored branch. -/
def Remembers (site : Site) : Prop :=
  ∀ entry ∈ site.memo, ∃ version branch,
    site.store.version? entry.1.versionId = some version ∧
      site.store.branch? entry.1.branchId = some branch ∧
        entry.2 = usageHash version branch entry.1.replacements

/-- What is recalled stays right, because versions keep their definitions. -/
theorem Remembers.after (h : Remembers site) (hs : Sound site) {call : Call}
    (ha : call.Allowed site) (hr : Recalls site (call.after site)) :
    Remembers (call.after site) := by
  intro entry hm
  obtain ⟨version, branch, hv, hb, he⟩ := h entry (hr.memo entry hm)
  obtain ⟨hrow, hid⟩ := Store.version?_eq_some_iff.mp hv
  obtain ⟨link, hkept, -⟩ := hs.persists ha hrow
  obtain ⟨later, hlater, hpins⟩ := hr.pins entry hm branch hb
  refine ⟨{ version with next := link }, later, Store.version?_eq_some_iff.mpr ⟨hkept, hid⟩,
    hlater, ?_⟩
  rw [he]
  exact (usageHash_congr rfl hpins _).symm

/-- What is remembered of a stored version on a stored branch is its usage hash. -/
theorem Remembers.hash_eq (h : Remembers site) {version : Version} {branch : Branch}
    (hv : site.store.version? version.id = some version)
    (hb : site.store.branch? branch.id = some branch) (replacements : Dict Id) :
    (site.memo.hash version branch replacements).1 = usageHash version branch replacements ∧
      ∀ entry ∈ (site.memo.hash version branch replacements).2, entry ∈ site.memo ∨
        entry = (⟨version.id, branch.id, replacements⟩,
          usageHash version branch replacements) := by
  unfold UsageMemo.hash
  dsimp only
  cases hl : site.memo.lookup ⟨version.id, branch.id, replacements⟩ with
  | none => exact ⟨rfl, fun entry hm => (List.mem_cons.mp hm).symm⟩
  | some hash =>
    obtain ⟨before, behind, hmemo, -⟩ := List.lookup_eq_some_iff.mp hl
    obtain ⟨found, other, hfound, hother, he⟩ := h (⟨version.id, branch.id, replacements⟩, hash)
      (by rw [hmemo]; simp)
    obtain rfl := Option.some.inj (hfound.symm.trans hv)
    obtain rfl := Option.some.inj (hother.symm.trans hb)
    exact ⟨he, fun entry hm => .inl hm⟩

/-- A usage hash is that of the version and the branch as they are stored, looked up in the memo. -/
theorem outcome_computeHash (site : Site) (versionId branchId : Id) (replacements : Dict Id) :
    outcome (computeHash versionId branchId replacements) site =
      match site.store.version? versionId with
      | none => (.error (.notFound "schema version" versionId), site)
      | some version =>
        match site.store.branch? branchId with
        | none => (.error (.notFound "branch" branchId), site)
        | some branch => (.ok (site.memo.hash version branch replacements).1,
            { site with memo := (site.memo.hash version branch replacements).2 }) := by
  unfold computeHash version
  rw [bind_assoc, outcome_bind_of_ok (outcome_query _ site)]
  cases site.store.version? versionId with
  | none => rfl
  | some version =>
    rw [outcome_bind_of_ok (outcome_orNotFound_some _ _ version site)]
    unfold branch
    rw [bind_assoc, outcome_bind_of_ok (outcome_query _ site)]
    cases site.store.branch? branchId with
    | none => rfl
    | some branch => rfl

/-- Computing a hash adds the right one. -/
theorem Remembers.computeHash (h : Remembers site) (versionId branchId : Id)
    (replacements : Dict Id) :
    Remembers (Call.after site (.computeHash versionId branchId replacements)) := by
  rw [Call.after, outcome_computeHash]
  cases hv : site.store.version? versionId with
  | none => exact h
  | some version =>
    cases hb : site.store.branch? branchId with
    | none => exact h
    | some branch =>
      obtain rfl := (Store.version?_eq_some_iff.mp hv).2
      obtain rfl := (site.store.branches.find?_eq_some_iff.mp hb).2
      intro entry hm
      rcases (h.hash_eq hv hb replacements).2 entry hm with hold | rfl
      · exact h entry hold
      · exact ⟨version, branch, hv, hb, rfl⟩

/-- What every reachable site remembers is right. -/
theorem Reachable.remembers (h : Reachable site) : Remembers site := by
  induction h with
  | empty clock bucketSize eventBuffer => exact fun entry hm => absurd hm List.not_mem_nil
  | @call site reached call allowed ih =>
    by_cases hc : ∃ versionId branchId replacements,
      call = .computeHash versionId branchId replacements
    · obtain ⟨versionId, branchId, replacements, rfl⟩ := hc
      exact ih.computeHash versionId branchId replacements
    · exact ih.after reached.sound allowed (reached.recalls
        fun versionId branchId replacements he => hc ⟨versionId, branchId, replacements, he⟩)

/-- On every reachable site a usage hash is the one that would be computed without a memo, and, for
a stored version and a stored branch, the one that an empty memo answers with. -/
theorem Reachable.computeHash_fresh (h : Reachable site) (versionId branchId : Id)
    (replacements : Dict Id) :
    (outcome (computeHash versionId branchId replacements) site).1 =
        (outcome (computeHash versionId branchId replacements) { site with memo := [] }).1 ∧
      ∀ version branch, site.store.version? versionId = some version →
        site.store.branch? branchId = some branch →
          (outcome (computeHash versionId branchId replacements) site).1 =
            .ok (UsageMemo.hash [] version branch replacements).1 := by
  rw [outcome_computeHash, outcome_computeHash]
  dsimp only
  cases hv : site.store.version? versionId with
  | none => exact ⟨rfl, fun _ _ hversion => by cases hversion⟩
  | some version =>
    cases hb : site.store.branch? branchId with
    | none => exact ⟨rfl, fun _ _ _ hbranch => by cases hbranch⟩
    | some branch =>
      obtain rfl := (Store.version?_eq_some_iff.mp hv).2
      obtain rfl := (site.store.branches.find?_eq_some_iff.mp hb).2
      have hhash := (h.remembers.hash_eq hv hb replacements).1
      dsimp only
      rw [hhash, UsageMemo.hash_nil]
      refine ⟨rfl, fun found other hfound hother => ?_⟩
      obtain rfl := Option.some.inj hfound
      obtain rfl := Option.some.inj hother
      rfl

/-- A hash that was remembered before another version of the microschema was pinned is computed anew
after it, and one with a replacement is apart from both. -/
theorem computeHash_of_moved_pin :
    let flagged (type : FieldType) : Definition :=
      { name := "image", fields := [{ name := "flag", type := type }] }
    let article : Definition :=
      { name := "article", fields := [{ name := "cover", type := .micronode, allow := ["image"] }] }
    let calls : List Call :=
      [.createSchema .microschema (flagged .string), .createSchema .schema article,
        .createBranch "p1" "main" none, .assignLatest "@b1" .microschema "image",
        .computeHash "@v2" "@b1" []]
    let site := Call.afterAll (.empty (.ticking ⟨0, 0⟩) 10 10) calls
    let moved := Call.afterAll site
      [.updateSchema .microschema "image" (flagged .boolean) [] none,
        .computeHash "@v2" "@b1" [("image", "@v1")], .assignLatest "@b1" .microschema "image"]
    site.memo.length = 1 ∧
      (outcome (computeHash "@v2" "@b1" []) site).1 = .ok (Sha256.hex "image:@v1\n") ∧
      (outcome (computeHash "@v2" "@b1" []) moved).1 = .ok (Sha256.hex "image:@v3\n") ∧
      (outcome (computeHash "@v2" "@b1" [("image", "@v9")]) moved).1 =
        .ok (Sha256.hex "image:@v9\n") := by
  intro flagged article calls site moved
  have hsite : Managed site :=
    Managed.calls (.empty (.ticking ⟨0, 0⟩) 10 10) (by decide +kernel)
  have hmoved : Managed moved := hsite.calls (by decide +kernel)
  have hhash {site : Site} (h : Managed site) (replacements : Dict Id) {text : String}
      (ht : ((site.store.version? "@v2").bind fun version => (site.store.branch? "@b1").map
        fun branch => usageText version.definition branch replacements) = some text) :
      (outcome (computeHash "@v2" "@b1" replacements) site).1 = .ok (Sha256.hex text) := by
    obtain ⟨version, hv, hbranch⟩ := Option.bind_eq_some_iff.mp ht
    obtain ⟨branch, hb, rfl⟩ := Option.map_eq_some_iff.mp hbranch
    exact (h.reachable.computeHash_fresh "@v2" "@b1" replacements).2 version branch hv hb
  exact ⟨by decide +kernel, hhash hsite [] (by decide +kernel), hhash hmoved [] (by decide +kernel),
    hhash hmoved [("image", "@v9")] (by decide +kernel)⟩

end Site

end VersionedContent

import VersionedContent.Proofs.Schema.Difference
import VersionedContent.Proofs.Schema.Validity
import VersionedContent.Proofs.Site.Sound
import VersionedContent.Proofs.Site.Walk
import VersionedContent.Proofs.Store.Linear

/-!
# Reachable sites

A site is reached from one without records by calls in any order, whether they
fail or not. Every reachable site is sound: its versions form linear chains, all
of them are what the registry has checked, and no call rewrites a stored version.
-/

namespace VersionedContent

namespace Site

open VersionedContent.Action

/-- A call on a site, with its arguments. -/
inductive Call where
  | createSchema (kind : Kind) (definition : Definition)
  | updateSchema (kind : Kind) (name : String) (definition : Definition) (renames : List Rename)
      (expected : Option Nat)
  | createVersion (kind : Kind) (definition : Definition) (renames : List Rename)
  | compiledAt (key : CacheKey)
  | compiledForVersion (version : Version)
  | invalidateCompiled (key : CacheKey)
  | clearCompiled
  | createBranch (projectId : Id) (name : String) (baseId : Option Id)
  | assign (kind : Kind) (branchId : Id) (version : Version) (force : Bool)
  | assignLatest (branchId : Id) (kind : Kind) (name : String)
  | migrateRemaining (branchId : Id) (kind : Kind)
  | computeHash (versionId branchId : Id) (replacements : Dict Id)
  | enqueue (kind : JobKind)
  | claimNext
  | complete (id : Id)
  | fail (id : Id) (error : JobError)
  | retry (id : Id)
  | deleteJob (id : Id)
  | purgeFailed
  | clearJobs
  | process (job : Job)
  | runPending
  | runWorker (guard : WriteGuard) (settings : MigrationSettings)
  | setEdge (edge : Edge)
  | addContent (branchId nodeId : Id) (language : String) (schemaVersionId : Id)
      (fields : FieldMap) (types : List ContainerType)

namespace Call

/-- The site that a call leaves, with whatever answer or failure. -/
def after (site : Site) : Call → Site
  | createSchema kind definition => (outcome (Site.createSchema kind definition) site).2
  | updateSchema kind name definition renames expected =>
    (outcome (Site.updateSchema kind name definition renames expected) site).2
  | createVersion kind definition renames =>
    (outcome (Site.createVersion kind definition renames) site).2
  | compiledAt key => (outcome (Site.compiledAt key) site).2
  | compiledForVersion version => (outcome (Site.compiledForVersion version) site).2
  | invalidateCompiled key => (outcome (Site.invalidateCompiled key) site).2
  | clearCompiled => (outcome Site.clearCompiled site).2
  | createBranch projectId name baseId => (outcome (Site.createBranch projectId name baseId) site).2
  | assign kind branchId version force =>
    (outcome (Site.assignOfKind kind branchId version force) site).2
  | assignLatest branchId kind name => (outcome (Site.assignLatest branchId kind name) site).2
  | migrateRemaining branchId kind => (outcome (Site.migrateRemaining branchId kind) site).2
  | computeHash versionId branchId replacements =>
    (outcome (Site.computeHash versionId branchId replacements) site).2
  | enqueue kind => (outcome (Site.enqueue kind) site).2
  | claimNext => (outcome Site.claimNext site).2
  | complete id => (outcome (Site.complete id) site).2
  | fail id error => (outcome (Site.fail id error) site).2
  | retry id => (outcome (Site.retry id) site).2
  | deleteJob id => (outcome (Site.deleteJob id) site).2
  | purgeFailed => (outcome Site.purgeFailed site).2
  | clearJobs => (outcome Site.clearJobs site).2
  | process job => (outcome (Site.process job) site).2
  | runPending => (outcome Site.runPending site).2
  | runWorker guard settings => (outcome (Site.runWorker guard settings) site).2
  | setEdge edge => (outcome (Site.setEdge edge) site).2
  | addContent branchId nodeId language schemaVersionId fields types =>
    (outcome (Site.addContent branchId nodeId language schemaVersionId fields types) site).2

/-- Whether the arguments of a call can be had: an identifier that is still to be given out cannot
be the schema version of content. -/
def Allowed (site : Site) : Call → Prop
  | addContent _ _ _ schemaVersionId _ _ => site.issued.versions.IsPast schemaVersionId
  | _ => True

/-- Whether a call has no version to compile that may be none of the site's, and names for content
one that has been given out. -/
def isGiven (site : Site) : Call → Bool
  | compiledForVersion _ => false
  | addContent _ _ _ schemaVersionId _ _ =>
    (List.range site.issued.versions).any fun k =>
      schemaVersionId = site.issued.versions.label k
  | _ => true

/-- A version that has been given out may be named. -/
theorem allowed_of_isGiven {site : Site} {call : Call} (h : call.isGiven site = true) :
    call.Allowed site := by
  cases call with
  | addContent branchId nodeId language schemaVersionId fields types =>
    obtain ⟨k, hm, he⟩ := List.any_eq_true.mp h
    exact Series.HasGiven.isPast ⟨k, List.mem_range.mp hm, of_decide_eq_true he⟩
  | _ => trivial

/-- The site that calls leave, made one after another. -/
def afterAll (site : Site) (calls : List Call) : Site :=
  calls.foldl after site

/-- Whether the arguments of each of some calls can be had by then. -/
def AreAllowed (site : Site) : List Call → Prop
  | [] => True
  | call :: calls => call.Allowed site ∧ AreAllowed (call.after site) calls

/-- Whether each of some calls names only what has been given out by then. -/
def areGiven (site : Site) : List Call → Bool
  | [] => true
  | call :: calls => call.isGiven site && areGiven (call.after site) calls

end Call

/-- The sites that calls lead to. -/
inductive Reachable : Site → Prop
  /-- There are no records at first. -/
  | empty (clock : Clock) (bucketSize eventBuffer : Nat) (issued : Issued := {}) :
      Reachable (.empty clock bucketSize eventBuffer issued)
  /-- Any call may follow. -/
  | call {site : Site} (reached : Reachable site) (call : Call) (allowed : call.Allowed site) :
      Reachable (call.after site)

/-- Calls made one after another lead on. -/
theorem Reachable.calls {site : Site} (h : Reachable site) {calls : List Call}
    (ha : Call.AreAllowed site calls) : Reachable (Call.afterAll site calls) := by
  induction calls generalizing site with
  | nil => exact h
  | cons call calls ih => exact ih (h.call call ha.1) ha.2

/-- The sites that calls lead to which compile stored versions only. -/
inductive Managed : Site → Prop
  /-- There are no records at first. -/
  | empty (clock : Clock) (bucketSize eventBuffer : Nat) (issued : Issued := {}) :
      Managed (.empty clock bucketSize eventBuffer issued)
  /-- Any call may follow but one that compiles a version as it is given. -/
  | call {site : Site} (reached : Managed site) (call : Call) (allowed : call.Allowed site)
      (stored : ∀ version, call ≠ .compiledForVersion version) : Managed (call.after site)

/-- Calls that compile stored versions only are calls. -/
theorem Managed.reachable {site : Site} (h : Managed site) : Reachable site := by
  induction h with
  | empty clock bucketSize eventBuffer issued => exact .empty clock bucketSize eventBuffer issued
  | call reached call allowed stored ih => exact ih.call call allowed

/-- Calls made one after another lead on. -/
theorem Managed.calls {site : Site} (h : Managed site) {calls : List Call}
    (hg : Call.areGiven site calls = true) : Managed (Call.afterAll site calls) := by
  induction calls generalizing site with
  | nil => exact h
  | cons call calls ih =>
    obtain ⟨hc, hr⟩ := (Bool.and_eq_true _ _).mp hg
    refine ih (h.call call (Call.allowed_of_isGiven hc) ?_) hr
    rintro version rfl
    cases hc

/-- Except for compiling a version that is given, a call edits content and leaves the versions
alone, or it is one of the registry. -/
theorem Sound.registers_or_proceeds {site : Site} (h : Sound site) {call : Call}
    (ha : call.Allowed site) (hg : ∀ version, call ≠ .compiledForVersion version) :
    Registers site (call.after site) ∨
      SoundWith site.store.versions site.issued.versions (call.after site) ∧
        Proceeds site (call.after site) := by
  have hi : SoundWith site.store.versions site.issued.versions site := ⟨h, rfl, rfl⟩
  cases call with
  | createSchema kind definition => exact .inl (registers_createSchema h.outages kind definition)
  | updateSchema kind name definition renames expected =>
    exact .inl (registers_updateSchema h.outages kind name definition renames expected)
  | createVersion kind definition renames =>
    exact .inl (registers_createVersion h.outages kind definition renames)
  | compiledAt key => exact .inr ((harmless_compiledAt key).leads hi)
  | compiledForVersion version => exact absurd rfl (hg version)
  | invalidateCompiled key =>
    exact .inr ⟨hi.of_eq rfl rfl rfl rfl, .beside (.aside rfl rfl rfl)
      (fun h => h.of_subset rfl fun _ hm => mem_of_mem_invalidate hm) (fun _ => Iff.rfl) rfl⟩
  | clearCompiled =>
    exact .inr ⟨hi.of_eq rfl rfl rfl rfl, .beside (.aside rfl rfl rfl)
      (fun h => h.of_subset rfl fun _ hm => absurd hm List.not_mem_nil) (fun _ => Iff.rfl) rfl⟩
  | createBranch projectId name baseId =>
    exact .inr ((harmless_createBranch projectId name baseId).leads hi)
  | assign kind branchId version force =>
    exact .inr ((within_assignOfKind (harmless_pinVersion branchId version force) kind).leads hi)
  | assignLatest branchId kind name =>
    exact .inr ((within_assignLatest (fun version => harmless_pinVersion branchId version false)
      kind name).leads hi)
  | migrateRemaining branchId kind =>
    exact .inr ((within_migrateRemaining harmless_logs branchId kind).leads hi)
  | computeHash versionId branchId replacements =>
    exact .inr ((harmless_computeHash versionId branchId replacements).leads hi)
  | enqueue kind => exact .inr ((harmless_enqueueJob kind none).leads hi)
  | claimNext => exact .inr ((within_claimNext harmless_logs).leads hi)
  | complete id => exact .inr ((within_finish harmless_logs id .completed none).leads hi)
  | fail id error => exact .inr ((within_finish harmless_logs id .failed (some error)).leads hi)
  | retry id => exact .inr ((within_retry harmless_logs id).leads hi)
  | deleteJob id => exact .inr ((within_deleteJob harmless_logs id).leads hi)
  | purgeFailed => exact .inr ((within_purgeFailed harmless_logs).leads hi)
  | clearJobs => exact .inr ((within_clearJobs harmless_logs).leads hi)
  | process job => exact .inr ((harmless_process job).leads hi)
  | runPending => exact .inr (harmless_runPending.leads hi)
  | runWorker guard settings => exact .inr ((harmless_runWorker guard settings).leads hi)
  | setEdge edge => exact .inr ((harmless_setEdge edge).leads hi)
  | addContent branchId nodeId language schemaVersionId fields types =>
    exact .inr ((harmless_addContent branchId nodeId language ha fields types).leads hi)

/-- A call leaves the versions alone, or it is one of the registry. -/
theorem Sound.registers_or_harmless {site : Site} (h : Sound site) {call : Call}
    (ha : call.Allowed site) :
    Registers site (call.after site) ∨
      SoundWith site.store.versions site.issued.versions (call.after site) := by
  by_cases hg : ∃ version, call = .compiledForVersion version
  · obtain ⟨version, rfl⟩ := hg
    obtain ⟨cache, hc⟩ := outcome_compiledForVersion version site
    refine .inr ?_
    rw [Call.after, hc]
    exact SoundWith.of_eq ⟨h, rfl, rfl⟩ rfl rfl rfl rfl
  · exact (h.registers_or_proceeds ha fun version hv => hg ⟨version, hv⟩).imp_right And.left

/-- Every call edits content. -/
theorem Sound.edits {site : Site} (h : Sound site) {call : Call} (ha : call.Allowed site) :
    Edits site (call.after site) := by
  by_cases hg : ∃ version, call = .compiledForVersion version
  · obtain ⟨version, rfl⟩ := hg
    obtain ⟨cache, hc⟩ := outcome_compiledForVersion version site
    rw [Call.after, hc]
    exact .aside rfl rfl rfl
  · rcases h.registers_or_proceeds ha fun version hv => hg ⟨version, hv⟩ with hr | ⟨-, hp⟩
    · have hstore := hr.store.eq
      exact .aside (by rw [hstore]) (by rw [hstore]) (by rw [hr.issued])
    · exact hp.edits

/-- Every call names the branches that it stores by the identifiers that it gives out. -/
theorem Sound.named {site : Site} (h : Sound site) {call : Call} (ha : call.Allowed site)
    (hn : Named site) : Named (call.after site) := by
  by_cases hg : ∃ version, call = .compiledForVersion version
  · obtain ⟨version, rfl⟩ := hg
    obtain ⟨cache, hc⟩ := outcome_compiledForVersion version site
    rw [Call.after, hc]
    exact hn.of_eq (fun _ => Iff.rfl) rfl
  · rcases h.registers_or_proceeds ha fun version hv => hg ⟨version, hv⟩ with hr | ⟨-, hp⟩
    · exact hn.of_eq (fun id => by rw [hr.store.eq]; rfl) (by rw [hr.issued])
    · exact hp.named hn

/-- Every call leaves a sound site sound. -/
theorem Sound.after {site : Site} (h : Sound site) {call : Call} (ha : call.Allowed site) :
    Sound (call.after site) := by
  rcases h.registers_or_harmless ha with hr | hs
  · exact h.of_registers hr
  · exact hs.sound

/-- Every reachable site is sound. -/
theorem Reachable.sound {site : Site} (h : Reachable site) : Sound site := by
  induction h with
  | empty clock bucketSize eventBuffer issued =>
    exact sound_empty clock bucketSize eventBuffer issued
  | call reached call allowed ih => exact ih.after allowed

/-- The branches of every reachable site are named by the identifiers that have been given out. -/
theorem Reachable.named {site : Site} (h : Reachable site) : Named site := by
  induction h with
  | empty clock bucketSize eventBuffer => exact fun _ hs => absurd rfl hs
  | call reached call allowed ih => exact reached.sound.named allowed ih

/-- No branch has the next identifier. -/
theorem Reachable.branch?_label {site : Site} (h : Reachable site) :
    site.store.branch? site.issued.branches.next = none := by
  by_contra hs
  exact Series.not_hasGiven_next _ (h.named _ hs)

/-- What is kept compiled of stored versions is a stored version of its place. -/
theorem Managed.coherent {site : Site} (h : Managed site) : Coherent site := by
  induction h with
  | empty clock bucketSize eventBuffer => exact fun _ hm => (List.not_mem_nil hm).elim
  | @call site reached call allowed stored ih =>
    have hsound := reached.reachable.sound
    rcases hsound.registers_or_proceeds allowed stored with hr | ⟨-, hp⟩
    · intro entry hm
      obtain ⟨version, hv, hkey, hd⟩ := ih entry (hr.cache entry hm)
      obtain ⟨link, hlinked, -⟩ := hr.store.persists hsound.chained hv
      exact ⟨_, hlinked, hkey, hd⟩
    · exact hp.coherent ih

/-- The history of every reachable site is in order. -/
theorem Reachable.historied {site : Site} (h : Reachable site) :
    site.store.Historied site.issued.containers := by
  induction h with
  | empty clock bucketSize eventBuffer => exact Store.historied_of_slots_eq_nil _ rfl
  | call reached call allowed ih => exact (reached.sound.edits allowed).historied ih

end Site

namespace Store

/-- What has been checked of a stored version. -/
structure Checked (store : Store) (version : Version) : Prop where
  /-- It has the name of its definition. -/
  named : version.name = version.definition.name
  /-- Its definition has no issues. -/
  valid : version.definition.issues version.kind = []
  /-- Every microschema that a field allows has a first version. -/
  referenced : ∀ field ∈ version.definition.fields, field.embeds = true → ∀ name ∈ field.allow,
    (store.rootVersion? .microschema name).isSome = true
  /-- Its changes lead from the definition before it to its own; to all of it unless two defaults
  differ in the sign of a zero. -/
  derived : ∀ id, version.previous = some id → ∃ before reached, store.version? id = some before ∧
    before.definition.apply version.changes = .ok reached ∧
    reached.same version.definition = true ∧
    ((∀ a ∈ before.definition.fields, ∀ b ∈ version.definition.fields,
      FieldSpec.sameDefault a.default b.default = true → a.default = b.default) →
        reached = version.definition)

variable {store : Store} {issued : Series} {kind : Kind} {name : String}

/-- The versions of a chain are what a walk over it passes, while they can be numbered. -/
theorem Chained.linear (h : Chained store issued) (hne : store.chainVersions kind name ≠ [])
    (hl : (store.chainVersions kind name).length < 4294967296) :
    Linear store kind name (store.chainVersions kind name) :=
  linear_of_joined (h.linked kind name).joined hne hl

/-- The changes of a version lead to its definition from the one before; to all of it unless two
defaults differ in the sign of a zero. -/
theorem Chained.reached_next (h : Chained store issued) {i : Nat} {before version : Version}
    (hb : (store.chainVersions kind name)[i]? = some before)
    (hv : (store.chainVersions kind name)[i + 1]? = some version) :
    ∃ reached, before.definition.apply version.changes = .ok reached ∧
      reached.same version.definition = true ∧
      ((∀ a ∈ before.definition.fields, ∀ b ∈ version.definition.fields,
        FieldSpec.sameDefault a.default b.default = true → a.default = b.default) →
          reached = version.definition) := by
  obtain ⟨hbrow, -, hbname⟩ := mem_chainVersions.mp (List.mem_of_getElem? hb)
  obtain ⟨hvrow, -, hvname⟩ := mem_chainVersions.mp (List.mem_of_getElem? hv)
  have hname : before.definition.name = version.definition.name := by
    rw [← h.named before hbrow, ← h.named version hvrow, hbname, hvname]
  obtain ⟨renames, hd⟩ := (h.linked kind name).derived hb hv
  exact Definition.reached_of_difference hname
    (Definition.distinct_of_issues (h.valid before hbrow))
    (Definition.distinct_of_issues (h.valid version hvrow)) hd

/-- Every version that is stored has been checked. -/
theorem Chained.checked (h : Chained store issued) {version : Version}
    (hm : version ∈ store.versions.rows) : Checked store version where
  named := h.named version hm
  valid := h.valid version hm
  referenced field hf he microschema ha := by
    have hreference : microschema ∈ version.definition.microschemaReferences :=
      Definition.mem_microschemaReferences.mpr ⟨field, hf, he, ha⟩
    have hne := h.referenced version hm microschema hreference
    rw [h.rootVersion?_eq, List.getElem?_eq_getElem (List.length_pos_iff.mpr hne)]
    rfl
  derived id hp := by
    have hlinked := h.linked version.kind version.name
    obtain ⟨i, hi⟩ := exists_getElem?_of_mem hm
    cases i with
    | zero =>
      rw [hlinked.first hi] at hp
      cases hp
    | succ i =>
      have hprevious := hlinked.previous hi
      rw [hp] at hprevious
      obtain ⟨before, hb, rfl⟩ := Option.map_eq_some_iff.mp hprevious.symm
      obtain ⟨hrow, -, -⟩ := mem_chainVersions.mp (List.mem_of_getElem? hb)
      obtain ⟨reached, hr⟩ := h.reached_next hb hi
      exact ⟨before, reached, version?_eq_some_iff.mpr ⟨hrow, rfl⟩, hr⟩

end Store

namespace Site

/-- A stored version keeps everything but its link, and that changes only when a version is stored
after it. -/
theorem Sound.persists {site : Site} (h : Sound site) {call : Call} (ha : call.Allowed site)
    {version : Version} (hm : version ∈ site.store.versions.rows) :
    ∃ link, { version with next := link } ∈ (call.after site).store.versions.rows ∧
      (link = version.next ∨ version.next = none ∧
        ∃ successor ∈ (call.after site).store.versions.rows, link = some successor.id ∧
          successor.previous = some version.id ∧ successor.id ∉ site.store.versions.keys) := by
  rcases h.registers_or_harmless ha with hr | hs
  · exact hr.store.persists h.chained hm
  · refine ⟨version.next, ?_, .inl rfl⟩
    rw [hs.versions]
    exact hm

/-- On every reachable site whose chains can be numbered, each chain is walked over from its only
first version to its only latest one, every stored version has been checked, and no call rewrites
one. -/
theorem Reachable.versions_linear_checked_kept {site : Site} (h : Reachable site)
    (hl : ∀ kind name, (site.store.chainVersions kind name).length < 4294967296) :
    (∀ kind name,
      (∃ version ∈ site.store.versions.rows, version.kind = kind ∧ version.name = name) →
        ∃ walk, outcome (versions kind name) site = (.ok walk, site) ∧
          site.store.Linear kind name walk) ∧
      (∀ version ∈ site.store.versions.rows, site.store.Checked version) ∧
      ∀ call : Call, call.Allowed site → ∀ version ∈ site.store.versions.rows,
        ∃ link, { version with next := link } ∈ (call.after site).store.versions.rows ∧
          (link = version.next ∨ version.next = none ∧
            ∃ successor ∈ (call.after site).store.versions.rows, link = some successor.id ∧
              successor.previous = some version.id ∧
                successor.id ∉ site.store.versions.keys) := by
  have hsound := h.sound
  refine ⟨fun kind name hex => ?_, fun version hm => hsound.chained.checked hm,
    fun call ha version hm => hsound.persists ha hm⟩
  obtain ⟨version, hm, hk, hn⟩ := hex
  have hin : version ∈ site.store.chainVersions kind name :=
    Store.mem_chainVersions.mpr ⟨hm, hk, hn⟩
  exact ⟨_, outcome_versions hsound kind name,
    hsound.chained.linear (List.ne_nil_of_mem hin) (hl kind name)⟩

/-- A schema that is created and then edited has a walk over two versions. -/
theorem versions_of_edited_schema :
    let site := (Call.updateSchema .schema "article"
      { name := "article", fields := [{ name := "title", type := .html }] } [] none).after
        ((Call.createSchema .schema
          { name := "article", fields := [{ name := "title", type := .string }] }).after
            (.empty (.ticking ⟨0, 0⟩) 10 10))
    ∃ walk, outcome (versions .schema "article") site = (.ok walk, site) ∧
      site.store.Linear .schema "article" walk ∧ site.store.versions.rows.length = 2 := by
  intro site
  have hrows : site.store.versions.rows.length = 2 := by decide +kernel
  have hreach : Reachable site :=
    .call (.call (.empty (.ticking ⟨0, 0⟩) 10 10) (.createSchema _ _) trivial)
      (.updateSchema _ _ _ _ _) trivial
  have hstored : ∃ version ∈ site.store.versions.rows,
      version.kind = .schema ∧ version.name = "article" := by decide +kernel
  obtain ⟨hwalk, -, -⟩ := hreach.versions_linear_checked_kept fun kind name =>
    Nat.lt_of_le_of_lt (List.length_filter_le _ _) (by rw [hrows]; decide)
  obtain ⟨walk, ho, hlinear⟩ := hwalk .schema "article" hstored
  exact ⟨walk, ho, hlinear, hrows⟩

end Site

end VersionedContent

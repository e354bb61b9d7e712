import VersionedContent.Proofs.Site.Carried
import VersionedContent.Proofs.Site.Reach

/-!
# Content at rest

Versions of a schema are stored and pinned on a branch, jobs are queued, claimed
and run, and content arrives, in any order. Whenever no job of the branch waits
or runs, and none has failed on the way, all content that the branch has of the
schema stands at the pinned version.
-/

namespace VersionedContent

namespace JobLog

variable {log : JobLog} {branchId : Id}

/-- Whether no job of a branch waits or runs. -/
def Idle (log : JobLog) (branchId : Id) : Prop :=
  ∀ job ∈ log.jobs, job.scope = "branch:" ++ branchId → job.status.isTerminal = true

instance (log : JobLog) (branchId : Id) : Decidable (log.Idle branchId) :=
  inferInstanceAs (Decidable (∀ job ∈ log.jobs, _))

/-- No job of an idle branch is live. -/
theorem Idle.live_eq_nil (h : log.Idle branchId) : log.live branchId = [] := by
  refine List.filter_eq_nil_iff.mpr fun entry hm hl => ?_
  obtain ⟨hb, ht⟩ := isLive_iff.mp hl
  rw [h entry.job (List.mem_map_of_mem hm) (scope_eq hb)] at ht
  cases ht

/-- The line of an idle branch is empty. -/
theorem Line.eq_nil_of_idle {first : Nat} {moves : List (Id × Id)}
    (h : log.Line branchId first moves) (hi : log.Idle branchId) : moves = [] := by
  have hkinds := h.kinds
  rw [hi.live_eq_nil, List.map_nil] at hkinds
  exact List.map_eq_nil_iff.mp hkinds.symm

end JobLog

namespace Site

open VersionedContent.Action

/-- The calls that a run for a branch and a schema is made of. -/
inductive Call.Serves (branchId : Id) (name : String) (site : Site) : Call → Prop
  /-- A version of the schema is stored. -/
  | updateSchema (definition : Definition) (renames : List Rename) (expected : Option Nat) :
      Serves branchId name site (.updateSchema .schema name definition renames expected)
  /-- A version of the schema is pinned without force. -/
  | assign (kind : Kind) {version : Version}
      (of_schema : ∀ found, site.store.version? version.id = some found →
        found.kind = .schema ∧ found.name = name) :
      Serves branchId name site (.assign kind branchId version false)
  /-- The latest version of the schema is pinned. -/
  | assignLatest : Serves branchId name site (.assignLatest branchId .schema name)
  /-- The content that is behind its pins, of whatever schema, is queued. -/
  | migrateRemaining : Serves branchId name site (.migrateRemaining branchId .schema)
  /-- The next job of any branch or project is claimed. -/
  | claimNext : Serves branchId name site .claimNext
  /-- A claimed job of any branch or project is run. -/
  | process {entry : JobEntry} (logged : entry ∈ site.store.jobs.entries)
      (claimed : entry.job.status = .started) : Serves branchId name site (.process entry.job)
  /-- New content arrives at the pinned version. -/
  | addContent (nodeId : Id) (language : String) {versionId : Id} (fields : FieldMap)
      (types : List ContainerType)
      (pinned : site.store.pin? branchId .schema name = some versionId) :
      Serves branchId name site (.addContent branchId nodeId language versionId fields types)

/-- The sites that such calls lead to from a given one. -/
inductive Run (branchId : Id) (name : String) (start : Site) : Site → Prop
  /-- Nothing has been called at first. -/
  | start : Run branchId name start start
  /-- Any of the calls may follow. -/
  | call {site : Site} (before : Run branchId name start site) {call : Call}
      (serves : call.Serves branchId name site) : Run branchId name start (call.after site)

variable {start site : Site} {branchId : Id} {name : String}

/-- What a sound site pins has been given out. -/
theorem Sound.isPast_of_pin? (h : Sound site) {kind : Kind} {versionId : Id}
    (hp : site.store.pin? branchId kind name = some versionId) :
    versionId ∈ site.store.chainIds kind name ∧ site.issued.versions.IsPast versionId := by
  obtain ⟨branch, hb, hpin⟩ := Option.bind_eq_some_iff.mp hp
  obtain ⟨version, hv, rfl⟩ := h.exists_of_pinned? hb hpin
  have hfound := Store.version?_of_mem_chainVersions hv
  exact ⟨List.mem_map_of_mem hv, h.steady.isPast_of_version? h.chained.fresh hfound⟩

/-- The calls of a run can be made. -/
theorem Call.Serves.allowed (h : Sound site) {call : Call}
    (hs : call.Serves branchId name site) : call.Allowed site := by
  cases hs with
  | addContent nodeId language fields types pinned => exact (h.isPast_of_pin? pinned).2
  | _ => trivial

/-- No chain gets shorter. -/
theorem Sound.length_chainVersions_le (h : Sound site) {call : Call} (ha : call.Allowed site)
    (kind : Kind) (name : String) :
    (site.store.chainVersions kind name).length ≤
      ((call.after site).store.chainVersions kind name).length := by
  rcases h.registers_or_harmless ha with hr | hs
  · obtain ⟨added, hchain, -⟩ := hr.store.chainIds_eq h.chained kind name
    have hlength := congrArg List.length hchain
    simp only [Store.chainIds, List.length_map, List.length_append] at hlength
    omega
  · rw [Store.chainVersions, Store.chainVersions, hs.versions]

/-- Each call of a run leaves it to the jobs of the branch to carry its content to the pin. -/
theorem Call.Serves.carried (h : Sound site)
    (hl : (site.store.chainVersions .schema name).length < 4294967296)
    (hc : start.store.Carried site.store branchId name) {call : Call}
    (hs : call.Serves branchId name site) :
    start.store.Carried (call.after site).store branchId name := by
  cases hs with
  | updateSchema definition renames expected =>
    have hr := registers_updateSchema h.outages .schema name definition renames expected
    exact hc.extends h.chained h.housed rfl hr.store
  | assign kind of_schema => exact hc.repins h.chained hl (assignOfKind_spec h kind of_schema hl)
  | assignLatest => exact hc.repins h.chained hl (assignLatest_spec h branchId hl)
  | migrateRemaining => exact (hc.queues h.chained hl (migrateRemaining_spec h branchId)).1
  | claimNext => exact carried_claimNext hc h
  | process logged claimed => exact carried_process hc h logged claimed
  | addContent nodeId language fields types pinned =>
    have ha := addContent_spec h (h.isPast_of_pin? pinned).2 branchId nodeId language fields types
    exact carried_arrives hc ha pinned

/-- A run may go on as another one. -/
theorem Run.trans {middle : Site} (hr : Run branchId name start middle)
    (hn : Run branchId name middle site) : Run branchId name start site := by
  induction hn with
  | start => exact hr
  | call before serves ih => exact ih.call serves

/-- A run leaves a sound site sound. -/
theorem Run.sound (hr : Run branchId name start site) (h : Sound start) : Sound site := by
  induction hr with
  | start => exact h
  | call before serves ih => exact ih.after (serves.allowed ih)

/-- A run leaves it to the jobs of the branch to carry its content to the pin. -/
theorem Run.carried (hr : Run branchId name start site) (h : Sound start)
    (hl : (site.store.chainVersions .schema name).length < 4294967296)
    (hc : start.store.Carried start.store branchId name) :
    start.store.Carried site.store branchId name := by
  induction hr with
  | start => exact hc
  | @call site before call serves ih =>
    have hsound := before.sound h
    have hle := hsound.length_chainVersions_le (serves.allowed hsound) .schema name
    exact serves.carried hsound (Nat.lt_of_le_of_lt hle hl) (ih (Nat.lt_of_le_of_lt hle hl))

/-- Nothing is to be carried when all content stands at the pin and no job is live. -/
theorem Sound.carried_of_idle (h : Sound site) (hi : site.store.jobs.Idle branchId)
    (hstands : ∀ version ∈ site.store.chainIds .schema name, site.store.Stands branchId version →
      site.store.pin? branchId .schema name = some version) :
    site.store.Carried site.store branchId name where
  later := Nat.le_refl _
  pinned hp := hp
  carries := by
    refine .inr ⟨[], ⟨?_, ?_, ?_⟩,
      Course.of_eq_pin (fun version hp => (h.isPast_of_pin? hp).1) hstands⟩
    all_goals simp [hi.live_eq_nil]

/-- What remains is the content that stands at the versions of the chain other than the pin. -/
theorem outcome_remainingCount (h : Sound site) {kind : Kind} {versionId : Id}
    (hp : site.store.pin? branchId kind name = some versionId) :
    outcome (remainingCount branchId kind name) site =
      (.ok (((site.store.chainVersions kind name).filter fun version =>
        version.id ≠ versionId).map fun version =>
          site.store.countEdges kind branchId version.id).sum, site) := by
  obtain ⟨branch, hb, hpin⟩ := Option.bind_eq_some_iff.mp hp
  obtain ⟨pinned, hv, rfl⟩ := h.exists_of_pinned? hb hpin
  have hfound := Store.version?_of_mem_chainVersions hv
  have hassigned : outcome (assignedVersion branchId kind name) site = (.ok pinned, site) := by
    unfold assignedVersion
    rw [outcome_bind_of_ok (outcome_branch hb), hpin, outcome_bind_of_ok
      (outcome_orNotFound_some _ _ _ site)]
    exact outcome_version hfound
  unfold remainingCount
  rw [outcome_bind_of_ok hassigned, outcome_bind_of_ok (outcome_versions h _ _),
    outcome_pendingTotal]
  congr 3
  refine List.map_congr_left fun version hm => ?_
  rw [(Store.mem_chainVersions.mp (List.mem_filter.mp hm).1).2.1]

/-- Where no edge is counted at a version other than the pinned one, nothing is counted as
remaining. -/
theorem outcome_remainingCount_eq_zero (h : Sound site) {kind : Kind} {versionId : Id}
    (hp : site.store.pin? branchId kind name = some versionId)
    (hzero : ∀ version ∈ site.store.chainVersions kind name, version.id ≠ versionId →
      site.store.countEdges kind branchId version.id = 0) :
    outcome (remainingCount branchId kind name) site = (.ok 0, site) := by
  rw [outcome_remainingCount h hp, List.sum_eq_zero_iff_forall_eq_nat.mpr]
  intro count hc
  obtain ⟨version, hm, rfl⟩ := List.mem_map.mp hc
  obtain ⟨hchain, hne⟩ := List.mem_filter.mp hm
  exact hzero version hchain (of_decide_eq_true hne)

/-- When nothing of a schema stands off its pin, nothing is counted as remaining. -/
theorem outcome_remainingCount_of_stands (h : Sound site) {versionId : Id}
    (hp : site.store.pin? branchId .schema name = some versionId)
    (hstands : ∀ version ∈ site.store.chainIds .schema name, site.store.Stands branchId version →
      site.store.pin? branchId .schema name = some version) :
    outcome (remainingCount branchId .schema name) site = (.ok 0, site) := by
  refine outcome_remainingCount_eq_zero h hp fun version hchain hne => ?_
  rw [Store.countEdges_eq_zero_iff]
  intro key hkey hstand
  have hat := hstands version.id (List.mem_map_of_mem hchain) ⟨key, hkey, hstand⟩
  exact hne (Option.some.inj (hat.symm.trans hp))

/-- On every run that starts where no job of a branch waits or runs and all its content of a schema
stands at the pin, and at whose end again no job of the branch waits or runs and none has failed,
all its content of the schema stands at the pin, and none is counted as remaining. -/
theorem Reachable.remainingCount_eq_zero (h : Reachable start)
    (hidle : start.store.jobs.Idle branchId)
    (hstart : ∀ version ∈ start.store.chainIds .schema name, start.store.Stands branchId version →
      start.store.pin? branchId .schema name = some version)
    (hr : Run branchId name start site)
    (hl : (site.store.chainVersions .schema name).length < 4294967296)
    (hrest : site.store.jobs.Idle branchId)
    (hnone : ∀ entry ∈ site.store.jobs.entries, entry.job.scope = "branch:" ++ branchId →
      entry.job.status = .failed → entry ∈ start.store.jobs.entries)
    (hp : start.store.pin? branchId .schema name ≠ none ∨
      site.store.pin? branchId .schema name ≠ none) :
    outcome (remainingCount branchId .schema name) site = (.ok 0, site) ∧
      ∀ version ∈ site.store.chainIds .schema name, site.store.Stands branchId version →
        site.store.pin? branchId .schema name = some version := by
  have hsound := hr.sound h.sound
  have hcarried := hr.carried h.sound hl (h.sound.carried_of_idle hidle hstart)
  have hstands : ∀ version ∈ site.store.chainIds .schema name, site.store.Stands branchId version →
      site.store.pin? branchId .schema name = some version := by
    rcases hcarried.carries with ⟨entry, hm, hfirst, hb, hf⟩ | ⟨moves, hline, hcourse⟩
    · have hlt := h.sound.logged.below entry (hnone entry hm (JobLog.scope_eq hb) hf)
      omega
    · obtain rfl := hline.eq_nil_of_idle hrest
      exact fun version hm hv => Course.eq_pin hcourse hm hv
  have hpinned := hp.elim hcarried.pinned id
  obtain ⟨versionId, hv⟩ := Option.ne_none_iff_exists'.mp hpinned
  exact ⟨outcome_remainingCount_of_stands hsound hv hstands, hstands⟩

/-- Content that lags behind two upgrades, both made before a job runs, is carried over both. -/
theorem remainingCount_of_two_upgrades :
    let start := (Call.addContent "@b1" "n1" "en" "@v1" [("title", .string "Hello")] [.draft]).after
      ((Call.assignLatest "@b1" .schema "article").after
        ((Call.createBranch "p1" "main" none).after
          ((Call.createSchema .schema
            { name := "article", fields := [{ name := "title", type := .string }] }).after
              (.empty (.ticking ⟨0, 0⟩) 10 10))))
    let upgraded := (Call.assignLatest "@b1" .schema "article").after
      ((Call.updateSchema .schema "article"
        { name := "article", fields := [{ name := "title", type := .string }] } [] none).after
          ((Call.assignLatest "@b1" .schema "article").after
            ((Call.updateSchema .schema "article"
              { name := "article", fields := [{ name := "title", type := .html }] } [] none).after
                start)))
    upgraded.store.jobs.entries.map (fun entry => entry.job.kind) =
        [.schema "@b1" "@v1" "@v2", .schema "@b1" "@v2" "@v3"] ∧
      ∃ site, Run "@b1" "article" upgraded site ∧ site.store.jobs.Idle "@b1" ∧
        outcome (remainingCount "@b1" .schema "article") site = (.ok 0, site) := by
  intro start upgraded
  refine ⟨by decide +kernel, ?_⟩
  have hreach : Reachable start :=
    .call (.call (.call (.call (.empty (.ticking ⟨0, 0⟩) 10 10) (.createSchema _ _) trivial)
      (.createBranch _ _ _) trivial) (.assignLatest _ _ _) trivial)
      (.addContent _ _ _ _ _ _) (Call.allowed_of_isGiven (by decide +kernel))
  have hupgraded : Run "@b1" "article" start upgraded :=
    .call (.call (.call (.call .start (.updateSchema _ _ _)) .assignLatest)
      (.updateSchema _ _ _)) .assignLatest
  let claimed := Call.claimNext.after upgraded
  let first := claimed.store.jobs.entries.head (by decide +kernel)
  let ran := (Call.process first.job).after claimed
  let reclaimed := Call.claimNext.after ran
  let second := reclaimed.store.jobs.entries.getLast (by decide +kernel)
  let site := (Call.process second.job).after reclaimed
  have hfirst : Call.Serves "@b1" "article" claimed (.process first.job) :=
    @Call.Serves.process "@b1" "article" claimed first (by decide +kernel) (by decide +kernel)
  have hsecond : Call.Serves "@b1" "article" reclaimed (.process second.job) :=
    @Call.Serves.process "@b1" "article" reclaimed second (by decide +kernel) (by decide +kernel)
  have hrun : Run "@b1" "article" upgraded site :=
    .call (.call (.call (.call .start .claimNext) hfirst) .claimNext) hsecond
  refine ⟨site, hrun, by decide +kernel, ?_⟩
  refine (hreach.remainingCount_eq_zero (by decide +kernel) (fun version hm _ => ?_)
    (hupgraded.trans hrun) (by decide +kernel) (by decide +kernel) (by decide +kernel)
    (.inl (by decide +kernel))).1
  have hchain : start.store.chainIds .schema "article" = ["@v1"] := by decide +kernel
  rw [hchain, List.mem_singleton] at hm
  rw [hm]
  decide +kernel

end Site

end VersionedContent

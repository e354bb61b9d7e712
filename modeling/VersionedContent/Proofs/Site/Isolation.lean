import VersionedContent.Proofs.Site.Running

/-!
# Branches are isolated

Branches may share containers, and still none of them sees what happens on
another one. No call changes what a stored container holds, and only a purge
takes containers out. An edge changes only when a job of its branch runs or when
it is set directly. So what the edges of a branch show stays as it is through
any calls that neither run a job of the branch nor set one of its edges.
-/

namespace VersionedContent

/-- What the container behind an edge holds. -/
def Store.shown? (store : Store) (key : EdgeKey) : Option Container :=
  (store.edge? key).bind fun edge => (store.container? edge.containerId).map Container.unlinked

namespace Site

open VersionedContent.Action

namespace Call

/-- Whether a call runs a job of a kind. -/
def Runs (site : Site) (kind : JobKind) : Call → Prop
  | process job => job.kind = kind
  | runPending => Ran site (after site runPending) kind
  | runWorker guard settings => Ran site (after site (runWorker guard settings)) kind
  | _ => False

/-- Whether a call sets edges of a branch directly. -/
def Writes (branchId : Id) : Call → Prop
  | setEdge edge => edge.branchId = branchId
  | addContent target _ _ _ _ _ => target = branchId
  | _ => False

/-- Whether a call runs a job of a branch or sets edges of it. -/
def Touches (site : Site) (branchId : Id) (call : Call) : Prop :=
  call.Writes branchId ∨ ∃ kind, call.Runs site kind ∧ kind.branchId? = some branchId

/-- Whether each of some calls, made one after another, leaves a branch alone. -/
def Spare (branchId : Id) (site : Site) : List Call → Prop
  | [] => True
  | call :: calls =>
    (call.Allowed site ∧ ¬ call.Touches site branchId) ∧ Spare branchId (call.after site) calls

/-- Whether a call neither runs jobs nor writes content. -/
def isAside : Call → Bool
  | process _ => false
  | runPending => false
  | runWorker .. => false
  | setEdge _ => false
  | addContent .. => false
  | _ => true

end Call

variable {site : Site}

/-- A call of the registry leaves containers and edges alone. -/
theorem Registers.rests {next : Site} (h : Registers site next) : Rests site next := by
  have hstore := h.store.eq
  exact ⟨by rw [hstore], by rw [hstore]⟩

/-- A call that neither runs jobs nor writes content leaves containers and edges alone. -/
theorem Sound.rests (h : Sound site) {call : Call} (hc : call.isAside = true) :
    Rests site (call.after site) := by
  cases call with
  | createSchema kind definition => exact (registers_createSchema h.outages kind definition).rests
  | updateSchema kind name definition renames expected =>
    exact (registers_updateSchema h.outages kind name definition renames expected).rests
  | createVersion kind definition renames =>
    exact (registers_createVersion h.outages kind definition renames).rests
  | compiledAt key => exact ((resting_compiledAt key).leads h.outages).2
  | compiledForVersion version =>
    obtain ⟨cache, hcache⟩ := outcome_compiledForVersion version site
    rw [Call.after, hcache]
    exact ⟨rfl, rfl⟩
  | invalidateCompiled key => exact ⟨rfl, rfl⟩
  | clearCompiled => exact ⟨rfl, rfl⟩
  | createBranch projectId name baseId =>
    exact ((resting_createBranch projectId name baseId).leads h.outages).2
  | assign kind branchId version force =>
    exact ((within_assignOfKind (resting_pinVersion branchId version force) kind).leads
      h.outages).2
  | assignLatest branchId kind name =>
    exact ((within_assignLatest (fun version => resting_pinVersion branchId version false)
      kind name).leads h.outages).2
  | migrateRemaining branchId kind =>
    exact ((within_migrateRemaining resting_logs branchId kind).leads h.outages).2
  | computeHash versionId branchId replacements =>
    exact ((resting_computeHash versionId branchId replacements).leads h.outages).2
  | enqueue kind => exact ((resting_logs.enqueue kind none).leads h.outages).2
  | claimNext => exact ((within_claimNext resting_logs).leads h.outages).2
  | complete id => exact ((within_finish resting_logs id .completed none).leads h.outages).2
  | fail id error => exact ((within_finish resting_logs id .failed (some error)).leads h.outages).2
  | retry id => exact ((within_retry resting_logs id).leads h.outages).2
  | deleteJob id => exact ((within_deleteJob resting_logs id).leads h.outages).2
  | purgeFailed => exact ((within_purgeFailed resting_logs).leads h.outages).2
  | clearJobs => exact ((within_clearJobs resting_logs).leads h.outages).2
  | process job => cases hc
  | runPending => cases hc
  | runWorker guard settings => cases hc
  | setEdge edge => cases hc
  | addContent branchId nodeId language schemaVersionId fields types => cases hc

/-- New content is confined to its branch. -/
theorem confines_addContent (ho : site.outages = []) (branchId nodeId : Id) (language : String)
    (schemaVersionId : Id) (fields : FieldMap) (types : List ContainerType) :
    Confines (some branchId) site
      (outcome (addContent branchId nodeId language schemaVersionId fields types) site).2 := by
  refine ((within_addContent (I := fun site => site.outages = [])
    (fun site container ho _ _ hp _ stored hstored => ?_)
    fun edge he => he ▸ confined_setEdge edge).leads ho).2
  rw [hstored]
  refine ⟨ho, fun _ _ => rfl, fun _ id hid => ?_⟩
  rw [Store.container?_insert hp rfl]
  split_ifs
  · simp
  · simpa using hid

/-- Whether a call changes edges only on branches that it touches, and takes containers out only if
it runs a purge. -/
structure Call.Owns (site : Site) (call : Call) : Prop where
  /-- Where an edge has changed, the branch has been touched. -/
  edges : ∀ key, (call.after site).store.edge? key ≠ site.store.edge? key →
    call.Touches site key.branchId
  /-- Where a container has gone, a purge ran. -/
  removed : ∀ id, site.store.container? id ≠ none → (call.after site).store.container? id = none →
    ∃ kind, call.Runs site kind ∧ kind.type = .versionPurge

variable {call : Call}

/-- The edges of a branch that a call leaves alone are the same. -/
theorem Call.Owns.edge?_eq (h : call.Owns site) {key : EdgeKey}
    (hn : ¬ call.Touches site key.branchId) :
    (call.after site).store.edge? key = site.store.edge? key := by
  by_contra hk
  exact hn (h.edges key hk)

/-- A call may leave content alone. -/
theorem Rests.owns (h : Rests site (call.after site)) : call.Owns site where
  edges key hk := absurd (by rw [Store.edge?, h.edges, Store.edge?]) hk
  removed id hid hgone := by
    rw [Store.container?, h.containers] at hgone
    exact absurd hgone hid

/-- A call may be confined to a branch that it writes to. -/
theorem Confines.owns {branchId : Id} (h : Confines (some branchId) site (call.after site))
    (hw : call.Writes branchId) : call.Owns site where
  edges key hk := by
    by_cases hb : branchId = key.branchId
    · exact .inl (hb ▸ hw)
    · exact absurd (h.edges key (by simpa using hb)) hk
  removed id hid hgone := absurd hgone (h.kept (by simp) id hid)

/-- A call may run a job that is confined to its branch. -/
theorem Confines.owns_of_runs {kind : JobKind}
    (h : Confines kind.branchId? site (call.after site)) (hr : call.Runs site kind) :
    call.Owns site where
  edges key hk := by
    refine .inr ⟨kind, hr, ?_⟩
    by_contra hb
    exact hk (h.edges key hb)
  removed id hid hgone := by
    refine ⟨kind, hr, JobKind.type_eq_versionPurge ?_⟩
    by_contra hb
    exact h.kept hb id hid hgone

/-- A call may run jobs that wait. -/
theorem Progresses.owns (h : Progresses site (call.after site))
    (hr : ∀ kind, Ran site (call.after site) kind → call.Runs site kind) : call.Owns site where
  edges key hk := by
    obtain ⟨kind, hran, hb⟩ := h.edges key hk
    exact .inr ⟨kind, hr kind hran, hb⟩
  removed id hid hgone := by
    obtain ⟨kind, hran, ht⟩ := h.removed id hid hgone
    exact ⟨kind, hr kind hran, ht⟩

/-- Whatever a call changes is its own. -/
theorem Reachable.owns (h : Reachable site) (call : Call) : call.Owns site := by
  have ho := h.sound.outages
  cases call with
  | process job => exact (confines_process h.sound h.historied job).owns_of_runs rfl
  | runPending => exact (progresses_runPending.leads h).2.owns fun _ => id
  | runWorker guard settings =>
    exact ((progresses_runWorker guard settings).leads h).2.owns fun _ => id
  | setEdge edge => exact ((confined_setEdge edge).leads ho).2.owns rfl
  | addContent branchId nodeId language schemaVersionId fields types =>
    exact (confines_addContent ho branchId nodeId language schemaVersionId fields types).owns rfl
  | _ => exact (h.sound.rests rfl).owns

/-- What an edge shows after a call that leaves its branch alone is what it has shown before. -/
theorem Reachable.shown?_after (h : Reachable site) (ha : call.Allowed site) {key : EdgeKey}
    (hn : ¬ call.Touches site key.branchId) :
    (call.after site).store.shown? key = site.store.shown? key := by
  have hedge := (h.owns call).edge?_eq hn
  unfold Store.shown?
  rw [hedge]
  cases he : site.store.edge? key with
  | none => rfl
  | some edge =>
    obtain ⟨container, hc⟩ := Option.ne_none_iff_exists'.mp (h.sound.steady.held key edge he)
    obtain ⟨found, hf⟩ := Option.ne_none_iff_exists'.mp
      ((h.sound.after ha).steady.held key edge (hedge.trans he))
    rw [Option.bind_some, Option.bind_some, hc, hf, Option.map_some, Option.map_some,
      (h.sound.edits ha).unlinked_eq h.historied hc hf]

/-- What an edge shows after calls that leave its branch alone is what it has shown before. -/
theorem Reachable.shown?_afterAll {calls : List Call} (h : Reachable site) {key : EdgeKey}
    (hs : Call.Spare key.branchId site calls) :
    (Call.afterAll site calls).store.shown? key = site.store.shown? key := by
  induction calls generalizing site with
  | nil => rfl
  | cons call calls ih =>
    obtain ⟨⟨ha, hn⟩, hrest⟩ := hs
    exact (ih (h.call call ha) hrest).trans (h.shown?_after ha hn)

/-- On every reachable site, no call changes what a stored container holds, only a call that runs a
purge takes containers out, and a call that neither runs a job of a branch nor sets one of its edges
leaves every edge of it as it is. So through any such calls the edges of a branch show what they
showed. -/
theorem Reachable.branches_isolated (h : Reachable site) :
    (∀ call : Call, call.Allowed site →
      (∀ id container found, site.store.container? id = some container →
        (call.after site).store.container? id = some found →
          found.unlinked = container.unlinked) ∧
      ((∀ kind, call.Runs site kind → kind.type ≠ .versionPurge) →
        ∀ id, site.store.container? id ≠ none → (call.after site).store.container? id ≠ none) ∧
      ∀ key : EdgeKey, ¬ call.Touches site key.branchId →
        (call.after site).store.edge? key = site.store.edge? key) ∧
    ∀ branchId calls, Call.Spare branchId site calls → ∀ key : EdgeKey, key.branchId = branchId →
      (Call.afterAll site calls).store.shown? key = site.store.shown? key := by
  refine ⟨fun call ha => ⟨fun id container found hc hf => ?_, fun hpurge id hid hgone => ?_,
    fun key hn => (h.owns call).edge?_eq hn⟩, ?_⟩
  · exact (h.sound.edits ha).unlinked_eq h.historied hc hf
  · obtain ⟨kind, hr, ht⟩ := (h.owns call).removed id hid hgone
    exact hpurge kind hr ht
  · rintro branchId calls hs key rfl
    exact h.shown?_afterAll hs

/-- Of two branches that share a container the one follows its schema, and the other one shows what
it showed. -/
theorem branches_isolated_of_shared_container :
    let flagged (type : FieldType) : Definition :=
      { name := "article", fields := [{ name := "flag", type := type }] }
    let calls : List Call :=
      [.createSchema .schema (flagged .string), .createBranch "p1" "main" none,
        .assignLatest "@b1" .schema "article",
        .addContent "@b1" "n1" "en" "@v1" [("flag", .string "true")] [.draft],
        .createBranch "p1" "fork" (some "@b1"), .runPending,
        .updateSchema .schema "article" (flagged .boolean) [] none,
        .assignLatest "@b1" .schema "article", .claimNext]
    let site := Call.afterAll (.empty (.ticking ⟨0, 0⟩) 10 10) calls
    ∃ entry ∈ site.store.jobs.entries, entry.job.status = .started ∧
      entry.job.kind = .schema "@b1" "@v1" "@v2" ∧
      site.store.edges.rows.map (fun edge => (edge.branchId, edge.containerId)) =
        [("@b1", "@c1"), ("@b2", "@c1")] ∧
      ((Call.process entry.job).after site).store.edges.rows.map
          (fun edge => (edge.branchId, edge.containerId)) =
        [("@b1", "@c2"), ("@b2", "@c1")] ∧
      ∀ key : EdgeKey, key.branchId = "@b2" →
        ((Call.process entry.job).after site).store.shown? key = site.store.shown? key := by
  intro flagged calls site
  have hgiven : Call.areGiven (.empty (.ticking ⟨0, 0⟩) 10 10) calls = true := by decide +kernel
  have hreached : Reachable site :=
    (Managed.calls (.empty (.ticking ⟨0, 0⟩) 10 10) hgiven).reachable
  let entry := site.store.jobs.entries.getLast (by decide +kernel)
  have hm : entry ∈ site.store.jobs.entries :=
    @List.getLast_mem _ site.store.jobs.entries (by decide +kernel)
  have hjob : entry.job.kind = .schema "@b1" "@v1" "@v2" := by decide +kernel
  have hspare : Call.Spare "@b2" site [.process entry.job] := by
    refine ⟨⟨trivial, ?_⟩, trivial⟩
    rintro (hw | ⟨kind, rfl, hb⟩)
    · exact hw
    · rw [hjob] at hb
      simp [JobKind.branchId?] at hb
  have hshown := hreached.branches_isolated.2 "@b2" [.process entry.job] hspare
  rw [Call.afterAll, List.foldl_cons, List.foldl_nil] at hshown
  exact ⟨entry, hm, by decide +kernel, hjob, by decide +kernel, by decide +kernel, hshown⟩

end Site

end VersionedContent

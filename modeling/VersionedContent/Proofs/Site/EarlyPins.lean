import VersionedContent.Proofs.Site.Copying
import VersionedContent.Proofs.Site.Draining
import VersionedContent.Proofs.Site.Rest

/-!
# Pins that move before the content arrives

A fork has no content until its job has run, so that a pin that moves on it
before counts nothing to be carried on and queues no job. The job of the fork
then copies the content of the base as it is, at the versions that it follows
there. What stood off the new pin on the base stands off it on the fork, and no
job is left to carry it on.
-/

namespace VersionedContent

namespace Store

/-- Without edges no content of a branch is counted. -/
theorem countEdges_eq_zero_of_vacant {store : Store} {branchId : Id}
    (hv : ∀ edge ∈ store.edges.rows, edge.branchId ≠ branchId) (kind : Kind) (versionId : Id) :
    store.countEdges kind branchId versionId = 0 := by
  have hnone : (store.edges.rows.filter fun edge => edge.branchId = branchId) = [] :=
    List.filter_eq_nil_iff.mpr fun edge hm => by simpa using hv edge hm
  rw [countEdges_eq_countP, hnone, List.countP_nil]

/-- What pinning a version on a branch without content may do to the records. -/
inductive Repinned (store : Store) (branchId : Id) : Store → Prop
  /-- The pin stays. -/
  | kept : Repinned store branchId store
  /-- The pin moves, and nothing is queued. -/
  | pinned {branch : Branch} {version : Version} (found : store.branch? branchId = some branch) :
      Repinned store branchId
        { store with branches := store.branches.insert (branch.pin version) }

/-- Whether a fork of a store waits for the content of its base, while its pins may have moved. -/
structure Awaits (start : Store) (jobs : JobLog) (forkId baseId : Id) (store : Store) : Prop where
  /-- Only branches and jobs differ. -/
  aside : store = { start with branches := store.branches, jobs := jobs }
  /-- The fork is not migrated. -/
  fork : ∃ fork, store.branch? forkId = some fork ∧ fork.migrated = false ∧
    fork.baseId = some baseId

/-- A pin that moves on a fork lets it wait on. -/
theorem Awaits.repinned {start store next : Store} {jobs : JobLog} {forkId baseId : Id}
    (h : Awaits start jobs forkId baseId store) (hr : store.Repinned forkId next) :
    Awaits start jobs forkId baseId next := by
  cases hr with
  | kept => exact h
  | @pinned branch version found =>
    obtain ⟨fork, hf, hmigrated, hbase⟩ := h.fork
    obtain rfl : branch = fork := Option.some.inj (found.symm.trans hf)
    have haside := branch.pin_aside version
    have hid : forkId = (branch.pin version).id := by
      rw [branch.pin_id, (store.branches.find?_eq_some_iff.mp hf).2]
    exact ⟨by rw [h.aside], branch.pin version,
      (store.branches.find?_insert (branch.pin version) forkId).trans (if_pos hid),
      (congrArg Branch.migrated haside).trans hmigrated,
      (congrArg Branch.baseId haside).trans hbase⟩

end Store

namespace Site

open VersionedContent.Action

variable {site : Site} {branchId : Id}

/-- Pinning a version on a branch without content queues nothing. -/
theorem repinned_pinVersion (h : Sound site)
    (hv : ∀ edge ∈ site.store.edges.rows, edge.branchId ≠ branchId) (requested : Version)
    (force : Bool) :
    site.store.Repinned branchId (outcome (pinVersion branchId requested force) site).2.store := by
  rcases outcome_pinVersion site branchId requested force with
    ⟨answer, ho⟩ | ⟨branch, version, former, -, hmay, ho⟩
  · rw [ho]
    exact .kept
  · have hmoves := repin_spec h hmay.found hmay.stored former
    rw [ho]
    generalize (outcome (repin branchId branch version former) site).2.store = next at hmoves ⊢
    cases hmoves with
    | clear _ => exact .pinned hmay.found
    | queued _ _ pending =>
      obtain ⟨older, -, -, hne⟩ := pending
      exact absurd (Store.countEdges_eq_zero_of_vacant hv version.kind older.id) hne

/-- The calls that pin versions on a branch. -/
inductive Call.Pins (branchId : Id) : Call → Prop
  /-- A version is pinned. -/
  | assign (kind : Kind) (version : Version) (force : Bool) :
      Pins branchId (.assign kind branchId version force)
  /-- The latest version of a chain is pinned. -/
  | assignLatest (kind : Kind) (name : String) : Pins branchId (.assignLatest branchId kind name)

/-- The calls that pin versions can be made. -/
theorem Call.Pins.allowed {call : Call} (hp : call.Pins branchId) : call.Allowed site := by
  cases hp <;> trivial

/-- A call that pins a version on a branch without content queues nothing. -/
theorem Call.Pins.repinned (h : Sound site)
    (hv : ∀ edge ∈ site.store.edges.rows, edge.branchId ≠ branchId) {call : Call}
    (hp : call.Pins branchId) : site.store.Repinned branchId (call.after site).store := by
  cases hp with
  | assign kind version force =>
    rw [Call.after]
    rcases outcome_assignOfKind kind branchId version force site with ⟨answer, ho⟩ | ho <;> rw [ho]
    · exact .kept
    · exact repinned_pinVersion h hv version force
  | assignLatest kind name =>
    rw [Call.after]
    rcases outcome_assignLatest branchId kind name site with ⟨answer, ho⟩ | ⟨latest, -, ho⟩ <;>
      rw [ho]
    · exact .kept
    · exact repinned_pinVersion h hv latest false

variable {start : Store} {jobs : JobLog} {forkId baseId : Id}

/-- While its pins move, a fork waits for the content of its base. -/
theorem awaits_afterAll (h : Reachable site) (ha : start.Awaits jobs forkId baseId site.store)
    (hv : ∀ edge ∈ start.edges.rows, edge.branchId ≠ forkId) {calls : List Call}
    (hp : ∀ call ∈ calls, call.Pins forkId) :
    Reachable (Call.afterAll site calls) ∧
      start.Awaits jobs forkId baseId (Call.afterAll site calls).store := by
  induction calls generalizing site with
  | nil => exact ⟨h, ha⟩
  | cons call rest ih =>
    have hcall := hp call List.mem_cons_self
    have hedges : site.store.edges = start.edges := by rw [ha.aside]
    have hrepinned := hcall.repinned h.sound (hedges ▸ hv)
    exact ih (h.call call hcall.allowed) (ha.repinned hrepinned) fun other hm =>
      hp other (List.mem_cons_of_mem _ hm)

/-- A new fork waits for the content of its base. -/
theorem awaits_createBranch {start forked : Site} (h : Reachable start) {projectId : Id}
    {name : String} {fork : Branch} {job : Option Job}
    (hc : outcome (createBranch projectId name (some baseId)) start = (.ok (fork, job), forked)) :
    fork.id = start.issued.branches.next ∧
      ∃ createdAt, start.store.Awaits (start.store.jobs.append (.queue
        start.issued.jobs.next createdAt (.branch fork.id none none) none)) fork.id baseId
          forked.store := by
  rcases outcome_createBranch h.sound.outages projectId name (some baseId) with
    ⟨failure, ho⟩ | ⟨branch, queued, hnew, ho⟩
  · rw [hc] at ho
    cases ho
  · rw [hc] at ho
    obtain ⟨hanswer, hforked⟩ := Prod.mk.inj ho
    obtain ⟨rfl, -⟩ := Prod.mk.inj (Except.ok.inj hanswer)
    refine ⟨hnew.id_eq, (start.growing projectId fork).clock.reading
      (start.growing projectId fork).clock.reads, by rw [hforked]; rfl, fork, ?_,
      hnew.migrated_eq, hnew.baseId_eq⟩
    rw [hforked]
    exact (Table.find?_insert _ fork fork.id).trans (if_pos rfl)

/-- Running the one job that is left copies the content of the base to a fork that waits for it, and
leaves its pins. -/
theorem outcome_runPending_of_awaits (h : Reachable site)
    (hended : JobLog.AllEnded start.jobs.entries)
    (hv : ∀ edge ∈ start.edges.rows, edge.branchId ≠ forkId) {jobId : Id}
    {createdAt : Instant} (ha : start.Awaits (start.jobs.append (.queue jobId createdAt
      (.branch forkId none none) none)) forkId baseId site.store) :
    ∃ done last, outcome runPending site = (.ok [done], last) ∧
      done.kind = .branch forkId none none ∧ done.status = .completed ∧
      last.store.jobs.jobs = start.jobs.jobs ++ [done] ∧
      last.store.versions = start.versions ∧
      (∀ kind name, last.store.pin? forkId kind name = site.store.pin? forkId kind name) ∧
      ∀ kind versionId,
        last.store.countEdges kind forkId versionId = start.countEdges kind baseId versionId := by
  have hentries : site.store.jobs.entries = start.jobs.entries ++
      [⟨start.jobs.nextSequence, .queue jobId createdAt (.branch forkId none none) none⟩] := by
    rw [ha.aside]
    rfl
  obtain ⟨branch, hb, hmigrated, hbase⟩ := ha.fork
  obtain ⟨dones, last, hpending, hall, hjobs⟩ := outcome_runPending h.sound
    ⟨hentries, hended, by simp [Job.queue]⟩
  obtain ⟨done, rfl, hruns⟩ := hall.exists_of_single
  refine ⟨done, last, hpending, ?_⟩
  cases hruns with
  | @intro claimed executed answer hsound hstore hexec hlast hqueued hstatus =>
    have hfound : claimed.store.branch? forkId = some branch := by
      rw [hstore]
      exact hb
    obtain ⟨copied, hrun, hcopied⟩ :=
      outcome_copyBaseBranch hsound.steady hsound.bucketSize hfound hmigrated hbase
    obtain ⟨rfl, rfl⟩ := Prod.mk.inj (hexec.symm.trans (outcome_bind_of_ok hrun _))
    refine ⟨Job.kind_eq_of_asQueued_eq hqueued, hstatus, hjobs, ?_, fun kind name => ?_,
      fun kind versionId => ?_⟩
    · rw [hlast]
      dsimp only
      rw [hcopied.aside, hstore, ha.aside]
    · have hmarked : last.store.branch? forkId = some { branch with migrated := true } := by
        have hsame : forkId = branch.id := ((Table.find?_eq_some_iff _).mp hfound).2.symm
        have hfind := claimed.store.branches.find?_insert { branch with migrated := true } forkId
        rw [if_pos hsame] at hfind
        rw [hlast]
        exact hfind
      exact Store.pin?_eq_of_pins_eq (by rw [hmarked, hb]; rfl) kind name
    · have hcopy : last.store.countEdges kind forkId versionId =
          copied.countEdges kind forkId versionId := by
        rw [hlast]
        rfl
      rw [hcopy, hcopied.countEdges_eq (by rw [hstore, ha.aside]; exact hv), hstore, ha.aside]
      rfl

/-- When versions are pinned on a fork before its job has run, that job copies the content of the
base and ends well, no other job is left, and what remains on the fork is the content of the base
that stands at versions other than the pins of the fork. -/
theorem Reachable.remainingCount_of_early_pins {start forked : Site} (h : Reachable start)
    (hended : JobLog.AllEnded start.store.jobs.entries)
    (hedges : ∀ edge ∈ start.store.edges.rows, start.store.branch? edge.branchId ≠ none)
    {projectId : Id} {name : String} {fork : Branch} {job : Option Job}
    (hc : outcome (createBranch projectId name (some baseId)) start = (.ok (fork, job), forked))
    {calls : List Call} (hp : ∀ call ∈ calls, call.Pins fork.id) :
    ∃ done last, outcome runPending (Call.afterAll forked calls) = (.ok [done], last) ∧
      done.kind = .branch fork.id none none ∧ done.status = .completed ∧
      last.store.jobs.jobs = start.store.jobs.jobs ++ [done] ∧
      (∀ kind name, last.store.pin? fork.id kind name =
        (Call.afterAll forked calls).store.pin? fork.id kind name) ∧
      ∀ kind name pinned, last.store.pin? fork.id kind name = some pinned →
        outcome (remainingCount fork.id kind name) last =
          (.ok (((start.store.chainVersions kind name).filter fun version =>
            version.id ≠ pinned).map fun version =>
              start.store.countEdges kind baseId version.id).sum, last) := by
  obtain ⟨hid, createdAt, hawaits⟩ := awaits_createBranch h hc
  have hvacant : ∀ edge ∈ start.store.edges.rows, edge.branchId ≠ fork.id := by
    intro edge hm he
    refine hedges edge hm ?_
    rw [he, hid]
    exact h.branch?_label
  have hforked : Reachable forked := by
    have hcall := h.call (.createBranch projectId name (some baseId)) trivial
    rw [Call.after, hc] at hcall
    exact hcall
  obtain ⟨hreach, ha⟩ := awaits_afterAll hforked hawaits hvacant hp
  obtain ⟨done, last, hpending, hkind, hstatus, hjobs, hversions, hpins, hcount⟩ :=
    outcome_runPending_of_awaits hreach hended hvacant ha
  have hsound : Sound last := by
    have hcall := (hreach.call .runPending trivial).sound
    rw [Call.after, hpending] at hcall
    exact hcall
  refine ⟨done, last, hpending, hkind, hstatus, hjobs, hpins, fun kind name pinned hpin => ?_⟩
  simp only [outcome_remainingCount hsound hpin, Store.chainVersions, hversions, hcount]

/-- The content of a base at the first version remains there on a fork that was upgraded before its
job ran, though that job has ended well. -/
theorem remainingCount_of_early_upgrade :
    let article (fields : List FieldSpec) : Definition := { name := "article", fields := fields }
    let calls : List Call :=
      [.createSchema .schema (article [{ name := "title", type := .string }]),
        .createBranch "p1" "main" none, .assignLatest "@b1" .schema "article",
        .addContent "@b1" "n1" "en" "@v1" [("title", .string "Hello")] [.draft],
        .updateSchema .schema "article" (article [{ name := "title", type := .string },
          { name := "subtitle", type := .string }]) [] none]
    let start := Call.afterAll (.empty (.ticking ⟨0, 0⟩) 10 10) calls
    let forked := (Call.createBranch "p1" "fork" (some "@b1")).after start
    outcome (remainingCount "@b1" .schema "article") start = (.ok 0, start) ∧
      ∃ upgrade ∈ start.store.versions.rows, ∃ done last,
        outcome runPending (Call.afterAll forked [.assign .schema "@b2" upgrade false]) =
          (.ok [done], last) ∧
        (∀ job ∈ last.store.jobs.jobs, job.status = .completed) ∧
        last.store.pin? "@b2" .schema "article" = some "@v2" ∧
        outcome (remainingCount "@b2" .schema "article") last = (.ok 1, last) := by
  intro article calls start forked
  have hgiven : Call.areGiven (.empty (.ticking ⟨0, 0⟩) 10 10) calls = true := by decide +kernel
  have hreach : Reachable start :=
    (Managed.calls (.empty (.ticking ⟨0, 0⟩) 10 10) hgiven).reachable
  let upgrade := start.store.versions.rows.getLast (by decide +kernel)
  have hm : upgrade ∈ start.store.versions.rows :=
    @List.getLast_mem _ start.store.versions.rows (by decide +kernel)
  have hended : JobLog.AllEnded start.store.jobs.entries := by decide +kernel
  have hnojobs : start.store.jobs.jobs.length = 0 := by decide +kernel
  have hedges : ∀ edge ∈ start.store.edges.rows,
      (start.store.branch? edge.branchId).isSome = true := by decide +kernel
  have hnone : (((start.store.chainVersions .schema "article").filter fun version =>
      version.id ≠ "@v1").map fun version =>
        start.store.countEdges .schema "@b1" version.id).sum = 0 := by decide +kernel
  have hsome : (((start.store.chainVersions .schema "article").filter fun version =>
      version.id ≠ "@v2").map fun version =>
        start.store.countEdges .schema "@b1" version.id).sum = 1 := by decide +kernel
  have hremaining : outcome (remainingCount "@b1" .schema "article") start = (.ok 0, start) := by
    have hpin : start.store.pin? "@b1" .schema "article" = some "@v1" := by decide +kernel
    rw [outcome_remainingCount hreach.sound hpin, hnone]
  rcases hc : outcome (createBranch "p1" "fork" (some "@b1")) start with
    ⟨failure | ⟨fork, job⟩, next⟩
  · have hok : (outcome (createBranch "p1" "fork" (some "@b1")) start).1.toBool = true := by
      decide +kernel
    rw [hc] at hok
    cases hok
  · have hforked : forked = next := congrArg Prod.snd hc
    have hid : fork.id = "@b2" := by
      rw [(awaits_createBranch hreach hc).1]
      decide +kernel
    have hpins : ∀ call ∈ [Call.assign .schema "@b2" upgrade false], call.Pins fork.id := by
      rw [hid]
      intro call hcall
      rw [List.mem_singleton.mp hcall]
      exact .assign ..
    obtain ⟨done, last, hpending, -, hdone, hjobs, hpin, hcount⟩ :=
      hreach.remainingCount_of_early_pins hended
        (fun edge he => Option.isSome_iff_ne_none.mp (hedges edge he)) hc hpins
    rw [hid] at hpin hcount
    rw [← hforked] at hpending hpin
    have hpinned : last.store.pin? "@b2" .schema "article" = some "@v2" := by
      rw [hpin]
      decide +kernel
    refine ⟨hremaining, upgrade, hm, done, last, hpending, ?_, hpinned, ?_⟩
    · rw [hjobs, List.length_eq_zero_iff.mp hnojobs, List.nil_append]
      intro other ho
      rw [List.mem_singleton.mp ho]
      exact hdone
    · rw [hcount .schema "article" "@v2" hpinned, hsome]

end Site

end VersionedContent

import VersionedContent.Proofs.Site.Draining
import VersionedContent.Proofs.Site.Queueing
import VersionedContent.Proofs.Site.Reach
import VersionedContent.Proofs.Site.Vacating

/-!
# Nothing is left behind

When the jobs for the content that is behind the pins of a branch have run and all
are completed, no content of the branch is behind. A completed move takes content
off its source and brings it to its target only. Sources are no pins and targets
are pins, so that no job brings back what another one has moved, and what no job
has moved was not behind.
-/

namespace VersionedContent

/-- Moves of one kind are the same when their branches and versions are. -/
theorem JobKind.migration_inj {kind : Kind} {branchId source target branchId' source' target' : Id}
    (h : migration kind branchId source target = migration kind branchId' source' target') :
    branchId = branchId' ∧ source = source' ∧ target = target' := by
  cases kind <;> cases h <;> exact ⟨rfl, rfl, rfl⟩

namespace Store

variable {origin next : Store} {branchId versionId : Id} {kind : Kind} {plan : MigrationPlan}
  {heir : EdgeKey → Option Container}

/-- Whether a branch pins a version of a kind, for some name. -/
def Pins (store : Store) (branchId : Id) (kind : Kind) (id : Id) : Prop :=
  ∃ name, store.pin? branchId kind name = some id

/-- A version is counted on a branch when content of the branch follows it. -/
theorem countEdges_ne_zero_iff_contentOf :
    origin.countEdges kind branchId versionId ≠ 0 ↔
      ∃ entry, entry ∈ origin.contentOf kind versionId branchId := by
  simp only [countEdges_ne_zero_iff, mem_contentOf, Prod.exists]
  constructor
  · rintro ⟨edge, hm, hb, container, hc, hf⟩
    exact ⟨edge, container, hm, hb, hc, hf⟩
  · rintro ⟨edge, container, hm, hb, hc, hf⟩
    exact ⟨edge, hm, hb, container, hc, hf⟩

/-- When nothing is reported of what followed the source, nothing follows it any longer; what
follows another version than the target has done so before. -/
theorem Vacated.countEdges_ne_zero (h : Vacated origin next branchId plan heir)
    (hne : plan.source.id ≠ plan.target.id)
    (hnone : ∀ entry ∈ origin.contentOf plan.source.kind plan.source.id branchId,
      plan.report? entry = none)
    (ht : versionId ≠ plan.target.id)
    (hc : next.countEdges plan.source.kind branchId versionId ≠ 0) :
    versionId ≠ plan.source.id ∧ origin.countEdges plan.source.kind branchId versionId ≠ 0 := by
  obtain ⟨entry, hm⟩ := countEdges_ne_zero_iff_contentOf.mp hc
  obtain ⟨old, hold, hsource⟩ := h.exists_of_mem_contentOf ht hm
  refine ⟨?_, countEdges_ne_zero_iff_contentOf.mpr ⟨old, hold⟩⟩
  rintro rfl
  have hdone : plan.isDone old.2 = false := by
    rw [MigrationPlan.isDone_of_follows (mem_contentOf.mp hold).2.2.2]
    exact decide_eq_false fun hsame => hne hsame.2
  obtain ⟨successor, hheir, -⟩ :=
    (h.bequeathed old hold).exists_of_report? hdone (hnone old hold)
  exact absurd (hheir.symm.trans (hsource rfl).1) (Option.some_ne_none _)

/-- A migration that reports nothing had a plan and a branch. -/
theorem exists_of_migrationAnswer_eq_nil {planned : Except Failure MigrationPlan}
    (h : origin.migrationAnswer branchId planned = .ok []) :
    ∃ plan, planned = .ok plan ∧ origin.branch? branchId ≠ none ∧
      ∀ entry ∈ origin.contentOf plan.source.kind plan.source.id branchId,
        plan.report? entry = none := by
  cases planned with
  | error failure => cases h
  | ok plan =>
    unfold migrationAnswer at h
    cases hb : origin.branch? branchId with
    | none => simp [hb] at h
    | some branch =>
      simp only [hb, Except.ok.injEq] at h
      exact ⟨plan, rfl, Option.some_ne_none branch, List.filterMap_eq_nil_iff.mp h⟩

end Store

namespace Site

open VersionedContent.Action

variable {site next last : Site} {branchId source target versionId : Id} {kind : Kind}
  {job done : Job} {jobs dones : List Job}

/-- A job that was completed had nothing to report. -/
theorem eq_nil_of_verdict {answer : Except Failure (List ContainerError)}
    (h : (verdict answer).1 = .completed) : answer = .ok [] := by
  rcases answer with failure | errors
  · cases h
  · cases errors with
    | nil => rfl
    | cons error rest => cases h

/-- A move that has been run leaves versions and branches as they are. When it was completed, its
content is off the source, and nothing was reported. -/
theorem Runs.exists_vacated (h : Runs site job done next)
    (hk : job.kind = .migration kind branchId source target) :
    ∃ heir, site.store.Succeeded next.store heir ∧
      (done.status = .completed → ∃ plan : MigrationPlan, plan.source.kind = kind ∧
        plan.source.id = source ∧ plan.target.id = target ∧
        Store.Vacated site.store next.store branchId plan heir ∧
        ∀ entry ∈ site.store.contentOf plan.source.kind plan.source.id branchId,
          plan.report? entry = none) := by
  cases h with
  | @intro claimed executed answer hsound hclaimed hexec hnext hqueued hstatus =>
    obtain ⟨log, hstore⟩ : ∃ log, claimed.store = { site.store with jobs := log } := ⟨_, hclaimed⟩
    obtain ⟨other, heir, hrun, hsucceeded, hheirs⟩ :=
      outcome_execute_migration hsound kind branchId source target
    rw [hk, hrun] at hexec
    obtain ⟨hanswer, rfl⟩ := Prod.mk.inj hexec
    have hmoved : site.store.Succeeded next.store heir := by
      rw [hstore] at hsucceeded
      rw [hnext]
      exact { hsucceeded with }
    refine ⟨heir, hmoved, fun hd => ?_⟩
    rw [eq_nil_of_verdict (hstatus.symm.trans hd)] at hanswer
    obtain ⟨plan, hplan, hbranch, hnone⟩ := Store.exists_of_migrationAnswer_eq_nil hanswer
    obtain ⟨hs, ht⟩ := ids_of_plan hplan
    have hkind := ((recached_plan hsound kind source target).2 plan hplan).1
    have hheld := hsound.steady.held
    rw [hplan] at hheirs
    rw [hstore] at hheirs hbranch hnone hheld
    have hvacated := hheirs.vacated hbranch { hmoved with } hheld
    exact ⟨plan, hkind, hs, ht, { hvacated with }, hnone⟩

/-- What is counted after a completed move, at another version than its target, is off its source,
and was counted before. -/
theorem Runs.countEdges_ne_zero (h : Runs site job done next)
    (hk : job.kind = .migration kind branchId source target) (hne : source ≠ target)
    (hd : done.status = .completed) (ht : versionId ≠ target)
    (hc : next.store.countEdges kind branchId versionId ≠ 0) :
    versionId ≠ source ∧ site.store.countEdges kind branchId versionId ≠ 0 := by
  obtain ⟨heir, -, hvacated⟩ := h.exists_vacated hk
  obtain ⟨plan, rfl, rfl, rfl, hv, hnone⟩ := hvacated hd
  exact hv.countEdges_ne_zero hne hnone ht hc

/-- Moves that have been run leave versions and branches as they are. -/
theorem RunsAll.aside (h : RunsAll site jobs dones last)
    (hk : ∀ job ∈ jobs, ∃ kind branchId source target,
      job.kind = .migration kind branchId source target) :
    last.store.versions = site.store.versions ∧ last.store.branches = site.store.branches := by
  induction h with
  | nil hstore => rw [hstore]; exact ⟨rfl, rfl⟩
  | @cons site next last job done jobs rest first _ ih =>
    obtain ⟨kind, branchId, source, target, hkind⟩ := hk job List.mem_cons_self
    obtain ⟨heir, hs, -⟩ := first.exists_vacated hkind
    obtain ⟨hversions, hbranches⟩ := ih fun other hm => hk other (List.mem_cons_of_mem _ hm)
    exact ⟨hversions.trans hs.versions, hbranches.trans hs.branches⟩

/-- What is counted at some version after completed moves, all of which lead from versions that have
no mark to marked ones, was counted before and is off all sources, when the version has no mark. -/
theorem RunsAll.countEdges_ne_zero {Marked : Id → Prop} (h : RunsAll site jobs dones last)
    (hk : ∀ job ∈ jobs, ∃ source target, job.kind = .migration kind branchId source target ∧
      ¬ Marked source ∧ Marked target)
    (hd : ∀ done ∈ dones, done.status = .completed) (hv : ¬ Marked versionId)
    (hc : last.store.countEdges kind branchId versionId ≠ 0) :
    site.store.countEdges kind branchId versionId ≠ 0 ∧
      ∀ target, JobKind.migration kind branchId versionId target ∉ jobs.map Job.kind := by
  induction h with
  | nil hstore => rw [← hstore]; exact ⟨hc, by simp⟩
  | @cons site next last job done jobs rest first _ ih =>
    obtain ⟨source, target, hkind, hs, ht⟩ := hk job List.mem_cons_self
    obtain ⟨hbetween, hothers⟩ := ih (fun other hm => hk other (List.mem_cons_of_mem _ hm))
      (fun other hm => hd other (List.mem_cons_of_mem _ hm)) hc
    have hapart : source ≠ target := fun he => hs (he ▸ ht)
    obtain ⟨hoff, hbefore⟩ := first.countEdges_ne_zero hkind hapart (hd done List.mem_cons_self)
      (fun he : versionId = target => hv (he ▸ ht)) hbetween
    refine ⟨hbefore, fun other hm => ?_⟩
    rcases List.mem_cons.mp hm with he | hm
    · exact hoff (JobKind.migration_inj (he.trans hkind)).2.1
    · exact hothers other hm

/-- A version below another one of its chain that a branch pins is not pinned itself. -/
theorem Sound.not_pins_of_lt (h : Sound site) {pinned older : Version}
    (hp : pinned ∈ site.store.pinnedVersions branchId kind)
    (ho : older ∈ site.store.chainVersions pinned.kind pinned.name)
    (hlt : older.number < pinned.number) : ¬ site.store.Pins branchId kind older.id := by
  rintro ⟨name, hpin⟩
  obtain ⟨hrow, rfl, hpinned⟩ := h.mem_pinnedVersions.mp hp
  obtain ⟨hold, hk, hn⟩ := Store.mem_chainVersions.mp ho
  obtain ⟨branch, hb, hget⟩ := Option.bind_eq_some_iff.mp hpin
  obtain ⟨other, hm, hid⟩ := h.exists_of_pinned? hb hget
  obtain ⟨hother, -, rfl⟩ := Store.mem_chainVersions.mp hm
  obtain rfl := site.store.versions.eq_of_key_eq hother hold hid
  rw [hn, hpinned] at hpin
  obtain rfl := site.store.versions.eq_of_key_eq hrow hold (Option.some.inj hpin)
  exact Nat.lt_irrefl _ hlt

/-- What is overdue on a branch leads from versions that it does not pin to some that it pins. -/
theorem Sound.leads_to_pin (h : Sound site) {move : JobKind}
    (hm : move ∈ (site.store.pinnedVersions branchId kind).flatMap (site.store.overdue branchId)) :
    ∃ source target, move = .migration kind branchId source target ∧
      ¬ site.store.Pins branchId kind source ∧ site.store.Pins branchId kind target := by
  obtain ⟨pinned, hp, ho⟩ := List.mem_flatMap.mp hm
  obtain ⟨older, hchain, hlt, -, rfl⟩ := Store.mem_overdue.mp ho
  have hsource := h.not_pins_of_lt hp hchain hlt
  obtain ⟨-, rfl, hpin⟩ := h.mem_pinnedVersions.mp hp
  exact ⟨older.id, pinned.id, rfl, hsource, pinned.name, hpin⟩

/-- When what is overdue on a branch has been run and completed, no content is behind its pins. -/
theorem Sound.not_lags_of_runsAll (h : Sound site) {log : JobLog}
    (hs : next.store = { site.store with jobs := log }) (hall : RunsAll next jobs dones last)
    (hjobs : jobs.map Job.kind =
      (site.store.pinnedVersions branchId kind).flatMap (site.store.overdue branchId))
    (hd : ∀ done ∈ dones, done.status = .completed) {name : String} {id : Id}
    (hpin : last.store.pin? branchId kind name = some id) :
    ∃ pinned ∈ last.store.versions.rows, pinned.id = id ∧ pinned.kind = kind ∧
      pinned.name = name ∧ ¬ last.store.Lags branchId pinned := by
  have hmoves : ∀ job ∈ jobs, ∃ source target,
      job.kind = .migration kind branchId source target ∧
        ¬ site.store.Pins branchId kind source ∧ site.store.Pins branchId kind target :=
    fun job hm => h.leads_to_pin (hjobs ▸ List.mem_map_of_mem hm)
  obtain ⟨hversions, hbranches⟩ := hall.aside fun job hm => by
    obtain ⟨source, target, hkind, -⟩ := hmoves job hm
    exact ⟨kind, branchId, source, target, hkind⟩
  rw [hs] at hversions hbranches
  -- The pins are those of the site before the jobs have run.
  have hbefore : site.store.pin? branchId kind name = some id := by
    rw [Store.pin?, Store.branch?, ← hbranches]
    exact hpin
  obtain ⟨branch, hbranch, hget⟩ := Option.bind_eq_some_iff.mp hbefore
  obtain ⟨pinned, hm, rfl⟩ := h.exists_of_pinned? hbranch hget
  obtain ⟨hrow, rfl, rfl⟩ := Store.mem_chainVersions.mp hm
  refine ⟨pinned, by rw [hversions]; exact hrow, rfl, rfl, rfl, fun hlags => ?_⟩
  obtain ⟨older, hchain, hlt, hcount⟩ := Store.lags_iff.mp hlags
  rw [Store.chainVersions, hversions] at hchain
  have hp := h.mem_pinnedVersions.mpr ⟨hrow, rfl, hbefore⟩
  obtain ⟨hstands, hoff⟩ :=
    hall.countEdges_ne_zero hmoves hd (h.not_pins_of_lt hp hchain hlt) hcount
  -- What was behind before the jobs have run is what one of them has moved.
  rw [hs] at hstands
  refine hoff pinned.id ?_
  rw [hjobs]
  exact List.mem_flatMap.mpr
    ⟨pinned, hp, Store.mem_overdue.mpr ⟨older, hchain, hlt, hstands, rfl⟩⟩

/-- On every reachable site where no job waits or runs, queueing the content that is behind the pins
of a stored branch and running what waits runs just the jobs that were queued. When all of them are
completed, no edge of the branch points at content that follows a version below a pinned one of its
chain. -/
theorem Reachable.not_lags_of_migrateRemaining (h : Reachable site)
    (hended : JobLog.AllEnded site.store.jobs.entries)
    (hb : site.store.branch? branchId ≠ none) (kind : Kind) :
    ∃ jobs queued dones last, outcome (migrateRemaining branchId kind) site = (.ok jobs, queued) ∧
      outcome runPending queued = (.ok dones, last) ∧
      dones.map Job.asQueued = jobs ∧ last.store.jobs.jobs = site.store.jobs.jobs ++ dones ∧
      (∀ done ∈ dones, done.status.isTerminal = true) ∧
      ((∀ done ∈ dones, done.status = .completed) →
        ∀ name id, last.store.pin? branchId kind name = some id →
          ∃ pinned ∈ last.store.versions.rows, pinned.id = id ∧ pinned.kind = kind ∧
            pinned.name = name ∧ ¬ last.store.Lags branchId pinned) := by
  obtain ⟨jobs, queued, hqueue, hqueued, hkinds⟩ := outcome_migrateRemaining h.sound hb kind
  obtain ⟨waiting, hpending, rfl⟩ := hqueued.pending hended
  obtain ⟨dones, last, hrun, hall, hlog⟩ := outcome_runPending hqueued.sound hpending
  refine ⟨_, queued, dones, last, hqueue, hrun, ?_, hlog, hall.isTerminal, fun hd _ _ hpin => ?_⟩
  · rw [hall.map_asQueued]
    exact (List.map_congr_left hqueued.waits).trans (List.map_id _)
  · exact h.sound.not_lags_of_runsAll hqueued.store_eq hall hkinds hd hpin

/-- Images at two old versions and a quote at one, all in one container, are moved by three jobs,
and none is left. -/
theorem not_lags_of_images_and_quote :
    let text (name : String) : FieldSpec := { name := name, type := .string }
    let image (names : List String) : Definition := { name := "image", fields := names.map text }
    let quote (names : List String) : Definition := { name := "quote", fields := names.map text }
    let calls : List Call :=
      [.createSchema .microschema (image ["alt"]),
        .updateSchema .microschema "image" (image ["alt", "title"]) [] none,
        .updateSchema .microschema "image" (image ["alt", "title", "credit"]) [] none,
        .createSchema .microschema (quote ["line"]),
        .updateSchema .microschema "quote" (quote ["line", "source"]) [] none,
        .createSchema .schema
          { name := "article",
            fields := [{ name := "body", type := .list, listType := some .micronode,
                         allow := ["image", "quote"] }] },
        .createBranch "p" "main" none, .assignLatest "@b1" .microschema "image",
        .assignLatest "@b1" .microschema "quote",
        .addContent "@b1" "n" "en" "@v6"
          [("body", .list [.micronode ⟨"image", "@v1", []⟩, .micronode ⟨"quote", "@v4", []⟩,
            .micronode ⟨"image", "@v2", []⟩])] [.draft]]
    let site := Call.afterAll (.empty (.ticking ⟨0, 0⟩) 10 10) calls
    (["@v1", "@v2", "@v4"].map fun id => site.store.countEdges .microschema "@b1" id) = [1, 1, 1] ∧
      ∃ jobs queued dones last,
        outcome (migrateRemaining "@b1" .microschema) site = (.ok jobs, queued) ∧
        outcome runPending queued = (.ok dones, last) ∧
        dones.map Job.kind = [.microschema "@b1" "@v1" "@v3", .microschema "@b1" "@v2" "@v3",
          .microschema "@b1" "@v4" "@v5"] ∧
        (∀ done ∈ dones, done.status = .completed) ∧
        ∃ pinned ∈ last.store.versions.rows, pinned.id = "@v3" ∧ pinned.name = "image" ∧
          ¬ last.store.Lags "@b1" pinned := by
  intro text image quote calls site
  have hgiven : Call.areGiven (.empty (.ticking ⟨0, 0⟩) 10 10) calls = true := by decide +kernel
  have hreached : Reachable site :=
    (Managed.calls (.empty (.ticking ⟨0, 0⟩) 10 10) hgiven).reachable
  have hbranch : site.store.branch? "@b1" ≠ none := by
    rw [← Option.isSome_iff_ne_none]
    decide +kernel
  obtain ⟨jobs, queued, dones, last, hqueue, hrun, -, -, -, hlags⟩ :=
    hreached.not_lags_of_migrateRemaining (by decide +kernel) hbranch .microschema
  have hqueued : (outcome (migrateRemaining "@b1" .microschema) site).2 = queued :=
    congrArg Prod.snd hqueue
  subst hqueued
  let ran := outcome runPending (outcome (migrateRemaining "@b1" .microschema) site).2
  have hkinds : ran.1.toOption.map (List.map Job.kind) =
      some [.microschema "@b1" "@v1" "@v3", .microschema "@b1" "@v2" "@v3",
        .microschema "@b1" "@v4" "@v5"] := by decide +kernel
  have hstatuses : ran.1.toOption.map (List.map Job.status) =
      some [.completed, .completed, .completed] := by decide +kernel
  have hpin : ran.2.store.pin? "@b1" .microschema "image" = some "@v3" := by decide +kernel
  rw [show ran = (.ok dones, last) from hrun] at hkinds hstatuses hpin
  have hcompleted : ∀ done ∈ dones, done.status = .completed := by
    intro done hm
    have hstatus := List.mem_map_of_mem (f := Job.status) hm
    rw [Option.some.inj hstatuses] at hstatus
    simpa only [List.mem_cons, List.not_mem_nil, or_false, or_self] using hstatus
  obtain ⟨pinned, hm, hid, -, hn, hclear⟩ := hlags hcompleted "image" "@v3" hpin
  exact ⟨by decide +kernel, jobs, _, dones, last, hqueue, hrun, Option.some.inj hkinds, hcompleted,
    pinned, hm, hid, hn, hclear⟩

end Site

end VersionedContent
